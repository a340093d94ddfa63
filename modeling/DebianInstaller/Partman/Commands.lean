import DebianInstaller.Partman.Server

/-!
# The commands of parted_server

The commands and the dispatch of `main_loop`. A round of `main_loop` takes what
the client writes during one dialog, its answers to exceptions included, as the
text to read; the pipes themselves are not part of it.
-/

namespace DebianInstaller.Partman.Parted

open Programs Text

variable {W : Type}

/-- What the server finds on the machine: `/proc/cpuinfo`, and whether the dump
file can be opened. -/
structure Machine where
  cpuinfo : Option Text
  canDump : Bool

def scanDeviceName : Server W Text := do
  let name ← iscanf scanWord "Expected device identifier."
  modify fun s => { s with deviceName := name }
  let _ ← indexOfName name
  pure name

/-- How all but a few commands begin. -/
def withDevice (body : Text → DevId → Server W Unit) : Server W Unit := do
  let name ← scanDeviceName
  match ← deviceNamed name with
  | none => criticalError ["The device ", name, " is not opened."]
  | some dev => body name dev

def scanPartitionId : Server W Text := iscanf scanWord "Expected partition id"

/-- How the commands begin that look at one partition. -/
def withPartition (lp : Libparted W)
    (body : Text → DevId → Text → Option PartId → Server W Unit) : Server W Unit :=
  withDevice fun name dev => do
    let id ← scanPartitionId
    let part ← partitionWithId lp id
    body name dev id part

def onlyCancel : List Text := ["Cancel"]

def commandQuit : Server W Unit := throw .quit

/-- The first half of `command_open`. -/
def openDevice (lp : Libparted W) (name device : Text) (opened : Bool) : Server W Unit :=
  if opened then
    ignore (pseudoException "Warning" "The device is already opened."
      ["OK"])
  else do
    setDeviceNamed lp name (← call lp (.deviceGet device))

def commandOpen (lp : Libparted W) : Server W Unit := do
  let name ← scanDeviceName
  let device ← iscanf scanWord "Expected device name."
  openDevice lp name device (← deviceOpened name)
  oprintf "OK"
  match ← deviceNamed name with
  | some dev => do
      oprintf "OK"
      deactivateExceptionHandler
      setDiskNamed lp name (← call lp (.diskNew dev))
      unchangeNamed lp name
      activateExceptionHandler
  | none => oprintf "failed"

def commandClose (lp : Libparted W) : Server W Unit := do
  let name ← scanDeviceName
  whenever (!(← deviceOpened name))
    (ignore (pseudoException "Error" "The device is not opened!" onlyCancel))
  setDiskNamed lp name none
  setDeviceNamed lp name none
  oprintf "OK"

def yesNo (b : Bool) : Text := if b then "yes" else "no"

def commandOpened : Server W Unit := do
  let name ← scanDeviceName
  oprintf "OK"
  oprintf (yesNo (← deviceNamed name).isSome)

def printVirtual (name : Text) (part : Option PartId) : Server W Unit := do
  oprintf "OK"
  let p ← thePartition (← followPartition part)
  oprintf (yesNo (← namedPartitionIsVirtual name p.geom.start p.geom.finish))

def commandVirtual (lp : Libparted W) : Server W Unit :=
  withPartition lp fun name _ _ part => printVirtual name part

def commandDiskUnchanged (lp : Libparted W) : Server W Unit := withDevice fun name _ => do
  oprintf "OK"
  unchangeNamed lp name

def commandIsChanged : Server W Unit := withDevice fun name _ => do
  oprintf "OK"
  oprintf (yesNo (← namedIsChanged name))

def commandDump (lp : Libparted W) (m : Machine) : Server W Unit :=
  withDevice fun name dev => do
    let disk ← diskNamed name
    (if m.canDump then dumpInfo lp (some dev) disk
    else
      ignore (pseudoException "Error" "Can't open /var/log/partition_dump"
        onlyCancel))
    oprintf "OK"

/-- What `read` puts into the buffer, up to a zero byte. -/
def isSystemWithFirmwareOnDisk (cpuinfo : Option Text) : Bool :=
  match cpuinfo with
  | none => false
  | some text =>
      let buf := (text.take 4095).takeWhile (· ≠ '\x00')
      ["Allwinner", "Freescale", "AM33XX"].any fun s => decide (s.toList <:+: buf)

/-- On a system with firmware on its disks the path of the device is looked at;
the flag that is set then is one of libparted's own. -/
def commandCommit (lp : Libparted W) (m : Machine) : Server W Unit :=
  withDevice fun name _ => do
    whenever (isSystemWithFirmwareOnDisk m.cpuinfo) (ignore theDisk)
    let e ← indexOfName name
    whenever (e.disk.isSome && e.changed) (ignore (change lp .commit))
    unchangeNamed lp name
    oprintf "OK"

def commandUndo (lp : Libparted W) : Server W Unit := withDevice fun name dev => do
  deactivateExceptionHandler
  setDiskNamed lp name none
  setDiskNamed lp name (← call lp (.diskNew dev))
  activateExceptionHandler
  unchangeNamed lp name
  oprintf "OK"

/-- A free space that is there only because of the alignment. -/
def tooSmall (lp : Libparted W) (dev : DevId) (disk : Disk) (grainSize : Int)
    (part : Partition) : Server W Bool :=
  if part.type.freespace then do
    if ← call lp (.diskTypeCheckFeature disk.type .extended) then do
      let device ← theDevice lp dev
      pure (decide (part.geom.length < longLong (device.sectors * grainSize)))
    else pure false
  else pure false

/-- One partition for the list, unless it is not shown. -/
def printPartition (lp : Libparted W) (dev : DevId) (disk : Disk) (grainSize : Int)
    (part : Partition) : Server W Unit := do
  if part.type.extended || part.type.metadata then pure ()
  else do
    if (← tooSmall lp dev disk grainSize part) || (disk.type = "dvh" && part.type.logical) then pure ()
    else do
      oprintf (← partitionInfo lp part)

def commandPartitions (lp : Libparted W) : Server W Unit := withDevice fun name dev => do
  oprintf "OK"
  deactivateExceptionHandler
  match ← diskNamed name with
  | none => do
      oprintf []
      activateExceptionHandler
  | some _ => do
      whenever (← hasExtendedPartition) (minimizeExtendedPartition lp)
      let constraint ← followConstraint (← partitionCreationConstraint lp dev)
      let disk ← theDisk
      disk.parts.forM (printPartition lp dev disk constraint.grainSize)
      oprintf []
      activateExceptionHandler

/-- The line for a partition, which is empty if there is none. -/
def printInfo (lp : Libparted W) : Option PartId → Server W Unit
  | none => oprintf []
  | some part => do
      oprintf (← partitionInfo lp (← thePartition part))

def commandPartitionInfo (lp : Libparted W) : Server W Unit :=
  withPartition lp fun _ _ _ part => do
    oprintf "OK"
    deactivateExceptionHandler
    printInfo lp part
    activateExceptionHandler

def printChs (lp : Libparted W) (dev : DevId) : Option PartId → Server W Unit
  | none => oprintf []
  | some part => do
      let p ← thePartition part
      let device ← theDevice lp dev
      let first ← chs device p.geom.start
      let last ← chs device p.geom.finish
      oprintf (tabbed ((first ++ last).map ofInt))

def commandGetChs (lp : Libparted W) : Server W Unit :=
  withPartition lp fun _ dev _ part => do
    oprintf "OK"
    deactivateExceptionHandler
    printChs lp dev part
    activateExceptionHandler

def commandLabelTypes (lp : Libparted W) : Server W Unit := withDevice fun _ _ => do
  oprintf "OK"
  deactivateExceptionHandler
  (← call lp .diskTypes).forM oprintf
  oprintf []
  activateExceptionHandler

/-- The partition, if there is one and it is active. -/
def activePartition (lp : Libparted W) : Option PartId → Server W (Option Partition)
  | none => pure none
  | some part => do
      let p ← thePartition part
      if ← call lp (.partitionIsActive p) then pure (some p) else pure none

def printFlag (lp : Libparted W) (flag : Nat) : Server W Unit := do
  oprintf (← call lp (.flagGetName flag))

def printValidFlags (lp : Libparted W) : Option Partition → Server W Unit
  | none => pure ()
  | some p => do
      (← call lp .flags).forM fun flag => do
        whenever (← call lp (.partitionIsFlagAvailable p flag)) (printFlag lp flag)

def commandValidFlags (lp : Libparted W) : Server W Unit :=
  withPartition lp fun _ _ _ part => do
    oprintf "OK"
    deactivateExceptionHandler
    printValidFlags lp (← activePartition lp part)
    oprintf []
    activateExceptionHandler

def commandGetFlags (lp : Libparted W) : Server W Unit :=
  withPartition lp fun _ _ id part => do
    match ← activePartition lp part with
    | none => criticalError ["No such active partition: ", id]
    | some p => do
        oprintf "OK"
        deactivateExceptionHandler
        (← call lp .flags).forM fun flag => do
          if ← call lp (.partitionIsFlagAvailable p flag) then do
            whenever (← call lp (.partitionGetFlag p flag)) (printFlag lp flag)
          else pure ()
        oprintf []
        activateExceptionHandler

/-- The flags that are named before `NO_MORE`. A line takes a character at least,
so as many rounds as there are characters are enough. -/
def readStates (lp : Libparted W) : Nat → Server W (List Nat)
  | 0 => throw .endless
  | n + 1 => do
      let str ← iscanf (iscanLine true) "No data in infifo!"
      if str = "NO_MORE" then pure []
      else do
        let flag ← call lp (.flagGetByName str)
        pure (flag :: (← readStates lp n))

def commandSetFlags (lp : Libparted W) : Server W Unit := withDevice fun name _ => do
  changeNamed name
  let id ← scanPartitionId
  let part ← partitionWithId lp id
  match ← activePartition lp part with
  | none => criticalError ["No such active partition: ", id]
  | some p => do
      oprintf "OK"
      deactivateExceptionHandler
      let flags ← call lp .flags
      let states ← readStates lp ((← get).input.length + 1)
      flags.forM fun flag => do
        whenever (← call lp (.partitionIsFlagAvailable (← thePartition p.id) flag))
          (ignore (change lp (.setFlag p.id flag (flag ∈ states))))
      activateExceptionHandler

def commandUsesNames (lp : Libparted W) : Server W Unit := withDevice fun _ _ => do
  oprintf "OK"
  deactivateExceptionHandler
  oprintf (yesNo (← call lp (.diskTypeCheckFeature (← theDisk).type .partitionName)))
  activateExceptionHandler

def commandSetName (lp : Libparted W) : Server W Unit := withDevice fun name _ => do
  changeNamed name
  if ← call lp (.diskTypeCheckFeature (← theDisk).type .partitionName) then do
    let id ← scanPartitionId
    let part ← partitionWithId lp id
    match ← activePartition lp part with
    | none => criticalError ["No such active partition: ", id]
    | some p => do
        let partName ← iscanf (iscanLine false) "No data in infifo!"
        oprintf "OK"
        deactivateExceptionHandler
        ignore (change lp (.setName p.id partName))
        activateExceptionHandler
  else criticalError ["This label doesn't support partition names."]

def printMaxPrimary (lp : Libparted W) : Option Disk → Server W Unit
  | some disk => do
      oprintf (ofInt (← call lp (.diskGetMaxPrimaryPartitionCount disk)))
  | none => oprintf []

def commandGetMaxPrimary (lp : Libparted W) : Server W Unit := withDevice fun name _ => do
  oprintf "OK"
  deactivateExceptionHandler
  printMaxPrimary lp (← diskNamed name)
  activateExceptionHandler

def printUsesExtended (lp : Libparted W) : Option Disk → Server W Unit
  | some disk => do
      let feature ← call lp (.diskTypeCheckFeature disk.type .extended)
      oprintf (yesNo (feature && disk.type ≠ "dvh"))
  | none => oprintf (yesNo false)

def commandUsesExtended (lp : Libparted W) : Server W Unit := withDevice fun name _ => do
  oprintf "OK"
  deactivateExceptionHandler
  printUsesExtended lp (← diskNamed name)
  activateExceptionHandler

def commandFileSystemTypes (lp : Libparted W) : Server W Unit := withDevice fun _ _ => do
  oprintf "OK"
  deactivateExceptionHandler
  (← call lp .fileSystemTypes).forM oprintf
  oprintf []
  activateExceptionHandler

def printFileSystem (lp : Libparted W) (name : Text) (part : Option PartId) :
    Server W Unit := do
  oprintf "OK"
  let p ← thePartition (← followPartition part)
  if ← namedPartitionIsVirtual name p.geom.start p.geom.finish then
    oprintf "none"
  else do
    deactivateExceptionHandler
    let fsType ← call lp (.fileSystemProbe p.geom)
    oprintf (fsType.elim "none" fsName)
    activateExceptionHandler

def commandGetFileSystem (lp : Libparted W) : Server W Unit :=
  withPartition lp fun name _ _ part => printFileSystem lp name part

def mangleFstypeName (fsType : Text) : Text :=
  if sameIgnoringCase fsType "linux-swap" then "linux-swap(v1)" else fsType

/-- A word that is no file system may be a flag. -/
def setSystem (lp : Libparted W) (name : Text) (part : PartId) (sFstype : Text) :
    Option Text → Server W Unit
  | none => do
      let flag ← call lp (.flagGetByName sFstype)
      let p ← thePartition part
      if ← call lp (.partitionIsFlagAvailable p flag) then do
        if ← call lp (.partitionGetFlag p flag) then pure ()
        else do
          changeNamed name
          ignore (change lp (.setFlag part flag true))
      else criticalError ["Bad file system or flag type: ", sFstype]
  | some fsType => do
      let p ← thePartition part
      if !(p.type.freespace || p.type.metadata || p.type.extended) &&
          p.fsType ≠ some fsType then do
        changeNamed name
        ignore (change lp (.setSystem part fsType))
      else pure ()

def commandChangeFileSystem (lp : Libparted W) : Server W Unit :=
  withDevice fun name _ => do
    let id ← iscanf scanWord "Expected partition id and file system"
    let sFstype ← iscanf scanWord "Expected partition id and file system"
    match ← partitionWithId lp id with
    | none => criticalError ["Partition not found: ", id]
    | some part => do
        let fsType ← call lp (.fileSystemTypeGet (mangleFstypeName sFstype))
        setSystem lp name part (mangleFstypeName sFstype) fsType
        oprintf "OK"

def setFreshDisk (lp : Libparted W) (name : Text) : Option Disk → Server W Unit
  | none =>
      ignore (pseudoException "Error" "Can't create new disk label."
        onlyCancel)
  | some disk => setDiskNamed lp name (some disk)

def commandNewLabel (lp : Libparted W) : Server W Unit := withDevice fun name dev => do
  changeNamed name
  let str ← iscanf scanWord "Expected label type"
  match ← call lp (.diskTypeGet str) with
  | none => criticalError ["Bad label type: ", str]
  | some type => do
      let device := (← theDevice lp dev).path
      -- the geometry may be wrong too, so the device is opened anew
      setDiskNamed lp name none
      setDeviceNamed lp name none
      match ← call lp (.deviceGet device) with
      | none => criticalError ["Cannot reopen ", name]
      | some dev => do
          setDeviceNamed lp name (some dev)
          setFreshDisk lp name (← call lp (.diskNewFresh dev type))
          oprintf "OK"

/-- The arguments of `NEW_PARTITION`. -/
structure NewPartition where
  type : Text
  fsType : Text
  range : Int × Int
  position : Text
  length : Int

def scanNewPartition (t : Text) : Option (NewPartition × Text) := do
  let (type, t) ← scanWord t
  let (fsType, t) ← scanWord t
  let (range, t) ← scanRange t
  let (position, t) ← scanWord t
  let (length, t) ← scanLongLong t
  pure (⟨type, fsType, range, position, length⟩, t)

/-- The sectors of a new partition. -/
def NewPartition.sectors (new : NewPartition) (sectorSize : Int) :
    Server W (Int × Int) := do
  if sameIgnoringCase new.position "full" then do
    let start ← quot new.range.1 sectorSize
    let finish ← quot (longLong (new.range.2 - sectorSize + 1)) sectorSize
    pure (start, finish)
  else if sameIgnoringCase new.position "beginning" then do
    let start ← quot new.range.1 sectorSize
    let finish ← quot (longLong (new.range.1 + new.length)) sectorSize
    pure (start, finish)
  else if sameIgnoringCase new.position "end" then do
    let start ← quot (longLong (new.range.2 - new.length)) sectorSize
    let finish ← quot (longLong (new.range.2 - sectorSize + 1)) sectorSize
    pure (start, finish)
  else criticalError ["Bad position: ", new.position]

/-- Whether the new partition is to be logical. -/
def NewPartition.logical (new : NewPartition) : Server W Bool :=
  if sameIgnoringCase new.type "primary" then pure false
  else if sameIgnoringCase new.type "logical" then pure true
  else criticalError ["Bad partition type: ", new.type]

def commandNewPartition (lp : Libparted W) : Server W Unit := withDevice fun name dev => do
  assertDisk .commandNewPartition
  changeNamed name
  let new ← iscanf scanNewPartition "Expected: part_type file_system id position length"
  let logical ← new.logical
  match ← call lp (.fileSystemTypeGet (mangleFstypeName new.fsType)) with
  | none => criticalError ["Bad file system type: ", mangleFstypeName new.fsType]
  | some fsType => do
      let (start, finish) ← new.sectors (← theDevice lp dev).sectorSize
      let part ←
        (if logical then addLogicalPartition lp fsType start finish
        else addPrimaryPartition lp fsType start finish)
      oprintf "OK"
      deactivateExceptionHandler
      printInfo lp part
      activateExceptionHandler

def deletePart (lp : Libparted W) : Option PartId → Server W Unit
  | none => pure ()
  | some part => do
      let type := (← thePartition part).type
      ignore (change lp (.deletePartition part))
      whenever type.logical (minimizeExtendedPartition lp)

def commandDeletePartition (lp : Libparted W) : Server W Unit := withDevice fun name _ => do
  changeNamed name
  let id ← scanPartitionId
  deletePart lp (← partitionWithId lp id)
  oprintf "OK"

/-- What `start + new_size / sector_size - 1` comes to. -/
def lastSector (lp : Libparted W) (dev : DevId) (start newSize : Int) : Server W Int := do
  let sectors ← quot newSize (← theDevice lp dev).sectorSize
  pure (longLong (start + sectors - 1))

def printRange (lp : Libparted W) (dev : DevId) (part : PartId) : Server W Unit := do
  oprintf "OK"
  oprintf (rangeText (← thePartition part).geom (← theDevice lp dev).sectorSize)

/-- A partition that is on the disk is resized there at once. -/
def resizeAndCommit (lp : Libparted W) (name : Text) (part : PartId) (start finish : Int) :
    Server W Unit := do
  if ← resizePartition lp part start finish true then do
    ignore (change lp .commit)
    unchangeNamed lp name
  else pure ()

def commandResizePartition (lp : Libparted W) : Server W Unit :=
  withDevice fun name dev => do
    assertDisk .commandResizePartition
    changeNamed name
    let id ← scanPartitionId
    match ← partitionWithId lp id with
    | none => criticalError ["No such partition"]
    | some part => do
        let newSize ← iscanf scanLongLong "Expected new size"
        let p ← thePartition part
        let finish ← lastSector lp dev p.geom.start newSize
        let isVirtual ← namedPartitionIsVirtual name p.geom.start p.geom.finish
        (if isVirtual then ignore (resizePartition lp part p.geom.start finish false)
        else resizeAndCommit lp name part p.geom.start finish)
        printRange lp dev part

/-- The end of the partition is moved until its size is not less than requested. -/
def resizeUntil (lp : Libparted W) (dev : DevId) (part : PartId) (start newSize : Int) :
    Nat → Int → Server W Unit
  | 0, _ => throw .endless
  | n + 1, finish => do
      ignore (resizePartition lp part start finish false)
      let sectorSize := (← theDevice lp dev).sectorSize
      if longLong ((← thePartition part).geom.length * sectorSize) < newSize then
        resizeUntil lp dev part start newSize n (longLong (finish + 1))
      else pure ()

def commandVirtualResizePartition (lp : Libparted W) (rounds : Nat) : Server W Unit :=
  withDevice fun name dev => do
    assertDisk .commandVirtualResizePartition
    changeNamed name
    let id ← scanPartitionId
    match ← partitionWithId lp id with
    | none => criticalError ["No such partition"]
    | some part => do
        let newSize ← iscanf scanLongLong "Expected new size"
        let p ← thePartition part
        let finish ← lastSector lp dev p.geom.start newSize
        resizeUntil lp dev part p.geom.start newSize rounds finish
        ignore (change lp .commit)
        unchangeNamed lp name
        printRange lp dev part

/-- The end of the two commands that ask how far a partition can be resized. -/
def printResizeRange (lp : Libparted W) (dev : DevId) (part : PartId)
    (constraint : Constraint) : Server W Unit := do
  let p ← thePartition part
  let constraint ← call lp (.geometrySetStart constraint p.geom.start)
  let constraint ← call lp (.geometrySetEnd constraint p.geom.start)
  maximizeIfLogical lp part
  let maxGeom ← call lp (.diskGetMaxPartitionGeometry (← theDisk) part constraint)
  minimizeIfLogical lp part
  let sectorSize := (← theDevice lp dev).sectorSize
  let minSize := longLong (constraint.minSize * sectorSize)
  let currentSize := longLong ((← thePartition part).geom.length * sectorSize)
  let maxSize := maxGeom.elim currentSize fun geom => longLong (geom.length * sectorSize)
  oprintf "OK"
  oprintf (joinWords [ofInt minSize, ofInt currentSize, ofInt maxSize])
  activateExceptionHandler

def commandGetResizeRange (lp : Libparted W) : Server W Unit := withDevice fun name dev => do
  assertDisk .commandGetResizeRange
  let id ← scanPartitionId
  deactivateExceptionHandler
  match ← partitionWithId lp id with
  | none => criticalError ["No such partition"]
  | some part => do
      let p ← thePartition part
      if ← namedPartitionIsVirtual name p.geom.start p.geom.finish then do
        let constraint ← call lp (.constraintAny (← theDisk).dev)
        printResizeRange lp dev part (← followConstraint constraint)
      else
        match ← call lp (.fileSystemOpen p.geom) with
        | some fs =>
            if outside fs.geom p then do
              call lp (.fileSystemClose fs)
              let constraint ← call lp (.constraintAny (← theDisk).dev)
              printResizeRange lp dev part (← followConstraint constraint)
            else do
              let constraint ← call lp (.fileSystemGetResizeConstraint fs)
              call lp (.fileSystemClose fs)
              printResizeRange lp dev part (← followConstraint constraint)
        | none => do
            if (← call lp (.fileSystemProbe p.geom)).isSome then do
              oprintf "OK"
              oprintf []
              activateExceptionHandler
            else do
              let constraint ← call lp (.constraintAny (← theDisk).dev)
              printResizeRange lp dev part (← followConstraint constraint)

def commandGetVirtualResizeRange (lp : Libparted W) : Server W Unit :=
  withDevice fun _ dev => do
    assertDisk .commandGetVirtualResizeRange
    let id ← scanPartitionId
    deactivateExceptionHandler
    match ← partitionWithId lp id with
    | none => criticalError ["No such partition"]
    | some part => do
        let constraint ← call lp (.constraintAny (← theDisk).dev)
        printResizeRange lp dev part (← followConstraint constraint)

def commandGetLabelType : Server W Unit := do
  let name ← scanDeviceName
  oprintf "OK"
  deactivateExceptionHandler
  oprintf ((← diskNamed name).elim "unknown" Disk.type)
  activateExceptionHandler

def printBusy (lp : Libparted W) (part : Option PartId) : Server W Unit := do
  oprintf "OK"
  oprintf (yesNo (← call lp (.partitionIsBusy (← followPartition part))))

def commandIsBusy (lp : Libparted W) : Server W Unit :=
  withPartition lp fun _ _ _ part => printBusy lp part

def printAlignmentOffset (lp : Libparted W) (dev : DevId) (part : Option PartId) :
    Server W Unit := do
  oprintf "OK"
  if (← alignmentOfDevice dev) = .cylinder then oprintf (ofInt 0)
  else do
    let align ← call lp (.deviceGetMinimumAlignment dev)
    let p ← thePartition (← followPartition part)
    match align with
    | none => throw (.null .alignment)
    | some offset => do
        let device ← theDevice lp dev
        let n ← rem (longLong ((offset + p.geom.start) * device.sectorSize))
          device.physSectorSize
        oprintf (ofInt n)

def commandAlignmentOffset (lp : Libparted W) : Server W Unit :=
  withPartition lp fun _ dev _ part => printAlignmentOffset lp dev part

/-! ## Main loop -/

inductive Verb where
  | quit | «open» | close | opened | virtual | diskUnchanged | isChanged | dump | commit
  | undo | partitions | partitionInfo | getChs | labelTypes | validFlags | getFlags
  | setFlags | setName | usesNames | getMaxPrimary | usesExtended | fileSystemTypes
  | getFileSystem | changeFileSystem | newLabel | newPartition | deletePartition
  | resizePartition | getResizeRange | virtualResizePartition | getVirtualResizeRange
  | getLabelType | isBusy | alignmentOffset
  deriving DecidableEq

def Verb.word : Verb → String
  | .quit => "QUIT"
  | .open => "OPEN"
  | .close => "CLOSE"
  | .opened => "OPENED"
  | .virtual => "VIRTUAL"
  | .diskUnchanged => "DISK_UNCHANGED"
  | .isChanged => "IS_CHANGED"
  | .dump => "DUMP"
  | .commit => "COMMIT"
  | .undo => "UNDO"
  | .partitions => "PARTITIONS"
  | .partitionInfo => "PARTITION_INFO"
  | .getChs => "GET_CHS"
  | .labelTypes => "LABEL_TYPES"
  | .validFlags => "VALID_FLAGS"
  | .getFlags => "GET_FLAGS"
  | .setFlags => "SET_FLAGS"
  | .setName => "SET_NAME"
  | .usesNames => "USES_NAMES"
  | .getMaxPrimary => "GET_MAX_PRIMARY"
  | .usesExtended => "USES_EXTENDED"
  | .fileSystemTypes => "FILE_SYSTEM_TYPES"
  | .getFileSystem => "GET_FILE_SYSTEM"
  | .changeFileSystem => "CHANGE_FILE_SYSTEM"
  | .newLabel => "NEW_LABEL"
  | .newPartition => "NEW_PARTITION"
  | .deletePartition => "DELETE_PARTITION"
  | .resizePartition => "RESIZE_PARTITION"
  | .getResizeRange => "GET_RESIZE_RANGE"
  | .virtualResizePartition => "VIRTUAL_RESIZE_PARTITION"
  | .getVirtualResizeRange => "GET_VIRTUAL_RESIZE_RANGE"
  | .getLabelType => "GET_LABEL_TYPE"
  | .isBusy => "IS_BUSY"
  | .alignmentOffset => "ALIGNMENT_OFFSET"

def verbs : List Verb :=
  [.quit, .open, .close, .opened, .virtual, .diskUnchanged, .isChanged, .dump, .commit,
    .undo, .partitions, .partitionInfo, .getChs, .labelTypes, .validFlags, .getFlags,
    .setFlags, .setName, .usesNames, .getMaxPrimary, .usesExtended, .fileSystemTypes,
    .getFileSystem, .changeFileSystem, .newLabel, .newPartition, .deletePartition,
    .resizePartition, .getResizeRange, .virtualResizePartition, .getVirtualResizeRange,
    .getLabelType, .isBusy, .alignmentOffset]

/-- The command for a word, in upper or lower case. -/
def Verb.ofWord (str : Text) : Option Verb :=
  verbs.find? fun v => sameIgnoringCase str v.word.toList

/-- A command, after its word has been read. `rounds` bounds the one loop that
need not end. -/
def command (lp : Libparted W) (m : Machine) (rounds : Nat) : Verb → Server W Unit
  | .quit => commandQuit
  | .open => commandOpen lp
  | .close => commandClose lp
  | .opened => commandOpened
  | .virtual => commandVirtual lp
  | .diskUnchanged => commandDiskUnchanged lp
  | .isChanged => commandIsChanged
  | .dump => commandDump lp m
  | .commit => commandCommit lp m
  | .undo => commandUndo lp
  | .partitions => commandPartitions lp
  | .partitionInfo => commandPartitionInfo lp
  | .getChs => commandGetChs lp
  | .labelTypes => commandLabelTypes lp
  | .validFlags => commandValidFlags lp
  | .getFlags => commandGetFlags lp
  | .setFlags => commandSetFlags lp
  | .setName => commandSetName lp
  | .usesNames => commandUsesNames lp
  | .getMaxPrimary => commandGetMaxPrimary lp
  | .usesExtended => commandUsesExtended lp
  | .fileSystemTypes => commandFileSystemTypes lp
  | .getFileSystem => commandGetFileSystem lp
  | .changeFileSystem => commandChangeFileSystem lp
  | .newLabel => commandNewLabel lp
  | .newPartition => commandNewPartition lp
  | .deletePartition => commandDeletePartition lp
  | .resizePartition => commandResizePartition lp
  | .getResizeRange => commandGetResizeRange lp
  | .virtualResizePartition => commandVirtualResizePartition lp rounds
  | .getVirtualResizeRange => commandGetVirtualResizeRange lp
  | .getLabelType => commandGetLabelType
  | .isBusy => commandIsBusy lp
  | .alignmentOffset => commandAlignmentOffset lp

/-- One round of `main_loop`. -/
def dispatch (lp : Libparted W) (m : Machine) (rounds : Nat) : Server W Unit := do
  let str ← iscanf scanWord "No data in infifo."
  match Verb.ofWord str with
  | some v => command lp m rounds v
  | none => criticalError ["Unknown command ", str]

/-- A dialog in which the client writes `input`. -/
def serve (lp : Libparted W) (m : Machine) (rounds : Nat) (input : Text) (s : State W) :
    Except Stop (Unit × State W) :=
  dispatch lp m rounds { s with input := input, output := [] }

/-- The server before the first dialog, with the alignment that `set_alignment`
finds in the environment. -/
def initial (world : W) (alignment : Alignment) : State W :=
  { world := world, alignment := alignment }

/-- The server after a number of dialogs that have not ended it. -/
inductive Reachable (lp : Libparted W) (m : Machine) : State W → Prop where
  | start (world : W) (alignment : Alignment) : Reachable lp m (initial world alignment)
  | step {s s' : State W} {rounds : Nat} {input : Text} (h : Reachable lp m s)
      (hs : serve lp m rounds input s = .ok ((), s')) : Reachable lp m s'

/-- A number of dialogs, one after the other. -/
def serveAll (lp : Libparted W) (m : Machine) (rounds : Nat) :
    List Text → State W → Except Stop (State W)
  | [], s => .ok s
  | input :: inputs, s =>
      match serve lp m rounds input s with
      | .ok (_, s') => serveAll lp m rounds inputs s'
      | .error e => .error e

theorem Reachable.serveAll {lp : Libparted W} {m : Machine} {rounds : Nat} {s s' : State W}
    (h : Reachable lp m s) {inputs : List Text}
    (hs : serveAll lp m rounds inputs s = .ok s') : Reachable lp m s' := by
  induction inputs generalizing s with
  | nil =>
      cases hs
      exact h
  | cons input inputs ih =>
      unfold Parted.serveAll at hs
      split at hs
      · next heq => exact ih (.step h heq) hs
      · cases hs

/-- How a number of dialogs has ended, and what there is to see then. -/
def outcome {β : Type} (f : State W → β) : Except Stop (State W) → Except Stop β
  | .ok s => .ok (f s)
  | .error e => .error e

theorem outcome_ok {β : Type} {f : State W → β} {r : Except Stop (State W)} {b : β}
    (h : outcome f r = .ok b) : ∃ s, r = .ok s ∧ f s = b := by
  cases r with
  | ok s => exact ⟨s, rfl, by simpa [outcome] using h⟩
  | error e => cases h

end DebianInstaller.Partman.Parted
