import DebianInstaller.Partman.Libparted
import DebianInstaller.Partman.Scan

/-!
# The parts of parted_server

`parted_server.c` up to its commands: the timer, the exception handler, the
registry of opened devices, the creation and the resizing of partitions, and the
description of a partition. The functions keep their order and their asserts.
What goes to the log file is left out.

The global variables `dev` and `disk` are read from the registry when a command
begins and are the registry's as long as they are used; `theDisk` follows `disk`
and is where a command that has no label to work on comes to grief. A partition
that libparted has freed in the meantime is told from one that is `NULL`.
-/

namespace DebianInstaller.Partman.Parted

open Programs Text

/-- The asserts, by the function they stand in. -/
inductive Site where
  | startTimer
  | stopTimer
  | timerHandler
  | activateExceptionHandler
  | setDeviceNamed
  | setDiskNamed
  | hasExtendedPartition
  | addExtendedPartition
  | maximizeExtendedPartition
  | minimizeExtendedPartition
  | addPrimaryPartition
  | addLogicalPartition
  | possiblePrimaryPartition
  | possibleExtendedPartition
  | possibleLogicalPartition
  | partitionInfo
  | commandNewPartition
  | commandResizePartition
  | commandVirtualResizePartition
  | commandGetResizeRange
  | commandGetVirtualResizeRange
  deriving DecidableEq

/-- The pointers that are followed without a test. -/
inductive Pointer where
  | disk
  | partition
  | constraint
  | alignment
  deriving DecidableEq

/-- Why the server ends. -/
inductive Stop where
  | quit
  | criticalError (message : Text)
  | assertion (site : Site)
  | null (pointer : Pointer)
  /-- A partition is used that libparted no longer has. -/
  | freed
  | divisionByZero
  /-- A loop has not ended within the rounds it was given. -/
  | endless
  deriving DecidableEq

/-- An entry of the registry, `struct devdisk`. -/
structure Devdisk where
  name : Text
  dev : Option DevId := none
  disk : Option Disk := none
  changed : Bool := false
  geometries : List Geometry := []
  alignment : Alignment

/-- The state of the server, with the lines it has written to `outfifo` and to
the dump file, and the calls of libparted it has made, the last one first, each
with the device that was being worked on. -/
structure State (W : Type) where
  world : W
  input : Text := []
  output : List Text := []
  dumped : List Text := []
  calls : List (Text × (r : Request) × r.Reply) := []
  timerStarted : Bool := false
  handlerDeactivationCounter : Nat := 0
  /-- libparted's own count of `ped_exception_fetch_all`. -/
  fetchAll : Nat := 0
  devices : List Devdisk := []
  deviceName : Text := []
  alignment : Alignment := .optimal

abbrev Server (W α : Type) := Prog (State W) Stop α

variable {W α : Type}

def criticalError (message : List Text) : Server W α :=
  throw (.criticalError message.flatten)

/-- `if` without `else`. -/
def whenever (b : Bool) (c : Server W Unit) : Server W Unit := if b then c else pure ()

/-- A call whose result is not looked at. -/
def ignore (c : Server W α) : Server W Unit := do
  let _ ← c
  pure ()

def assertThat (b : Bool) (site : Site) : Server W Unit :=
  if b then pure () else throw (.assertion site)

def quot (a b : Int) : Server W Int :=
  if b = 0 then throw .divisionByZero else pure (a.tdiv b)

def rem (a b : Int) : Server W Int :=
  if b = 0 then throw .divisionByZero else pure (a.tmod b)

/-- A line for `outfifo`. -/
def oprintf (line : Text) : Server W Unit :=
  modify fun s => { s with output := s.output ++ [line] }

/-- A line for the dump file. -/
def fprintf (line : Text) : Server W Unit :=
  modify fun s => { s with dumped := s.dumped ++ [line] }

/-- A conversion of `scanf`; what it does to the input when it fails does not
matter, since the server ends then. -/
def iscanf (scan : Text → Option (α × Text)) (message : String) : Server W α := do
  match scan (← get).input with
  | some (a, rest) =>
      modify fun s => { s with input := rest }
      pure a
  | none => criticalError [message.toList]

/-! ## Timer -/

def startTimer : Server W Unit := do
  assertThat (!(← get).timerStarted) .startTimer
  oprintf "Timer"
  modify fun s => { s with timerStarted := true }

def stopTimer : Server W Unit := do
  assertThat (← get).timerStarted .stopTimer
  oprintf "ready"
  modify fun s => { s with timerStarted := false }

def timerHandler (permille : Nat) (stateName : Text) : Server W Unit := do
  assertThat (← get).timerStarted .timerHandler
  oprintf (ofInt permille ++ ' ' :: stateName)

/-! ## Exception handler -/

/-- The index of the option the client answers with, or nothing when the answer
is `unhandled`. -/
def pseudoException (type message : Text) (options : List Text) :
    Server W (Option Nat) := do
  let timerWasStarted := (← get).timerStarted
  whenever timerWasStarted stopTimer
  oprintf type
  oprintf message
  oprintf []
  options.forM oprintf
  oprintf []
  whenever timerWasStarted startTimer
  let str ← iscanf (iscanLine true) "No data in infifo."
  if str = "unhandled" then pure none
  else
    match options.findIdx? (sameIgnoringCase str) with
    | some i => pure (some i)
    | none => criticalError ["exception_handler: Bad option: \"", str, ['"']]

/-- The bits up to `POWER_MAXIMAL_OPTION`. -/
def optionBits : List Nat := (List.range 11).map (2 ^ ·)

def exceptionHandler (lp : Libparted W) (ex : Exception) : Server W Nat := do
  let bits := optionBits.filter fun bit => bit &&& ex.options ≠ 0
  let options := bits.map lp.optionString
  match ← pseudoException ex.type ex.message options with
  | none => pure 0
  | some response =>
      match bits.find? fun bit =>
        sameIgnoringCase (options.getD response []) (lp.optionString bit) with
      | some bit => pure bit
      | none =>
          criticalError ["exception_handler: Bad option: <",
            options.getD response [], ['>']]

def deactivateExceptionHandler : Server W Unit := do
  whenever ((← get).handlerDeactivationCounter == 0)
    (modify fun s => { s with fetchAll := s.fetchAll + 1 })
  modify fun s => { s with handlerDeactivationCounter := s.handlerDeactivationCounter + 1 }

def activateExceptionHandler : Server W Unit := do
  assertThat (0 < (← get).handlerDeactivationCounter) .activateExceptionHandler
  modify fun s => { s with handlerDeactivationCounter := s.handlerDeactivationCounter - 1 }
  whenever ((← get).handlerDeactivationCounter == 0)
    (modify fun s => { s with fetchAll := s.fetchAll - 1 })

/-- An exception reaches the handler unless exceptions are being fetched. -/
def callback (lp : Libparted W) {timed : Bool} : (i : Callback timed) → Server W i.Answer
  | .throw ex => do
      if (← get).fetchAll = 0 then exceptionHandler lp ex else pure 0
  | .tick permille stateName => timerHandler permille stateName

/-- A call of libparted. -/
def call (lp : Libparted W) (r : Request) : Server W r.Reply := do
  let (reply, world) ← (lp.answer r (← get).world).run (callback lp)
  modify fun s =>
    { s with world := world, calls := (s.deviceName, ⟨r, reply⟩) :: s.calls }
  pure reply

def timeredFileSystemResize (lp : Libparted W) (fs : FileSystem) (geom : Geometry) :
    Server W Bool := do
  startTimer
  let result ← call lp (.fileSystemResize fs geom)
  stopTimer
  pure result

/-! ## Registry of the opened devices -/

/-- The entry of a name, which is a new one if there is none. -/
def State.entry (s : State W) (name : Text) : Devdisk :=
  (s.devices.find? (·.name = name)).getD { name := name, alignment := s.alignment }

/-- `devices[index_of_name(name)]`. -/
def indexOfName (name : Text) : Server W Devdisk := do
  let s ← get
  if s.devices.any (·.name = name) then pure (s.entry name)
  else do
    modify fun s => { s with devices := s.devices ++ [s.entry name] }
    pure (s.entry name)

/-- An assignment to a field of `devices[index_of_name(name)]`. -/
def updateNamed (name : Text) (f : Devdisk → Devdisk) : Server W Unit := do
  let _ ← indexOfName name
  modify fun s =>
    { s with devices := s.devices.map fun e => if e.name = name then f e else e }

def deviceNamed (name : Text) : Server W (Option DevId) := do
  pure (← indexOfName name).dev

def diskNamed (name : Text) : Server W (Option Disk) := do
  pure (← indexOfName name).disk

def deviceOpened (name : Text) : Server W Bool := do
  pure (← deviceNamed name).isSome

def destroyDevice (lp : Libparted W) : Option DevId → Server W Unit
  | some dev => call lp (.deviceDestroy dev)
  | none => pure ()

def setDeviceNamed (lp : Libparted W) (name : Text) (dev : Option DevId) :
    Server W Unit := do
  assertThat (← diskNamed name).isNone .setDeviceNamed
  destroyDevice lp (← deviceNamed name)
  updateNamed name fun e => { e with dev := dev }

def maxPartition : Nat := 50

/-- The geometries of the partitions that hold data, after those in `geometries`.
What stands in the array where `ped_geometry_init` fails is not specified. -/
def partGeometries (lp : Libparted W) (dev : DevId) (geometries : List Geometry) :
    List Partition → Server W (List Geometry)
  | [] => pure geometries
  | part :: parts => do
      if part.type.extended || part.type.metadata || part.type.freespace then
        partGeometries lp dev geometries parts
      else do
        let geom ← call lp (.geometryInit dev part.geom.start part.geom.length)
        let geometries := geometries ++ [geom.getD ⟨0, 0, 0⟩]
        if maxPartition ≤ geometries.length then criticalError ["Too many partitions"]
        else partGeometries lp dev geometries parts

def rememberGeometriesNamed (lp : Libparted W) (name : Text) : Server W Unit := do
  match ← diskNamed name with
  | none => updateNamed name fun e => { e with geometries := [] }
  | some disk => do
      let geometries ← partGeometries lp disk.dev [] disk.parts
      updateNamed name fun e => { e with geometries := geometries }

def destroyDisk (lp : Libparted W) : Option Disk → Server W Unit
  | some disk => call lp (.diskDestroy disk)
  | none => pure ()

/-- A label that is too old to know anything but cylinders is aligned to them. -/
def alignNamed (lp : Libparted W) (name : Text) : Option Disk → Server W Unit
  | none => pure ()
  | some disk => do
      if ← call lp (.diskIsFlagAvailable disk) then do
        let e ← indexOfName name
        call lp (.diskSetFlag disk (e.alignment = .cylinder))
      else if disk.type ≠ "gpt" then
        updateNamed name fun e => { e with alignment := .cylinder }
      else pure ()

def setDiskNamed (lp : Libparted W) (name : Text) (disk : Option Disk) : Server W Unit := do
  assertThat (← deviceOpened name) .setDiskNamed
  destroyDisk lp (← diskNamed name)
  updateNamed name fun e => { e with disk := disk }
  alignNamed lp name disk

def namedPartitionIsVirtual (name : Text) (start finish : Int) : Server W Bool := do
  let e ← indexOfName name
  pure (e.geometries.all fun g => ¬(start = g.start ∧ finish = g.finish))

def namedIsChanged (name : Text) : Server W Bool := do
  pure (← indexOfName name).changed

def changeNamed (name : Text) : Server W Unit :=
  updateNamed name fun e => { e with changed := true }

def unchangeNamed (lp : Libparted W) (name : Text) : Server W Unit := do
  updateNamed name fun e => { e with changed := false }
  rememberGeometriesNamed lp name

def alignmentOfDevice (dev : DevId) : Server W Alignment := do
  match (← get).devices.find? (·.dev = some dev) with
  | some e => pure e.alignment
  | none => pure .cylinder

/-! ## Pointers -/

/-- `disk`, followed. -/
def theDisk : Server W Disk := do
  let s ← get
  match (s.entry s.deviceName).disk with
  | some disk => pure disk
  | none => throw (.null .disk)

/-- `assert(disk != NULL)`. -/
def assertDisk (site : Site) : Server W Unit := do
  let s ← get
  assertThat (s.entry s.deviceName).disk.isSome site

/-- A partition by its address. -/
def thePartition (part : PartId) : Server W Partition := do
  match (← theDisk).partition part with
  | some p => pure p
  | none => throw .freed

/-- A pointer to a partition that has not been tested. -/
def followPartition : Option PartId → Server W PartId
  | some part => pure part
  | none => throw (.null .partition)

def followConstraint : Option Constraint → Server W Constraint
  | some constraint => pure constraint
  | none => throw (.null .constraint)

/-- The fields of a device. -/
def theDevice (lp : Libparted W) (dev : DevId) : Server W Device := do
  pure (lp.device (← get).world dev)

/-- A call that may change the disk, and whether it succeeded. -/
def change (lp : Libparted W) (c : Change) : Server W Bool := do
  let disk ← theDisk
  let (ok, disk) ← call lp (.change disk c)
  modify fun s =>
    { s with
      devices := s.devices.map fun e =>
        if e.name = s.deviceName then { e with disk := some disk } else e }
  pure ok

/-! ## Partition creation -/

def hasExtendedPartition : Server W Bool := do
  assertDisk .hasExtendedPartition
  pure (← theDisk).extended.isSome

def partitionCreationConstraint (lp : Libparted W) (cdev : DevId) :
    Server W (Option Constraint) := do
  let cdevAlignment ← alignmentOfDevice cdev
  let aligned ← call lp (.deviceGetConstraint cdevAlignment cdev)
  let device ← theDevice lp cdev
  if device.dm then pure aligned
  else do
    -- a gap at the end, where metadata of a RAID could be
    let grain ← quot 65536 device.sectorSize
    let mdGrainSize := if grain = 0 then 1 else grain
    let down ← call lp (.roundDownTo device.length mdGrainSize)
    let gapAtEndGeom ← call lp (.geometryInit cdev 0 (longLong (down - 1)))
    let gapAtEnd ← call lp
      (.constraintNew none (gapAtEndGeom.getD ⟨0, 0, 0⟩) 1 device.length)
    call lp (.constraintIntersect aligned gapAtEnd)

/-- The new partition, if there is one. -/
def addExtendedPartition (lp : Libparted W) (start finish : Int) :
    Server W (Option PartId) := do
  assertDisk .addExtendedPartition
  assertThat (!(← hasExtendedPartition)) .addExtendedPartition
  let fsType ← call lp (.fileSystemTypeGet "ext2")
  match ← call lp (.partitionNew (← theDisk) { extended := true } fsType start finish) with
  | none => pure none
  | some extended => do
      let constraint ← call lp (.constraintAny (← theDisk).dev)
      if ← change lp (.addPartition extended constraint) then pure (some extended.id)
      else do
        call lp (.partitionDestroy extended)
        pure none

def maximizeExtendedPartition (lp : Libparted W) : Server W Unit := do
  assertDisk .maximizeExtendedPartition
  assertThat (← hasExtendedPartition) .maximizeExtendedPartition
  match (← theDisk).extended with
  | none => pure ()
  | some extended => do
      let constraint ← call lp (.constraintAny (← theDisk).dev)
      ignore (change lp (.maximizePartition extended.id constraint))

def minimizeExtendedPartition (lp : Libparted W) : Server W Unit := do
  assertDisk .minimizeExtendedPartition
  whenever ((← theDisk).type ≠ "dvh") (ignore (change lp .minimizeExtendedPartition))

def maximizeIfLogical (lp : Libparted W) (part : PartId) : Server W Unit := do
  whenever (← thePartition part).type.logical (maximizeExtendedPartition lp)

def minimizeIfLogical (lp : Libparted W) (part : PartId) : Server W Unit := do
  whenever (← thePartition part).type.logical (minimizeExtendedPartition lp)

def addPrimaryPartition (lp : Libparted W) (fsType : Text) (start finish : Int) :
    Server W (Option PartId) := do
  assertDisk .addPrimaryPartition
  whenever (← hasExtendedPartition) (minimizeExtendedPartition lp)
  match ← call lp (.partitionNew (← theDisk) {} (some fsType) start finish) with
  | none => pure none
  | some part => do
      let constraint ← partitionCreationConstraint lp (← theDisk).dev
      if ← change lp (.addPartition part constraint) then pure (some part.id)
      else do
        call lp (.partitionDestroy part)
        pure none

/-- `add_logical_partition` once the extended partition is as large as possible. -/
def addMaximized (lp : Libparted W) (fsType : Text) (start finish : Int) :
    Server W (Option PartId) := do
  match ← call lp (.partitionNew (← theDisk) { logical := true } (some fsType) start finish) with
  | none => do
      minimizeExtendedPartition lp
      pure none
  | some part => do
      let constraint ← partitionCreationConstraint lp (← theDisk).dev
      if ← change lp (.addPartition part constraint) then do
        minimizeExtendedPartition lp
        pure (some part.id)
      else do
        call lp (.partitionDestroy part)
        minimizeExtendedPartition lp
        pure none

/-- `add_logical_partition` once there is an extended partition. -/
def addWithinExtended (lp : Libparted W) (fsType : Text) (start finish : Int) :
    Server W (Option PartId) := do
  maximizeExtendedPartition lp
  addMaximized lp fsType start finish

def addLogicalPartition (lp : Libparted W) (fsType : Text) (start finish : Int) :
    Server W (Option PartId) := do
  assertDisk .addLogicalPartition
  if ← hasExtendedPartition then addWithinExtended lp fsType start finish
  else
    match ← addExtendedPartition lp start finish with
    | none => pure none
    | some _ => addWithinExtended lp fsType start finish

/-! ## Resizing -/

/-- A file system that is not where its partition is. -/
def outside (geom : Geometry) (p : Partition) : Bool :=
  geom.start < p.geom.start || p.geom.finish < geom.finish

/-- The file system that was opened, unless it is not where its partition is. -/
def keepInside (lp : Libparted W) (p : Partition) :
    Option FileSystem → Server W (Option FileSystem)
  | none => pure none
  | some fs =>
      if outside fs.geom p then do
        call lp (.fileSystemClose fs)
        pure none
      else pure (some fs)

/-- The file system and the constraint for a resize that moves the file system
along; nothing if there is one that cannot be opened. -/
def openedConstraint (lp : Libparted W) (p : Partition) :
    Server W (Option (Option FileSystem × Option Constraint)) := do
  deactivateExceptionHandler
  let opened ← call lp (.fileSystemOpen p.geom)
  activateExceptionHandler
  match ← keepInside lp p opened with
  | some fs => do
      let constraint ← call lp (.fileSystemGetResizeConstraint fs)
      pure (some (some fs, constraint))
  | none => do
      if (← call lp (.fileSystemProbe p.geom)).isSome then pure none
      else do
        let constraint ← call lp (.constraintAny (← theDisk).dev)
        pure (some (none, constraint))

/-- The constraint for a resize that leaves the file system where it is. -/
def probedConstraint (lp : Libparted W) (p : Partition) :
    Server W (Option (Option FileSystem × Option Constraint)) := do
  match ← call lp (.fileSystemProbe p.geom) with
  | none => do
      let constraint ← call lp (.constraintAny (← theDisk).dev)
      pure (some (none, constraint))
  | some fsType => do
      match ← call lp (.fileSystemProbeSpecific fsType p.geom) with
      | none => pure none
      | some fsGeom =>
          if outside fsGeom p then pure none
          else do
            let dev := (← theDisk).dev
            let length := (← theDevice lp dev).length
            if ← call lp (.alignmentInit fsGeom.start 0) then
              match ← call lp (.geometryInit dev 0 (longLong (length - 1))) with
              | none => pure (some (none, none))
              | some fullDev => do
                  let constraint ← call lp
                    (.constraintNew (some fsGeom.start) fullDev fsGeom.length length)
                  pure (some (none, constraint))
            else pure (some (none, none))

/-- The new geometry is set, and the file system is resized with it. -/
def resizeGeom (lp : Libparted W) (part : PartId) (fs : Option FileSystem)
    (constraint : Constraint) (old : Geometry) (start finish : Int) : Server W Bool := do
  if ← change lp (.setPartitionGeom part (some constraint) start finish) then
    match fs with
    | none => pure true
    | some fs => do
        if ← timeredFileSystemResize lp fs (← thePartition part).geom then pure true
        else do
          let anywhere ← call lp (.constraintAny (← theDisk).dev)
          ignore (change lp (.setPartitionGeom part anywhere old.start old.finish))
          pure false
  else pure false

def closeFileSystem (lp : Libparted W) : Option FileSystem → Server W Unit
  | some fs => call lp (.fileSystemClose fs)
  | none => pure ()

def resizePartition (lp : Libparted W) (part : PartId) (start finish : Int)
    (openFilesystem : Bool) : Server W Bool := do
  let p ← thePartition part
  if p.geom.start = start ∧ p.geom.finish = finish then pure true
  else do
    match ← (if openFilesystem then openedConstraint lp p else probedConstraint lp p) with
    | none => pure false
    | some (fs, none) => do
        closeFileSystem lp fs
        pure false
    | some (fs, some constraint) => do
        maximizeIfLogical lp part
        let result ← resizeGeom lp part fs constraint p.geom start finish
        closeFileSystem lp fs
        minimizeIfLogical lp part
        pure result

/-! ## Getting info -/

def possiblePrimaryPartition (lp : Libparted W) (space : Partition) : Server W Bool := do
  assertDisk .possiblePrimaryPartition
  assertThat space.type.freespace .possiblePrimaryPartition
  deactivateExceptionHandler
  let result ←
    (if space.type.logical then pure false
    else do
      let count ← call lp (.diskGetPrimaryPartitionCount (← theDisk))
      let max ← call lp (.diskGetMaxPrimaryPartitionCount (← theDisk))
      pure (decide (count < max)) : Server W Bool)
  activateExceptionHandler
  pure result

def possibleExtendedPartition (lp : Libparted W) (space : Partition) : Server W Bool := do
  assertDisk .possibleExtendedPartition
  assertThat space.type.freespace .possibleExtendedPartition
  deactivateExceptionHandler
  let feature ← call lp (.diskTypeCheckFeature (← theDisk).type .extended)
  let result ←
    (if feature then do
      if ← hasExtendedPartition then pure false
      else possiblePrimaryPartition lp space
    else pure false : Server W Bool)
  activateExceptionHandler
  pure result

def partitionBefore (part₁ part₂ : Partition) : Bool := part₁.geom.finish < part₂.geom.start

/-- No partition stands between `space` and the extended partition. -/
def nothingBetween (lp : Libparted W) (space extended : Partition) :
    List Partition → Server W Bool
  | [] => pure true
  | part :: parts => do
      let active ← call lp (.partitionIsActive part)
      if active && (partitionBefore space part && partitionBefore part extended ||
          partitionBefore extended part && partitionBefore part space) then do
        assertThat (!part.type.logical) .possibleLogicalPartition
        pure false
      else nothingBetween lp space extended parts

def possibleLogicalPartition (lp : Libparted W) (space : Partition) : Server W Bool := do
  assertDisk .possibleLogicalPartition
  assertThat space.type.freespace .possibleLogicalPartition
  deactivateExceptionHandler
  let _ ← hasExtendedPartition
  let disk ← theDisk
  let result ←
    (match disk.extended with
    | none => possibleExtendedPartition lp space
    | some extended => nothingBetween lp space extended disk.parts)
  activateExceptionHandler
  pure result

/-- The partition from one byte to another. -/
def Disk.withId (disk : Disk) (sectorSize start finish : Int) : Option PartId :=
  let startSector := start.tdiv sectorSize
  let endSector := (longLong (finish - sectorSize + 1)).tdiv sectorSize
  (disk.parts.find? fun p => p.geom.start = startSector ∧ p.geom.finish = endSector).map
    (·.id)

/-- The sector size is taken from the disk before the disk is tested. -/
def partitionWithId (lp : Libparted W) (id : Text) : Server W (Option PartId) := do
  match scanRange id with
  | none => criticalError ["Bad id ", id]
  | some ((start, finish), _) => do
      let disk ← theDisk
      let sectorSize := (← theDevice lp disk.dev).sectorSize
      if sectorSize = 0 then throw .divisionByZero
      else pure (disk.withId sectorSize start finish)

/-- The kinds of partitions that fit into a free space. -/
def spaceType (lp : Libparted W) (space : Partition) : Server W Text := do
  let possiblePrimary ← possiblePrimaryPartition lp space
  let possibleLogical ← possibleLogicalPartition lp space
  pure
    (if possiblePrimary then
      if possibleLogical then "pri/log" else "primary"
    else if possibleLogical then "logical"
    else "unusable")

/-- Swap is swap, whatever its version. -/
def fsName (fsType : Text) : Text :=
  if "linux-swap".toList.isPrefixOf fsType then "linux-swap" else fsType

def Partition.fs (part : Partition) : Text :=
  if part.type.freespace then "free"
  else if part.type.metadata then "label"
  else if part.type.extended then "extended"
  else
    match part.fsType with
    | none => "unknown"
    | some fsType => fsName fsType

/-- A range of bytes as the clients write it. -/
def rangeText (geom : Geometry) (sectorSize : Int) : Text :=
  ofInt (longLong (geom.start * sectorSize)) ++ '-' ::
    ofInt (longLong (geom.finish * sectorSize + sectorSize - 1))

def tabbed (fields : List Text) : Text := ['\t'].intercalate fields

def partitionType (lp : Libparted W) (part : Partition) : Server W Text :=
  if part.type.freespace then spaceType lp part
  else pure (if part.type.logical then "logical" else "primary")

def partitionPath (lp : Libparted W) (disk : Disk) (part : Partition) : Server W Text :=
  if disk.type = "loop" then do pure (← theDevice lp disk.dev).path
  else call lp (.partitionGetPath part)

def partitionName (lp : Libparted W) (disk : Disk) (part : Partition) : Server W Text := do
  if ← call lp (.diskTypeCheckFeature disk.type .partitionName) then do
    if ← call lp (.partitionIsActive part) then call lp (.partitionGetName part)
    else pure []
  else pure []

def partitionInfo (lp : Libparted W) (part : Partition) : Server W Text := do
  assertDisk .partitionInfo
  let type ← partitionType lp part
  let disk ← theDisk
  let path ← partitionPath lp disk part
  let name ← partitionName lp disk part
  let sectorSize := (← theDevice lp disk.dev).sectorSize
  pure (tabbed [ofInt part.num, rangeText part.geom sectorSize,
    ofInt (longLong (part.geom.length * sectorSize)), type, part.fs, path, name])

/-- Cylinder, head and sector of a sector. -/
def chs (device : Device) (sector : Int) : Server W (List Int) := do
  let trackSize := device.sectors
  let cylinderSize := longLong (trackSize * device.heads)
  let cyl ← quot sector cylinderSize
  let sector ← rem sector cylinderSize
  let head ← quot sector trackSize
  let sec ← rem sector trackSize
  pure [cyl, head, sec]

def parenthesized (c : List Int) : Text :=
  '(' :: ([','].intercalate (c.map ofInt) ++ [')'])

def dumpPartition (lp : Libparted W) (dev : DevId) (part : Partition) : Server W Unit := do
  let info ← partitionInfo lp part
  let device ← theDevice lp dev
  let first ← chs device part.geom.start
  let last ← chs device part.geom.finish
  fprintf (tabbed [parenthesized first, parenthesized last, info])

def dumpInfo (lp : Libparted W) (dev : Option DevId) (disk : Option Disk) :
    Server W Unit := do
  deactivateExceptionHandler
  match dev with
  | none => do
      fprintf "Device: no"
      activateExceptionHandler
  | some dev => do
      let device ← theDevice lp dev
      fprintf "Device: yes"
      fprintf ("Model: " ++ device.model)
      fprintf ("Path: " ++ device.path)
      fprintf ("Sector size: " ++ ofInt device.sectorSize)
      fprintf ("Sectors: " ++ ofInt device.length)
      fprintf ("Sectors/track: " ++ ofInt device.sectors)
      fprintf ("Heads: " ++ ofInt device.heads)
      fprintf ("Cylinders: " ++ ofInt device.cylinders)
      match disk with
      | none => do
          fprintf "Partition table: no"
          activateExceptionHandler
      | some disk => do
          fprintf "Partition table: yes"
          fprintf ("Type: " ++ disk.type)
          fprintf "Partitions: #\tid\tlength\ttype\tfs\tpath\tname"
          disk.parts.forM (dumpPartition lp dev)
          fprintf "Dump finished."
          activateExceptionHandler

end DebianInstaller.Partman.Parted
