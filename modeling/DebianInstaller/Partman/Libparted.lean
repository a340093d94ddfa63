import DebianInstaller.Lib.Regime
import DebianInstaller.Text

/-!
# libparted, seen from parted_server

`parted_server` is a thin layer over libparted, which is not part of the
installer. What the server reads from libparted's structures is a record here; a
call of libparted is a request with a reply. Nothing is assumed about how
libparted comes to a reply: it has a state of its own, and a `Libparted` gives
for each request and state a dialogue, since before it replies libparted may
throw exceptions and, where it was given a timer, report progress.

A disk is a value that the registry holds, as each `PedDisk` belongs to one
device there. The calls that change a disk take the disk and give it back
changed. A partition is told from others by its address, and a label or a file
system type by its name.

The calls that only give memory back (`ped_constraint_destroy` and its like) are
left out.
-/

namespace DebianInstaller.Partman.Parted

open Programs

/-- The address of a `PedDevice`. -/
abbrev DevId := Nat

/-- The address of a `PedPartition`. -/
abbrev PartId := Nat

structure Device where
  path : Text
  model : Text
  sectorSize : Int
  physSectorSize : Int
  length : Int
  sectors : Int
  heads : Int
  cylinders : Int
  /-- `PED_DEVICE_DM`. -/
  dm : Bool
  deriving DecidableEq

structure Geometry where
  start : Int
  finish : Int
  length : Int
  deriving DecidableEq

/-- The bits of a `PedPartitionType` that the server looks at. -/
structure PartType where
  logical : Bool := false
  extended : Bool := false
  freespace : Bool := false
  metadata : Bool := false
  deriving DecidableEq

structure Partition where
  id : PartId
  num : Int
  type : PartType
  geom : Geometry
  fsType : Option Text
  name : Text
  flags : List Nat
  deriving DecidableEq

/-- A `PedDisk`: the device, the name of the label, and the partitions in the
order of `ped_disk_next_partition`. -/
structure Disk where
  dev : DevId
  type : Text
  parts : List Partition
  deriving DecidableEq

/-- `ped_disk_extended_partition`. -/
def Disk.extended (d : Disk) : Option Partition := d.parts.find? (·.type.extended)

/-- The partition at an address. -/
def Disk.partition (d : Disk) (part : PartId) : Option Partition :=
  d.parts.find? (·.id = part)

inductive Alignment where
  | cylinder
  | minimal
  | optimal
  deriving DecidableEq

inductive Feature where
  | extended
  | partitionName
  deriving DecidableEq

structure Constraint where
  handle : Nat
  grainSize : Int
  minSize : Int
  deriving DecidableEq

structure FileSystem where
  handle : Nat
  geom : Geometry
  deriving DecidableEq

/-- The calls that may change a disk, the disk apart. -/
inductive Change where
  | addPartition (part : Partition) (constraint : Option Constraint)
  | deletePartition (part : PartId)
  | maximizePartition (part : PartId) (constraint : Option Constraint)
  | minimizeExtendedPartition
  | setPartitionGeom (part : PartId) (constraint : Option Constraint) (start finish : Int)
  | setFlag (part : PartId) (flag : Nat) (state : Bool)
  | setName (part : PartId) (name : Text)
  | setSystem (part : PartId) (fsType : Text)
  | commit
  deriving DecidableEq

/-- A call of libparted. -/
inductive Request where
  | deviceGet (path : Text)
  | deviceDestroy (dev : DevId)
  | deviceGetConstraint (alignment : Alignment) (dev : DevId)
  | deviceGetMinimumAlignment (dev : DevId)
  | diskNew (dev : DevId)
  | diskNewFresh (dev : DevId) (type : Text)
  | diskDestroy (disk : Disk)
  | diskIsFlagAvailable (disk : Disk)
  | diskSetFlag (disk : Disk) (state : Bool)
  | diskGetPrimaryPartitionCount (disk : Disk)
  | diskGetMaxPrimaryPartitionCount (disk : Disk)
  | diskGetMaxPartitionGeometry (disk : Disk) (part : PartId) (constraint : Constraint)
  | diskTypes
  | diskTypeGet (name : Text)
  | diskTypeCheckFeature (type : Text) (feature : Feature)
  | partitionNew (disk : Disk) (type : PartType) (fsType : Option Text) (start finish : Int)
  | partitionDestroy (part : Partition)
  | partitionIsActive (part : Partition)
  | partitionIsBusy (part : PartId)
  | partitionGetPath (part : Partition)
  | partitionGetName (part : Partition)
  | partitionIsFlagAvailable (part : Partition) (flag : Nat)
  | partitionGetFlag (part : Partition) (flag : Nat)
  | flags
  | flagGetName (flag : Nat)
  | flagGetByName (name : Text)
  | fileSystemTypes
  | fileSystemTypeGet (name : Text)
  | fileSystemOpen (geom : Geometry)
  | fileSystemClose (fs : FileSystem)
  | fileSystemProbe (geom : Geometry)
  | fileSystemProbeSpecific (fsType : Text) (geom : Geometry)
  | fileSystemGetResizeConstraint (fs : FileSystem)
  | fileSystemResize (fs : FileSystem) (geom : Geometry)
  | constraintAny (dev : DevId)
  | constraintNew (start : Option Int) (range : Geometry) (minSize maxSize : Int)
  | constraintIntersect (a b : Option Constraint)
  | geometryInit (dev : DevId) (start length : Int)
  | geometrySetStart (constraint : Constraint) (start : Int)
  | geometrySetEnd (constraint : Constraint) (finish : Int)
  | alignmentInit (offset grainSize : Int)
  | roundDownTo (sector grainSize : Int)
  | change (disk : Disk) (c : Change)

/-- What a call returns; a pointer that may be `NULL` is an option. A call that
may change its disk returns whether it succeeded, and the disk. -/
@[reducible] def Request.Reply : Request → Type
  | .deviceGet _ => Option DevId
  | .deviceDestroy _ => Unit
  | .deviceGetConstraint .. => Option Constraint
  | .deviceGetMinimumAlignment _ => Option Int
  | .diskNew _ => Option Disk
  | .diskNewFresh .. => Option Disk
  | .diskDestroy _ => Unit
  | .diskIsFlagAvailable _ => Bool
  | .diskSetFlag .. => Unit
  | .diskGetPrimaryPartitionCount _ => Int
  | .diskGetMaxPrimaryPartitionCount _ => Int
  | .diskGetMaxPartitionGeometry .. => Option Geometry
  | .diskTypes => List Text
  | .diskTypeGet _ => Option Text
  | .diskTypeCheckFeature .. => Bool
  | .partitionNew .. => Option Partition
  | .partitionDestroy _ => Unit
  | .partitionIsActive _ => Bool
  | .partitionIsBusy _ => Bool
  | .partitionGetPath _ => Text
  | .partitionGetName _ => Text
  | .partitionIsFlagAvailable .. => Bool
  | .partitionGetFlag .. => Bool
  | .flags => List Nat
  | .flagGetName _ => Text
  | .flagGetByName _ => Nat
  | .fileSystemTypes => List Text
  | .fileSystemTypeGet _ => Option Text
  | .fileSystemOpen _ => Option FileSystem
  | .fileSystemClose _ => Unit
  | .fileSystemProbe _ => Option Text
  | .fileSystemProbeSpecific .. => Option Geometry
  | .fileSystemGetResizeConstraint _ => Option Constraint
  | .fileSystemResize .. => Bool
  | .constraintAny _ => Option Constraint
  | .constraintNew .. => Option Constraint
  | .constraintIntersect .. => Option Constraint
  | .geometryInit .. => Option Geometry
  | .geometrySetStart .. => Constraint
  | .geometrySetEnd .. => Constraint
  | .alignmentInit .. => Bool
  | .roundDownTo .. => Int
  | .change .. => Bool × Disk

/-- Only a resize of a file system is given a timer. -/
@[reducible] def Request.timed : Request → Bool
  | .fileSystemResize .. => true
  | _ => false

/-- A `PedException`: the string for its type, the message, and the options the
user has, one bit each. -/
structure Exception where
  type : Text
  message : Text
  options : Nat

/-- What libparted may do before it replies. -/
inductive Callback : Bool → Type where
  | throw {timed : Bool} (ex : Exception) : Callback timed
  | tick (permille : Nat) (stateName : Text) : Callback true

/-- An exception is answered with an option, and 0 is `PED_EXCEPTION_UNHANDLED`. -/
@[reducible] def Callback.Answer {timed : Bool} : Callback timed → Type
  | .throw _ => Nat
  | .tick .. => Unit

/-- libparted, with a state `W` that includes the machine's disks. -/
structure Libparted (W : Type) where
  /-- The fields of a `PedDevice`. -/
  device : W → DevId → Device
  /-- `ped_exception_get_option_string`. -/
  optionString : Nat → Text
  answer : (r : Request) → W → Dialogue (Callback r.timed) Callback.Answer (r.Reply × W)

/-! ## A machine with one disk

Enough of libparted to run the server on one disk with a `msdos` label. -/

/-- Replies that come to nothing. -/
def Request.nothing : (r : Request) → r.Reply
  | .deviceGet _ => none
  | .deviceDestroy _ => ()
  | .deviceGetConstraint .. => none
  | .deviceGetMinimumAlignment _ => none
  | .diskNew _ => none
  | .diskNewFresh .. => none
  | .diskDestroy _ => ()
  | .diskIsFlagAvailable _ => false
  | .diskSetFlag .. => ()
  | .diskGetPrimaryPartitionCount _ => 0
  | .diskGetMaxPrimaryPartitionCount _ => 4
  | .diskGetMaxPartitionGeometry .. => none
  | .diskTypes => []
  | .diskTypeGet _ => none
  | .diskTypeCheckFeature .. => false
  | .partitionNew .. => none
  | .partitionDestroy _ => ()
  | .partitionIsActive part => !(part.type.freespace || part.type.metadata)
  | .partitionIsBusy _ => false
  | .partitionGetPath _ => []
  | .partitionGetName _ => []
  | .partitionIsFlagAvailable .. => false
  | .partitionGetFlag .. => false
  | .flags => []
  | .flagGetName _ => []
  | .flagGetByName _ => 0
  | .fileSystemTypes => []
  | .fileSystemTypeGet _ => none
  | .fileSystemOpen _ => none
  | .fileSystemClose _ => ()
  | .fileSystemProbe _ => none
  | .fileSystemProbeSpecific .. => none
  | .fileSystemGetResizeConstraint _ => none
  | .fileSystemResize .. => false
  | .constraintAny _ => none
  | .constraintNew .. => none
  | .constraintIntersect .. => none
  | .geometryInit _ start length => some ⟨start, start + length - 1, length⟩
  | .geometrySetStart constraint _ => constraint
  | .geometrySetEnd constraint _ => constraint
  | .alignmentInit .. => true
  | .roundDownTo sector grainSize => sector - sector % grainSize
  | .change disk _ => (false, disk)

/-- What is on the disk, and whether it can be written. -/
structure OneDisk where
  stored : Option (List Partition)
  writable : Bool

/-- No logical partitions are known there. -/
def primaries (parts : List Partition) : List Partition := parts.filter (!·.type.logical)

/-- `Retry`, `Ignore` and `Cancel`. -/
def oneDiskOption : Nat → Text
  | 16 => "Retry"
  | 32 => "Ignore"
  | 64 => "Cancel"
  | _ => []

def oneDisk : Libparted OneDisk where
  device _ _ := ⟨"/dev/sda", "Model", 512, 512, 1000000, 63, 255, 63, false⟩
  optionString := oneDiskOption
  answer
    | .deviceGet _, w => .done (some 0, w)
    | .diskNew dev, w =>
        match w.stored with
        | some parts => .done (some ⟨dev, "msdos", primaries parts⟩, w)
        | none =>
            .ask (.throw ⟨"Error", "/dev/sda: unrecognised disk label", 64⟩)
              fun _ => .done (none, w)
    | .fileSystemTypeGet name, w => .done (some name, w)
    | .partitionNew disk type fsType start finish, w =>
        .done (some ⟨disk.parts.length + 2, -1, type, ⟨start, finish, finish - start + 1⟩, fsType,
          [], []⟩, w)
    | .change disk (.addPartition part _), w =>
        if part.type.logical then .done ((false, disk), w)
        else .done ((true, { disk with parts := disk.parts ++ [part] }), w)
    | .change disk (.deletePartition part), w =>
        .done ((true, { disk with parts := primaries (disk.parts.filter (·.id ≠ part)) }), w)
    | .change disk .commit, w =>
        if w.writable then .done ((true, disk), { w with stored := some disk.parts })
        else
          .ask (.throw ⟨"Error", "Input/output error during write", 112⟩)
            fun _ => .done ((false, disk), w)
    | r, w => .done (r.nothing, w)

end DebianInstaller.Partman.Parted
