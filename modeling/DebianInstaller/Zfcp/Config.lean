import DebianInstaller.Zfcp.LunList

/-!
# Configuring the adapters

`main` of `zfcp-config` is a state machine. With preseeded data it goes around in a circle: it
selects the adapter of an entry that has not been seen, enables it, adds the LUNs of all entries
for that adapter, writes its configuration file, and selects again. An adapter that finds its
LUNs by itself gets none from the entries, and none in its file.

What the system does is given in advance: which adapters there are, which of them can be enabled,
which LUNs can be added, and which SCSI devices have appeared when the program looks for them.
-/

namespace DebianInstaller.Zfcp.Config

open Lib (Tree)
open Packages (insertAll)
open Text

/-! ## Ids in order -/

theorem append_inj {v w : ℕ} {a c : BitVec v} {b d : BitVec w} (h : a ++ b = c ++ d) :
    a = c ∧ b = d := by
  have hleft := congrArg (BitVec.extractLsb' w v) h
  have hright := congrArg (BitVec.extractLsb' 0 w) h
  rw [BitVec.extractLsb'_append_eq_left, BitVec.extractLsb'_append_eq_left] at hleft
  rw [BitVec.extractLsb'_append_eq_of_add_le (by omega),
    BitVec.extractLsb'_append_eq_of_add_le (by omega)] at hright
  rw [BitVec.extractLsb'_eq_self, BitVec.extractLsb'_eq_self] at hright
  exact ⟨hleft, hright⟩

theorem number_injective : Function.Injective ZfcpLunDevid.number := by
  rintro ⟨⟨cssid, ssid, devno⟩, wwpn, lun⟩ ⟨⟨cssid', ssid', devno'⟩, wwpn', lun'⟩ h
  obtain ⟨h, rfl⟩ := append_inj (BitVec.eq_of_toNat_eq h)
  obtain ⟨h, rfl⟩ := append_inj h
  obtain ⟨h, rfl⟩ := append_inj h
  obtain ⟨rfl, rfl⟩ := append_inj h
  rfl

/-- The order of `zfcp_lun_cmp_devids`. -/
instance : LinearOrder ZfcpLunDevid := LinearOrder.lift' ZfcpLunDevid.number number_injective

/-- The LUNs in a tree. What the program keeps with them is of no concern here. -/
abbrev LunTree := Tree ZfcpLunDevid Unit

def lunTree (luns : List ZfcpLunDevid) : LunTree := insertAll ∅ (luns.map fun lun => (lun, ()))

theorem mem_lunTree (luns : List ZfcpLunDevid) (lun : ZfcpLunDevid) :
    lun ∈ (lunTree luns).keys ↔ lun ∈ luns := by
  unfold lunTree
  rw [Packages.mem_keys_insertAll, List.map_map]
  exact Iff.of_eq (congrArg _ (List.map_id luns))

/-! ## The system -/

/-- What is in sysfs of an adapter, and whether it has a configuration file. -/
structure Fcp where
  devid : CcwDevid
  online : Bool
  npiv : Bool
  config : Bool
  deriving DecidableEq

/-- The directory of the adapters. -/
inductive Devices where
  | missing
  | unreadable
  | entries (fcps : List Fcp) (distinct : (fcps.map Fcp.devid).Nodup)

/-- What comes of the question whether a configuration file is to be removed. -/
inductive Removal where
  | goback
  | kept
  | failed
  | removed

def strtrim (t : Text) : Text :=
  (t.rdropWhile fun c => c == ' ' || c == '\t').dropWhile fun c => c == ' ' || c == '\t'

/-- The parts of the preseeded value as `strtok_r` finds them. -/
def preseedEntries (value : Text) : List Text :=
  ((value.splitOn ',').filter (· ≠ [])).map strtrim

structure System where
  /-- Whether `sscanf` takes `0x` for a number. -/
  lone : Bool
  devices : Devices
  allowLunScan : Bool
  value : Text
  /-- There are entries, so no user is asked. -/
  preseeded : preseedEntries value ≠ []
  removal : CcwDevid → Removal
  /-- Whether the adapter uses NPIV, if it can be enabled. -/
  enable : CcwDevid → Option Bool
  /-- `zfcp_lun_add` -/
  lunAdd : ZfcpLunDevid → Bool
  /-- The SCSI devices that there are at the start. -/
  scsi : List ZfcpLunDevid
  /-- Those that have appeared when the program looks for the `n`-th time. -/
  appeared : ℕ → List ZfcpLunDevid
  fopen : CcwDevid → Bool

/-! ## The program -/

inductive State where
  | backup
  | detectZfcpHosts
  | preseed
  | selectZfcpHost
  | removeConfig
  | enable
  | addZfcpLuns
  | write
  | error
  | finish
  deriving DecidableEq

inductive Wanted where
  | backup
  | next
  | finish
  | error
  deriving DecidableEq

structure Host where
  devid : CcwDevid
  online : Bool
  npiv : Bool
  luns : Option LunTree
  writeLuns : Bool
  configured : Bool

/-- A node of `preseed_data`. -/
structure Entry where
  lun : ZfcpLunDevid
  seen : Bool
  deriving DecidableEq

/-- The SCSI devices, and how often they have been looked at. -/
structure Scsi where
  active : List ZfcpLunDevid
  looks : ℕ

structure Run where
  state : State
  hosts : List Host
  preseed : List Entry
  selected : Option CcwDevid
  scsi : Scsi
  /-- The lines between the parentheses in the configuration files. -/
  files : CcwDevid → Option (List Text)

section

variable (sys : System)

/-- `add_zfcp_host` -/
def addZfcpHost (fcp : Fcp) : Host where
  devid := fcp.devid
  online := fcp.online
  npiv := fcp.online && fcp.npiv
  luns := none
  writeLuns := false
  configured := fcp.config

def detectZfcpHosts (r : Run) : Wanted × Run :=
  match sys.devices with
  | .missing => (.finish, r)
  | .unreadable => (.error, r)
  | .entries [] _ => (.finish, r)
  | .entries (fcp :: fcps) _ => (.next, { r with hosts := (fcp :: fcps).map addZfcpHost })

/-- `preseed_zfcp_lun_id` -/
def preseedZfcpLunId (spec : Text) : Option ZfcpLunDevid :=
  if ':' ∉ spec then (ccwParseDevid sys.lone spec).toOption.map fun devid => ⟨devid, 0, 0⟩
  else (zfcpLunParseDevid sys.lone spec).toOption

/-- The LUNs in the order of the tree, if all entries can be read. -/
def preseedLuns : Option (List ZfcpLunDevid) :=
  ((preseedEntries sys.value).mapM (preseedZfcpLunId sys)).map fun luns => (lunTree luns).keys

def preseedZfcp (r : Run) : Wanted × Run :=
  match preseedLuns sys with
  | none => (.error, r)
  | some luns => (.next, { r with preseed := luns.map fun lun => ⟨lun, false⟩ })

/-- `di_tree_lookup (zfcp_hosts, …)` -/
def Run.host (r : Run) (devid : CcwDevid) : Option Host := r.hosts.find? (·.devid = devid)

/-- The entries with one of them marked, and the adapter that it selects. -/
def preseedSelectOne (r : Run) : List Entry → Option (Host × List Entry)
  | [] => none
  | e :: rest =>
      match (if e.seen then none else (r.host e.lun.fcpDev).filter (!·.configured)) with
      | some host => some (host, { e with seen := true } :: rest)
      | none => (preseedSelectOne r rest).map fun (host, rest) => (host, e :: rest)

def selectPreseeded (r : Run) : Wanted × Run :=
  if r.preseed = [] then (.error, r)
  else
    match preseedSelectOne r r.preseed with
    | none => (.finish, { r with selected := none })
    | some (host, preseed) => (.next, { r with selected := some host.devid, preseed := preseed })

/-- An adapter is stored. -/
def Run.setHost (r : Run) (host : Host) : Run :=
  { r with hosts := r.hosts.map fun h => if h.devid = host.devid then host else h }

def removeConfigFile (r : Run) (host : Host) : Wanted × Run :=
  if host.configured then
    match sys.removal host.devid with
    | .goback => (.backup, r)
    | .kept => (.next, r)
    | .failed => (.error, r)
    | .removed =>
        (.backup, { r.setHost { host with configured := false } with
          files := Function.update r.files host.devid none })
  else (.next, r)

def enableZfcpHost (r : Run) (host : Host) : Wanted × Run :=
  if host.online then (.next, r)
  else
    match sys.enable host.devid with
    | none => (.error, r)
    | some npiv => (.next, r.setHost { host with online := true, npiv := npiv })

/-- `lun_tree_populate` -/
def lunTreePopulate (hba : CcwDevid) (scsi : Scsi) : LunTree × Scsi :=
  let active := scsi.active ++ sys.appeared scsi.looks
  (lunTree (active.filter (·.fcpDev = hba)), ⟨active, scsi.looks + 1⟩)

structure Adding where
  luns : LunTree
  scsi : Scsi
  err : Bool

def scsiAsyncTries : ℕ := 15

/-- The loop of `__add_lun`, and what comes behind it. -/
def awaitLun (hba : CcwDevid) (lun : ZfcpLunDevid) : ℕ → Adding → Adding
  | 0, a =>
      { a with scsi := { a.scsi with active := a.scsi.active.filter (· ≠ lun) }, err := true }
  | tries + 1, a =>
      let (luns, scsi) := lunTreePopulate sys hba a.scsi
      let a := { a with luns := luns, scsi := scsi }
      if lun ∈ luns.keys then a else awaitLun hba lun tries a

/-- `__add_lun` -/
def addLun (hba : CcwDevid) (lun : ZfcpLunDevid) (a : Adding) : Adding :=
  if lun ∈ a.luns.keys then a
  else if sys.lunAdd lun = false then { a with err := true }
  else awaitLun sys hba lun scsiAsyncTries a

def preseedAddLun (hba : CcwDevid) (e : Entry) (a : Adding) : Entry × Adding :=
  if a.err = true ∨ e.lun.fcpDev ≠ hba then (e, a)
  else ({ e with seen := true }, addLun sys hba e.lun a)

/-- `di_tree_foreach (preseed_data, preseed_add_luns, …)` -/
def preseedAddLuns (hba : CcwDevid) : List Entry → Adding → List Entry × Adding
  | [], a => ([], a)
  | e :: rest, a =>
      let (e, a) := preseedAddLun sys hba e a
      let (rest, a) := preseedAddLuns hba rest a
      (e :: rest, a)

def addZfcpLuns (r : Run) (host : Host) : Wanted × Run :=
  let (luns, scsi) := lunTreePopulate sys host.devid r.scsi
  if sys.allowLunScan && host.npiv then
    match host.luns with
    | some _ => (.next, { r with scsi := scsi })
    | none =>
        let (luns, scsi) := lunTreePopulate sys host.devid scsi
        (.next, { r.setHost { host with luns := some luns } with scsi := scsi })
  else
    let (preseed, a) := preseedAddLuns sys host.devid r.preseed ⟨luns, scsi, false⟩
    let r := { r with preseed := preseed, scsi := a.scsi }
    if a.err then (.error, r)
    else
      let r := r.setHost { host with luns := some a.luns, writeLuns := true }
      (if a.luns.nodes = [] then .error else .next, r)

/-- `write_lun_config` for all LUNs of the adapter. -/
def configLines (host : Host) : List Text :=
  if host.writeLuns then
    ((host.luns.map Tree.keys).getD []).map fun lun => zfcpLunToStr lun.wwpn lun.lun
  else []

def writeConfigFile (r : Run) (host : Host) : Wanted × Run :=
  if sys.fopen host.devid = false then (.error, r)
  else
    (.next, { r.setHost { host with configured := true } with
      files := Function.update r.files host.devid (some (configLines host)) })

/-- What is done with the adapter that is selected. Without one a null pointer is followed. -/
def withSelected (f : Run → Host → Wanted × Run) (r : Run) : Wanted × Run :=
  match r.selected.bind r.host with
  | none => (.error, r)
  | some host => f r host

/-- The first `switch`. -/
def perform (r : Run) : Wanted × Run :=
  match r.state with
  | .detectZfcpHosts => detectZfcpHosts sys r
  | .preseed => preseedZfcp sys r
  | .selectZfcpHost => selectPreseeded r
  | .removeConfig => withSelected (removeConfigFile sys) r
  | .enable => withSelected (enableZfcpHost sys) r
  | .addZfcpLuns => withSelected (addZfcpLuns sys) r
  | .write => withSelected (writeConfigFile sys) r
  | .backup | .error | .finish => (.error, r)

/-- The second `switch`. -/
def transition (state : State) : Wanted → State
  | .next =>
      match state with
      | .detectZfcpHosts => .preseed
      | .preseed => .selectZfcpHost
      | .selectZfcpHost => .removeConfig
      | .removeConfig => .enable
      | .enable => .addZfcpLuns
      | .addZfcpLuns => .write
      | .write => .selectZfcpHost
      -- `WANT_ERROR` as a state has the number of this one.
      | .backup | .error | .finish => .selectZfcpHost
  | .finish => .finish
  | .backup =>
      match state with
      | .selectZfcpHost => .backup
      | .removeConfig => .selectZfcpHost
      | .addZfcpLuns => .selectZfcpHost
      | _ => .error
  | .error => .error

/-- The program has ended. -/
def Halted (state : State) : Prop := state = .backup ∨ state = .error ∨ state = .finish

instance (state : State) : Decidable (Halted state) :=
  inferInstanceAs (Decidable (_ ∨ _ ∨ _))

/-- Once around the loop. -/
def step (r : Run) : Run :=
  if Halted r.state then r
  else
    let (wanted, r') := perform sys r
    { r' with state := transition r.state wanted }

def start : Run where
  state := .detectZfcpHosts
  hosts := []
  preseed := []
  selected := none
  scsi := ⟨sys.scsi, 0⟩
  files := fun _ => none

def runs (n : ℕ) : Run := (step sys)^[n] (start sys)

end

end DebianInstaller.Zfcp.Config
