import DebianInstaller.Partman.Balance
import DebianInstaller.Partman.Registry

/-!
# A command and its arguments

A command comes as one line: the name of the command, the name of the device and
what else it needs. `serve` reads the name, the command reads the rest with
`iscanf`, and most commands ask for a partition id, which stands for a partition
on the disk of the device. This module says what is read from such a line and
where the command goes on.
-/

namespace DebianInstaller.Partman.Parted

open Programs Text

variable {W : Type} {lp : Libparted W} {m : Machine}

variable {d : Disk} {rest : Text} {s : State W}

/-! ## Lines -/

/-- What stands after a word on a line. -/
def Blank (t : Text) : Prop := ∀ c, t.head? = some c → isSpace c = true

/-- Words with a blank before each. -/
def spaced (ws : List Text) : Text := ws.flatMap (' ' :: ·)

theorem joinWords_cons (w : Text) (ws : List Text) :
    joinWords (w :: ws) = w ++ spaced ws := by
  induction ws generalizing w with
  | nil => simp [joinWords, spaced]
  | cons w' ws ih =>
      show w ++ ' ' :: joinWords (w' :: ws) = _
      rw [ih]
      simp [spaced]

theorem blank_spaced (hrest : Blank rest) (ws : List Text) : Blank (spaced ws ++ rest) := by
  cases ws with
  | nil => exact hrest
  | cons w ws =>
      intro c hc
      have : c = ' ' := by simpa [spaced] using hc.symm
      subst this
      rfl

theorem scanWord_word {w : Text} (hw : IsWord w) (hrest : Blank rest) :
    scanWord (w ++ rest) = some (w, rest) := scanWord_append hw.1 hw.2 hrest

theorem scanWord_spaced {w : Text} {ws : List Text} (hw : IsWord w) (hrest : Blank rest) :
    scanWord (spaced (w :: ws) ++ rest) = some (w, spaced ws ++ rest) := by
  have h : spaced (w :: ws) ++ rest = ' ' :: (w ++ (spaced ws ++ rest)) := by
    simp [spaced]
  rw [h, scanWord_space rfl, scanWord_word hw (blank_spaced hrest ws)]

theorem serve_command {word : Text} {v : Verb} (hword : IsWord word)
    (hv : Verb.ofWord word = some v) (args : List Text) (hrest : Blank rest) (rounds : Nat) :
    serve lp m rounds (joinWords (word :: args) ++ rest) s =
      command lp m rounds v { s with input := spaced args ++ rest, output := [] } := by
  have hscan : scanWord (joinWords (word :: args) ++ rest) =
      some (word, spaced args ++ rest) := by
    rw [joinWords_cons, List.append_assoc]
    exact scanWord_word hword (blank_spaced hrest args)
  have hrun := iscanf_run (s := { s with input := joinWords (word :: args) ++ rest, output := [] })
    hscan "No data in infifo."
  rw [serve, dispatch, bind_run hrun, hv]

/-! ## Partitions

A command that follows `disk` has one, and an id that can be read stands for at most one partition
of it. -/

theorem assertDisk_run (h : (s.entry s.deviceName).disk = some d) (site : Site) :
    assertDisk site s = .ok ((), s) := by
  show (if (s.entry s.deviceName).disk.isSome = true then pure ()
    else throw (.assertion site) : Server W Unit) s = _
  rw [h]
  rfl

/-- The partition that an id stands for. -/
def State.partitionId (s : State W) (lp : Libparted W) (name id : Text) : Option PartId := do
  let d ← (s.entry name).disk
  let (range, _) ← scanRange id
  d.withId (lp.device s.world d.dev).sectorSize range.1 range.2

theorem partitionWithId_run {id : Text} {range : Int × Int} (hr : scanRange id = some (range, rest))
    (hd : (s.entry s.deviceName).disk = some d) (hss : (lp.device s.world d.dev).sectorSize ≠ 0) :
    partitionWithId lp id s =
      .ok (d.withId (lp.device s.world d.dev).sectorSize range.1 range.2, s) := by
  obtain ⟨start, finish⟩ := range
  unfold partitionWithId
  rw [hr]
  show (theDisk s >>= fun p => _) = _
  rw [theDisk_run hd]
  show (if (lp.device s.world d.dev).sectorSize = 0 then throw .divisionByZero
    else pure _ : Server W (Option PartId)) s = _
  rw [if_neg hss]
  rfl

theorem withPartition_run (hss : ∀ w dev, (lp.device w dev).sectorSize ≠ 0) {name id rest' : Text}
    {dev : DevId} {r : (Int × Int) × Text}
    (body : Text → DevId → Text → Option PartId → Server W Unit)
    (hscan : scanWord s.input = some (name, rest)) (hdev : (s.entry name).dev = some dev)
    (hd : (s.entry name).disk = some d) (hid : scanWord rest = some (id, rest'))
    (hr : scanRange id = some r) :
    ∃ ds, withPartition lp body s =
        body name dev id (s.partitionId lp name id) (s.on name rest' ds) ∧ Extends s ds := by
  obtain ⟨ds, hrun, hext⟩ := withDevice_run (fun name dev => do
    let id ← scanPartitionId
    let part ← partitionWithId lp id
    body name dev id part) hscan hdev
  refine ⟨ds, hrun.trans ?_, hext⟩
  show (iscanf scanWord "Expected partition id" (s.on name rest ds) >>= fun p => _) = _
  rw [iscanf_run (s := s.on name rest ds) hid]
  show (partitionWithId lp id (s.on name rest' ds) >>= fun p => _) = _
  obtain ⟨range, rest''⟩ := r
  have hd' : ((s.on name rest' ds).entry name).disk = some d :=
    (congrArg Devdisk.disk (hext.entry name)).trans hd
  rw [partitionWithId_run (s := s.on name rest' ds) hr hd' (hss _ _)]
  unfold State.partitionId
  rw [hd, hr]
  rfl

end DebianInstaller.Partman.Parted
