import Mathlib.Algebra.Order.Floor.Div
import Mathlib.Data.Nat.ModEq
import Mathlib.Tactic.Ring

/-!
# Writing to the flash

`main` goes through a number of checks and writes. It stops at the first check that fails, so what
has been written by then are the writes in front of that check. The sizes that the checks compare
are in part those that `stat` gave at the beginning, and these are the sizes of the names and not
of the files: behind a symbolic link there may be a file of any size.
-/

namespace DebianInstaller.FlashKernel

/-! ## Runs -/

inductive Partition where
  | kernel
  | initrd
  deriving DecidableEq

/-- So many bytes of data, and what the tool makes of them. -/
structure Write where
  part : Partition
  data : ℕ
  bytes : ℕ
  deriving DecidableEq

inductive Stage where
  | require (ok : Bool)
  | write (w : Write)

structure Outcome where
  writes : List Write
  failed : Bool
  deriving DecidableEq

def run : List Stage → Outcome
  | [] => ⟨[], false⟩
  | .require false :: _ => ⟨[], true⟩
  | .require true :: rest => run rest
  | .write w :: rest => ⟨w :: (run rest).writes, (run rest).failed⟩

/-- The writes that a run does if no check fails. -/
def planned : List Stage → List Write
  | [] => []
  | .require _ :: rest => planned rest
  | .write w :: rest => w :: planned rest

@[simp]
theorem run_nil : run [] = ⟨[], false⟩ := rfl

@[simp]
theorem planned_nil : planned [] = [] := rfl

@[simp]
theorem run_require (ok : Bool) : run [.require ok] = ⟨[], !ok⟩ := by
  cases ok <;> rfl

@[simp]
theorem run_write (w : Write) : run [.write w] = ⟨[w], false⟩ := rfl

@[simp]
theorem planned_require (ok : Bool) (rest : List Stage) :
    planned (.require ok :: rest) = planned rest := rfl

@[simp]
theorem planned_write (w : Write) (rest : List Stage) :
    planned (.write w :: rest) = w :: planned rest := rfl

theorem run_cons (s : Stage) (rest : List Stage) :
    run (s :: rest) = ⟨(run [s]).writes ++ (if (run [s]).failed then [] else (run rest).writes),
      (run [s]).failed || (run rest).failed⟩ := by
  cases s with
  | require ok => cases ok <;> simp [run]
  | write w => simp [run]

theorem run_append (a b : List Stage) :
    run (a ++ b) = ⟨(run a).writes ++ (if (run a).failed then [] else (run b).writes),
      (run a).failed || (run b).failed⟩ := by
  induction a with
  | nil => simp
  | cons s rest ih =>
    rw [List.cons_append, run_cons, ih, run_cons s rest]
    cases (run [s]).failed <;> simp

@[simp]
theorem planned_append (a b : List Stage) : planned (a ++ b) = planned a ++ planned b := by
  induction a with
  | nil => rfl
  | cons s rest ih =>
    cases s with
    | require ok => simp [ih]
    | write w => simp [ih]

theorem run_writes (stages : List Stage) :
    (run stages).writes <+: planned stages ∧
      ((run stages).failed = false → (run stages).writes = planned stages) := by
  induction stages with
  | nil => exact ⟨List.prefix_rfl, fun _ => rfl⟩
  | cons s rest ih =>
    cases s with
    | require ok =>
      cases ok with
      | false => exact ⟨List.nil_prefix, fun h => by simp [run] at h⟩
      | true => exact ih
    | write w =>
      obtain ⟨hpre, hall⟩ := ih
      refine ⟨List.prefix_cons_inj w |>.mpr hpre, fun h => ?_⟩
      show w :: (run rest).writes = w :: planned rest
      rw [hall h]

def WritesFit (size : Partition → ℕ) (stages : List Stage) : Prop :=
  ∀ w ∈ (run stages).writes, w.bytes ≤ size w.part

/-- Every write fits, and where the data does not fit the run fails before it writes there. -/
def Safe (size : Partition → ℕ) (stages : List Stage) : Prop :=
  WritesFit size stages ∧
    ∀ w ∈ planned stages, size w.part < w.data →
      (run stages).failed = true ∧ ∀ v ∈ (run stages).writes, v.part ≠ w.part

section

variable {size : Partition → ℕ}

theorem writesFit_append (a b : List Stage) :
    WritesFit size (a ++ b) ↔
      WritesFit size a ∧ ((run a).failed = false → WritesFit size b) := by
  unfold WritesFit
  rw [run_append]
  cases (run a).failed <;> simp [or_imp, forall_and]

theorem failed_require (ok : Bool) (rest : List Stage) :
    (run (.require ok :: rest)).failed = false ↔ ok = true ∧ (run rest).failed = false := by
  cases ok <;> simp [run]

theorem writesFit_require (ok : Bool) (rest : List Stage) :
    WritesFit size (.require ok :: rest) ↔ (ok = true → WritesFit size rest) := by
  cases ok <;> simp [WritesFit, run]

@[simp]
theorem writesFit_nil : WritesFit size [] := by
  intro w hw
  cases hw

/-- If every partition is written once, and no tool writes less than the data, the writes that
happen are all there is to look at. -/
theorem safe_iff {stages : List Stage}
    (honce : ((planned stages).map Write.part).Nodup)
    (hdata : ∀ w ∈ planned stages, w.data ≤ w.bytes) :
    Safe size stages ↔ WritesFit size stages := by
  refine ⟨And.left, fun hfits => ⟨hfits, fun w hw hlarge => ?_⟩⟩
  obtain ⟨hpre, hall⟩ := run_writes stages
  have hnot : w ∉ (run stages).writes := by
    intro hmem
    have hbytes := hfits w hmem
    have hle := hdata w hw
    omega
  constructor
  · cases hfailed : (run stages).failed with
    | true => rfl
    | false => exact absurd (by rw [hall hfailed]; exact hw) hnot
  · intro v hv hsame
    have heq : v = w := List.inj_on_of_nodup_map honce (hpre.subset hv) hw hsame
    exact hnot (heq ▸ hv)

end

/-! ## Partitions -/

inductive FlashType where
  | nand
  | nor
  | other
  deriving DecidableEq

/-- A partition is a number of pages. -/
structure Mtd where
  type : FlashType
  size : ℕ
  page : ℕ
  page_pos : 0 < page
  pages : page ∣ size

/-- `n` bytes in blocks that are all full. -/
def filled (block n : ℕ) : ℕ := block * (n ⌈/⌉ block)

theorem le_filled {block : ℕ} (hblock : 0 < block) (n : ℕ) : n ≤ filled block n :=
  le_smul_ceilDiv hblock

theorem filled_le_iff {block size : ℕ} (hblock : 0 < block) (hsize : block ∣ size) (n : ℕ) :
    filled block n ≤ size ↔ n ≤ size := by
  obtain ⟨c, rfl⟩ := hsize
  unfold filled
  rw [Nat.mul_le_mul_left_iff hblock, ceilDiv_le_iff_le_mul hblock]

/-- What is in `PROC_MTD` about a partition, if the machine has a name for it. -/
def mtdsize (mtd : Option Mtd) : ℕ := (mtd.map Mtd.size).getD 0

/-- `check_mtd_size`. The comparison is false also when one of the numbers is empty. -/
def checkMtdSize (required : Option ℕ) (mtd : Option Mtd) : Stage :=
  match required, mtd with
  | some n, some m => .require (n ≤ m.size)
  | _, _ => .require true

/-- `write_mtd`: there is a type for the device, and `nandwrite -p` fills the last page. -/
def writeMtd (part : Partition) (n : ℕ) (mtd : Option Mtd) : List Stage :=
  match mtd with
  | none => [.require false]
  | some m =>
      match m.type with
      | .nand => [.write ⟨part, n, filled m.page n⟩]
      | .nor => [.write ⟨part, n, n⟩]
      | .other => [.require false]

/-- The partition can be written by `write_mtd`. -/
def Mtd.Known (m : Mtd) : Prop := m.type ≠ .other

theorem writeMtd_fits {size : Partition → ℕ} {part : Partition} {mtd : Option Mtd}
    (hsize : size part = mtdsize mtd) (n : ℕ) :
    WritesFit size (writeMtd part n mtd) ↔ ∀ m, mtd = some m → m.Known → n ≤ m.size := by
  unfold WritesFit
  cases mtd with
  | none => simp [writeMtd]
  | some m =>
    have hm : size part = m.size := hsize
    simp only [writeMtd, Option.some.injEq, forall_eq']
    cases htype : m.type with
    | nand => simp [Mtd.Known, htype, hm, filled_le_iff m.page_pos m.pages]
    | nor => simp [Mtd.Known, htype, hm]
    | other => simp [Mtd.Known, htype]

theorem writeMtd_failed (part : Partition) (n : ℕ) (mtd : Option Mtd) :
    (run (writeMtd part n mtd)).failed = false ↔ ∃ m, mtd = some m ∧ m.Known := by
  cases mtd with
  | none => simp [writeMtd]
  | some m => cases htype : m.type <;> simp [writeMtd, Mtd.Known, htype]

/-- Nothing, or one write to this partition, of no less than the data. -/
def AtMost (part : Partition) (writes : List Write) : Prop :=
  writes = [] ∨ ∃ data bytes, data ≤ bytes ∧ writes = [⟨part, data, bytes⟩]

theorem atMost_writeMtd (part : Partition) (n : ℕ) (mtd : Option Mtd) :
    AtMost part (planned (writeMtd part n mtd)) := by
  cases mtd with
  | none => exact .inl rfl
  | some m =>
    cases htype : m.type with
    | nand => exact .inr ⟨n, _, le_filled m.page_pos n, by simp [writeMtd, htype]⟩
    | nor => exact .inr ⟨n, n, le_rfl, by simp [writeMtd, htype]⟩
    | other => exact .inl (by simp [writeMtd, htype])

theorem safe_iff_writesFit {size : Partition → ℕ} {stages : List Stage} {kernel initrd : List Write}
    (hplanned : planned stages = kernel ++ initrd)
    (hkernel : AtMost .kernel kernel) (hinitrd : AtMost .initrd initrd) :
    Safe size stages ↔ WritesFit size stages := by
  apply safe_iff
  · rw [hplanned]
    obtain rfl | ⟨d, b, -, rfl⟩ := hkernel
    · obtain rfl | ⟨d', b', -, rfl⟩ := hinitrd <;> simp
    · obtain rfl | ⟨d', b', -, rfl⟩ := hinitrd <;> simp
  · rw [hplanned]
    obtain rfl | ⟨d, b, hle, rfl⟩ := hkernel
    · obtain rfl | ⟨d', b', hle', rfl⟩ := hinitrd <;> simp [*]
    · obtain rfl | ⟨d', b', hle', rfl⟩ := hinitrd <;> simp [*]

end DebianInstaller.FlashKernel
