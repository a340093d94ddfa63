import DebianInstaller.Partman.Commands
import Mathlib.Tactic.Linarith
import Mathlib.Tactic.Ring

/-!
# Where a new partition is put

`NEW_PARTITION` gets the free space in bytes, from its first byte to its last, and makes sectors
from it. The last byte of a partition at the beginning is taken to be the first one behind it, and
the first byte of a partition at the end to be the last one before it. With either the partition
has one sector more than the whole sectors of the length asked for, which is never too little. But
if the length fills the free space, that sector is one of a neighbour. At the beginning of a disk
the division rounds the sector before the first one up to the first one, unless a sector is a byte.
-/

namespace DebianInstaller.Partman.Parted

open Programs Text

variable {W : Type}

variable {length : Int}

/-- Free space of whole sectors; its bytes have numbers of type `long long`. -/
structure FreeSpace where
  sectorSize : Int
  first : Int
  last : Int
  sectorSize_pos : 1 ≤ sectorSize
  first_nonneg : 0 ≤ first
  first_le : first ≤ last
  fits : (last + 1) * sectorSize ≤ 2 ^ 63

variable {space : FreeSpace}

namespace FreeSpace

variable (space : FreeSpace)

/-- The first byte and the last, as in `rangeText`. -/
def range : Int × Int :=
  (space.first * space.sectorSize, space.last * space.sectorSize + space.sectorSize - 1)

def size : Int := (space.last - space.first + 1) * space.sectorSize

end FreeSpace

/-- The positions that `command_new_partition` knows. -/
inductive Position where
  | full
  | beginning
  | ending
  deriving DecidableEq

def Position.text : Position → Text
  | .full => "full"
  | .beginning => "beginning"
  | .ending => "end"

/-- The sectors from `start` to `finish` have room for the length, with at most one to spare. -/
def Covers (sectorSize length start finish : Int) : Prop :=
  length ≤ (finish - start + 1) * sectorSize ∧
    (finish - start + 1) * sectorSize ≤ length + sectorSize

/-- What a partition at a position is to be. -/
def Placed (space : FreeSpace) (length : Int) (position : Position) (sectors : Int × Int) : Prop :=
  (space.first ≤ sectors.1 ∧ sectors.2 ≤ space.last) ∧
    match position with
    | .full => sectors.1 = space.first ∧ sectors.2 = space.last
    | .beginning => sectors.1 = space.first ∧ Covers space.sectorSize length sectors.1 sectors.2
    | .ending => sectors.2 = space.last ∧ Covers space.sectorSize length sectors.1 sectors.2

/-! ## The sectors -/

theorem quot_pair {a b c : Int} (hc : c ≠ 0) (s : State W) :
    (do
      let start ← quot a c
      let finish ← quot b c
      pure (start, finish) : Server W (Int × Int)) s = .ok ((a.tdiv c, b.tdiv c), s) := by
  unfold quot
  rw [if_neg hc, if_neg hc]
  rfl

namespace FreeSpace

variable (space : FreeSpace)

theorem sectorSize_ne : space.sectorSize ≠ 0 := by
  have := space.sectorSize_pos
  omega

theorem range_fst_nonneg : 0 ≤ space.range.1 :=
  mul_nonneg space.first_nonneg (by have := space.sectorSize_pos; omega)

theorem range_lt : space.range.2 < 2 ^ 63 := by
  have hfits := space.fits
  unfold range
  linarith

theorem range_fst_tdiv : space.range.1.tdiv space.sectorSize = space.first :=
  Int.mul_tdiv_cancel _ space.sectorSize_ne

theorem range_snd_tdiv :
    (longLong (space.range.2 - space.sectorSize + 1)).tdiv space.sectorSize = space.last := by
  have hfirst := space.range_fst_nonneg
  have hlt := space.range_lt
  have hpos := space.sectorSize_pos
  have hlast : space.range.2 - space.sectorSize + 1 = space.last * space.sectorSize := by
    unfold range
    ring
  have hnonneg : 0 ≤ space.last * space.sectorSize :=
    mul_nonneg (space.first_nonneg.trans space.first_le) (by omega)
  rw [longLong_eq (by omega) (by omega), hlast, Int.mul_tdiv_cancel _ space.sectorSize_ne]

end FreeSpace

/-- The sectors that are computed for a position. -/
def Position.sectors (space : FreeSpace) (length : Int) : Position → Int × Int
  | .full => (space.first, space.last)
  | .beginning => (space.first, (longLong (space.range.1 + length)).tdiv space.sectorSize)
  | .ending => ((longLong (space.range.2 - length)).tdiv space.sectorSize, space.last)

theorem position_unique {w : Text} {p q : Position} (hp : sameIgnoringCase w p.text = true)
    (hq : sameIgnoringCase w q.text = true) : p = q := by
  have hlower := (beq_iff_eq.1 hp).symm.trans (beq_iff_eq.1 hq)
  revert hlower
  cases p <;> cases q <;> decide

theorem sectors_eq {new : NewPartition} {p : Position} (hrange : new.range = space.range)
    (hp : sameIgnoringCase new.position p.text = true) (s : State W) :
    new.sectors space.sectorSize s = .ok (p.sectors space new.length, s) := by
  have hother : ∀ q : Position, q ≠ p → ¬ sameIgnoringCase new.position q.text = true :=
    fun q hne hq => hne (position_unique hq hp)
  have hfull : p ≠ .full → ¬ sameIgnoringCase new.position "full" = true :=
    fun h => hother .full h.symm
  have hbeginning : p ≠ .beginning → ¬ sameIgnoringCase new.position "beginning" = true :=
    fun h => hother .beginning h.symm
  have hne := space.sectorSize_ne
  unfold NewPartition.sectors
  cases p with
  | full =>
      have hp : sameIgnoringCase new.position "full" = true := hp
      rw [if_pos hp, quot_pair hne, hrange, space.range_fst_tdiv, space.range_snd_tdiv]
      rfl
  | beginning =>
      have hp : sameIgnoringCase new.position "beginning" = true := hp
      rw [if_neg (hfull (by decide)), if_pos hp, quot_pair hne, hrange, space.range_fst_tdiv]
      rfl
  | ending =>
      have hp : sameIgnoringCase new.position "end" = true := hp
      rw [if_neg (hfull (by decide)), if_neg (hbeginning (by decide)), if_pos hp, quot_pair hne,
        hrange, space.range_snd_tdiv]
      rfl

/-! ## Inside and large enough -/

theorem covers_of_ediv {s start finish : Int} (hs : 1 ≤ s) (h : finish - start = length / s) :
    Covers s length start finish := by
  have hle : length / s * s ≤ length := Int.ediv_mul_le _ (by omega)
  have hlt : length < (length / s + 1) * s := Int.lt_ediv_add_one_mul_self _ (by omega)
  have hone : (length / s + 1) * s = length / s * s + s := by ring
  unfold Covers
  rw [h]
  omega

theorem placed_full (space : FreeSpace) (length : Int) :
    Placed space length .full (Position.full.sectors space length) :=
  ⟨⟨le_refl _, le_refl _⟩, rfl, rfl⟩

/-- With the beginning of the free space, the length ends in the sector that is taken for the last
one unless it fills the free space. -/
theorem placed_beginning_iff (hpos : 0 < length) (hsize : length ≤ space.size) :
    Placed space length .beginning (Position.beginning.sectors space length) ↔
      length < space.size := by
  have hs := space.sectorSize_pos
  have hfirst := space.range_fst_nonneg
  have hfits := space.fits
  have hend : space.range.1 + space.size = (space.last + 1) * space.sectorSize := by
    unfold FreeSpace.range FreeSpace.size
    ring
  rcases lt_or_eq_of_le (show space.range.1 + length ≤ 2 ^ 63 by omega) with hlt | hwrap
  · have hsum : (longLong (space.range.1 + length)).tdiv space.sectorSize
        = space.first + length / space.sectorSize := by
      rw [longLong_eq (by omega) hlt, Int.tdiv_eq_ediv_of_nonneg (by omega), FreeSpace.range,
        Int.add_comm, Int.add_mul_ediv_right _ _ space.sectorSize_ne, Int.add_comm]
    have hcovers : Covers space.sectorSize length space.first
        (space.first + length / space.sectorSize) := covers_of_ediv hs (by omega)
    have hinside : length / space.sectorSize < space.last - space.first + 1 ↔
        length < space.size := Int.ediv_lt_iff_lt_mul hs
    simp only [Placed, Position.sectors, hsum, hcovers, le_refl, true_and, and_true]
    rw [← hinside]
    omega
  · -- The byte behind the last one has no number of type `long long`.
    have hneg : (longLong (space.range.1 + length)).tdiv space.sectorSize < 0 := by
      have hle : space.sectorSize ≤ (space.last + 1) * space.sectorSize :=
        le_mul_of_one_le_left (by omega) (by have := space.first_nonneg.trans space.first_le; omega)
      have hdiv : 1 ≤ (2 ^ 63 : Int) / space.sectorSize :=
        (Int.le_ediv_iff_mul_le (by omega)).2 (by omega)
      have hlong : longLong (2 ^ 63) = -2 ^ 63 := by decide
      rw [hwrap, hlong, Int.neg_tdiv, Int.tdiv_eq_ediv_of_nonneg (by omega)]
      omega
    have hnone : ¬ Placed space length .beginning (Position.beginning.sectors space length) := by
      intro h
      have hcovers := h.2.2.1
      simp only [Position.sectors] at hcovers
      have hle := mul_nonpos_of_nonpos_of_nonneg
        (show (longLong (space.range.1 + length)).tdiv space.sectorSize - space.first + 1 ≤ 0 by
          have := space.first_nonneg
          omega) (show 0 ≤ space.sectorSize by omega)
      omega
    refine iff_of_false hnone ?_
    omega

theorem ending_tdiv (hsize : length ≤ space.range.2) (hpos : 0 < length) :
    (longLong (space.range.2 - length)).tdiv space.sectorSize
      = space.last - length / space.sectorSize := by
  have hs := space.sectorSize_pos
  have hlt := space.range_lt
  have hmod : length / space.sectorSize * space.sectorSize + length % space.sectorSize = length := by
    rw [Int.mul_comm]
    exact Int.mul_ediv_add_emod length space.sectorSize
  have hrest := Int.emod_nonneg length space.sectorSize_ne
  have hrest' := Int.emod_lt_of_pos length (show 0 < space.sectorSize by omega)
  have hsplit : space.range.2 - length = (space.sectorSize - 1 - length % space.sectorSize)
      + (space.last - length / space.sectorSize) * space.sectorSize := by
    unfold FreeSpace.range
    linarith
  rw [longLong_eq (by omega) (by omega), Int.tdiv_eq_ediv_of_nonneg (by omega), hsplit,
    Int.add_mul_ediv_right _ _ space.sectorSize_ne,
    Int.ediv_eq_zero_of_lt (by omega) (by omega), Int.zero_add]

theorem placed_ending_iff (hpos : 0 < length) (hsize : length ≤ space.size) :
    Placed space length .ending (Position.ending.sectors space length) ↔
      length < space.size ∨ (space.first = 0 ∧ space.sectorSize ≠ 1) := by
  have hs := space.sectorSize_pos
  have hfirst := space.range_fst_nonneg
  have hlt := space.range_lt
  have hend : space.range.1 + space.size = space.range.2 + 1 := by
    unfold FreeSpace.range FreeSpace.size
    ring
  rcases lt_or_ge space.range.2 length with hover | hle
  · -- Then there is nothing before the free space, and -1 is divided.
    have hzero : space.first = 0 :=
      (mul_eq_zero.1 (show space.first * space.sectorSize = 0 by
        have heq : space.range.1 = 0 := by omega
        exact heq)).resolve_right space.sectorSize_ne
    have hlength : length = space.size := by omega
    have hminus : space.range.2 - length = -1 := by omega
    have hlong : longLong (-1) = -1 := by decide
    rcases lt_or_eq_of_le hs with hlarge | hone
    · have hsector : (-1 : Int).tdiv space.sectorSize = 0 := by
        rw [Int.neg_tdiv, Int.tdiv_eq_ediv_of_nonneg (by omega),
          Int.ediv_eq_zero_of_lt (by omega) hlarge, Int.neg_zero]
      have hsize' : (space.last - 0 + 1) * space.sectorSize = length := by
        rw [hlength, FreeSpace.size, hzero]
      refine iff_of_true ?_ (.inr ⟨hzero, by omega⟩)
      simp only [Placed, Position.sectors, Covers, hminus, hlong, hsector, hzero, hsize', le_refl,
        true_and]
      omega
    · have hsector : (-1 : Int).tdiv space.sectorSize = -1 := by
        rw [← hone]
        decide
      refine iff_of_false (fun h => ?_) (by omega)
      have hge := h.1.1
      simp only [Position.sectors, hminus, hlong, hsector] at hge
      omega
  · have hcovers : Covers space.sectorSize length (space.last - length / space.sectorSize)
        space.last := covers_of_ediv hs (by omega)
    have hinside : length / space.sectorSize < space.last - space.first + 1 ↔
        length < space.size := Int.ediv_lt_iff_lt_mul hs
    have hstart : space.first = 0 → length < space.size := by
      intro hzero
      have heq : space.range.1 = 0 := by
        rw [FreeSpace.range, hzero, Int.zero_mul]
      omega
    simp only [Placed, Position.sectors, ending_tdiv hle hpos, hcovers, le_refl, and_true]
    rw [or_iff_left_of_imp fun h => hstart h.1, ← hinside]
    omega

/-- A position is right unless the length fills the free space, and even then the whole free space
is right, and so is the end of it where it begins with the disk and a sector is not a byte. -/
theorem new_partition_placed_iff {space : FreeSpace} {new : NewPartition} {p : Position}
    (hrange : new.range = space.range) (hp : sameIgnoringCase new.position p.text = true)
    (hpos : 0 < new.length) (hsize : new.length ≤ space.size) (s : State W) :
    (∃ sectors, new.sectors space.sectorSize s = .ok (sectors, s) ∧
      Placed space new.length p sectors) ↔
      p = .full ∨ new.length < space.size ∨
        (p = .ending ∧ space.first = 0 ∧ space.sectorSize ≠ 1) := by
  have hplaced : (∃ sectors, new.sectors space.sectorSize s = .ok (sectors, s) ∧
      Placed space new.length p sectors) ↔ Placed space new.length p (p.sectors space new.length) := by
    constructor
    · rintro ⟨sectors, hrun, h⟩
      rw [sectors_eq hrange hp] at hrun
      obtain rfl := (Prod.mk.inj (Except.ok.inj hrun)).1
      exact h
    · intro h
      exact ⟨_, sectors_eq hrange hp s, h⟩
  rw [hplaced]
  cases p with
  | full => exact iff_of_true (placed_full space new.length) (.inl rfl)
  | beginning =>
      rw [placed_beginning_iff hpos hsize]
      simp
  | ending =>
      rw [placed_ending_iff hpos hsize]
      simp

/-- Ten sectors of 512 bytes behind the first mebibyte. -/
def tenSectors : FreeSpace where
  sectorSize := 512
  first := 2048
  last := 2057
  sectorSize_pos := by decide
  first_nonneg := by decide
  first_le := by decide
  fits := by decide

/-- `NEW_PARTITION` there, at the beginning. -/
def atBeginning (length : Int) : NewPartition :=
  ⟨"primary", "ext2", tenSectors.range, "beginning", length⟩

/-- A server that has done nothing. -/
def untouched : State Unit := { world := (), alignment := .optimal }

theorem new_partition_placed_half :
    ∃ sectors, (atBeginning 2560).sectors tenSectors.sectorSize untouched =
        .ok (sectors, untouched) ∧
      Placed tenSectors 2560 .beginning sectors :=
  (new_partition_placed_iff rfl (p := .beginning) (by decide) (by decide) (by decide) untouched).2
    (.inr (.inl (by decide)))

/-- A length that fills the ten sectors gets eleven. -/
theorem new_partition_fills :
    ¬ ∀ (space : FreeSpace) (new : NewPartition) (p : Position) (s : State Unit),
      new.range = space.range → sameIgnoringCase new.position p.text = true → 0 < new.length →
        new.length ≤ space.size →
        ∃ sectors, new.sectors space.sectorSize s = .ok (sectors, s) ∧
          Placed space new.length p sectors := by
  intro hall
  obtain ⟨sectors, hrun, hplaced⟩ := hall tenSectors (atBeginning 5120) .beginning untouched rfl
    (by decide) (by decide) (by decide)
  obtain rfl := (Prod.mk.inj (Except.ok.inj (hrun.symm.trans
    (sectors_eq (p := .beginning) rfl (by decide) _)))).1
  have hinside : (Position.sectors tenSectors 5120 .beginning).2 ≤ tenSectors.last := hplaced.1.2
  revert hinside
  decide

end DebianInstaller.Partman.Parted
