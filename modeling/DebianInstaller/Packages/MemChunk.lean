import Mathlib.Data.Nat.ModEq
import Mathlib.Data.List.Pairwise

/-!
# Memory chunks

A memory chunk hands out pieces of one size. It takes memory from the allocator an area at a
time, with a header in front of the pieces, and goes through the current area until the next
piece does not fit into it.

A piece is as long as an atom rounded up to the alignment, but the size of an area is computed
from the atom as it is, and then it may be rounded down. What saves the first piece of an area
is that an area is a power of two, which is aligned itself: where an atom fits behind the header,
the atom rounded up does.
-/

namespace DebianInstaller.Packages

/-- What `size_t` and pointers are. -/
inductive Machine where
  | bits32
  | bits64
  deriving DecidableEq

/-- `sizeof (void *)`, which is `sizeof (size_t)` too. -/
def Machine.pointer : Machine → ℕ
  | .bits32 => 4
  | .bits64 => 8

/-- The values of a `size_t`. -/
def Machine.range : Machine → ℕ
  | .bits32 => 2 ^ 32
  | .bits64 => 2 ^ 64

/-- What is stored in a `size_t`. -/
def Machine.wrap (m : Machine) (n : ℕ) : ℕ := n % m.range

/-- `sizeof (di_mem_area) - MEM_AREA_SIZE`: two pointers and three sizes. -/
def Machine.header (m : Machine) : ℕ := 5 * m.pointer

/-- `while (power_of_2 < size) power_of_2 <<= 1;`, for a number of rounds. -/
def Machine.doubled (m : Machine) (size : ℕ) : ℕ → ℕ → Option ℕ
  | 0, _ => none
  | n + 1, power_of_2 =>
      if power_of_2 < size then m.doubled size n (m.wrap (2 * power_of_2)) else some power_of_2

/-- `internal_di_mem_chunk_compute_size`, if it comes back. -/
def Machine.computeSize (m : Machine) (size min_size : ℕ) : Option ℕ :=
  (m.doubled size 64 16).map fun upper =>
    let lower := upper / 2
    if m.wrap (m.range + size - lower) < m.wrap (m.range + upper - size) ∧ min_size ≤ lower then
      lower
    else upper

/-- `di_mem_area`, and where it is. -/
structure MemArea where
  base : ℕ
  index : ℕ
  free : ℕ
  allocated : ℕ
  deriving DecidableEq

/-- `di_mem_chunk`. The current area is the first of `mem_areas`. -/
structure MemChunk where
  num_mem_areas : ℕ
  atom_size : ℕ
  area_size : ℕ
  rarea_size : ℕ
  mem_areas : List MemArea
  deriving DecidableEq

/-- The size of an atom, so that the next one is aligned too. -/
def Machine.align (m : Machine) (atom_size : ℕ) : ℕ :=
  if atom_size % m.pointer ≠ 0 then m.wrap (atom_size + (m.pointer - atom_size % m.pointer))
  else atom_size

/-- `di_mem_chunk_new`, if it comes back with a chunk. The parameters are of the type
`di_ksize_t`, which has 32 bits on every machine, and the area is rounded in that type. -/
def Machine.newMemChunk (m : Machine) (atom_size area_size : UInt32) : Option MemChunk :=
  if area_size < atom_size then none
  else
    let area_size := (area_size + atom_size - 1) / atom_size * atom_size
    (m.computeSize (m.wrap (area_size.toNat + m.header))
      (m.wrap (atom_size.toNat + m.header))).map
      fun rarea_size =>
        { num_mem_areas := 0
          atom_size := m.align atom_size.toNat
          area_size := m.wrap (m.range + rarea_size - m.header)
          rarea_size
          mem_areas := [] }

/-- What `di_malloc` hands out at each call, with `size` bytes. -/
structure Allocator (m : Machine) (size : ℕ) where
  malloc : ℕ → ℕ
  aligned : ∀ k, m.pointer ∣ malloc k
  apart : ∀ j k, j ≠ k → malloc j + size ≤ malloc k ∨ malloc k + size ≤ malloc j

/-- Blocks in a row. -/
instance (m : Machine) (size : ℕ) : Inhabited (Allocator m size) where
  default :=
    { malloc := fun k => m.pointer * (size * k)
      aligned := fun k => Nat.dvd_mul_right _ _
      apart := by
        have hpos : 1 ≤ m.pointer := by cases m <;> decide
        have hstep (j k : ℕ) (h : j < k) :
            m.pointer * (size * j) + size ≤ m.pointer * (size * k) := by
          have hmul := Nat.mul_le_mul_left size (Nat.succ_le_of_lt h)
          rw [Nat.mul_succ] at hmul
          calc m.pointer * (size * j) + size ≤ m.pointer * (size * j) + m.pointer * size :=
                Nat.add_le_add_left (Nat.le_mul_of_pos_left size hpos) _
            _ = m.pointer * (size * j + size) := (Nat.mul_add _ _ _).symm
            _ ≤ m.pointer * (size * k) := Nat.mul_le_mul_left _ hmul
        intro j k hjk
        rcases Nat.lt_or_gt_of_ne hjk with h | h
        · exact .inl (hstep j k h)
        · exact .inr (hstep k j h) }

namespace MemChunk

variable {m : Machine}

/-- `(!mem_area) || (index + atom_size) > area_size` -/
def full (m : Machine) (c : MemChunk) : Bool :=
  match c.mem_areas with
  | [] => true
  | area :: _ => decide (c.area_size < m.wrap (area.index + c.atom_size))

/-- A fresh area at `base`. -/
def addArea (c : MemChunk) (base : ℕ) : MemChunk :=
  { c with
    num_mem_areas := c.num_mem_areas + 1
    mem_areas := ⟨base, 0, c.area_size, 0⟩ :: c.mem_areas }

/-- The next piece of the current area. -/
def take (m : Machine) (c : MemChunk) : ℕ × MemChunk :=
  match c.mem_areas with
  | [] => (0, c)
  | area :: areas =>
      (area.base + m.header + area.index,
        { c with
          mem_areas :=
            { area with
              index := m.wrap (area.index + c.atom_size)
              free := m.wrap (m.range + area.free - c.atom_size)
              allocated := area.allocated + 1 } :: areas })

/-- `di_mem_chunk_alloc` -/
def alloc {size : ℕ} (al : Allocator m size) (c : MemChunk) : ℕ × MemChunk :=
  if c.full m then (c.addArea (al.malloc c.num_mem_areas)).take m else c.take m

/-- Some allocations, one after the other: the pieces, with the last one first. -/
def allocs {size : ℕ} (al : Allocator m size) (c : MemChunk) : ℕ → List ℕ × MemChunk
  | 0 => ([], c)
  | n + 1 =>
      let (pieces, c') := c.allocs al n
      let (mem, c'') := c'.alloc al
      (mem :: pieces, c'')

end MemChunk

/-! ## Sizes -/

/-- The area that is asked for, rounded up to whole atoms. -/
def roundedArea (atom_size area_size : UInt32) : ℕ :=
  (area_size.toNat + atom_size.toNat - 1) / atom_size.toNat * atom_size.toNat

/-- None of the sizes that `di_mem_chunk_new` computes overflows: the sum that is rounded is less
than `2 ^ 32`, and there is a `size_t` for a power of two that is not less than the size of an
area with its header. -/
structure Machine.Fits (m : Machine) (atom_size area_size : UInt32) : Prop where
  sum : area_size.toNat + atom_size.toNat - 1 < 2 ^ 32
  size : 2 * (roundedArea atom_size area_size + m.header) ≤ m.range

instance (m : Machine) (atom_size area_size : UInt32) : Decidable (m.Fits atom_size area_size) :=
  decidable_of_iff (area_size.toNat + atom_size.toNat - 1 < 2 ^ 32 ∧
    2 * (roundedArea atom_size area_size + m.header) ≤ m.range)
    ⟨fun h => ⟨h.1, h.2⟩, fun h => ⟨h.sum, h.size⟩⟩

/-- A sum that wraps around: an area of 64 bytes where 3000000000 were asked for. -/
example : (Machine.bits64.newMemChunk 3000000000 3000000000).map (·.rarea_size) = some 64 ∧
    ¬ Machine.bits64.Fits 3000000000 3000000000 := by decide

namespace Machine

variable (m : Machine)

theorem range_eq : ∃ k, m.range = 16 * 2 ^ k ∧ k ≤ 60 := by
  cases m with
  | bits32 => exact ⟨28, rfl, by omega⟩
  | bits64 => exact ⟨60, rfl, le_rfl⟩

theorem pointer_cases : m.pointer = 4 ∨ m.pointer = 8 := by
  cases m with
  | bits32 => exact .inl rfl
  | bits64 => exact .inr rfl

theorem pointer_dvd {n : ℕ} (h : 8 ∣ n) : m.pointer ∣ n := by
  rcases m.pointer_cases with hp | hp
  · exact hp ▸ (by decide : 4 ∣ 8).trans h
  · exact hp ▸ h

theorem range_pos : 0 < m.range := by
  cases m <;> decide

theorem header_pos : 0 < m.header := by
  cases m <;> decide

theorem wrap_of_lt {n : ℕ} (h : n < m.range) : m.wrap n = n := Nat.mod_eq_of_lt h

theorem wrap_sub {a b : ℕ} (hb : b ≤ a) (ha : a < m.range) : m.wrap (m.range + a - b) = a - b := by
  have hsplit : m.range + a - b = a - b + m.range := by omega
  rw [wrap, hsplit, Nat.add_mod_right]
  exact Nat.mod_eq_of_lt (by omega)

theorem doubled_eq {size : ℕ} (hsize : 2 * size ≤ m.range) {n k : ℕ} (hk : 16 * 2 ^ k < m.range)
    (hn : size ≤ 16 * 2 ^ (k + n)) (hless : k = 0 ∨ 16 * 2 ^ k < 2 * size) :
    ∃ j, m.doubled size (n + 1) (16 * 2 ^ k) = some (16 * 2 ^ j) ∧ size ≤ 16 * 2 ^ j ∧
      16 * 2 ^ j < m.range ∧ (j = 0 ∨ 16 * 2 ^ j < 2 * size) := by
  induction n generalizing k with
  | zero =>
      have hge : ¬ 16 * 2 ^ k < size := Nat.not_lt.mpr hn
      rw [doubled, if_neg hge]
      exact ⟨k, rfl, hn, hk, hless⟩
  | succ n ih =>
      rw [doubled]
      by_cases hlt : 16 * 2 ^ k < size
      · have hstep : 2 * (16 * 2 ^ k) = 16 * 2 ^ (k + 1) := by rw [Nat.pow_succ]; omega
        rw [if_pos hlt, m.wrap_of_lt (by omega), hstep]
        refine ih (by omega) ?_ (.inr (by omega))
        rw [Nat.add_right_comm]
        exact hn
      · rw [if_neg hlt]
        exact ⟨k, rfl, by omega, hk, hless⟩

theorem computeSize_eq (size min_size : ℕ) (hsize : 2 * size ≤ m.range) (hmin : min_size ≤ size) :
    ∃ r, m.computeSize size min_size = some r ∧ min_size ≤ r ∧ 8 ∣ r ∧ 2 * r ≤ m.range := by
  obtain ⟨k, hrange, hk⟩ := m.range_eq
  have hstart : (16 : ℕ) = 16 * 2 ^ 0 := rfl
  have hfuel : size ≤ 16 * 2 ^ (0 + 63) := by
    have hpow : 2 ^ k ≤ 2 ^ (0 + 63) := Nat.pow_le_pow_right (by decide) (by omega)
    omega
  have hsmall : 16 * 2 ^ 0 < m.range := by
    cases m <;> decide
  obtain ⟨j, hj, hup, hlt, hless⟩ := m.doubled_eq hsize hsmall hfuel (.inl rfl)
  have hhalf : 16 * 2 ^ j / 2 = 8 * 2 ^ j := by omega
  have htwo : 2 * (16 * 2 ^ j) ≤ m.range := by
    rw [hrange] at hlt ⊢
    have hjk : j < k := (Nat.pow_lt_pow_iff_right (a := 2) (by decide)).mp (by omega)
    have hpow : 2 ^ (j + 1) ≤ 2 ^ k := Nat.pow_le_pow_right (by decide) hjk
    rw [Nat.pow_succ] at hpow
    omega
  have hjpos : 0 < 2 ^ j := Nat.two_pow_pos j
  unfold computeSize
  rw [hstart, hj, Option.map_some]
  dsimp only
  split
  · next hlower =>
      rw [hhalf] at hlower ⊢
      exact ⟨_, rfl, hlower.2, Nat.dvd_mul_right 8 _, by omega⟩
  · exact ⟨_, rfl, by omega, (by decide : 8 ∣ 16).trans (Nat.dvd_mul_right 16 _), htwo⟩

theorem align_spec (atom_size : ℕ) (h : atom_size + m.pointer < m.range) :
    m.pointer ∣ m.align atom_size ∧ atom_size ≤ m.align atom_size ∧
      ∀ n, m.pointer ∣ n → atom_size ≤ n → m.align atom_size ≤ n := by
  have hpos : 0 < m.pointer := by rcases m.pointer_cases with hp | hp <;> omega
  have hdiv := Nat.div_add_mod atom_size m.pointer
  have hlt := Nat.mod_lt atom_size hpos
  unfold align
  split
  · next hmod =>
      rw [m.wrap_of_lt (by omega)]
      have hnext : atom_size + (m.pointer - atom_size % m.pointer) =
          m.pointer * (atom_size / m.pointer + 1) := by
        rw [Nat.mul_succ]
        omega
      refine ⟨hnext ▸ Nat.dvd_mul_right _ _, Nat.le_add_right _ _, ?_⟩
      rintro n ⟨q, rfl⟩ hle
      rw [hnext]
      refine Nat.mul_le_mul_left _ ?_
      have hq : m.pointer * (atom_size / m.pointer) < m.pointer * q := by omega
      exact Nat.lt_of_mul_lt_mul_left hq
  · next hmod =>
      exact ⟨Nat.dvd_of_mod_eq_zero (not_not.mp hmod), le_rfl, fun n _ hle => hle⟩

end Machine

/-! ## Chunks -/

/-- What the sizes of a chunk are for. -/
structure MemChunk.Sound (m : Machine) (c : MemChunk) : Prop where
  aligned : m.pointer ∣ c.atom_size
  room : c.atom_size ≤ c.area_size
  area : c.area_size + m.header = c.rarea_size
  small : 2 * c.rarea_size ≤ m.range

/-- Where the sum does not wrap around, the area that is rounded in 32 bits is the rounded one. -/
theorem toNat_roundedArea {atom_size area_size : UInt32} (hpos : 1 ≤ atom_size.toNat)
    (hsum : area_size.toNat + atom_size.toNat - 1 < 2 ^ 32) :
    ((area_size + atom_size - 1) / atom_size * atom_size).toNat =
        roundedArea atom_size area_size ∧
      area_size.toNat ≤ roundedArea atom_size area_size ∧
      roundedArea atom_size area_size < 2 ^ 32 := by
  have hround : roundedArea atom_size area_size =
      (area_size.toNat + atom_size.toNat - 1) / atom_size.toNat * atom_size.toNat := rfl
  have hdiv := Nat.div_add_mod (area_size.toNat + atom_size.toNat - 1) atom_size.toNat
  have hmod := Nat.mod_lt (area_size.toNat + atom_size.toNat - 1) hpos
  rw [Nat.mul_comm, ← hround] at hdiv
  have hadd : (area_size + atom_size - 1).toNat = area_size.toNat + atom_size.toNat - 1 := by
    have hone : (1 : UInt32).toNat = 1 := rfl
    rw [UInt32.toNat_sub, UInt32.toNat_add, hone]
    omega
  refine ⟨?_, by omega, by omega⟩
  rw [UInt32.toNat_mul, UInt32.toNat_div, hadd, ← hround]
  exact Nat.mod_eq_of_lt (by omega)

theorem Machine.newMemChunk_sound (m : Machine) {atom_size area_size : UInt32}
    (hpos : 1 ≤ atom_size) (hle : atom_size ≤ area_size) (hfits : m.Fits atom_size area_size) :
    ∃ c, m.newMemChunk atom_size area_size = some c ∧ c.atom_size = m.align atom_size.toNat ∧
      c.num_mem_areas = 0 ∧ c.mem_areas = [] ∧ c.Sound m := by
  obtain ⟨hsum, hsize⟩ := hfits
  have hle : atom_size.toNat ≤ area_size.toNat := UInt32.le_iff_toNat_le.mp hle
  obtain ⟨hround, hrounded, -⟩ := toNat_roundedArea (UInt32.le_iff_toNat_le.mp hpos) hsum
  have hheader : m.header = 5 * m.pointer := rfl
  have hpointer := m.pointer_cases
  obtain ⟨haligned, -, hleast⟩ := m.align_spec atom_size.toNat (by omega)
  obtain ⟨r, hr, hmin, hdvd, htwo⟩ := m.computeSize_eq (roundedArea atom_size area_size + m.header)
    (atom_size.toNat + m.header) hsize (by omega)
  have hdvd : m.pointer ∣ r - m.header :=
    Nat.dvd_sub (m.pointer_dvd hdvd) (Dvd.intro_left 5 rfl)
  have harea : m.wrap (m.range + r - m.header) = r - m.header := m.wrap_sub (by omega) (by omega)
  unfold newMemChunk
  rw [if_neg fun hlt => absurd (UInt32.lt_iff_toNat_lt.mp hlt) (by omega)]
  dsimp only
  rw [hround, m.wrap_of_lt (by omega), m.wrap_of_lt (by omega), hr, Option.map_some, harea]
  refine ⟨_, rfl, rfl, rfl, rfl, haligned, hleast (r - m.header) hdvd (by omega), ?_, htwo⟩
  show r - m.header + m.header = r
  omega

namespace MemChunk

variable {m : Machine} {c₀ c : MemChunk} {al : Allocator m c₀.rarea_size} {pieces : List ℕ}

/-- Two pieces do not overlap. -/
def Disjoint (atom_size p q : ℕ) : Prop := p + atom_size ≤ q ∨ q + atom_size ≤ p

/-- A piece lies in an area, behind its header. -/
structure Within (al : Allocator m c₀.rarea_size) (k p : ℕ) : Prop where
  above : al.malloc k + m.header ≤ p
  below : p + c₀.atom_size ≤ al.malloc k + c₀.rarea_size

theorem Within.disjoint {j k p q : ℕ} (hp : Within al j p) (hq : Within al k q) (hjk : j ≠ k) :
    Disjoint c₀.atom_size p q := by
  have hpabove := hp.above
  have hpbelow := hp.below
  have hqabove := hq.above
  have hqbelow := hq.below
  unfold Disjoint
  rcases al.apart j k hjk with hapart | hapart
  · omega
  · omega

/-- After some allocations from `c₀`. The pieces of the current area are in front of its index. -/
structure After (al : Allocator m c₀.rarea_size) (c : MemChunk) (pieces : List ℕ) : Prop where
  atom : c.atom_size = c₀.atom_size
  area : c.area_size = c₀.area_size
  count : c.mem_areas = [] ↔ c.num_mem_areas = 0
  current : ∀ a areas, c.mem_areas = a :: areas → a.base = al.malloc (c.num_mem_areas - 1) ∧
    m.pointer ∣ a.index ∧ a.index + a.free = c₀.area_size
  inside : ∀ p ∈ pieces, m.pointer ∣ p ∧ ∃ k < c.num_mem_areas, Within al k p ∧
    ∀ a areas, c.mem_areas = a :: areas → k + 1 = c.num_mem_areas →
      p + c₀.atom_size ≤ a.base + m.header + a.index
  apart : pieces.Pairwise (Disjoint c₀.atom_size)

theorem After.start (al : Allocator m c.rarea_size) (hnum : c.num_mem_areas = 0)
    (hareas : c.mem_areas = []) : After al c [] where
  atom := rfl
  area := rfl
  count := iff_of_true hareas hnum
  current a areas h := by
    rw [hareas] at h
    cases h
  inside p hp := absurd hp List.not_mem_nil
  apart := .nil

theorem After.addArea (h : After al c pieces) :
    After al (c.addArea (al.malloc c.num_mem_areas)) pieces where
  atom := h.atom
  area := h.area
  count := iff_of_false (List.cons_ne_nil _ _) (Nat.succ_ne_zero _)
  current a areas heq := by
    obtain ⟨rfl, rfl⟩ := List.cons.inj heq
    exact ⟨rfl, Nat.dvd_zero _, (Nat.zero_add _).trans h.area⟩
  inside p hp := by
    obtain ⟨hdvd, k, hk, hwithin, -⟩ := h.inside p hp
    refine ⟨hdvd, k, Nat.lt_succ_of_lt hk, hwithin, fun a areas _ hlast => ?_⟩
    have hnum : (c.addArea (al.malloc c.num_mem_areas)).num_mem_areas = c.num_mem_areas + 1 := rfl
    omega
  apart := h.apart

/-- A piece that is cut from an area with room for it. -/
theorem After.take (hsound : c₀.Sound m) (h : After al c pieces) {a : MemArea}
    {areas : List MemArea} (hareas : c.mem_areas = a :: areas)
    (hroom : a.index + c.atom_size ≤ c.area_size) :
    After al (c.take m).2 ((c.take m).1 :: pieces) := by
  obtain ⟨hbase, hindex, hfree⟩ := h.current a areas hareas
  have hatom := h.atom
  have harea := h.area
  have hrarea := hsound.area
  have hsmall := hsound.small
  have hrange := m.range_pos
  have hne : c.num_mem_areas ≠ 0 := fun hzero => by
    rw [h.count.mpr hzero] at hareas
    cases hareas
  have hwrap : m.wrap (a.index + c.atom_size) = a.index + c.atom_size := m.wrap_of_lt (by omega)
  have hrest : m.wrap (m.range + a.free - c.atom_size) = a.free - c.atom_size :=
    m.wrap_sub (by omega) (by omega)
  have hnew : Within al (c.num_mem_areas - 1) (a.base + m.header + a.index) := by
    refine ⟨by omega, ?_⟩
    rw [← hbase]
    omega
  have htake : c.take m = (a.base + m.header + a.index,
      { c with mem_areas :=
        { a with
          index := a.index + c.atom_size
          free := a.free - c.atom_size
          allocated := a.allocated + 1 } :: areas }) := by
    unfold MemChunk.take
    rw [hareas]
    dsimp only
    rw [hwrap, hrest]
  rw [htake]
  refine ⟨hatom, harea, iff_of_false (List.cons_ne_nil _ _) hne, fun b bs hb => ?_,
    fun p hp => ?_, List.pairwise_cons.mpr ⟨fun q hq => ?_, h.apart⟩⟩
  · obtain ⟨rfl, rfl⟩ := List.cons.inj hb
    refine ⟨hbase, Nat.dvd_add hindex (hatom ▸ hsound.aligned), ?_⟩
    show a.index + c.atom_size + (a.free - c.atom_size) = _
    omega
  · rcases List.mem_cons.mp hp with rfl | hp
    · have hheader : m.pointer ∣ m.header := Dvd.intro_left 5 rfl
      refine ⟨Nat.dvd_add (Nat.dvd_add (hbase ▸ al.aligned _) hheader) hindex,
        c.num_mem_areas - 1, by show c.num_mem_areas - 1 < c.num_mem_areas; omega, hnew,
        fun b bs hb _ => ?_⟩
      obtain ⟨rfl, rfl⟩ := List.cons.inj hb
      show a.base + m.header + a.index + c₀.atom_size ≤
        a.base + m.header + (a.index + c.atom_size)
      omega
    · obtain ⟨hdvd, k, hk, hwithin, hbefore⟩ := h.inside p hp
      refine ⟨hdvd, k, hk, hwithin, fun b bs hb hlast => ?_⟩
      obtain ⟨rfl, rfl⟩ := List.cons.inj hb
      have hle := hbefore a areas hareas hlast
      show p + c₀.atom_size ≤ a.base + m.header + (a.index + c.atom_size)
      omega
  · obtain ⟨-, k, hk, hwithin, hbefore⟩ := h.inside q hq
    by_cases hlast : k + 1 = c.num_mem_areas
    · exact .inr (hbefore a areas hareas hlast)
    · exact hnew.disjoint hwithin (by omega)

theorem After.alloc (hsound : c₀.Sound m) (h : After al c pieces) :
    After al (c.alloc al).2 ((c.alloc al).1 :: pieces) := by
  have hatom := h.atom
  have harea := h.area
  have hroom := hsound.room
  have hrarea := hsound.area
  have hsmall := hsound.small
  have hheader := m.header_pos
  unfold MemChunk.alloc
  split
  · refine (h.addArea).take hsound rfl ?_
    show 0 + c.atom_size ≤ c.area_size
    omega
  · next hfull =>
      cases hareas : c.mem_areas with
      | nil =>
          unfold full at hfull
          rw [hareas] at hfull
          exact absurd rfl hfull
      | cons a areas =>
          obtain ⟨-, -, hfree⟩ := h.current a areas hareas
          unfold full at hfull
          rw [hareas] at hfull
          have hle := Nat.not_lt.mp fun hlt => hfull (decide_eq_true hlt)
          rw [m.wrap_of_lt (by omega)] at hle
          exact h.take hsound hareas hle

theorem After.allocs (hsound : c₀.Sound m) (h : After al c₀ []) (n : ℕ) :
    After al (c₀.allocs al n).2 (c₀.allocs al n).1 := by
  induction n with
  | zero => exact h
  | succ n ih => exact ih.alloc hsound

theorem length_allocs (al : Allocator m c₀.rarea_size) (n : ℕ) :
    (c₀.allocs al n).1.length = n := by
  induction n with
  | zero => rfl
  | succ n ih => exact congrArg Nat.succ ih

end MemChunk

/-- Every piece lies in an area from the allocator and behind its header, is aligned, has room
for an atom, and overlaps no other one. -/
theorem Machine.pieces_apart (m : Machine) {atom_size area_size : UInt32}
    (hpos : 1 ≤ atom_size) (hle : atom_size ≤ area_size) (hfits : m.Fits atom_size area_size) :
    ∃ c, m.newMemChunk atom_size area_size = some c ∧
      (m.pointer ∣ c.atom_size ∧ atom_size.toNat ≤ c.atom_size ∧
        ∀ n, m.pointer ∣ n → atom_size.toNat ≤ n → c.atom_size ≤ n) ∧
      ∀ (al : Allocator m c.rarea_size) (n : ℕ), (c.allocs al n).1.length = n ∧
        (∀ p ∈ (c.allocs al n).1, m.pointer ∣ p ∧
          ∃ k < (c.allocs al n).2.num_mem_areas, al.malloc k + m.header ≤ p ∧
            p + c.atom_size ≤ al.malloc k + c.rarea_size) ∧
        (c.allocs al n).1.Pairwise fun p q => p + c.atom_size ≤ q ∨ q + c.atom_size ≤ p := by
  obtain ⟨c, hnew, hatom, hnum, hareas, hsound⟩ := m.newMemChunk_sound hpos hle hfits
  have hheader : m.header = 5 * m.pointer := rfl
  have hpointer := m.pointer_cases
  have hatoms := UInt32.le_iff_toNat_le.mp hle
  obtain ⟨-, hrounded, -⟩ := toNat_roundedArea (UInt32.le_iff_toNat_le.mp hpos) hfits.sum
  have hsize := hfits.size
  refine ⟨c, hnew, hatom ▸ m.align_spec _ (by omega), fun al n => ?_⟩
  have hafter := (MemChunk.After.start al hnum hareas).allocs hsound n
  refine ⟨MemChunk.length_allocs al n, fun p hp => ?_, hafter.apart⟩
  obtain ⟨hdvd, k, hk, hwithin, -⟩ := hafter.inside p hp
  exact ⟨hdvd, k, hk, hwithin.above, hwithin.below⟩

/-- Atoms that are not aligned, in an area of 64 bytes where 66 were asked for. -/
theorem pieces_apart_thirteen : ∃ c, Machine.bits64.newMemChunk 13 26 = some c ∧
    (8 ∣ c.atom_size ∧ 13 ≤ c.atom_size ∧ ∀ n, 8 ∣ n → 13 ≤ n → c.atom_size ≤ n) ∧
    ∀ (al : Allocator .bits64 c.rarea_size) (n : ℕ), (c.allocs al n).1.length = n ∧
      (∀ p ∈ (c.allocs al n).1, 8 ∣ p ∧
        ∃ k < (c.allocs al n).2.num_mem_areas, al.malloc k + 40 ≤ p ∧
          p + c.atom_size ≤ al.malloc k + c.rarea_size) ∧
      (c.allocs al n).1.Pairwise fun p q => p + c.atom_size ≤ q ∨ q + c.atom_size ≤ p :=
  Machine.bits64.pieces_apart (by decide) (by decide) (by decide)

end DebianInstaller.Packages
