import DebianInstaller.Lib.Search
import DebianInstaller.Packages.Resolver

/-!
# The marker bits

The resolver asks two questions of a package's `resolver` field, whether the
bit `r` is set and whether the bit `r << 1` is, and the answers are one of the
three marks of a search. This file reads the bit operations of `packages.c` as
operations on marks. All of them go through one observation: a marker is a
power of two, shifting it gives the next one, and the shift out of the word
gives zero, which is no bit at all. That last case is not an accident to be
excluded here, it happens: the marker of every eleventh call is `1 << 30`, and
its `r << 2` is zero.
-/

namespace DebianInstaller.Packages

open Search

variable {i : Nat} {x : BitVec 32}

/-- The mark that the two bits of a call spell. -/
def markOf (r x : BitVec 32) : Mark :=
  if x &&& r = 0#32 then .unseen
  else if x &&& (r <<< 1) = 0#32 then .failed
  else .okay

theorem and_twoPow_eq_zero_iff : x &&& BitVec.twoPow 32 i = 0#32 ↔ x.getLsbD i = false := by
  rw [BitVec.and_twoPow]
  by_cases hi : i < 32
  · cases hx : x.getLsbD i with
    | false => simp
    | true =>
        simp only [if_true, Bool.true_eq_false, iff_false]
        intro h
        have := congrArg (fun y => BitVec.getLsbD y i) h
        simp [hi] at this
  · have hx : x.getLsbD i = false := BitVec.getLsbD_of_ge x i (by omega)
    simp [hx]

theorem twoPow_shiftLeft (i j : Nat) :
    BitVec.twoPow 32 i <<< j = BitVec.twoPow 32 (i + j) := by
  rw [BitVec.twoPow_eq, BitVec.twoPow_eq, BitVec.shiftLeft_add]

theorem getLsbD_or_twoPow {j : Nat} :
    (x ||| BitVec.twoPow 32 i).getLsbD j =
      (x.getLsbD j || (decide (i < 32) && decide (i = j))) := by
  rw [BitVec.getLsbD_or, BitVec.getLsbD_twoPow]

theorem getLsbD_andNot_twoPow {j : Nat} :
    (x &&& ~~~(BitVec.twoPow 32 i)).getLsbD j =
      (x.getLsbD j && !decide (i = j)) := by
  rw [BitVec.getLsbD_and, BitVec.getLsbD_not, BitVec.getLsbD_twoPow]
  by_cases hj : j < 32
  · by_cases hi : i = j
    · subst hi
      simp [hj]
    · simp [hj, hi]
  · simp [BitVec.getLsbD_of_ge x j (by omega)]

theorem markOf_twoPow :
    markOf (BitVec.twoPow 32 i) x =
      if x.getLsbD i = false then .unseen
      else if x.getLsbD (i + 1) = false then .failed
      else .okay := by
  simp only [markOf, twoPow_shiftLeft, and_twoPow_eq_zero_iff]

section Marks

variable {r : BitVec 32} {i : Nat} (hr : r = BitVec.twoPow 32 i) (hi : i < 31)

include hr

theorem markOf_eq_unseen_iff : markOf r x = .unseen ↔ x &&& r = 0#32 := by
  subst hr
  unfold markOf
  split
  · next h => simp [h]
  · next h =>
      split <;> simp [h]

theorem okay_iff (hseen : x &&& r ≠ 0#32) :
    decide (x &&& (r <<< 1) ≠ 0#32) = decide (markOf r x = .okay) := by
  subst hr
  unfold markOf
  rw [if_neg hseen]
  split <;> simp_all

theorem markOf_setTried : markOf r (x ||| (r <<< 2)) = markOf r x := by
  subst hr
  rw [twoPow_shiftLeft, markOf_twoPow, markOf_twoPow, getLsbD_or_twoPow,
    getLsbD_or_twoPow]
  simp

theorem markOf_clearTried : markOf r (x &&& ~~~(r <<< 2)) = markOf r x := by
  subst hr
  rw [twoPow_shiftLeft, markOf_twoPow, markOf_twoPow, getLsbD_andNot_twoPow,
    getLsbD_andNot_twoPow]
  simp

theorem markOf_fail (h : markOf r x ≠ .unseen) : markOf r (x &&& ~~~(r <<< 1)) = .failed := by
  subst hr
  rw [markOf_twoPow] at h
  rw [twoPow_shiftLeft, markOf_twoPow]
  simp only [getLsbD_andNot_twoPow]
  have hx : x.getLsbD i = true := by
    cases hx : x.getLsbD i with
    | true => rfl
    | false => simp [hx] at h
  simp [hx]

include hi in
theorem markOf_enter {x : BitVec 32} : markOf r (x ||| r ||| (r <<< 1)) = .okay := by
  subst hr
  rw [twoPow_shiftLeft, markOf_twoPow]
  simp only [getLsbD_or_twoPow]
  simp [show i < 32 by omega, show i + 1 < 32 by omega]

end Marks

end DebianInstaller.Packages
