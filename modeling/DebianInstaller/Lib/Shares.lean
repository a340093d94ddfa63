import Mathlib.Algebra.Order.BigOperators.Group.List
import Mathlib.Tactic.Linarith

/-!
# Dealing out an amount by weights, and iterating until nothing changes

Two things that a distribution algorithm rests on. An amount `u` dealt out by
integer weights of sum `F`, each share `u * f / F` rounded down, is never
overspent, and if every share is zero then less than one unit per weight is left.
And a step that lowers a measure whenever it changes anything comes to rest.
-/

namespace Shares

theorem sum_shares_le {u F : Int} (hu : 0 ≤ u) (hF : 0 < F) {fs : List Int}
    (hsum : fs.sum ≤ F) : (fs.map fun f => u * f / F).sum ≤ u := by
  have hmul : ∀ l : List Int, F * (l.map fun f => u * f / F).sum ≤ u * l.sum := by
    intro l
    induction l with
    | nil => simp
    | cons f l ih =>
        rw [List.map_cons, List.sum_cons, List.sum_cons, Int.mul_add, Int.mul_add]
        have := Int.mul_ediv_self_le (x := u * f) (k := F) hF.ne'
        omega
  have hle : F * (fs.map fun f => u * f / F).sum ≤ F * u :=
    calc F * (fs.map fun f => u * f / F).sum ≤ u * fs.sum := hmul fs
      _ ≤ u * F := Int.mul_le_mul_of_nonneg_left hsum hu
      _ = F * u := Int.mul_comm u F
  exact Int.le_of_mul_le_mul_left hle hF

/-- If no weight gets a whole unit, less than a unit per weight is left. -/
theorem lt_count_of_no_share {u : Int} {fs : List Int} (hfs : ∀ f ∈ fs, 0 ≤ f)
    (hzero : ∀ f ∈ fs, 0 < f → u * f < fs.sum) (hex : ∃ f ∈ fs, 0 < f) :
    u < (fs.countP fun f => decide (0 < f) : Nat) := by
  have hbound : ∀ (F : Int) (l : List Int), (∀ f ∈ l, 0 ≤ f) →
      (∀ f ∈ l, 0 < f → u * f < F) →
      u * l.sum ≤ (F - 1) * (l.countP fun f => decide (0 < f) : Nat) := by
    intro F l hl hz
    induction l with
    | nil => simp
    | cons f l ih =>
        have hrest := ih (fun x hx => hl x (by simp [hx])) fun x hx => hz x (by simp [hx])
        rw [List.sum_cons, Int.mul_add]
        by_cases hf : 0 < f
        · rw [List.countP_cons_of_pos (by simpa using hf)]
          have := hz f (by simp) hf
          push_cast
          rw [Int.mul_add]
          omega
        · have hf0 : f = 0 := by
            have := hl f (by simp)
            omega
          rw [List.countP_cons_of_neg (by simpa using hf), hf0]
          omega
  obtain ⟨f, hf, hpos⟩ := hex
  have hF : 0 < fs.sum := lt_of_lt_of_le hpos (List.single_le_sum hfs f hf)
  have hcount : 0 < fs.countP fun f => decide (0 < f) :=
    List.countP_pos_iff.mpr ⟨f, hf, by simpa using hpos⟩
  have hb := hbound fs.sum fs hfs hzero
  by_contra hlt
  have hge := Int.mul_le_mul_of_nonneg_right (Int.not_lt.mp hlt) hF.le
  have hsub : (fs.sum - 1) * ((fs.countP fun f => decide (0 < f) : Nat) : Int) =
      ((fs.countP fun f => decide (0 < f) : Nat) : Int) * fs.sum -
        ((fs.countP fun f => decide (0 < f) : Nat) : Int) := by
    rw [Int.sub_mul, Int.one_mul, Int.mul_comm]
  omega

variable {α : Type*} [DecidableEq α]

/-- Repeat a step until it changes nothing. -/
def untilStable (step : α → α) : Nat → α → Option α
  | 0, _ => none
  | fuel + 1, x => if step x = x then some x else untilStable step fuel (step x)

theorem untilStable_spec {step : α → α} {I : α → Prop} (hI : ∀ x, I x → I (step x)) :
    ∀ {fuel : Nat} {x y : α}, untilStable step fuel x = some y → I x → I y ∧ step y = y := by
  intro fuel
  induction fuel with
  | zero =>
      intro x y h
      cases h
  | succ fuel ih =>
      intro x y h hx
      rw [untilStable] at h
      split at h
      · next hs =>
          cases h
          exact ⟨hx, hs⟩
      · exact ih h (hI x hx)

theorem untilStable_isSome {step : α → α} {I : α → Prop} {m : α → Nat}
    (hI : ∀ x, I x → I (step x)) (hm : ∀ x, I x → step x ≠ x → m (step x) < m x) :
    ∀ (fuel : Nat) (x : α), I x → m x < fuel → ∃ y, untilStable step fuel x = some y := by
  intro fuel
  induction fuel with
  | zero => exact fun x _ h => absurd h (Nat.not_lt_zero _)
  | succ fuel ih =>
      intro x hx hlt
      rw [untilStable]
      split
      · exact ⟨x, rfl⟩
      · next hs =>
          have := hm x hx hs
          exact ih (step x) (hI x hx) (by omega)

end Shares
