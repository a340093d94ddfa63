import Mathlib.Order.PiLex
import Mathlib.Data.Prod.Lex

/-!
# Comparison by a sign

A program compares two values and answers with an integer whose sign is the order of
the values. Sequences that go on forever are compared at the first place where they
differ, so a comparison goes from the head to the tail.
-/

namespace DebianInstaller.Lib

variable {β γ : Type}

/-- The sign of `r` is the order of `a` and `b`. -/
structure Decides [LT β] (r : Int) (a b : β) : Prop where
  lt : r < 0 → a < b
  eq : r = 0 → a = b
  gt : 0 < r → b < a

section Linear

variable [LinearOrder β] [LinearOrder γ] {r : Int} {a b : β}

theorem Decides.neg_iff (h : Decides r a b) : r < 0 ↔ a < b := by
  refine ⟨h.lt, fun hab => ?_⟩
  rcases lt_trichotomy r 0 with hr | hr | hr
  · exact hr
  · exact absurd (h.eq hr) hab.ne
  · exact absurd (h.gt hr) hab.asymm

theorem Decides.zero_iff (h : Decides r a b) : r = 0 ↔ a = b := by
  refine ⟨h.eq, fun hab => ?_⟩
  rcases lt_trichotomy r 0 with hr | hr | hr
  · exact absurd hab (h.lt hr).ne
  · exact hr
  · exact absurd hab.symm (h.gt hr).ne

theorem Decides.pos_iff (h : Decides r a b) : 0 < r ↔ b < a := by
  refine ⟨h.gt, fun hab => ?_⟩
  rcases lt_trichotomy r 0 with hr | hr | hr
  · exact absurd (h.lt hr) hab.asymm
  · exact absurd (h.eq hr).symm hab.ne
  · exact hr

theorem Decides.nonpos_iff (h : Decides r a b) : r ≤ 0 ↔ a ≤ b := by
  rw [← not_lt, h.pos_iff, not_lt]

theorem decides_zero (a : β) : Decides 0 a a :=
  ⟨fun h => absurd h (lt_irrefl _), fun _ => rfl, fun h => absurd h (lt_irrefl _)⟩

theorem decides_neg (hr : r < 0) (h : a < b) : Decides r a b :=
  ⟨fun _ => h, fun h' => absurd h' hr.ne, fun h' => absurd h' hr.asymm⟩

theorem decides_pos (hr : 0 < r) (h : b < a) : Decides r a b :=
  ⟨fun h' => absurd h' hr.asymm, fun h' => absurd h' hr.ne', fun _ => h⟩

theorem decides_sub (a b : Int) : Decides (a - b) a b :=
  ⟨fun h => by omega, fun h => by omega, fun h => by omega⟩

theorem Decides.map (h : Decides r a b) {f : β → γ} (hf : ∀ x y, x < y → f x < f y) :
    Decides r (f a) (f b) :=
  ⟨fun hr => hf _ _ (h.lt hr), fun hr => congrArg f (h.eq hr), fun hr => hf _ _ (h.gt hr)⟩

/-! ## Pairs -/

theorem decides_fst (hr : r ≠ 0) (h : Decides r a b) (c d : γ) :
    Decides r (toLex (a, c)) (toLex (b, d)) := by
  refine ⟨fun h' => ?_, fun h' => absurd h' hr, fun h' => ?_⟩
  · exact Prod.Lex.toLex_lt_toLex.mpr (.inl (h.lt h'))
  · exact Prod.Lex.toLex_lt_toLex.mpr (.inl (h.gt h'))

theorem decides_snd {c d : γ} (hab : a = b) (h : Decides r c d) :
    Decides r (toLex (a, c)) (toLex (b, d)) := by
  subst hab
  refine ⟨fun h' => ?_, fun h' => by rw [h.eq h'], fun h' => ?_⟩
  · exact Prod.Lex.toLex_lt_toLex.mpr (.inr ⟨rfl, h.lt h'⟩)
  · exact Prod.Lex.toLex_lt_toLex.mpr (.inr ⟨rfl, h.gt h'⟩)

/-! ## Sequences -/

/-- A sequence without its first element. -/
def shift (s : ℕ → β) : ℕ → β := fun i => s (i + 1)

theorem toLex_lt_of_head {s t : ℕ → β} (h : s 0 < t 0) : toLex s < toLex t :=
  ⟨0, fun j hj => absurd hj (Nat.not_lt_zero j), h⟩

theorem toLex_lt_of_shift {s t : ℕ → β} (h0 : s 0 = t 0) (h : toLex (shift s) < toLex (shift t)) :
    toLex s < toLex t := by
  obtain ⟨i, hi, hlt⟩ := h
  refine ⟨i + 1, fun j hj => ?_, hlt⟩
  cases j with
  | zero => exact h0
  | succ j => exact hi j (Nat.lt_of_succ_lt_succ hj)

omit [LinearOrder β] in
theorem eq_of_shift {s t : ℕ → β} (h0 : s 0 = t 0) (h : toLex (shift s) = toLex (shift t)) :
    toLex s = toLex t := by
  refine congrArg toLex (funext fun i => ?_)
  cases i with
  | zero => exact h0
  | succ i => exact congrFun (toLex.injective h) i

theorem decides_head {s t : ℕ → β} (hr : r ≠ 0) (h : Decides r (s 0) (t 0)) :
    Decides r (toLex s) (toLex t) :=
  ⟨fun h' => toLex_lt_of_head (h.lt h'), fun h' => absurd h' hr,
    fun h' => toLex_lt_of_head (h.gt h')⟩

theorem decides_shift {s t : ℕ → β} (h0 : s 0 = t 0)
    (h : Decides r (toLex (shift s)) (toLex (shift t))) : Decides r (toLex s) (toLex t) :=
  ⟨fun h' => toLex_lt_of_shift h0 (h.lt h'), fun h' => eq_of_shift h0 (h.eq h'),
    fun h' => toLex_lt_of_shift h0.symm (h.gt h')⟩

end Linear

end DebianInstaller.Lib
