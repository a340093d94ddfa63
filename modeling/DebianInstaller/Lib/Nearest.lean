import Mathlib.Algebra.Order.Ring.Nat

/-!
# The nearest multiple

`nearest g x` is the multiple of `g` that is nearest to `x`, and the upper one if `x` is in the
middle between two. Rounding to multiples of one number keeps the order. It still does if the
number depends on what is rounded, as long as it changes only at a common multiple of the old
number and the new one.
-/

namespace DebianInstaller.Lib

variable {g x b : ℕ}

/-- The multiple of `g` that is nearest to `x`. -/
def nearest (g x : ℕ) : ℕ := (x + g / 2) / g * g

theorem nearest_mono (g : ℕ) : Monotone (nearest g) := fun _ _ h =>
  Nat.mul_le_mul_right g (Nat.div_le_div_right (Nat.add_le_add_right h _))

theorem nearest_of_dvd (h : g ∣ x) : nearest g x = x := by
  obtain ⟨q, rfl⟩ := h
  rcases Nat.eq_zero_or_pos g with rfl | hg
  · rw [nearest, Nat.mul_zero, Nat.zero_mul]
  · rw [nearest, Nat.mul_add_div hg, Nat.div_eq_of_lt (Nat.div_lt_self hg (by decide)),
      Nat.add_zero, Nat.mul_comm]

theorem nearest_le (hdvd : g ∣ b) (hx : x ≤ b) : nearest g x ≤ b :=
  (nearest_mono g hx).trans_eq (nearest_of_dvd hdvd)

theorem le_nearest (hdvd : g ∣ b) (hx : b ≤ x) : b ≤ nearest g x :=
  (nearest_of_dvd hdvd).ge.trans (nearest_mono g hx)

theorem two_mul_dist_nearest_le (hg : 0 < g) (x : ℕ) :
    2 * ((nearest g x : ℤ) - x).natAbs ≤ g := by
  have hsplit := Nat.div_add_mod (x + g / 2) g
  have hmod := Nat.mod_lt (x + g / 2) hg
  rw [Nat.mul_comm] at hsplit
  unfold nearest
  omega

theorem nearest_of_cut {k : ℕ} (h : ℕ) (hk : 2 ∣ k) (hpos : 0 < h) (x : ℕ) :
    (x / h + k / 2) / k * (k * h) = nearest (k * h) x := by
  obtain ⟨j, rfl⟩ := hk
  have hhalf : 2 * j * h / 2 = j * h := by
    rw [Nat.mul_assoc, Nat.mul_div_cancel_left _ (by decide)]
  rw [nearest, hhalf, Nat.mul_div_cancel_left j (by decide), ← Nat.add_mul_div_right x j hpos,
    Nat.div_div_eq_div_mul, Nat.mul_comm h (2 * j)]

theorem monotone_nearest {g : ℕ → ℕ}
    (hg : ∀ x y, x ≤ y → g x = g y ∨ ∃ b, x ≤ b ∧ b ≤ y ∧ g x ∣ b ∧ g y ∣ b) :
    Monotone fun x => nearest (g x) x := by
  intro x y h
  rcases hg x y h with heq | ⟨b, hxb, hby, hx, hy⟩
  · change nearest (g x) x ≤ nearest (g y) y
    rw [heq]
    exact nearest_mono (g y) h
  · exact (nearest_le hx hxb).trans (le_nearest hy hby)

end DebianInstaller.Lib
