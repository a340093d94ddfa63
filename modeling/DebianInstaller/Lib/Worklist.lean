import Mathlib.Data.Nat.Notation
import Mathlib.Logic.Relation

/-!
# Loops that may fail, and a stack that grows while it is worked off

A loop whose steps may fail is `List.foldlM` into `Option`. What each step keeps the loop
keeps, and a loop does not fail where no step does.

A stack of things is worked off from its top, and each thing puts others on the stack.
What is on the stack in the end does not depend on what else the loop does with a thing,
so the order in which they are taken is a function of its own. The loop comes to its end
exactly if no thing on the stack leads to itself or down without end.
-/

namespace DebianInstaller.Lib

section Folds

variable {α σ τ : Type} {f : σ → α → Option σ}

variable {I : σ → Prop} {l : List α} {s s' : σ}

theorem foldlM_rel {R : σ → σ → Prop} {Q : α → σ → Prop} (hrefl : ∀ s, R s s)
    (htrans : ∀ {a b c}, R a b → R b c → R a c) (hQ : ∀ {x a b}, R a b → Q x a → Q x b)
    (hstep : ∀ x ∈ l, ∀ s s', f s x = some s' → R s s' ∧ Q x s') (h : l.foldlM f s = some s') :
    R s s' ∧ ∀ x ∈ l, Q x s' := by
  induction l generalizing s with
  | nil =>
      obtain rfl : s = s' := by simpa using h
      exact ⟨hrefl s, by simp⟩
  | cons x l ih =>
      rw [List.foldlM_cons] at h
      obtain ⟨mid, hmid, hrest⟩ := Option.bind_eq_some_iff.mp h
      obtain ⟨hx, hxQ⟩ := hstep x (by simp) s mid hmid
      obtain ⟨hl, hlQ⟩ := ih (fun y hy => hstep y (List.mem_cons_of_mem x hy)) hrest
      refine ⟨htrans hx hl, fun y hy => ?_⟩
      rcases List.mem_cons.mp hy with rfl | hy
      · exact hQ hl hxQ
      · exact hlQ y hy

theorem foldlM_inv (hstep : ∀ x ∈ l, ∀ s s', I s → f s x = some s' → I s') (hs : I s)
    (h : l.foldlM f s = some s') : I s' :=
  (foldlM_rel (R := fun s s' => I s → I s') (Q := fun _ _ => True) (fun _ => id)
    (fun hab hbc => hbc ∘ hab) (fun _ _ => trivial)
    (fun x hx s s' hf => ⟨fun hs => hstep x hx s s' hs hf, trivial⟩) h).1 hs

theorem foldlM_total (hstep : ∀ x ∈ l, ∀ s, I s → ∃ s', f s x = some s' ∧ I s') (hs : I s) :
    ∃ s', l.foldlM f s = some s' ∧ I s' := by
  induction l generalizing s with
  | nil => exact ⟨s, rfl, hs⟩
  | cons x l ih =>
      obtain ⟨mid, hmid, hI⟩ := hstep x (by simp) s hs
      obtain ⟨s', hs', hI'⟩ := ih (fun y hy => hstep y (List.mem_cons_of_mem x hy)) hI
      exact ⟨s', by rw [List.foldlM_cons, hmid]; exact hs', hI'⟩

theorem foldlM_map {g : τ → α → Option τ} {φ : σ → τ}
    (hstep : ∀ x ∈ l, ∀ s s', f s x = some s' → g (φ s) x = some (φ s'))
    (h : l.foldlM f s = some s') : l.foldlM g (φ s) = some (φ s') := by
  induction l generalizing s with
  | nil =>
      obtain rfl : s = s' := by simpa using h
      rfl
  | cons x l ih =>
      rw [List.foldlM_cons] at h
      obtain ⟨mid, hmid, hrest⟩ := Option.bind_eq_some_iff.mp h
      rw [List.foldlM_cons, hstep x (by simp) s mid hmid]
      exact ih (fun y hy => hstep y (List.mem_cons_of_mem x hy)) hrest

theorem mem_of_mapM {g : α → Option τ} {r : List τ} (h : l.mapM g = some r) (y : τ) :
    y ∈ r ↔ ∃ x ∈ l, g x = some y := by
  induction l generalizing r with
  | nil =>
      obtain rfl : [] = r := by simpa using h
      simp
  | cons x l ih =>
      rw [List.mapM_cons] at h
      obtain ⟨z, hz, h⟩ := Option.bind_eq_some_iff.mp h
      obtain ⟨r', hr', h⟩ := Option.bind_eq_some_iff.mp h
      obtain rfl := Option.some.inj h
      rw [List.mem_cons, ih hr']
      simp [hz, eq_comm]

end Folds

section Stack

variable {α : Type} (next : α → List α) {n : ℕ} {o stack : List α}

/-- The order in which the things of a stack are taken, at most so many. -/
def order : ℕ → List α → Option (List α)
  | 0, _ => none
  | _ + 1, [] => some []
  | n + 1, x :: stack => (order n (next x ++ stack)).map (x :: ·)

theorem mem_order (h : order next n stack = some o) (x : α) :
    x ∈ o ↔ ∃ y ∈ stack, Relation.ReflTransGen (fun a b => b ∈ next a) y x := by
  induction n generalizing stack o with
  | zero => cases h
  | succ n ih =>
      cases stack with
      | nil =>
          obtain rfl : [] = o := by simpa [order] using h
          simp
      | cons y stack =>
          rw [order] at h
          obtain ⟨o, ho, rfl⟩ := Option.map_eq_some_iff.mp h
          rw [List.mem_cons, ih ho]
          constructor
          · rintro (rfl | ⟨z, hz, hzx⟩)
            · exact ⟨x, by simp, .refl⟩
            · rcases List.mem_append.mp hz with hz | hz
              · exact ⟨y, by simp, .head hz hzx⟩
              · exact ⟨z, List.mem_cons_of_mem y hz, hzx⟩
          · rintro ⟨z, hz, hzx⟩
            rcases List.mem_cons.mp hz with rfl | hz
            · rcases Relation.ReflTransGen.cases_head hzx with rfl | ⟨w, hw, hwx⟩
              · exact .inl rfl
              · exact .inr ⟨w, List.mem_append_left _ hw, hwx⟩
            · exact .inr ⟨z, List.mem_append_right _ hz, hzx⟩

theorem order_cons_of_acc {x : α} (hx : Acc (fun b a => b ∈ next a) x) :
    ∀ stack, (∃ n, (order next n stack).isSome) → ∃ n, (order next n (x :: stack)).isSome := by
  induction hx with
  | intro x _ ih =>
      intro stack hstack
      have hall : ∀ l : List α, (∀ y ∈ l, y ∈ next x) →
          ∃ n, (order next n (l ++ stack)).isSome := by
        intro l
        induction l with
        | nil => exact fun _ => hstack
        | cons y l hl =>
            intro hy
            exact ih y (hy y (by simp)) _ (hl fun z hz => hy z (List.mem_cons_of_mem y hz))
      obtain ⟨n, hn⟩ := hall (next x) fun _ => id
      exact ⟨n + 1, by rw [order, Option.isSome_map]; exact hn⟩

theorem order_isSome_iff (stack : List α) :
    (∃ n, (order next n stack).isSome) ↔ ∀ x ∈ stack, Acc (fun b a => b ∈ next a) x := by
  constructor
  · rintro ⟨n, hn⟩
    induction n generalizing stack with
    | zero => cases hn
    | succ n ih =>
        cases stack with
        | nil => simp
        | cons y stack =>
            rw [order, Option.isSome_map] at hn
            have hrest := ih _ hn
            intro x hx
            rcases List.mem_cons.mp hx with rfl | hx
            · exact .intro _ fun z hz => hrest z (List.mem_append_left _ hz)
            · exact hrest x (List.mem_append_right _ hx)
  · intro h
    induction stack with
    | nil => exact ⟨1, rfl⟩
    | cons x stack ih =>
        exact order_cons_of_acc next (h x (by simp)) stack
          (ih fun y hy => h y (List.mem_cons_of_mem x hy))

theorem order_succ (h : order next n stack = some o) : order next (n + 1) stack = some o := by
  induction n generalizing stack o with
  | zero => cases h
  | succ n ih =>
      cases stack with
      | nil => exact h
      | cons x stack =>
          rw [order] at h ⊢
          obtain ⟨o, ho, rfl⟩ := Option.map_eq_some_iff.mp h
          rw [ih ho]
          rfl

end Stack

end DebianInstaller.Lib
