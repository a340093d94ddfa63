import Mathlib.Logic.Basic

/-!
# Programs that change a state and may stop

A program here has a state and may stop for good with a reason. What is proved
about such a program is mostly that it stays within bounds: invariants it
keeps, a relation between the state before and the state after, and the reasons
it may stop for. A `Regime` is such a triple of bounds. Programs within a regime
compose, so the proof follows the text of the program, and only the operations
that touch what the regime is about have anything in them.

A call of a library that calls back is a `Dialogue`: it asks a number of
questions, each depending on the answers before, and returns. A dialogue whose
callback stays within a regime stays within it too.
-/

universe u v

namespace Programs

/-- A program with a state `σ` that may stop with an `ε`. -/
abbrev Prog (σ : Type u) (ε : Type v) (α : Type u) := StateT σ (Except ε) α

variable {σ α β : Type u} {ε : Type v}

theorem bind_ok {c : Prog σ ε α} {k : α → Prog σ ε β} {s s' : σ} {b : β}
    (h : (c >>= k) s = .ok (b, s')) :
    ∃ a t, c s = .ok (a, t) ∧ k a t = .ok (b, s') := by
  change (c s >>= fun p => k p.1 p.2) = _ at h
  cases hc : c s with
  | ok p =>
      rw [hc] at h
      exact ⟨p.1, p.2, rfl, h⟩
  | error e =>
      rw [hc] at h
      cases h

theorem bind_run {c : Prog σ ε α} {s t : σ} {a : α} (h : c s = .ok (a, t))
    (k : α → Prog σ ε β) : (c >>= k) s = k a t := by
  show (c s >>= fun p => k p.1 p.2) = _
  rw [h]
  rfl

theorem bind_error {c : Prog σ ε α} {s : σ} {e : ε} (h : c s = .error e)
    (k : α → Prog σ ε β) : (c >>= k) s = .error e := by
  show (c s >>= fun p => k p.1 p.2) = _
  rw [h]
  rfl

theorem get_run (s : σ) (k : σ → Prog σ ε β) : (MonadState.get >>= k) s = k s s := rfl

theorem modify_run (f : σ → σ) (s : σ) (k : PUnit → Prog σ ε β) :
    (modify f >>= k) s = k ⟨⟩ (f s) := rfl

/-- From a state with `P` the program returns with `Q`, or stops with `E`. -/
def Triple (P : σ → Prop) (c : Prog σ ε α) (Q : α → σ → Prop) (E : ε → Prop) : Prop :=
  ∀ s, P s →
    match c s with
    | .ok (a, s') => Q a s'
    | .error e => E e

section Triple

variable {P P' : σ → Prop} {Q Q' : α → σ → Prop} {E : ε → Prop}
  {c : Prog σ ε α}

theorem Triple.ok (h : Triple P c Q E) {s s' : σ} {a : α} (hs : P s)
    (hc : c s = .ok (a, s')) : Q a s' := by
  have := h s hs
  rwa [hc] at this

theorem Triple.error (h : Triple P c Q E) {s : σ} {e : ε} (hs : P s)
    (hc : c s = .error e) : E e := by
  have := h s hs
  rwa [hc] at this

theorem Triple.intro (hok : ∀ s a s', P s → c s = .ok (a, s') → Q a s')
    (herr : ∀ s e, P s → c s = .error e → E e) : Triple P c Q E := by
  intro s hs
  cases hc : c s with
  | ok p => exact hok s p.1 p.2 hs hc
  | error e => exact herr s e hs hc

theorem Triple.pure {a : α} (h : ∀ s, P s → Q a s) :
    Triple P (Pure.pure a : Prog σ ε α) Q E := fun s hs => h s hs

theorem Triple.bind {R : β → σ → Prop} {k : α → Prog σ ε β} (hc : Triple P c Q E)
    (hk : ∀ a, Triple (Q a) (k a) R E) : Triple P (c >>= k) R E := by
  intro s hs
  have h := hc s hs
  show match (c s >>= fun p => k p.1 p.2) with
    | .ok (a, s') => R a s'
    | .error e => E e
  cases hcs : c s with
  | ok p =>
      rw [hcs] at h
      exact hk p.1 p.2 h
  | error e =>
      rw [hcs] at h
      exact h

theorem Triple.weaken (h : Triple P' c Q' E) (hP : ∀ s, P s → P' s)
    (hQ : ∀ a s, Q' a s → Q a s) : Triple P c Q E := by
  refine .intro (fun s a s' hs hc => ?_) (fun s e hs hc => ?_)
  · exact hQ a s' (h.ok (hP s hs) hc)
  · exact h.error (hP s hs) hc

theorem Triple.assume {p : Prop} (h : p → Triple P c Q E) :
    Triple (fun s => P s ∧ p) c Q E := fun s hs => h hs.2 s hs.1

theorem Triple.given {p : Prop} (hp : ∀ s, P s → p) (h : p → Triple P c Q E) :
    Triple P c Q E := fun s hs => h (hp s hs) s hs

theorem Triple.get {Q : σ → σ → Prop} (h : ∀ s, P s → Q s s) :
    Triple P (get : Prog σ ε σ) Q E := fun s hs => h s hs

theorem Triple.modify {Q : PUnit → σ → Prop} {f : σ → σ} (h : ∀ s, P s → Q ⟨⟩ (f s)) :
    Triple P (modify f : Prog σ ε PUnit) Q E := fun s hs => h s hs

theorem Triple.throw {e : ε} (h : E e) : Triple P (throw e : Prog σ ε α) Q E :=
  fun _ _ => h

end Triple

/-- Invariants for the points a program goes through, a relation between states,
and reasons to stop. -/
structure Regime (ι : Type*) (σ : Type u) (ε : Type v) where
  inv : ι → σ → Prop
  rel : σ → σ → Prop
  may : ε → Prop
  refl : ∀ s, rel s s
  trans : ∀ {s t u}, rel s t → rel t u → rel s u

variable {ι κ : Type*}

/-- The regime with the invariants that `f` picks. -/
def Regime.comap (R : Regime ι σ ε) (f : κ → ι) : Regime κ σ ε where
  inv k := R.inv (f k)
  rel := R.rel
  may := R.may
  refl := R.refl
  trans := R.trans

/-- The program goes from one invariant to another, ends in a related state if it
ends, and stops only for the reasons given. -/
def Moves (R : Regime ι σ ε) (i j : ι) (c : Prog σ ε α) : Prop :=
  ∀ s₀, Triple (fun s => R.inv i s ∧ R.rel s₀ s) c (fun _ s => R.inv j s ∧ R.rel s₀ s) R.may

/-- The program keeps whichever invariant holds. -/
def Within (R : Regime ι σ ε) (c : Prog σ ε α) : Prop := ∀ i, Moves R i i c

namespace Moves

variable {R : Regime ι σ ε} {i j l : ι} {c : Prog σ ε α}

theorem of_step
    (hok : ∀ s a s', R.inv i s → c s = .ok (a, s') → R.inv j s' ∧ R.rel s s')
    (herr : ∀ s e, R.inv i s → c s = .error e → R.may e) : Moves R i j c := by
  intro s₀
  refine .intro (fun s a s' hs hc => ?_) (fun s e hs hc => herr s e hs.1 hc)
  have h := hok s a s' hs.1 hc
  exact ⟨h.1, R.trans hs.2 h.2⟩

theorem comap {f : κ → ι} {k l : κ} (h : Moves R (f k) (f l) c) :
    Moves (R.comap f) k l c := h

theorem ok (h : Moves R i j c) {s s' : σ} {a : α} (hs : R.inv i s)
    (hc : c s = .ok (a, s')) : R.inv j s' ∧ R.rel s s' := (h s).ok ⟨hs, R.refl s⟩ hc

theorem error (h : Moves R i j c) {s : σ} {e : ε} (hs : R.inv i s)
    (hc : c s = .error e) : R.may e := (h s).error ⟨hs, R.refl s⟩ hc

theorem pure (a : α) : Moves R i i (Pure.pure a) := fun _ => Triple.pure fun _ hs => hs

theorem bind {k : α → Prog σ ε β} (hc : Moves R i j c) (hk : ∀ a, Moves R j l (k a)) :
    Moves R i l (c >>= k) := fun s₀ => (hc s₀).bind fun a => hk a s₀

theorem get : Moves R i i (MonadState.get : Prog σ ε σ) :=
  fun _ => Triple.get fun _ hs => hs

theorem modify {f : σ → σ} (h : ∀ s, R.inv i s → R.inv j (f s) ∧ R.rel s (f s)) :
    Moves R i j (modify f : Prog σ ε PUnit) := fun _ => Triple.modify fun s hs =>
  ⟨(h s hs.1).1, R.trans hs.2 (h s hs.1).2⟩

theorem throw {e : ε} (h : R.may e) : Moves R i j (MonadExcept.throw e : Prog σ ε α) :=
  fun _ => Triple.throw h

theorem forM {γ : Type*} {f : γ → Prog σ ε PUnit} (h : ∀ x, Moves R i i (f x))
    (xs : List γ) : Moves R i i (xs.forM f) := by
  induction xs with
  | nil => exact pure _
  | cons x xs ih => exact bind (h x) fun _ => ih

/-- A program that begins by looking at the state may use the invariant for what
it finds there. -/
theorem ok_bind {k : α → Prog σ ε β}
    (h : ∀ s, R.inv i s → ∃ a, c s = .ok (a, s) ∧ Moves R i j (k a)) :
    Moves R i j (c >>= k) := by
  have hrun : ∀ s, R.inv i s → ∃ a, (c >>= k) s = k a s ∧ Moves R i j (k a) := by
    intro s hs
    obtain ⟨a, hc, hk⟩ := h s hs
    exact ⟨a, bind_run hc k, hk⟩
  refine of_step (fun s a s' hs hc => ?_) (fun s e hs hc => ?_)
  · obtain ⟨a, heq, hk⟩ := hrun s hs
    exact hk.ok hs (heq ▸ hc)
  · obtain ⟨a, heq, hk⟩ := hrun s hs
    exact hk.error hs (heq ▸ hc)

theorem get_bind {k : σ → Prog σ ε β} (h : ∀ s, R.inv i s → Moves R i j (k s)) :
    Moves R i j (MonadState.get >>= k) := ok_bind fun s hs => ⟨s, rfl, h s hs⟩

end Moves

/-! ## Dialogues -/

/-- A computation that asks questions before it is done. -/
inductive Dialogue (ι : Type v) (ο : ι → Type u) (α : Type u) where
  | done (a : α)
  | ask (i : ι) (k : ο i → Dialogue ι ο α)

namespace Dialogue

variable {κ : Type v} {ο : κ → Type u}

/-- The computation with the answers that `h` gives. -/
def run (h : (q : κ) → Prog σ ε (ο q)) : Dialogue κ ο α → Prog σ ε α
  | .done a => Pure.pure a
  | .ask q k => h q >>= fun o => (k o).run h

/-- Every result has `Q`, whatever the answers are. -/
def All (Q : α → Prop) : Dialogue κ ο α → Prop
  | .done a => Q a
  | .ask _ k => ∀ o, (k o).All Q

theorem run_all {R : Regime ι σ ε} {i : ι} {h : (q : κ) → Prog σ ε (ο q)}
    (hh : ∀ q, Moves R i i (h q)) {Q : α → Prop} {d : Dialogue κ ο α} (hd : d.All Q)
    (s₀ : σ) :
    Triple (fun s => R.inv i s ∧ R.rel s₀ s) (d.run h)
      (fun a s => (R.inv i s ∧ R.rel s₀ s) ∧ Q a) R.may := by
  induction d with
  | done a => exact Triple.pure fun s hs => ⟨hs, hd⟩
  | ask q k ih => exact (hh q s₀).bind fun o => ih o (hd o)

theorem all_true (d : Dialogue κ ο α) : d.All fun _ => True := by
  induction d with
  | done a => trivial
  | ask q k ih => exact ih

theorem run_moves {R : Regime ι σ ε} {i : ι} {h : (q : κ) → Prog σ ε (ο q)}
    (hh : ∀ q, Moves R i i (h q)) (d : Dialogue κ ο α) : Moves R i i (d.run h) :=
  fun s₀ => (run_all hh d.all_true s₀).weaken (fun _ hs => hs) fun _ _ hs => hs.1

end Dialogue

end Programs
