import Mathlib.Data.Fintype.Card

/-!
# Depth-first search with optimistic marks

The search of this file walks an ordered graph depth first and keeps one mark
per node. A node is marked `okay` the moment it is entered, before any of its
successors has been looked at; the mark is taken back when one of them fails.
So an `okay` node is either finished or still open on the stack, and a search
that meets its own stack accepts it on credit. That is what makes cycles
terminate, and it is also the only thing that makes the results below more
than bookkeeping.

The graph is given by `next`, the ordered successors of a node, by `dead`, the
nodes that fail on their own, and by `emit`, the nodes that are written to the
log when they finish. The successors may depend on the log written so far:
a search whose choices look at what it has already selected is still a search
of this kind.

* `visit_isSome` is termination: a budget above the number of unseen nodes
  always answers.
* `Grows` is what one call does to the state, whatever it answers:
  nodes seen before keep their mark, the log gains exactly the emitted nodes
  that became `okay`, every successor of such a node has been seen, and
  everything touched is reachable from the start.
-/

namespace Search

/-- What the search knows about a node. -/
inductive Mark where
  | unseen
  | okay
  | failed
  deriving DecidableEq, Repr

/-- The marks, and the emitted nodes in the order in which they finished. -/
structure St (ι : Type*) where
  mark : ι → Mark
  log : List ι

/-- An ordered graph. -/
structure Graph (ι : Type*) where
  next : List ι → ι → List ι
  dead : ι → Bool
  emit : ι → Bool

variable {ι : Type*} [DecidableEq ι]

/-- Overwrite one mark. -/
def St.set (st : St ι) (x : ι) (m : Mark) : St ι :=
  { st with mark := Function.update st.mark x m }

/-- Write a finished node to the log, if it is one that is emitted. -/
def St.finish (g : Graph ι) (st : St ι) (x : ι) : St ι :=
  if g.emit x then { st with log := st.log ++ [x] } else st

omit [DecidableEq ι] in
@[simp] theorem St.finish_mark (g : Graph ι) (st : St ι) (x : ι) :
    (st.finish g x).mark = st.mark := by
  unfold St.finish
  split <;> rfl

@[simp] theorem St.set_mark_self (st : St ι) (x : ι) (m : Mark) :
    (st.set x m).mark x = m := by simp [St.set]

theorem St.set_mark_of_ne (st : St ι) {x y : ι} (m : Mark) (h : y ≠ x) :
    (st.set x m).mark y = st.mark y := by simp [St.set, h]

@[simp] theorem St.set_log (st : St ι) (x : ι) (m : Mark) :
    (st.set x m).log = st.log := rfl

omit [DecidableEq ι] in
/-- Visit a list of nodes in order, up to the first that fails. -/
def visitAll (rec : ι → St ι → Option (Bool × St ι)) :
    List ι → St ι → Option (Bool × St ι)
  | [], st => some (true, st)
  | x :: xs, st =>
      match rec x st with
      | none => none
      | some (false, st') => some (false, st')
      | some (true, st') => visitAll rec xs st'

/-- One search. The answer `none` means that the budget ran out. -/
def visit (g : Graph ι) : Nat → ι → St ι → Option (Bool × St ι)
  | 0, _, _ => none
  | fuel + 1, x, st =>
      match st.mark x with
      | .okay => some (true, st)
      | .failed => some (false, st)
      | .unseen =>
          if g.dead x then some (false, st.set x .failed)
          else
            match visitAll (visit g fuel) (g.next st.log x) (st.set x .okay) with
            | none => none
            | some (true, st') => some (true, st'.finish g x)
            | some (false, st') => some (false, st'.set x .failed)

/-- The edges a search may follow, whatever the log. -/
def Graph.Edge (g : Graph ι) (x y : ι) : Prop := ∃ l, y ∈ g.next l x

/-- A node the search may come to from `x`. -/
def Graph.Reach (g : Graph ι) : ι → ι → Prop := Relation.ReflTransGen g.Edge

/-! ## Reading a visit back

The three ways a visit ends, as equations: a node that was seen before, a dead
node, and a node whose successors were visited. Everything below cites these
and never unfolds `visit`. -/

theorem visit_seen {g : Graph ι} {fuel : Nat} {x : ι} {st : St ι}
    (h : st.mark x ≠ .unseen) :
    visit g (fuel + 1) x st = some (decide (st.mark x = .okay), st) := by
  rw [visit]
  cases hx : st.mark x with
  | unseen => exact absurd hx h
  | okay => rfl
  | failed => rfl

theorem visit_dead {g : Graph ι} {fuel : Nat} {x : ι} {st : St ι}
    (h : st.mark x = .unseen) (hd : g.dead x = true) :
    visit g (fuel + 1) x st = some (false, st.set x .failed) := by
  rw [visit]
  simp only [h, hd, if_true]

theorem visit_open {g : Graph ι} {fuel : Nat} {x : ι} {st : St ι}
    (h : st.mark x = .unseen) (hd : g.dead x = false) :
    visit g (fuel + 1) x st =
      match visitAll (visit g fuel) (g.next st.log x) (st.set x .okay) with
      | none => none
      | some (true, st') => some (true, st'.finish g x)
      | some (false, st') => some (false, st'.set x .failed) := by
  rw [visit]
  simp only [h, hd, Bool.false_eq_true, if_false]

/-- A visit that answered did so in one of four ways. -/
theorem visit_cases {g : Graph ι} {fuel : Nat} {x : ι} {st st' : St ι} {b : Bool}
    (h : visit g (fuel + 1) x st = some (b, st')) :
    (st.mark x ≠ .unseen ∧ b = decide (st.mark x = .okay) ∧ st' = st) ∨
    (st.mark x = .unseen ∧ g.dead x = true ∧ b = false ∧
      st' = st.set x .failed) ∨
    (st.mark x = .unseen ∧ g.dead x = false ∧ ∃ mid,
      visitAll (visit g fuel) (g.next st.log x) (st.set x .okay) =
        some (b, mid) ∧
      st' = if b then mid.finish g x else mid.set x .failed) := by
  by_cases hx : st.mark x = .unseen
  · cases hd : g.dead x with
    | true =>
        rw [visit_dead hx hd] at h
        cases h
        exact .inr (.inl ⟨hx, rfl, rfl, rfl⟩)
    | false =>
        rw [visit_open hx hd] at h
        split at h
        · cases h
        · next mid hmid =>
            cases h
            exact .inr (.inr ⟨hx, rfl, mid, hmid, rfl⟩)
        · next mid hmid =>
            cases h
            exact .inr (.inr ⟨hx, rfl, mid, hmid, rfl⟩)
  · rw [visit_seen hx] at h
    cases h
    exact .inl ⟨hx, rfl, rfl⟩

/-! ## Termination

A visit that goes down marks a node that was unseen, and no mark is ever taken
back to `unseen`, so the number of unseen nodes pays for the depth. The width
costs nothing: visiting a list recurses on the list. -/

section Termination

variable [Fintype ι]

/-- The nodes the search has not entered yet. -/
def St.unseen (st : St ι) : Finset ι :=
  Finset.univ.filter fun x => st.mark x = .unseen

omit [DecidableEq ι] in
@[simp] theorem St.mem_unseen {st : St ι} {x : ι} :
    x ∈ st.unseen ↔ st.mark x = .unseen := by simp [St.unseen]

theorem unseen_set_subset {st : St ι} {x : ι} {m : Mark} (hm : m ≠ .unseen) :
    (st.set x m).unseen ⊆ st.unseen := by
  intro y hy
  rw [St.mem_unseen] at hy ⊢
  by_cases hyx : y = x
  · subst hyx
    rw [St.set_mark_self] at hy
    exact absurd hy hm
  · rwa [St.set_mark_of_ne st m hyx] at hy

theorem unseen_set_ssubset {st : St ι} {x : ι} {m : Mark} (hm : m ≠ .unseen)
    (hx : st.mark x = .unseen) : (st.set x m).unseen ⊂ st.unseen := by
  refine Finset.ssubset_iff_subset_ne.mpr ⟨unseen_set_subset hm, fun heq => ?_⟩
  have hmem : x ∈ (st.set x m).unseen := by
    rw [heq, St.mem_unseen]
    exact hx
  rw [St.mem_unseen, St.set_mark_self] at hmem
  exact hm hmem

omit [DecidableEq ι] in
theorem unseen_finish (g : Graph ι) (st : St ι) (x : ι) :
    (st.finish g x).unseen = st.unseen := by
  ext y
  simp

omit [DecidableEq ι] in
/-- A list of visits answers as soon as each of them does, and leaves fewer
nodes unseen if each of them does. -/
theorem visitAll_isSome {rec : ι → St ι → Option (Bool × St ι)} {n : Nat}
    (hrec : ∀ x st, st.unseen.card < n →
      ∃ b st', rec x st = some (b, st') ∧ st'.unseen ⊆ st.unseen) :
    ∀ (xs : List ι) (st : St ι), st.unseen.card < n →
      ∃ b st', visitAll rec xs st = some (b, st') ∧ st'.unseen ⊆ st.unseen := by
  intro xs
  induction xs with
  | nil => exact fun st _ => ⟨true, st, rfl, fun _ h => h⟩
  | cons x xs ih =>
      intro st hn
      obtain ⟨b, mid, hmid, hsub⟩ := hrec x st hn
      rw [visitAll, hmid]
      cases b with
      | false => exact ⟨false, mid, rfl, hsub⟩
      | true =>
          have hlt : mid.unseen.card < n :=
            Nat.lt_of_le_of_lt (Finset.card_le_card hsub) hn
          obtain ⟨b, st', hst', hsub'⟩ := ih mid hlt
          exact ⟨b, st', hst', hsub'.trans hsub⟩

/-- A budget above the number of unseen nodes always answers. -/
theorem visit_isSome (g : Graph ι) : ∀ (fuel : Nat) (x : ι) (st : St ι),
    st.unseen.card < fuel →
    ∃ b st', visit g fuel x st = some (b, st') ∧ st'.unseen ⊆ st.unseen := by
  intro fuel
  induction fuel with
  | zero => exact fun x st h => absurd h (Nat.not_lt_zero _)
  | succ fuel ih =>
      intro x st hfuel
      by_cases hx : st.mark x = .unseen
      · cases hd : g.dead x with
        | true =>
            exact ⟨false, _, visit_dead hx hd, unseen_set_subset (by decide)⟩
        | false =>
            have hmark : (st.set x .okay).unseen ⊂ st.unseen :=
              unseen_set_ssubset (by decide) hx
            have hlt : (st.set x .okay).unseen.card < fuel := by
              have := Finset.card_lt_card hmark
              omega
            obtain ⟨b, mid, hmid, hsub⟩ :=
              visitAll_isSome (fun x st h => ih x st h) (g.next st.log x) _ hlt
            have hsub' := hsub.trans hmark.subset
            rw [visit_open hx hd, hmid]
            cases b with
            | true => exact ⟨true, _, rfl, by rw [unseen_finish]; exact hsub'⟩
            | false =>
                exact ⟨false, _, rfl, (unseen_set_subset (by decide)).trans hsub'⟩
      · exact ⟨_, st, visit_seen hx, fun _ h => h⟩

end Termination

/-! ## What a search does to the state

`Grows g xs st st'` says that `st'` is `st` after visits that started at the
nodes `xs`. It composes along a list of visits as long as they succeed, which
is the only way a list of visits goes on. -/

/-- The state after some visits from `xs`. -/
structure Grows (g : Graph ι) (xs : List ι) (st st' : St ι) : Prop where
  /-- A node that was seen before keeps its mark. -/
  keep : ∀ y, st.mark y ≠ .unseen → st'.mark y = st.mark y
  /-- The log gains exactly the emitted nodes that became `okay`, once each. -/
  log : ∃ L, st'.log = st.log ++ L ∧ L.Nodup ∧ ∀ y, y ∈ L ↔
    st.mark y = .unseen ∧ st'.mark y = .okay ∧ g.emit y = true
  /-- The successors of a node that became `okay` have all been seen, and the
  failed ones among them failed in these visits. -/
  okay : ∀ y, st.mark y = .unseen → st'.mark y = .okay → g.dead y = false ∧
    ∃ l, ∀ z ∈ g.next l y, st'.mark z ≠ .unseen ∧
      (st'.mark z = .failed → st.mark z = .unseen)
  /-- A node that failed is dead or has a successor that failed. -/
  failed : ∀ y, st.mark y = .unseen → st'.mark y = .failed →
    g.dead y = true ∨ ∃ l, ∃ z ∈ g.next l y, st'.mark z = .failed
  /-- Everything touched is reachable from the start. -/
  reach : ∀ y, st.mark y = .unseen → st'.mark y ≠ .unseen →
    ∃ x ∈ xs, g.Reach x y

omit [DecidableEq ι] in
theorem Grows.refl (g : Graph ι) (st : St ι) : Grows g [] st st where
  keep _ _ := rfl
  log := ⟨[], by simp, by simp, fun y => by
    constructor
    · intro h
      cases h
    · rintro ⟨hu, hk, -⟩
      rw [hu] at hk
      cases hk⟩
  okay _ hu hk := by rw [hu] at hk; cases hk
  failed _ hu hk := by rw [hu] at hk; cases hk
  reach _ hu hk := absurd hu hk

omit [DecidableEq ι] in
theorem Grows.mono {g : Graph ι} {xs ys : List ι} {st st' : St ι}
    (h : Grows g xs st st') (hsub : ∀ x ∈ xs, x ∈ ys) : Grows g ys st st' :=
  { h with
    reach := fun y hu hk =>
      let ⟨x, hx, hr⟩ := h.reach y hu hk
      ⟨x, hsub x hx, hr⟩ }

omit [DecidableEq ι] in
/-- Visits compose, provided the first ones left nothing failed behind. -/
theorem Grows.trans {g : Graph ι} {xs ys : List ι} {st mid st' : St ι}
    (h₁ : Grows g xs st mid) (hok : ∀ y, mid.mark y = .failed → st.mark y = .failed)
    (h₂ : Grows g ys mid st') : Grows g (xs ++ ys) st st' := by
  have hseen : ∀ y, st.mark y ≠ .unseen → mid.mark y ≠ .unseen := fun y hy => by
    rw [h₁.keep y hy]
    exact hy
  constructor
  case keep =>
    intro y hy
    rw [h₂.keep y (hseen y hy), h₁.keep y hy]
  case log =>
    obtain ⟨L₁, hL₁, hnd₁, hmem₁⟩ := h₁.log
    obtain ⟨L₂, hL₂, hnd₂, hmem₂⟩ := h₂.log
    refine ⟨L₁ ++ L₂, by rw [hL₂, hL₁, List.append_assoc], ?_, fun y => ?_⟩
    · refine List.nodup_append.mpr ⟨hnd₁, hnd₂, fun a ha b hb hab => ?_⟩
      subst hab
      have hk := ((hmem₁ a).mp ha).2.1
      have hu := ((hmem₂ a).mp hb).1
      rw [hu] at hk
      cases hk
    · rw [List.mem_append, hmem₁, hmem₂]
      constructor
      · rintro (⟨hu, hk, he⟩ | ⟨hu, hk, he⟩)
        · exact ⟨hu, by rw [h₂.keep y (by rw [hk]; decide), hk], he⟩
        · refine ⟨?_, hk, he⟩
          by_contra hne
          exact hseen y hne hu
      · rintro ⟨hu, hk, he⟩
        cases hm : mid.mark y with
        | unseen => exact .inr ⟨rfl, hk, he⟩
        | okay => exact .inl ⟨hu, rfl, he⟩
        | failed => exact absurd (hok y hm) (by rw [hu]; decide)
  case okay =>
    intro y hu hk
    cases hm : mid.mark y with
    | unseen =>
        obtain ⟨hd, l, hl⟩ := h₂.okay y hm hk
        refine ⟨hd, l, fun z hz => ⟨(hl z hz).1, fun hf => ?_⟩⟩
        by_contra hne
        exact hseen z hne ((hl z hz).2 hf)
    | okay =>
        obtain ⟨hd, l, hl⟩ := h₁.okay y hu hm
        refine ⟨hd, l, fun z hz => ?_⟩
        rw [h₂.keep z (hl z hz).1]
        exact hl z hz
    | failed => exact absurd (hok y hm) (by rw [hu]; decide)
  case failed =>
    intro y hu hk
    cases hm : mid.mark y with
    | unseen => exact h₂.failed y hm hk
    | okay =>
        rw [h₂.keep y (by rw [hm]; decide), hm] at hk
        cases hk
    | failed => exact absurd (hok y hm) (by rw [hu]; decide)
  case reach =>
    intro y hu hk
    by_cases hm : mid.mark y = .unseen
    · obtain ⟨x, hx, hr⟩ := h₂.reach y hm hk
      exact ⟨x, List.mem_append_right _ hx, hr⟩
    · obtain ⟨x, hx, hr⟩ := h₁.reach y hu hm
      exact ⟨x, List.mem_append_left _ hx, hr⟩

/-- What a visit promises beyond `Grows`: the answer is the mark of the node,
and a visit that succeeds leaves no failure behind. -/
structure Visited (g : Graph ι) (x : ι) (st : St ι) (b : Bool) (st' : St ι) :
    Prop where
  grows : Grows g [x] st st'
  answer : st'.mark x = if b then .okay else .failed
  clean : b = true → ∀ y, st'.mark y = .failed → st.mark y = .failed

omit [DecidableEq ι] in
/-- A list of visits grows the state as its members do. The failing member of
a list that fails is named, because its failure is what the caller inherits. -/
theorem visitAll_grows {g : Graph ι} {rec : ι → St ι → Option (Bool × St ι)}
    (hrec : ∀ x st b st', rec x st = some (b, st') → Visited g x st b st') :
    ∀ (xs : List ι) (st : St ι) (b : Bool) (st' : St ι),
      visitAll rec xs st = some (b, st') →
      Grows g xs st st' ∧
      (b = true → (∀ y, st'.mark y = .failed → st.mark y = .failed) ∧
        ∀ z ∈ xs, st'.mark z = .okay) ∧
      (b = false → ∃ pre z post mid, xs = pre ++ z :: post ∧
        visitAll rec pre st = some (true, mid) ∧
        rec z mid = some (false, st') ∧ st'.mark z = .failed) := by
  intro xs
  induction xs with
  | nil =>
      intro st b st' h
      cases h
      exact ⟨.refl g st, fun _ => ⟨fun _ h => h, by simp⟩, by simp⟩
  | cons x xs ih =>
      intro st b st' h
      rw [visitAll] at h
      split at h
      · cases h
      · next mid hmid =>
          -- The first visit failed, and the list with it.
          cases h
          have hv := hrec x st false _ hmid
          refine ⟨hv.grows.mono (by simp), by simp, fun _ => ?_⟩
          exact ⟨[], x, xs, st, rfl, rfl, hmid, by simpa using hv.answer⟩
      · next mid hmid =>
          have hv := hrec x st true _ hmid
          obtain ⟨hg, ht, hf⟩ := ih mid b st' h
          have hxok : mid.mark x = .okay := by simpa using hv.answer
          refine ⟨hv.grows.trans (hv.clean rfl) hg, fun hb => ?_, fun hb => ?_⟩
          · obtain ⟨hclean, hall⟩ := ht hb
            refine ⟨fun y hy => hv.clean rfl y (hclean y hy), fun z hz => ?_⟩
            rcases List.mem_cons.mp hz with rfl | hz
            · rw [hg.keep z (by rw [hxok]; decide), hxok]
            · exact hall z hz
          · obtain ⟨pre, z, post, mid', rfl, hpre, hz, hm⟩ := hf hb
            refine ⟨x :: pre, z, post, mid', rfl, ?_, hz, hm⟩
            rw [visitAll, hmid]
            exact hpre

/-- Entering a node and marking it does nothing that `Grows` objects to, as
long as the visits below it are accounted for. -/
private theorem grows_finish {g : Graph ι} {x : ι} {st mid : St ι} {l : List ι}
    (hx : st.mark x = .unseen) (hd : g.dead x = false)
    (h : Grows g (g.next l x) (st.set x .okay) mid)
    (hall : ∀ z ∈ g.next l x, mid.mark z = .okay) :
    Grows g [x] st (mid.finish g x) := by
  have hne : ∀ {y}, st.mark y ≠ .unseen → y ≠ x := fun hy hyx => hy (hyx ▸ hx)
  have hxok : mid.mark x = .okay := by
    rw [h.keep x (by simp), St.set_mark_self]
  have hold : ∀ y, y ≠ x → (st.set x .okay).mark y = st.mark y :=
    fun y hy => St.set_mark_of_ne st _ hy
  constructor
  case keep =>
    intro y hy
    rw [St.finish_mark, h.keep y (by rw [hold y (hne hy)]; exact hy),
      hold y (hne hy)]
  case log =>
    obtain ⟨L, hL, hnd, hmem⟩ := h.log
    have hxL : x ∉ L := fun hin => by simpa using ((hmem x).mp hin).1
    have hLmem : ∀ y, y ≠ x →
        (y ∈ L ↔ st.mark y = .unseen ∧ mid.mark y = .okay ∧ g.emit y = true) :=
      fun y hy => by rw [hmem, hold y hy]
    simp only [St.finish_mark]
    by_cases he : g.emit x = true
    · refine ⟨L ++ [x], ?_, ?_, fun y => ?_⟩
      · simp only [St.finish, he, if_true, hL, St.set_log, List.append_assoc]
      · rw [List.nodup_append]
        refine ⟨hnd, by simp, fun a ha b hb hab => hxL ?_⟩
        rw [List.mem_singleton] at hb
        rw [← hb, ← hab]
        exact ha
      · by_cases hy : y = x
        · subst hy
          simp [hx, hxok, he]
        · rw [List.mem_append, List.mem_singleton, hLmem y hy]
          simp [hy]
    · refine ⟨L, ?_, hnd, fun y => ?_⟩
      · rw [St.finish, if_neg he, hL, St.set_log]
      · by_cases hy : y = x
        · subst hy
          simp [hxL, he]
        · exact hLmem y hy
  case okay =>
    intro y hu hk
    simp only [St.finish_mark] at hk ⊢
    by_cases hy : y = x
    · subst hy
      refine ⟨hd, l, fun z hz => ?_⟩
      rw [hall z hz]
      exact ⟨by decide, fun hf => by cases hf⟩
    · obtain ⟨hdy, l', hl'⟩ := h.okay y (by rw [hold y hy]; exact hu) hk
      refine ⟨hdy, l', fun z hz => ⟨(hl' z hz).1, fun hf => ?_⟩⟩
      by_cases hz' : z = x
      · subst hz'
        exact hx
      · have := (hl' z hz).2 hf
        rwa [hold z hz'] at this
  case failed =>
    intro y hu hk
    simp only [St.finish_mark] at hk ⊢
    have hy : y ≠ x := fun hyx => by rw [hyx, hxok] at hk; cases hk
    exact h.failed y (by rw [hold y hy]; exact hu) hk
  case reach =>
    intro y hu hk
    simp only [St.finish_mark] at hk
    refine ⟨x, by simp, ?_⟩
    by_cases hy : y = x
    · subst hy
      exact .refl
    · obtain ⟨z, hz, hr⟩ := h.reach y (by rw [hold y hy]; exact hu) hk
      exact Relation.ReflTransGen.head ⟨l, hz⟩ hr

/-- And taking the mark back leaves the visits below it where they were: the
nodes that finished on the strength of `x` now have a failed successor, which
is what the `okay` clause of `Grows` allows. -/
private theorem grows_fail {g : Graph ι} {x : ι} {st mid : St ι} {l : List ι}
    {z : ι} (hx : st.mark x = .unseen)
    (h : Grows g (g.next l x) (st.set x .okay) mid) (hz : z ∈ g.next l x)
    (hzf : mid.mark z = .failed) :
    Grows g [x] st (mid.set x .failed) := by
  have hne : ∀ {y}, st.mark y ≠ .unseen → y ≠ x := fun hy hyx => hy (hyx ▸ hx)
  have hold : ∀ y, y ≠ x → (st.set x .okay).mark y = st.mark y :=
    fun y hy => St.set_mark_of_ne st _ hy
  have hnew : ∀ y, y ≠ x → (mid.set x .failed).mark y = mid.mark y :=
    fun y hy => St.set_mark_of_ne mid _ hy
  have hxok : mid.mark x = .okay := by
    rw [h.keep x (by simp), St.set_mark_self]
  have hzx : z ≠ x := fun hzx => by rw [hzx, hxok] at hzf; cases hzf
  constructor
  case keep =>
    intro y hy
    rw [hnew y (hne hy), h.keep y (by rw [hold y (hne hy)]; exact hy),
      hold y (hne hy)]
  case log =>
    obtain ⟨L, hL, hnd, hmem⟩ := h.log
    refine ⟨L, by simpa using hL, hnd, fun y => ?_⟩
    by_cases hy : y = x
    · subst hy
      rw [hmem]
      simp
    · rw [hmem, hold y hy, hnew y hy]
  case okay =>
    intro y hu hk
    have hy : y ≠ x := fun hyx => by rw [hyx] at hk; simp at hk
    rw [hnew y hy] at hk
    obtain ⟨hdy, l', hl'⟩ := h.okay y (by rw [hold y hy]; exact hu) hk
    refine ⟨hdy, l', fun w hw => ?_⟩
    by_cases hwx : w = x
    · subst hwx
      exact ⟨by simp, fun _ => hx⟩
    · rw [hnew w hwx]
      refine ⟨(hl' w hw).1, fun hf => ?_⟩
      have := (hl' w hw).2 hf
      rwa [hold w hwx] at this
  case failed =>
    intro y hu hk
    by_cases hy : y = x
    · subst hy
      exact .inr ⟨l, z, hz, by rw [hnew z hzx]; exact hzf⟩
    · rw [hnew y hy] at hk
      rcases h.failed y (by rw [hold y hy]; exact hu) hk with hdy | ⟨l', w, hw, hwf⟩
      · exact .inl hdy
      · refine .inr ⟨l', w, hw, ?_⟩
        by_cases hwx : w = x
        · subst hwx
          simp
        · rw [hnew w hwx]
          exact hwf
  case reach =>
    intro y hu hk
    refine ⟨x, by simp, ?_⟩
    by_cases hy : y = x
    · subst hy
      exact .refl
    · rw [hnew y hy] at hk
      obtain ⟨w, hw, hr⟩ := h.reach y (by rw [hold y hy]; exact hu) hk
      exact Relation.ReflTransGen.head ⟨l, hw⟩ hr

/-- A dead node fails by itself and touches nothing else. -/
private theorem grows_dead {g : Graph ι} {x : ι} {st : St ι}
    (hx : st.mark x = .unseen) (hd : g.dead x = true) :
    Grows g [x] st (st.set x .failed) := by
  have hnew : ∀ y, y ≠ x → (st.set x .failed).mark y = st.mark y :=
    fun y hy => St.set_mark_of_ne st _ hy
  have hself : ∀ y, st.mark y = .unseen → (st.set x .failed).mark y ≠ .unseen →
      y = x := fun y hu hk => by
    by_contra hy
    rw [hnew y hy] at hk
    exact hk hu
  constructor
  case keep => exact fun y hy => hnew y fun hyx => hy (hyx ▸ hx)
  case log =>
    refine ⟨[], by simp, by simp, fun y => ?_⟩
    constructor
    · intro hy
      cases hy
    · rintro ⟨hu, hk, -⟩
      have hy := hself y hu (by rw [hk]; decide)
      rw [hy, St.set_mark_self] at hk
      cases hk
  case okay =>
    intro y hu hk
    have hy := hself y hu (by rw [hk]; decide)
    rw [hy, St.set_mark_self] at hk
    cases hk
  case failed =>
    intro y hu hk
    have hy := hself y hu (by rw [hk]; decide)
    exact .inl (hy ▸ hd)
  case reach =>
    intro y hu hk
    have hy := hself y hu hk
    exact ⟨x, by simp, hy ▸ .refl⟩

/-- What one visit does to the state. -/
theorem visit_visited (g : Graph ι) : ∀ (fuel : Nat) (x : ι) (st : St ι)
    (b : Bool) (st' : St ι),
    visit g fuel x st = some (b, st') → Visited g x st b st' := by
  intro fuel
  induction fuel with
  | zero =>
      intro x st b st' h
      rw [visit] at h
      cases h
  | succ fuel ih =>
      intro x st b st' h
      rcases visit_cases h with ⟨hx, rfl, rfl⟩ | ⟨hx, hd, rfl, rfl⟩ |
        ⟨hx, hd, mid, hmid, rfl⟩
      · -- Seen before: nothing happens and the mark is the answer.
        refine ⟨(Grows.refl g st').mono (by simp), ?_, fun _ _ h => h⟩
        cases hm : st'.mark x with
        | unseen => exact absurd hm hx
        | okay => simp
        | failed => simp
      · exact ⟨grows_dead hx hd, by simp, by simp⟩
      · obtain ⟨hg, ht, hf⟩ := visitAll_grows (g := g) ih _ _ _ _ hmid
        cases b with
        | true =>
            obtain ⟨hclean, hall⟩ := ht rfl
            have hxok : mid.mark x = .okay := by
              rw [hg.keep x (by simp), St.set_mark_self]
            refine ⟨grows_finish hx hd hg hall, by simpa using hxok,
              fun _ y hy => ?_⟩
            simp only [if_true, St.finish_mark] at hy
            have := hclean y hy
            by_cases hyx : y = x
            · subst hyx
              rw [St.set_mark_self] at this
              cases this
            · rwa [St.set_mark_of_ne st _ hyx] at this
        | false =>
            obtain ⟨pre, z, post, mid', hsplit, -, -, hzf⟩ := hf rfl
            have hz : z ∈ g.next st.log x := by rw [hsplit]; simp
            exact ⟨grows_fail hx hg hz hzf, by simp, by simp⟩

/-! ## A sequence of searches

Roots are searched one after another on the same marks. What is kept is the log
as it stood when a root last succeeded: a root that fails adds nothing by
itself, but what it logged before it failed is still there when a later root
succeeds. -/

omit [DecidableEq ι] in
/-- Search a list of roots; the second component is the log kept. -/
def visitRoots (rec : ι → St ι → Option (Bool × St ι)) :
    List ι → St ι → List ι → Option (St ι × List ι)
  | [], st, kept => some (st, kept)
  | x :: xs, st, kept =>
      match rec x st with
      | none => none
      | some (b, st') => visitRoots rec xs st' (if b then st'.log else kept)

/-! ## Searches that cannot fail

Without dead nodes nothing ever fails, every answer is `true`, and a whole
sequence of searches grows the state from all its roots at once. -/

section Alive

variable {g : Graph ι} (halive : ∀ x, g.dead x = false)

/-- No node has failed. -/
def St.NoFail (st : St ι) : Prop := ∀ y, st.mark y ≠ .failed

include halive

theorem visit_alive : ∀ (fuel : Nat) (x : ι) (st : St ι) (b : Bool) (st' : St ι),
    st.NoFail → visit g fuel x st = some (b, st') → b = true ∧ st'.NoFail := by
  intro fuel
  induction fuel with
  | zero =>
      intro x st b st' _ h
      rw [visit] at h
      cases h
  | succ fuel ih =>
      intro x st b st' hst h
      have hall : ∀ (xs : List ι) (st : St ι) (b : Bool) (st' : St ι), st.NoFail →
          visitAll (visit g fuel) xs st = some (b, st') →
          b = true ∧ st'.NoFail := by
        intro xs
        induction xs with
        | nil =>
            intro st b st' hst h
            cases h
            exact ⟨rfl, hst⟩
        | cons y ys ihy =>
            intro st b st' hst h
            rw [visitAll] at h
            split at h
            · cases h
            · next mid hmid => exact absurd (ih y st _ mid hst hmid).1 (by decide)
            · next mid hmid => exact ihy mid b st' (ih y st _ mid hst hmid).2 h
      rcases visit_cases h with ⟨hx, rfl, rfl⟩ | ⟨-, hd, -, -⟩ |
        ⟨hx, -, mid, hmid, rfl⟩
      · refine ⟨?_, hst⟩
        cases hm : st'.mark x with
        | unseen => exact absurd hm hx
        | okay => rfl
        | failed => exact absurd hm (hst x)
      · rw [halive x] at hd
        cases hd
      · have hset : (st.set x .okay).NoFail := fun y => by
          by_cases hy : y = x
          · subst hy
            simp
          · rw [St.set_mark_of_ne st _ hy]
            exact hst y
        obtain ⟨rfl, hmid'⟩ := hall _ _ _ _ hset hmid
        exact ⟨rfl, fun y => by simpa using hmid' y⟩

/-- All roots together: the state grows from them, every root ends up `okay`,
nothing fails, and what is kept is the whole log. -/
theorem visitRoots_alive {fuel : Nat} : ∀ (xs : List ι) (st : St ι)
    (kept : List ι) (st' : St ι) (kept' : List ι), st.NoFail →
    visitRoots (visit g fuel) xs st kept = some (st', kept') →
    Grows g xs st st' ∧ st'.NoFail ∧ (∀ x ∈ xs, st'.mark x = .okay) ∧
      kept' = if xs = [] then kept else st'.log := by
  intro xs
  induction xs with
  | nil =>
      intro st kept st' kept' hst h
      cases h
      exact ⟨.refl g st, hst, by simp, by simp⟩
  | cons x xs ih =>
      intro st kept st' kept' hst h
      rw [visitRoots] at h
      split at h
      · cases h
      · next b mid hmid =>
          have hv := visit_visited g fuel x st b mid hmid
          obtain ⟨rfl, hnf⟩ := visit_alive halive fuel x st b mid hst hmid
          obtain ⟨hg, hnf', hroots, hkept⟩ := ih mid _ st' kept' hnf h
          have hxok : mid.mark x = .okay := by simpa using hv.answer
          refine ⟨hv.grows.trans (hv.clean rfl) hg, hnf', fun y hy => ?_, ?_⟩
          · rcases List.mem_cons.mp hy with rfl | hy
            · rw [hg.keep y (by rw [hxok]; decide), hxok]
            · exact hroots y hy
          · rw [hkept, if_neg (List.cons_ne_nil x xs)]
            split
            · next hnil =>
                subst hnil
                cases h
                rfl
            · rfl

end Alive

/-! ## Acyclic searches are topological sorts

On a graph whose successors do not depend on the log and that has no cycle
below the roots, the credit a search gives to its own stack is never used:
a successor on the stack would close a cycle. So when a node finishes,
everything below it has finished, and is in the log if it is emitted. -/

section Sorted

variable {g : Graph ι}

/-- The invariant of an acyclic search whose open nodes are `S`. -/
structure Sorted (g : Graph ι) (S : List ι) (st : St ι) : Prop where
  /-- A finished node has only finished successors. -/
  closed : ∀ y, st.mark y = .okay → y ∉ S →
    ∀ z, g.Edge y z → st.mark z = .okay ∧ z ∉ S
  /-- A finished node that is emitted is in the log. -/
  logged : ∀ y, st.mark y = .okay → y ∉ S → g.emit y = true → y ∈ st.log
  /-- Everything below a logged node stands before it. -/
  sorted : ∀ l₁ y l₂, st.log = l₁ ++ y :: l₂ →
    ∀ z, Relation.TransGen g.Edge y z → g.emit z = true → z ∈ l₁

omit [DecidableEq ι] in
theorem Sorted.below {S : List ι} {st : St ι} (h : Sorted g S st) {y z : ι}
    (hy : st.mark y = .okay ∧ y ∉ S) (hr : Relation.TransGen g.Edge y z) :
    st.mark z = .okay ∧ z ∉ S := by
  induction hr with
  | single he => exact h.closed _ hy.1 hy.2 _ he
  | tail _ he ih => exact h.closed _ ih.1 ih.2 _ he

theorem Sorted.enter {S : List ι} {st : St ι} {x : ι} (h : Sorted g S st)
    (hx : st.mark x = .unseen) : Sorted g (x :: S) (st.set x .okay) := by
  have hmark : ∀ y, y ≠ x → (st.set x .okay).mark y = st.mark y :=
    fun y hy => St.set_mark_of_ne st _ hy
  constructor
  · intro y hk hS z he
    rw [List.mem_cons, not_or] at hS
    rw [hmark y hS.1] at hk
    obtain ⟨hz, hzS⟩ := h.closed y hk hS.2 z he
    have hzx : z ≠ x := fun hzx => by rw [hzx, hx] at hz; cases hz
    rw [hmark z hzx]
    exact ⟨hz, by simp [hzx, hzS]⟩
  · intro y hk hS he
    rw [List.mem_cons, not_or] at hS
    rw [hmark y hS.1] at hk
    exact h.logged y hk hS.2 he
  · exact h.sorted

/-- A node whose successors have all been visited may finish: none of them is
still open, since every open node leads to it. -/
theorem Sorted.leave {S : List ι} {mid : St ι} {x : ι} (h : Sorted g (x :: S) mid)
    (hall : ∀ z, g.Edge x z → mid.mark z = .okay)
    (hS : ∀ s ∈ S, g.Reach s x) (hacyc : ¬ Relation.TransGen g.Edge x x) :
    Sorted g S (mid.finish g x) := by
  have hopen : ∀ z, g.Edge x z → z ∉ x :: S := by
    intro z he hz
    rcases List.mem_cons.mp hz with rfl | hz
    · exact hacyc (.single he)
    · exact hacyc (.head' he (hS z hz))
  have hbelow : ∀ z, Relation.TransGen g.Edge x z →
      mid.mark z = .okay ∧ z ∉ x :: S := by
    intro z hr
    induction hr with
    | single he => exact ⟨hall _ he, hopen _ he⟩
    | tail _ he ih => exact h.closed _ ih.1 ih.2 _ he
  have hlog : ∀ y, y ∈ mid.log → y ∈ (mid.finish g x).log := by
    intro y hy
    unfold St.finish
    split
    · exact List.mem_append_left _ hy
    · exact hy
  constructor
  · intro y hk hyS z he
    rw [St.finish_mark] at hk ⊢
    by_cases hyx : y = x
    · subst hyx
      exact ⟨hall z he, fun hz => hopen z he (List.mem_cons_of_mem _ hz)⟩
    · obtain ⟨hz, hzS⟩ := h.closed y hk (by simp [hyx, hyS]) z he
      exact ⟨hz, fun hm => hzS (List.mem_cons_of_mem _ hm)⟩
  · intro y hk hyS hemit
    rw [St.finish_mark] at hk
    by_cases hyx : y = x
    · subst hyx
      simp [St.finish, hemit]
    · exact hlog y (h.logged y hk (by simp [hyx, hyS]) hemit)
  · intro l₁ y l₂ heq z hr hemit
    by_cases hx : g.emit x = true
    · rw [St.finish, if_pos hx] at heq
      rcases List.eq_nil_or_concat l₂ with rfl | ⟨l₂', w, rfl⟩
      · -- The node just finished is the last of the log.
        have hl := List.append_inj' heq rfl
        obtain ⟨rfl, hyx⟩ := hl
        obtain rfl : x = y := by simpa using hyx
        obtain ⟨hz, hzS⟩ := hbelow z hr
        exact h.logged z hz hzS hemit
      · have hl : mid.log ++ [x] = (l₁ ++ y :: l₂') ++ [w] := by simpa using heq
        exact h.sorted l₁ y l₂' (List.append_inj' hl rfl).1 z hr hemit
    · rw [St.finish, if_neg hx] at heq
      exact h.sorted l₁ y l₂ heq z hr hemit

variable (halive : ∀ x, g.dead x = false)
  (hstatic : ∀ l l' x, g.next l x = g.next l' x)

include halive hstatic

/-- One search below the open nodes `S`. -/
theorem visit_sorted : ∀ (fuel : Nat) (x : ι) (S : List ι) (st st' : St ι) (b : Bool),
    st.NoFail → Sorted g S st → (∀ s ∈ S, g.Reach s x) →
    (∀ y, g.Reach x y → ¬ Relation.TransGen g.Edge y y) →
    visit g fuel x st = some (b, st') → Sorted g S st' := by
  intro fuel
  induction fuel with
  | zero =>
      intro x S st st' b _ _ _ _ h
      rw [visit] at h
      cases h
  | succ fuel ih =>
      intro x S st st' b hnf hst hS hacyc h
      rcases visit_cases h with ⟨-, -, rfl⟩ | ⟨-, hd, -, -⟩ |
        ⟨hx, hd, mid, hmid, rfl⟩
      · exact hst
      · rw [halive x] at hd
        cases hd
      · have hset : (st.set x .okay).NoFail := fun y => by
          by_cases hy : y = x
          · subst hy
            simp
          · rw [St.set_mark_of_ne st _ hy]
            exact hnf y
        -- The successors are visited one by one below `x :: S`.
        have hall : ∀ (xs : List ι) (st st' : St ι) (b : Bool), st.NoFail →
            Sorted g (x :: S) st → (∀ z ∈ xs, g.Edge x z) →
            visitAll (visit g fuel) xs st = some (b, st') →
            b = true ∧ Sorted g (x :: S) st' := by
          intro xs
          induction xs with
          | nil =>
              intro st st' b _ hs _ h
              cases h
              exact ⟨rfl, hs⟩
          | cons z zs ihz =>
              intro st st' b hnf hs he h
              have hxz := he z (by simp)
              rw [visitAll] at h
              split at h
              · cases h
              · next m hm =>
                  exact absurd (visit_alive halive fuel z st _ m hnf hm).1
                    (by decide)
              · next m hm =>
                  have hm' := ih z (x :: S) st m true hnf hs
                    (fun s hs' => by
                      rcases List.mem_cons.mp hs' with rfl | hs'
                      · exact .single hxz
                      · exact (hS s hs').tail hxz)
                    (fun y hy => hacyc y (.head hxz hy)) hm
                  exact ihz m st' b (visit_alive halive fuel z st _ m hnf hm).2
                    hm' (fun w hw => he w (by simp [hw])) h
        obtain ⟨rfl, hmid'⟩ := hall _ _ _ _ hset (hst.enter hx)
          (fun z hz => ⟨_, hz⟩) hmid
        have hok := (visitAll_grows (visit_visited g fuel) _ _ _ _ hmid).2.1 rfl
        refine hmid'.leave (fun z hz => ?_) hS (hacyc x .refl)
        obtain ⟨l, hl⟩ := hz
        exact hok.2 z (by rw [hstatic _ l]; exact hl)

theorem visitRoots_sorted {fuel : Nat} : ∀ (xs : List ι) (st st' : St ι)
    (kept kept' : List ι), st.NoFail → Sorted g [] st →
    (∀ x ∈ xs, ∀ y, g.Reach x y → ¬ Relation.TransGen g.Edge y y) →
    visitRoots (visit g fuel) xs st kept = some (st', kept') →
    Sorted g [] st' := by
  intro xs
  induction xs with
  | nil =>
      intro st st' kept kept' _ hs _ h
      cases h
      exact hs
  | cons x xs ih =>
      intro st st' kept kept' hnf hs hacyc h
      rw [visitRoots] at h
      split at h
      · cases h
      · next b mid hmid =>
          have hmid' := visit_sorted halive hstatic fuel x [] st mid b hnf hs
            (by simp) (hacyc x (by simp)) hmid
          exact ih mid st' _ kept' (visit_alive halive fuel x st b mid hnf hmid).2
            hmid' (fun y hy => hacyc y (by simp [hy])) h

end Sorted

end Search
