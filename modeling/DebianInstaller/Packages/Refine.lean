import DebianInstaller.Packages.Marker

/-!
# The resolver is a search

A run of `resolveDependenciesRecurse` is a run of `Search.visit` on a graph
that can be read off the packages: the successors of a real package are the
targets of its `Depends` and `Pre-Depends`, the successor of a virtual package
is the provider its `check_virtual` picks, and the packages that fail on their
own are the missing ones, unless the check record lets them pass.

Two things have to be said before the two can be compared. `do_real` changes
the packages while the resolver runs, so what the check functions read depends
on what has been selected so far; `view` gives the packages after a given log,
marker bits aside, and `D` says what the list behind `do_real_data` has to do
with the log. And `check_real` may accept a target without looking at it;
`skip` says which. `Models` collects what a check record has to satisfy.

The comparison is exact except in one place. When the third bit of the marker
has been shifted out of the word, a virtual package whose provider fails is
tried for ever: there the search has an answer and the resolver has none.
`Sim` leaves room for that, and `provideLoop_stuck` shows that it happens.
-/

namespace DebianInstaller.Packages

open Search

variable {ι : Type*}

variable {fuel : Nat} {p : ι} {st : St ι} {v : ι → Package ι}

/-- The packages without the marker bits. -/
def strip (table : ι → Package ι) : ι → Package ι :=
  fun p => { table p with resolver := 0#32 }

/-- The provider that `check_virtual` picks among all of them. -/
def chooseProvide (r : Check ι) (table : ι → Package ι) (package : ι) :
    Option (PackageDependency ι) :=
  (table package).depends.foldl (fun best d =>
    if d.type = .reverseProvides then r.checkVirtual table package best d
    else best) none

/-- The entries a real package has to have satisfied. -/
def PackageDependency.isDepends (d : PackageDependency ι) : Bool :=
  decide (d.type = .depends ∨ d.type = .preDepends)

/-- The graph that a check record searches. -/
def graphOf (r : Check ι) (skip : ι → Bool) (view : List ι → ι → Package ι) : Graph ι where
  next log p :=
    match (view log p).type with
    | .realPackage =>
        ((view log p).depends.filter fun d =>
          PackageDependency.isDepends d && !skip d.ptr).map (·.ptr)
    | .virtualPackage =>
        match chooseProvide r (view log) p with
        | none => []
        | some d => if skip d.ptr then [] else [d.ptr]
    | .nonExistent => []
  dead p :=
    !r.checkNonExistant p &&
      match (view [] p).type with
      | .realPackage => false
      | .virtualPackage => (chooseProvide r (view []) p).isNone
      | .nonExistent => true
  emit p := decide ((view [] p).type = .realPackage)

/-- What ties a check record to its graph. -/
structure Models (r : Check ι) (skip : ι → Bool) (view : List ι → ι → Package ι)
    (D : List ι → List ι → Prop) : Prop where
  checkReal : ∀ recurse pk d w log, strip w.table = view log →
    r.checkReal recurse pk d w =
      if skip d.ptr then some (true, w) else recurse d.ptr pk w
  checkVirtual : ∀ table pk best d, r.checkVirtual table pk best d =
    r.checkVirtual (strip table) pk best d
  doReal : ∀ p w log, strip w.table = view log → D w.data log →
    strip (r.doReal p w).table = view (log ++ [p]) ∧
      D (r.doReal p w).data (log ++ [p])
  doReal_resolver : ∀ p q w,
    ((r.doReal p w).table q).resolver = (w.table q).resolver
  type : ∀ log p, (view log p).type = (view [] p).type
  depends : ∀ log p, (view log p).depends = (view [] p).depends
  /-- A missing package is refused throughout, or it is accepted throughout. -/
  uniform : (∀ p, r.checkNonExistant p = true) ∨
    ((∀ p, r.checkNonExistant p = false) ∧ (∀ p, skip p = false) ∧
      ∀ log p, chooseProvide r (view log) p =
        chooseProvide r (view []) p)

/-- The resolver and the search have done the same so far. -/
structure Rel (r : Check ι) (view : List ι → ι → Package ι)
    (D : List ι → List ι → Prop) (w : Work ι) (st : St ι) : Prop where
  mark : ∀ p, markOf r.resolver (w.table p).resolver = st.mark p
  strip : strip w.table = view st.log
  data : D w.data st.log

/-- What two answers have to do with each other. -/
def Sim (r : Check ι) (view : List ι → ι → Package ι) (D : List ι → List ι → Prop) :
    Option (Bool × Work ι) → Option (Bool × St ι) → Prop
  | some (b, w), some (b', st) => b = b' ∧ Rel r view D w st
  | none, none => True
  | none, some (b, _) => r.resolver <<< 2 = 0#32 ∧ b = false
  | some _, none => False

theorem Sim.cases {r : Check ι} {view : List ι → ι → Package ι}
    {D : List ι → List ι → Prop}
    {a : Option (Bool × Work ι)} {a' : Option (Bool × St ι)} (h : Sim r view D a a') :
    (a = none ∧ a' = none) ∨
    (∃ st, a = none ∧ a' = some (false, st) ∧ r.resolver <<< 2 = 0#32) ∨
    (∃ b w st, a = some (b, w) ∧ a' = some (b, st) ∧ Rel r view D w st) := by
  match a, a', h with
  | none, none, _ => exact .inl ⟨rfl, rfl⟩
  | none, some (b, st), h => exact .inr (.inl ⟨st, rfl, by rw [h.2], h.1⟩)
  | some (b, w), some (b', st), h =>
      exact .inr (.inr ⟨b, w, st, rfl, by rw [h.1], h.2⟩)

/-! ## The state the two share -/

theorem strip_type {t : ι → Package ι} (h : strip t = v) (p : ι) : (t p).type = (v p).type := by
  rw [← h]
  rfl

theorem strip_depends {t : ι → Package ι} (h : strip t = v) (p : ι) :
    (t p).depends = (v p).depends := by
  rw [← h]
  rfl

variable [DecidableEq ι]

theorem strip_mark (w : Work ι) (p : ι) (f : BitVec 32 → BitVec 32) :
    strip (w.mark p f).table = strip w.table := by
  unfold strip Work.mark
  funext q
  by_cases hq : q = p
  · subst hq
    simp
  · simp [hq]

theorem mark_resolver_self (w : Work ι) (p : ι) (f : BitVec 32 → BitVec 32) :
    ((w.mark p f).table p).resolver = f (w.table p).resolver := by
  simp [Work.mark]

theorem mark_resolver_of_ne (w : Work ι) {q : ι} (f : BitVec 32 → BitVec 32) (h : q ≠ p) :
    ((w.mark p f).table q).resolver = (w.table q).resolver := by
  simp [Work.mark, h]

section Steps

variable {r : Check ι} {view : List ι → ι → Package ι}
    {D : List ι → List ι → Prop} {w : Work ι} {st : St ι}

theorem Rel.set (h : Rel r view D w st) {f : BitVec 32 → BitVec 32} {m : Mark}
    (hf : markOf r.resolver (f (w.table p).resolver) = m) :
    Rel r view D (w.mark p f) (st.set p m) := by
  refine ⟨fun q => ?_, by rw [strip_mark]; exact h.strip, h.data⟩
  by_cases hq : q = p
  · subst hq
    rw [mark_resolver_self, St.set_mark_self, hf]
  · rw [mark_resolver_of_ne w f hq, St.set_mark_of_ne st m hq, h.mark q]

theorem Rel.same (h : Rel r view D w st) {f : BitVec 32 → BitVec 32}
    (hf : ∀ x, markOf r.resolver (f x) = markOf r.resolver x) : Rel r view D (w.mark p f) st := by
  refine ⟨fun q => ?_, by rw [strip_mark]; exact h.strip, h.data⟩
  by_cases hq : q = p
  · subst hq
    rw [mark_resolver_self, hf, h.mark q]
  · rw [mark_resolver_of_ne w f hq, h.mark q]

omit [DecidableEq ι] in
theorem Rel.finish {skip : ι → Bool} (hm : Models r skip view D)
    (h : Rel r view D w st) {p : ι} (hp : (view [] p).type = .realPackage) :
    Rel r view D (r.doReal p w) (st.finish (graphOf r skip view) p) := by
  have hemit : (graphOf r skip view).emit p = true := by simp [graphOf, hp]
  obtain ⟨ht, hd⟩ := hm.doReal p w st.log h.strip h.data
  refine ⟨fun q => ?_, ?_, ?_⟩
  · rw [hm.doReal_resolver, St.finish_mark, h.mark q]
  · rw [St.finish, if_pos hemit]
    exact ht
  · rw [St.finish, if_pos hemit]
    exact hd

end Steps

/-! ## The provider of a virtual package -/

section Provider

variable {r : Check ι} {skip : ι → Bool} {view : List ι → ι → Package ι}
    {D : List ι → List ι → Prop} {w : Work ι}

omit [DecidableEq ι] in
theorem chooseProvide_strip (hm : Models r skip view D) {v : ι → Package ι}
    (h : strip w.table = v) (p : ι) :
    chooseProvide r w.table p = chooseProvide r v p := by
  unfold chooseProvide
  rw [strip_depends h p]
  congr 1
  funext best d
  split
  · rw [hm.checkVirtual w.table, h]
  · rfl

omit [DecidableEq ι] in
/-- What `check_virtual` picks is one of the providers, and one that it has
accepted, as long as it picks between the two it is shown. -/
theorem chooseProvide_mem {table : ι → Package ι} {e : PackageDependency ι}
    {Q : PackageDependency ι → Prop} (hr : ∀ best d, r.checkVirtual table p best d = some d ∧ Q d ∨
      r.checkVirtual table p best d = best) (h : chooseProvide r table p = some e) :
    e ∈ (table p).depends ∧ e.type = .reverseProvides ∧ Q e := by
  have hfold : ∀ (ds : List (PackageDependency ι)) (best : Option (PackageDependency ι)),
      ds.foldl (fun best d =>
        if d.type = .reverseProvides then r.checkVirtual table p best d
        else best) best = some e →
      best = some e ∨ e ∈ ds ∧ e.type = .reverseProvides ∧ Q e := by
    intro ds
    induction ds with
    | nil => exact fun best h => .inl h
    | cons d ds ih =>
        intro best h
        rcases ih _ h with hb | ⟨he, ht⟩
        · dsimp only at hb
          split at hb
          · next hd =>
              rcases hr best d with ⟨hp, hQ⟩ | hp
              · rw [hp] at hb
                cases hb
                exact .inr ⟨by simp, hd, hQ⟩
              · exact .inl (hp ▸ hb)
          · exact .inl hb
        · exact .inr ⟨by simp [he], ht⟩
  rcases hfold _ _ h with hn | he
  · cases hn
  · exact he

omit [DecidableEq ι] in
theorem chooseProvide_isSome {table : ι → Package ι} {p : ι} {e : PackageDependency ι}
    (hr : ∀ best d, best.isSome = true → (r.checkVirtual table p best d).isSome = true)
    (he : e ∈ (table p).depends) (ht : e.type = .reverseProvides)
    (hpick : ∀ best, (r.checkVirtual table p best e).isSome = true) :
    (chooseProvide r table p).isSome = true := by
  have hkeep : ∀ (ds : List (PackageDependency ι)) (best : Option (PackageDependency ι)),
      best.isSome = true → (ds.foldl (fun best d =>
        if d.type = .reverseProvides then r.checkVirtual table p best d
        else best) best).isSome = true := by
    intro ds
    induction ds with
    | nil => exact fun best h => h
    | cons d ds ih =>
        intro best h
        refine ih _ ?_
        dsimp only
        split
        · exact hr best d h
        · exact h
  obtain ⟨pre, post, hsplit⟩ := List.append_of_mem he
  unfold chooseProvide
  rw [hsplit, List.foldl_append, List.foldl_cons, if_pos ht]
  exact hkeep post _ (hpick _)

omit [DecidableEq ι] in
theorem clearTried_eq (ds : List (PackageDependency ι)) (x : BitVec 32) :
    clearTried r ds x =
      if ds.any (fun d => decide (d.type = .reverseProvides)) then
        x &&& ~~~(r.resolver <<< 2)
      else x := by
  unfold clearTried
  induction ds generalizing x with
  | nil => rfl
  | cons d ds ih =>
      rw [List.foldl_cons, ih, List.any_cons]
      by_cases hd : d.type = .reverseProvides
      · simp only [hd, if_true, decide_true, Bool.true_or]
        split
        · rw [BitVec.and_assoc, BitVec.and_self]
        · rfl
      · simp [hd]

omit [DecidableEq ι] in
theorem bestProvide_fresh {p : ι}
    (h : (∃ d ∈ (w.table p).depends, d.type = .reverseProvides) →
      (w.table p).resolver &&& (r.resolver <<< 2) = 0#32) :
    bestProvide r w.table p = chooseProvide r w.table p := by
  unfold bestProvide chooseProvide
  refine List.foldl_ext _ _ _ fun best d hd => ?_
  by_cases ht : d.type = .reverseProvides
  · rw [if_pos ht, if_pos ht, if_pos (h ⟨d, hd, ht⟩)]
  · rw [if_neg ht, if_neg ht]

omit [DecidableEq ι] in
theorem bestProvide_tried {p : ι}
    (h : (w.table p).resolver &&& (r.resolver <<< 2) ≠ 0#32) :
    bestProvide r w.table p = none := by
  unfold bestProvide
  have hstep : ∀ (ds : List (PackageDependency ι)),
      ds.foldl (fun best d =>
        if d.type = .reverseProvides then
          if (w.table p).resolver &&& (r.resolver <<< 2) = 0#32 then
            r.checkVirtual w.table p best d
          else best
        else best) none = none := by
    intro ds
    induction ds with
    | nil => rfl
    | cons d ds ih => rw [List.foldl_cons, if_neg h, ite_self]; exact ih
  exact hstep _

theorem bestProvide_clear (hm : Models r skip view D) (h : strip w.table = v) :
    bestProvide r (w.mark p (clearTried r (w.table p).depends)).table p =
      chooseProvide r v p := by
  have hstrip : strip (w.mark p (clearTried r (w.table p).depends)).table = v := by
    rw [strip_mark, h]
  rw [← chooseProvide_strip hm hstrip]
  refine bestProvide_fresh fun hex => ?_
  rw [strip_depends hstrip, ← strip_depends h] at hex
  obtain ⟨d, hd, ht⟩ := hex
  have hany : (w.table p).depends.any
      (fun d => decide (d.type = .reverseProvides)) = true :=
    List.any_eq_true.mpr ⟨d, hd, by simpa using ht⟩
  rw [mark_resolver_self, clearTried_eq, if_pos hany, BitVec.and_assoc]
  simp

end Provider

/-! ## The simulation -/

section Simulation

variable {r : Check ι} {skip : ι → Bool} {view : List ι → ι → Package ι}
    {D : List ι → List ι → Prop} {i : Nat}

/-- The simulation is asked for of searches that refuse missing packages, or
in which nothing has failed: where missing packages pass, a failed provider
would be forgiven and a failed node would not. -/
def Mode (r : Check ι) (st : St ι) : Prop :=
  (∀ p, r.checkNonExistant p = false) ∨
    ((∀ p, r.checkNonExistant p = true) ∧ st.NoFail)

omit [DecidableEq ι] in
theorem graphOf_alive (h : ∀ p, r.checkNonExistant p = true) (p : ι) :
    (graphOf r skip view).dead p = false := by
  simp [graphOf, h p]

theorem Mode.visit {x : ι} {st' : St ι} {b : Bool} (h : Mode r st)
    (hv : visit (graphOf r skip view) fuel x st = some (b, st')) : Mode r st' := by
  rcases h with h | ⟨h, hnf⟩
  · exact .inl h
  · exact .inr ⟨h, (visit_alive (graphOf_alive h) fuel x st b st' hnf hv).2⟩

theorem Mode.set {x : ι} (h : Mode r st) : Mode r (st.set x .okay) := by
  rcases h with h | ⟨h, hnf⟩
  · exact .inl h
  · refine .inr ⟨h, fun y => ?_⟩
    by_cases hy : y = x
    · subst hy
      simp
    · rw [St.set_mark_of_ne st _ hy]
      exact hnf y

/-- What the induction of the simulation assumes about the calls below. -/
def SimBelow (r : Check ι) (skip : ι → Bool) (view : List ι → ι → Package ι)
    (D : List ι → List ι → Prop) (fuel : Nat) : Prop :=
  ∀ q dep w st, Rel r view D w st → Mode r st →
    Sim r view D (resolveDependenciesRecurse r fuel q dep w)
      (visit (graphOf r skip view) fuel q st)

/-- The entries of a real package are visited in order; those that
`check_real` accepts by itself do not appear on the other side. -/
theorem checkDepends_sim (hm : Models r skip view D) (ih : SimBelow r skip view D fuel) (p : ι) :
    ∀ (ds : List (PackageDependency ι)) (w : Work ι) (st : St ι),
      Rel r view D w st → Mode r st →
      Sim r view D (checkDepends r (resolveDependenciesRecurse r fuel) p ds w)
        (visitAll (visit (graphOf r skip view) fuel)
          ((ds.filter fun d => PackageDependency.isDepends d && !skip d.ptr).map
            (·.ptr)) st) := by
  intro ds
  induction ds with
  | nil => exact fun w st h _ => ⟨rfl, h⟩
  | cons d ds ihd =>
      intro w st h hmode
      rw [checkDepends]
      by_cases hd : d.type = .depends ∨ d.type = .preDepends
      · have hdep : PackageDependency.isDepends d = true := by
          simp [PackageDependency.isDepends, hd]
        rw [if_pos hd, hm.checkReal _ _ d w st.log h.strip]
        cases hs : skip d.ptr with
        | true =>
            rw [List.filter_cons_of_neg (by simp [hs])]
            exact ihd w st h hmode
        | false =>
            rw [List.filter_cons_of_pos (by simp [hdep, hs]), List.map_cons, visitAll]
            simp only [Bool.false_eq_true, if_false]
            rcases (ih d.ptr (some p) w st h hmode).cases with ⟨ha, hv⟩ |
              ⟨st', ha, hv, hz⟩ | ⟨b, w', st', ha, hv, hrel⟩
            · rw [ha, hv]
              trivial
            · -- The resolver is stuck below; the search has failed there.
              rw [ha, hv]
              exact ⟨hz, rfl⟩
            · rw [ha, hv]
              cases b with
              | false => exact ⟨rfl, hrel⟩
              | true => exact ihd w' st' hrel (hmode.visit hv)
      · have hdep : PackageDependency.isDepends d = false := by
          simp [PackageDependency.isDepends, hd]
        rw [if_neg hd, List.filter_cons_of_neg (by simp [hdep])]
        exact ihd w st h hmode

/-- A provider that has failed is tried for ever if the third bit is not
there to remember it. -/
theorem provideLoop_stuck (hm : Models r skip view D) (hr : r.resolver = BitVec.twoPow 32 i)
    (hz : r.resolver <<< 2 = 0#32) (hstrict : (∀ p, skip p = false) ∧ ∀ log p,
      chooseProvide r (view log) p = chooseProvide r (view []) p) {dep : Option ι}
    {d : PackageDependency ι} (hd : chooseProvide r (view []) p = some d) :
    ∀ (n : Nat) (w : Work ι) (st : St ι), Rel r view D w st →
      st.mark d.ptr = .failed →
      provideLoop r (resolveDependenciesRecurse r fuel) p dep n w = none := by
  intro n
  induction n with
  | zero => intro w st _ _; rw [provideLoop]
  | succ n ih =>
      intro w st h hf
      have hbest : bestProvide r w.table p = some d := by
        rw [bestProvide_fresh (fun _ => by rw [hz]; simp),
          chooseProvide_strip hm h.strip, hstrict.2, hd]
      rw [provideLoop, hbest]
      simp only []
      rw [hm.checkReal _ _ d w st.log h.strip, hstrict.1]
      simp only [Bool.false_eq_true, if_false]
      cases fuel with
      | zero => rw [resolveDependenciesRecurse]
      | succ fuel =>
          have hmark : markOf r.resolver (w.table d.ptr).resolver = .failed := by
            rw [h.mark, hf]
          have hseen : (w.table d.ptr).resolver &&& r.resolver ≠ 0#32 := fun h0 => by
            rw [(markOf_eq_unseen_iff hr).mpr h0] at hmark
            cases hmark
          have hrec : resolveDependenciesRecurse r (fuel + 1) d.ptr dep w =
              some (false, w) := by
            rw [resolveDependenciesRecurse, if_pos hseen, okay_iff hr hseen, hmark]
            rfl
          rw [hrec]
          exact ih _ st (h.same fun x => markOf_setTried hr) hf

/-- The tries of a virtual package are visits of its successors. -/
theorem provideLoop_sim (hm : Models r skip view D) (hr : r.resolver = BitVec.twoPow 32 i)
    (ih : SimBelow r skip view D fuel) (dep : Option ι) (hp : (view [] p).type = .virtualPackage)
    {w : Work ι} (h : Rel r view D w st) (hmode : Mode r st)
    (hd : (graphOf r skip view).dead p = false) :
    Sim r view D
      (provideLoop r (resolveDependenciesRecurse r fuel) p dep (fuel + 2)
        (w.mark p (clearTried r (w.table p).depends)))
      (visitAll (visit (graphOf r skip view) fuel)
        ((graphOf r skip view).next st.log p) st) := by
  have hnext : (graphOf r skip view).next st.log p =
      match chooseProvide r (view st.log) p with
      | none => []
      | some d => if skip d.ptr then [] else [d.ptr] := by
    simp only [graphOf, hm.type, hp]
  have hclear : Rel r view D (w.mark p (clearTried r (w.table p).depends)) st :=
    h.same fun x => by
      rw [clearTried_eq]
      split
      · exact markOf_clearTried hr
      · rfl
  rw [hnext, provideLoop, bestProvide_clear hm h.strip]
  cases hc : chooseProvide r (view st.log) p with
  | none =>
      -- No provider: a missing package, which passes since `p` is not dead.
      refine ⟨?_, hclear⟩
      rcases hm.uniform with hu | ⟨hu, -, hch⟩
      · exact hu p
      · rw [hch] at hc
        simp [graphOf, hu p, hp, hc] at hd
  | some d =>
      simp only []
      rw [hm.checkReal _ _ d _ st.log hclear.strip]
      cases hs : skip d.ptr with
      | true => exact ⟨rfl, hclear⟩
      | false =>
          simp only [Bool.false_eq_true, if_false]
          rw [visitAll]
          rcases (ih d.ptr dep _ st hclear hmode).cases with ⟨ha, hv⟩ |
            ⟨st', ha, hv, hz⟩ | ⟨b, w', st', ha, hv, hrel⟩
          · rw [ha, hv]
            trivial
          · rw [ha, hv]
            exact ⟨hz, rfl⟩
          · rw [ha, hv]
            cases b with
            | true => exact ⟨rfl, hrel⟩
            | false =>
              have hu : ∀ q, r.checkNonExistant q = false := by
                rcases hmode with hu | ⟨hu, hnf⟩
                · exact hu
                · exact absurd (visit_alive (graphOf_alive hu) fuel d.ptr st
                    false st' hnf hv).1 (by decide)
              have hst : (∀ q, skip q = false) ∧ ∀ log q,
                  chooseProvide r (view log) q =
                    chooseProvide r (view []) q := by
                rcases hm.uniform with hu' | ⟨-, hu'⟩
                · exact absurd (hu p) (by rw [hu' p]; decide)
                · exact hu'
              by_cases hz : r.resolver <<< 2 = 0#32
              · have hf : st'.mark d.ptr = .failed := by
                  simpa using (visit_visited _ fuel d.ptr st false st' hv).answer
                simp only []
                rw [provideLoop_stuck hm hr hz hst (by rw [← hst.2, hc]) _ _ st'
                  (hrel.same fun x => markOf_setTried hr) hf]
                exact ⟨hz, rfl⟩
              · -- The third bit stops the second round.
                simp only []
                rw [provideLoop, bestProvide_tried]
                · exact ⟨hu p, hrel.same fun x => markOf_setTried hr⟩
                · rw [mark_resolver_self]
                  intro h0
                  rw [hr, twoPow_shiftLeft, and_twoPow_eq_zero_iff,
                    getLsbD_or_twoPow] at h0
                  rw [hr, twoPow_shiftLeft] at hz
                  by_cases hlt : i + 2 < 32
                  · simp [hlt] at h0
                  · refine hz ?_
                    rw [BitVec.twoPow_eq]
                    exact BitVec.shiftLeft_eq_zero (by omega)

/-! ### One call

A package that is entered is marked, its type says who answers for it, and the second mark is taken
back if the answer is no. -/

/-- The answer for a package that has just been entered. -/
def answerOf (r : Check ι) (fuel : Nat) (q : ι) (dep : Option ι) (w : Work ι) :
    Option (Bool × Work ι) :=
  match (w.table q).type with
  | .realPackage =>
      match checkDepends r (resolveDependenciesRecurse r fuel) q (w.table q).depends w with
      | none => none
      | some (false, w) => some (false, w)
      | some (true, w) => some (true, r.doReal q w)
  | .virtualPackage =>
      provideLoop r (resolveDependenciesRecurse r fuel) q dep (fuel + 2)
        (w.mark q (clearTried r (w.table q).depends))
  | .nonExistent => some (r.checkNonExistant q, w)

/-- The end of a call: a failure takes the second bit away. -/
def concluded (r : Check ι) (q : ι) : Option (Bool × Work ι) → Option (Bool × Work ι)
  | none => none
  | some (true, w) => some (true, w)
  | some (false, w) => some (false, w.mark q (· &&& ~~~(r.resolver <<< 1)))

/-- What a visit makes of the answer of its successors. -/
def answered (g : Graph ι) (q : ι) : Option (Bool × St ι) → Option (Bool × St ι)
  | none => none
  | some (true, st) => some (true, st.finish g q)
  | some (false, st) => some (false, st.set q .failed)

def entered (r : Check ι) (q : ι) (w : Work ι) : Work ι :=
  w.mark q (· ||| r.resolver ||| (r.resolver <<< 1))

theorem recurse_unseen {q : ι} {dep : Option ι} {w : Work ι}
    (h : (w.table q).resolver &&& r.resolver = 0#32) :
    resolveDependenciesRecurse r (fuel + 1) q dep w =
      concluded r q (answerOf r fuel q dep (entered r q w)) := by
  rw [resolveDependenciesRecurse, if_neg (by simpa using h)]
  rfl

section Call

variable {q : ι} {w : Work ι} (hr : r.resolver = BitVec.twoPow 32 i)

include hr

/-- A call whose answer is that of the search below ends as the visit does. -/
theorem Sim.concluded {a : Option (Bool × Work ι)} {a' : Option (Bool × St ι)}
    {g : Graph ι} (h : Sim r view D a a') (ok : Work ι → Work ι)
    (hok : ∀ w st, Rel r view D w st → Rel r view D (ok w) (st.finish g q))
    (hq : ∀ b st, a' = some (b, st) → st.mark q = .okay) :
    Sim r view D (concluded r q (a.map fun x => (x.1, if x.1 then ok x.2 else x.2)))
      (answered g q a') := by
  rcases h.cases with ⟨rfl, rfl⟩ | ⟨st, rfl, rfl, hz⟩ | ⟨b, w, st, rfl, rfl, hrel⟩
  · trivial
  · exact ⟨hz, rfl⟩
  · cases b with
    | true => exact ⟨rfl, hok w st hrel⟩
    | false =>
        exact ⟨rfl, hrel.set (markOf_fail hr (by rw [hrel.mark, hq _ _ rfl]; decide))⟩

/-- A missing package that is refused, or a virtual one that nobody provides. -/
theorem dead_sim (hi : i < 31) (hm : Models r skip view D) (h : Rel r view D w st)
    (hd : (graphOf r skip view).dead q = true) (dep : Option ι) :
    Sim r view D (concluded r q (answerOf r fuel q dep (entered r q w)))
      (some (false, st.set q .failed)) := by
  have henter : Rel r view D (entered r q w) (st.set q .okay) := h.set (markOf_enter hr hi)
  have hfail : ∀ {w' : Work ι}, Rel r view D w' (st.set q .okay) →
      Rel r view D (w'.mark q (· &&& ~~~(r.resolver <<< 1))) (st.set q .failed) := by
    intro w' hrel
    have hst : st.set q .failed = (st.set q .okay).set q .failed := by simp [St.set]
    rw [hst]
    exact hrel.set (markOf_fail hr (by rw [hrel.mark]; simp))
  simp only [graphOf, Bool.and_eq_true, Bool.not_eq_true'] at hd
  obtain ⟨hne, hd⟩ := hd
  unfold answerOf
  rw [strip_type henter.strip, St.set_log, hm.type]
  cases ht : (view [] q).type with
  | realPackage => simp [ht] at hd
  | nonExistent =>
      rw [hne]
      exact ⟨rfl, hfail henter⟩
  | virtualPackage =>
      have hnone : chooseProvide r (view st.log) q = none := by
        rcases hm.uniform with hu | ⟨-, -, hch⟩
        · rw [hu q] at hne
          cases hne
        · rw [hch]
          simpa [ht] using hd
      have hclear := henter.same (p := q) (f := clearTried r ((entered r q w).table q).depends)
        fun x => by
          rw [clearTried_eq]
          split
          · exact markOf_clearTried hr
          · rfl
      dsimp only
      rw [provideLoop, bestProvide_clear hm henter.strip, St.set_log, hnone]
      simp only [hne]
      exact ⟨rfl, hfail hclear⟩

/-- Any other package is entered, and is as good as what the search visits from there. -/
theorem open_sim (hi : i < 31) (hm : Models r skip view D) (ih : SimBelow r skip view D fuel)
    (h : Rel r view D w st) (hmode : Mode r st) (hd : (graphOf r skip view).dead q = false)
    (dep : Option ι) :
    Sim r view D (concluded r q (answerOf r fuel q dep (entered r q w)))
      (answered (graphOf r skip view) q (visitAll (visit (graphOf r skip view) fuel)
        ((graphOf r skip view).next st.log q) (st.set q .okay))) := by
  have henter : Rel r view D (entered r q w) (st.set q .okay) := h.set (markOf_enter hr hi)
  have hopen : ∀ b st', visitAll (visit (graphOf r skip view) fuel)
      ((graphOf r skip view).next st.log q) (st.set q .okay) = some (b, st') →
      st'.mark q = .okay := by
    intro b st' hv
    have hg := (visitAll_grows (visit_visited (graphOf r skip view) fuel) _ _ _ _ hv).1
    rw [hg.keep q (by simp), St.set_mark_self]
  unfold answerOf
  rw [strip_type henter.strip, St.set_log, hm.type]
  cases ht : (view [] q).type with
  | nonExistent =>
      have hnext : (graphOf r skip view).next st.log q = [] := by
        simp only [graphOf, hm.type, ht]
      have hpass : r.checkNonExistant q = true := by simpa [graphOf, ht] using hd
      have hfin : (st.set q .okay).finish (graphOf r skip view) q = st.set q .okay := by
        simp [St.finish, graphOf, ht]
      rw [hnext, hpass]
      exact ⟨rfl, hfin.symm ▸ henter⟩
  | realPackage =>
      have hnext : (graphOf r skip view).next st.log q =
          (((entered r q w).table q).depends.filter fun d =>
            PackageDependency.isDepends d && !skip d.ptr).map (·.ptr) := by
        simp only [graphOf, hm.type, ht]
        rw [strip_depends henter.strip, St.set_log]
      rw [hnext] at hopen ⊢
      have hsim := (checkDepends_sim hm ih q ((entered r q w).table q).depends _ _ henter
        hmode.set).concluded hr (r.doReal q) (fun w st hrel => hrel.finish hm ht) hopen
      convert hsim using 2
      rcases checkDepends r (resolveDependenciesRecurse r fuel) q
        ((entered r q w).table q).depends (entered r q w) with _ | ⟨_ | _, w'⟩ <;> rfl
  | virtualPackage =>
      have hfin : ∀ st' : St ι, st'.finish (graphOf r skip view) q = st' := by
        intro st'
        simp [St.finish, graphOf, ht]
      have hsim := (provideLoop_sim hm hr ih dep ht henter hmode.set hd).concluded hr id
        (fun w st hrel => by rw [hfin]; exact hrel) (by rwa [St.set_log])
      rw [St.set_log] at hsim
      convert hsim using 2
      rcases provideLoop r (resolveDependenciesRecurse r fuel) q dep (fuel + 2)
        ((entered r q w).mark q (clearTried r ((entered r q w).table q).depends)) with
        _ | ⟨_ | _, w'⟩ <;> rfl

end Call

/-- The resolver and the search give the same answer and do the same to the
packages, at every depth. -/
theorem resolveDependenciesRecurse_sim (hm : Models r skip view D)
    (hr : r.resolver = BitVec.twoPow 32 i) (hi : i < 31) :
    ∀ fuel, SimBelow r skip view D fuel := by
  intro fuel
  induction fuel with
  | zero =>
      intro q dep w st _ _
      rw [resolveDependenciesRecurse, visit]
      trivial
  | succ fuel ih =>
      intro q dep w st h hmode
      by_cases hq : st.mark q = .unseen
      · have hunseen : (w.table q).resolver &&& r.resolver = 0#32 :=
          (markOf_eq_unseen_iff hr).mp (by rw [h.mark, hq])
        rw [recurse_unseen hunseen]
        cases hd : (graphOf r skip view).dead q with
        | true =>
            rw [visit_dead hq hd]
            exact dead_sim hr hi hm h hd dep
        | false =>
            rw [visit_open hq hd]
            exact open_sim hr hi hm ih h hmode hd dep
      · have hseen : (w.table q).resolver &&& r.resolver ≠ 0#32 := fun h0 =>
          hq (by rw [← h.mark, (markOf_eq_unseen_iff hr).mpr h0])
        rw [resolveDependenciesRecurse, if_pos hseen, visit_seen hq, okay_iff hr hseen,
          h.mark]
        exact ⟨rfl, h⟩

end Simulation

end DebianInstaller.Packages
