import DebianInstaller.Packages.Permissive

/-!
# Which virtual packages resolve

A virtual package resolves through one of its providers, and the loop over them is there to go
on to the next best one when one fails. It notes a failure in the bits of the virtual package
and not in those of the provider, so behind the first failure it looks at no provider any more.
What decides is the provider that is best of all. In a call whose marker has no third bit the
failure is not noted at all and the loop tries the same provider for ever.

Without cycles the marks do not matter: a package is marked with what it comes to, or it is
open and nothing leads back to it.
-/

namespace DebianInstaller.Packages

open Search

variable {ι : Type*}

variable {fuel : ℕ} {p q v : ι} {r : Check ι} {st : St ι} {table : ι → Package ι} {w : Work ι}

/-- A provider of a virtual package. -/
def Provides (table : ι → Package ι) (v q : ι) : Prop :=
  ∃ d ∈ (table v).depends, d.type = .reverseProvides ∧ d.ptr = q

/-- Resolving the one package may come down to resolving the other. -/
def Leads (table : ι → Package ι) (p q : ι) : Prop :=
  ((table p).type = .realPackage ∧ ∃ d ∈ (table p).depends,
    (d.type = .depends ∨ d.type = .preDepends) ∧ d.ptr = q) ∨
  (table p).type = .virtualPackage ∧ Provides table p q

/-- There is no dependency cycle. -/
def Acyclic (table : ι → Package ι) : Prop := ∀ p, ¬ Relation.TransGen (Leads table) p p

/-- Everything that a real package depends on can be resolved, and some provider of a virtual
package. -/
inductive Resolvable (table : ι → Package ι) : ι → Prop
  | real {p : ι} (hp : (table p).type = .realPackage)
      (h : ∀ d ∈ (table p).depends, d.type = .depends ∨ d.type = .preDepends →
        Resolvable table d.ptr) : Resolvable table p
  | provided {v q : ι} (hv : (table v).type = .virtualPackage) (hq : Provides table v q)
      (h : Resolvable table q) : Resolvable table v

theorem resolvable_real (hp : (table p).type = .realPackage) :
    Resolvable table p ↔ ∀ d ∈ (table p).depends, d.type = .depends ∨ d.type = .preDepends →
      Resolvable table d.ptr := by
  refine ⟨fun h => ?_, .real hp⟩
  cases h with
  | real _ h => exact h
  | provided hv _ _ => rw [hp] at hv; cases hv

theorem resolvable_virtual (hv : (table v).type = .virtualPackage) :
    Resolvable table v ↔ ∃ q, Provides table v q ∧ Resolvable table q := by
  refine ⟨fun h => ?_, fun ⟨q, hq, h⟩ => .provided hv hq h⟩
  cases h with
  | real hp _ => rw [hv] at hp; cases hp
  | provided _ hq h => exact ⟨_, hq, h⟩

theorem not_resolvable_nonExistent (hp : (table p).type = .nonExistent) : ¬ Resolvable table p := by
  rintro (⟨h, -⟩ | ⟨h, -, -⟩) <;> rw [hp] at h <;> cases h

/-! ## How deep a package is -/

section Rank

variable [Fintype ι]

open Classical in
/-- How many packages a package leads to. -/
noncomputable def height (table : ι → Package ι) (p : ι) : ℕ :=
  (Finset.univ.filter fun q => Relation.TransGen (Leads table) p q).card

theorem height_lt (h : Acyclic table) (hpq : Leads table p q) :
    height table q < height table p := by
  classical
  refine Finset.card_lt_card (Finset.ssubset_iff_of_subset ?_ |>.mpr ⟨q, ?_, ?_⟩)
  · intro x hx
    rw [Finset.mem_filter] at hx ⊢
    exact ⟨hx.1, .head hpq hx.2⟩
  · exact Finset.mem_filter.mpr ⟨Finset.mem_univ _, .single hpq⟩
  · exact fun hq => h q (Finset.mem_filter.mp hq).2

theorem height_le (table : ι → Package ι) (p : ι) : height table p ≤ Fintype.card ι :=
  Finset.card_le_univ _

end Rank

/-! ## Marks that are right -/

open Classical in
/-- The mark of a package that is done with. -/
noncomputable def answer (table : ι → Package ι) (p : ι) : Mark :=
  if Resolvable table p then .okay else .failed

/-- What the package leads to is not yet marked, or rightly. -/
def Settled (table : ι → Package ι) (p : ι) (st : St ι) : Prop :=
  ∀ q, Relation.ReflTransGen (Leads table) p q → st.mark q = .unseen ∨ st.mark q = answer table q

/-- All new marks are right. -/
def Keeps (table : ι → Package ι) (st st' : St ι) : Prop :=
  ∀ q, st'.mark q = st.mark q ∨ st'.mark q = answer table q

theorem Keeps.refl (table : ι → Package ι) (st : St ι) : Keeps table st st := fun _ => .inl rfl

theorem Keeps.trans {a b c : St ι} (hab : Keeps table a b) (hbc : Keeps table b c) :
    Keeps table a c := by
  intro q
  rcases hbc q with h | h
  · rw [h]
    exact hab q
  · exact .inr h

theorem Settled.keep {st' : St ι} (h : Settled table p st) (hk : Keeps table st st') :
    Settled table p st' := by
  intro q hq
  rcases hk q with hq' | hq'
  · rw [hq']
    exact h q hq
  · exact .inr hq'

theorem Settled.below (h : Settled table p st) (hpq : Leads table p q) : Settled table q st :=
  fun x hx => h x (.head hpq hx)

theorem answer_eq_okay : answer table p = .okay ↔ Resolvable table p := by
  unfold answer
  split <;> simp_all

theorem answer_ne_unseen (table : ι → Package ι) (p : ι) : answer table p ≠ .unseen := by
  unfold answer
  split <;> simp

/-- The provider that the loop begins with can be resolved, if any can, for all virtual packages
that the package leads to; or always, if the marker has no third bit. -/
def Fair (r : Check ι) (table : ι → Package ι) (p : ι) : Prop :=
  ∀ v best, Relation.ReflTransGen (Leads table) p v → (table v).type = .virtualPackage →
    chooseProvide r table v = some best →
    (r.resolver <<< 2 = 0#32 ∨ ∃ q, Provides table v q ∧ Resolvable table q) →
    Resolvable table best.ptr

theorem Fair.below (h : Fair r table p) (hpq : Leads table p q) : Fair r table q :=
  fun v best hv => h v best (.head hpq hv)

/-! ## What a call answers -/

theorem or_and_self (x y : BitVec 32) : (x ||| y) &&& y = y := by
  ext j hj
  simp only [BitVec.getElem_and, BitVec.getElem_or]
  cases x[j] <;> simp

theorem provides_of_some (hr : r.checkVirtual = checkVirtual) {d : PackageDependency ι}
    (h : chooseProvide r table v = some d) : Provides table v d.ptr := by
  obtain ⟨hd, ht, -⟩ := chooseProvide_mem (Q := fun _ => True)
    (fun best c => by
      rw [hr]
      exact (checkVirtual_picks table v best c).imp (⟨·, trivial⟩) id) h
  exact ⟨d, hd, ht, rfl⟩

theorem not_provides_of_none (hr : r.checkVirtual = checkVirtual)
    (h : chooseProvide r table v = none) (q : ι) : ¬ Provides table v q := by
  rintro ⟨d, hd, ht, rfl⟩
  have hsome := chooseProvide_isSome (r := r) (e := d) (fun best c hbest => ?_) hd ht fun best => ?_
  · rw [h] at hsome
    cases hsome
  · obtain ⟨e, rfl⟩ := Option.isSome_iff_exists.mp hbest
    rw [hr, checkVirtual]
    split <;> rfl
  · rw [hr]
    cases best with
    | none => rfl
    | some b =>
        rw [checkVirtual]
        split <;> rfl

section Answer

variable [DecidableEq ι] [Fintype ι] {r : Check ι} {view : List ι → ι → Package ι} {i : ℕ}

/-- With this fuel a call on the package answers rightly, if it answers, and marks the package
with the answer; and it answers if the fuel is enough for all that the package leads to. -/
def AnswersRightly (r : Check ι) (view : List ι → ι → Package ι) (fuel : ℕ) (p : ι) : Prop :=
  ∀ dep w st, Rel r view (fun _ _ => True) w st → Settled (view []) p st →
    (∀ b w', resolveDependenciesRecurse r fuel p dep w = some (b, w') →
      (b = true ↔ Resolvable (view []) p) ∧ ∃ st', Rel r view (fun _ _ => True) w' st' ∧
        Keeps (view []) st st' ∧ st'.mark p = answer (view []) p) ∧
    (height (view []) p < fuel → (resolveDependenciesRecurse r fuel p dep w).isSome)

variable (hm : Models r (fun _ => false) view fun _ _ => True)

include hm

theorem checkDepends_resolves {ds : List (PackageDependency ι)}
    (hds : ∀ d ∈ ds, d.type = .depends ∨ d.type = .preDepends →
      Leads (view []) p d.ptr ∧ AnswersRightly r view fuel d.ptr)
    (h : Rel r view (fun _ _ => True) w st)
    (hset : ∀ q, Leads (view []) p q → Settled (view []) q st) :
    (∀ b w', checkDepends r (resolveDependenciesRecurse r fuel) p ds w = some (b, w') →
      (b = true ↔ ∀ d ∈ ds, d.type = .depends ∨ d.type = .preDepends →
        Resolvable (view []) d.ptr) ∧
      ∃ st', Rel r view (fun _ _ => True) w' st' ∧ Keeps (view []) st st') ∧
    ((∀ d ∈ ds, d.type = .depends ∨ d.type = .preDepends → height (view []) d.ptr < fuel) →
      (checkDepends r (resolveDependenciesRecurse r fuel) p ds w).isSome) := by
  induction ds generalizing w st with
  | nil =>
      refine ⟨fun b w' hrun => ?_, fun _ => rfl⟩
      rw [checkDepends, Option.some_inj, Prod.mk.injEq] at hrun
      obtain ⟨rfl, rfl⟩ := hrun
      exact ⟨by simp, st, h, .refl _ _⟩
  | cons d ds ih =>
      have hrest := fun e he => hds e (List.mem_cons_of_mem _ he)
      rw [checkDepends]
      by_cases hd : d.type = .depends ∨ d.type = .preDepends
      · rw [if_pos hd, hm.checkReal _ _ d w _ h.strip, if_neg Bool.false_ne_true]
        obtain ⟨hleads, hres⟩ := hds d List.mem_cons_self hd
        obtain ⟨hans, hsome⟩ := hres (some p) w st h (hset d.ptr hleads)
        cases hrun : resolveDependenciesRecurse r fuel d.ptr (some p) w with
        | none =>
            refine ⟨fun b w' hno => (by cases hno), fun hfuel => ?_⟩
            have hthere := hsome (hfuel d List.mem_cons_self hd)
            rw [hrun] at hthere
            cases hthere
        | some a =>
            obtain ⟨b, w₁⟩ := a
            obtain ⟨hb, st₁, hrel, hk, -⟩ := hans b w₁ hrun
            cases b with
            | false =>
                refine ⟨fun b w' hend => ?_, fun _ => rfl⟩
                obtain ⟨rfl, rfl⟩ := Prod.mk.inj (Option.some.inj hend)
                refine ⟨⟨fun hf => (by cases hf), fun hall => ?_⟩, st₁, hrel, hk⟩
                exact hb.mpr (hall d List.mem_cons_self hd)
            | true =>
                obtain ⟨hans', hsome'⟩ := ih hrest hrel fun q hq => (hset q hq).keep hk
                refine ⟨fun b w' hend => ?_, fun hfuel => ?_⟩
                · obtain ⟨hb', st₂, hrel', hk'⟩ := hans' b w' hend
                  refine ⟨?_, st₂, hrel', hk.trans hk'⟩
                  rw [hb', List.forall_mem_cons]
                  exact ⟨fun hall => ⟨fun _ => hb.mp rfl, hall⟩, And.right⟩
                · exact hsome' fun e he => hfuel e (List.mem_cons_of_mem _ he)
      · rw [if_neg hd]
        obtain ⟨hans', hsome'⟩ := ih hrest h hset
        refine ⟨fun b w' hend => ?_, fun hfuel => ?_⟩
        · obtain ⟨hb', hst⟩ := hans' b w' hend
          refine ⟨?_, hst⟩
          rw [hb', List.forall_mem_cons]
          exact ⟨fun hall => ⟨fun hno => absurd hno hd, hall⟩, And.right⟩
        · exact hsome' fun e he => hfuel e (List.mem_cons_of_mem _ he)

variable (hr : r.resolver = BitVec.twoPow 32 i) (hvirtual : r.checkVirtual = checkVirtual)
  (hstrict : ∀ p, r.checkNonExistant p = false)

include hr hvirtual hstrict

theorem provideLoop_resolves (hv : (view [] v).type = .virtualPackage) (hfair : Fair r (view []) v)
    (hq : ∀ q, Leads (view []) v q → AnswersRightly r view fuel q)
    (h : Rel r view (fun _ _ => True) w st)
    (hset : ∀ q, Leads (view []) v q → Settled (view []) q st) (dep : Option ι) (n : ℕ) :
    (∀ b w', provideLoop r (resolveDependenciesRecurse r fuel) v dep (n + 2)
        (w.mark v (clearTried r (w.table v).depends)) = some (b, w') →
      (b = true ↔ Resolvable (view []) v) ∧
      ∃ st', Rel r view (fun _ _ => True) w' st' ∧ Keeps (view []) st st') ∧
    ((∀ q, Leads (view []) v q → height (view []) q < fuel) →
      (provideLoop r (resolveDependenciesRecurse r fuel) v dep (n + 2)
        (w.mark v (clearTried r (w.table v).depends))).isSome) := by
  have hchoose : chooseProvide r (view st.log) v = chooseProvide r (view []) v := by
    rcases hm.uniform with hu | ⟨-, -, hu⟩
    · exact absurd (hstrict v) (by rw [hu v]; decide)
    · exact hu _ v
  have hclear : Rel r view (fun _ _ => True) (w.mark v (clearTried r (w.table v).depends)) st :=
    h.same fun x => by
      rw [clearTried_eq]
      split
      · exact markOf_clearTried hr
      · rfl
  rw [provideLoop, bestProvide_clear hm h.strip, hchoose]
  cases hbest : chooseProvide r (view []) v with
  | none =>
      refine ⟨fun b w' hend => ?_, fun _ => rfl⟩
      obtain ⟨rfl, rfl⟩ := Prod.mk.inj (Option.some.inj hend)
      refine ⟨?_, st, hclear, .refl _ _⟩
      rw [hstrict v, resolvable_virtual hv]
      refine ⟨fun hf => (by cases hf), fun hyes => ?_⟩
      obtain ⟨q, hpq, -⟩ := hyes
      exact absurd hpq (not_provides_of_none hvirtual hbest q)
  | some d =>
      have hprov : Provides (view []) v d.ptr := provides_of_some hvirtual hbest
      have hleads : Leads (view []) v d.ptr := .inr ⟨hv, hprov⟩
      obtain ⟨hans, hsome⟩ := hq d.ptr hleads dep _ st hclear (hset d.ptr hleads)
      dsimp only
      rw [hm.checkReal _ _ d _ _ hclear.strip, if_neg Bool.false_ne_true]
      cases hrun : resolveDependenciesRecurse r fuel d.ptr dep
          (w.mark v (clearTried r (w.table v).depends)) with
      | none =>
          refine ⟨fun b w' hno => (by cases hno), fun hfuel => ?_⟩
          have hthere := hsome (hfuel d.ptr hleads)
          rw [hrun] at hthere
          cases hthere
      | some a =>
          obtain ⟨b, w₁⟩ := a
          obtain ⟨hb, st₁, hrel, hk, -⟩ := hans b w₁ hrun
          cases b with
          | true =>
              refine ⟨fun b w' hend => ?_, fun _ => rfl⟩
              obtain ⟨rfl, rfl⟩ := Prod.mk.inj (Option.some.inj hend)
              exact ⟨⟨fun _ => .provided hv hprov (hb.mp rfl), fun _ => rfl⟩, st₁, hrel, hk⟩
          | false =>
              have hno : ¬ Resolvable (view []) d.ptr := fun hyes => Bool.false_ne_true (hb.mpr hyes)
              have hunfair := mt (hfair v d .refl hv hbest) hno
              rw [not_or] at hunfair
              -- The failure is noted, so the second round ends the loop.
              have htried :
                  bestProvide r (w₁.mark v (· ||| (r.resolver <<< 2))).table v = none := by
                refine bestProvide_tried ?_
                rw [mark_resolver_self, or_and_self]
                exact hunfair.1
              dsimp only
              rw [provideLoop, htried]
              refine ⟨fun b w' hend => ?_, fun _ => rfl⟩
              obtain ⟨rfl, rfl⟩ := Prod.mk.inj (Option.some.inj hend)
              refine ⟨?_, st₁, hrel.same fun x => markOf_setTried hr, hk⟩
              rw [hstrict v, resolvable_virtual hv]
              exact ⟨fun hf => (by cases hf), fun hyes => absurd hyes hunfair.2⟩

omit hm hvirtual hstrict [Fintype ι] in
theorem concluded_right {p : ι} {w₁ : Work ι} {st st₁ : St ι} {b : Bool}
    (hb : b = true ↔ Resolvable (view []) p) (hrel : Rel r view (fun _ _ => True) w₁ st₁)
    (hk : Keeps (view []) (st.set p .okay) st₁) {b' : Bool} {w' : Work ι}
    (h : concluded r p (some (b, w₁)) = some (b', w')) :
    (b' = true ↔ Resolvable (view []) p) ∧ ∃ st', Rel r view (fun _ _ => True) w' st' ∧
      Keeps (view []) st st' ∧ st'.mark p = answer (view []) p := by
  have hopen : st₁.mark p = .okay ∨ st₁.mark p = answer (view []) p := by
    simpa using hk p
  have hothers : ∀ x, x ≠ p → st₁.mark x = st.mark x ∨ st₁.mark x = answer (view []) x := by
    intro x hx
    simpa [St.set_mark_of_ne st .okay hx] using hk x
  cases b with
  | true =>
      obtain ⟨rfl, rfl⟩ := Prod.mk.inj (Option.some.inj h)
      have hself : st₁.mark p = answer (view []) p := by
        rcases hopen with hself | hself
        · rw [hself, answer_eq_okay.mpr (hb.mp rfl)]
        · exact hself
      refine ⟨hb, st₁, hrel, fun x => ?_, hself⟩
      by_cases hx : x = p
      · subst hx
        exact .inr hself
      · exact hothers x hx
  | false =>
      obtain ⟨rfl, rfl⟩ := Prod.mk.inj (Option.some.inj h)
      have hfailed : answer (view []) p = .failed := if_neg fun hyes => nomatch hb.mpr hyes
      have hseen : st₁.mark p ≠ .unseen := by
        rcases hopen with hself | hself <;> rw [hself]
        · decide
        · exact answer_ne_unseen _ _
      refine ⟨hb, st₁.set p .failed, hrel.set (markOf_fail hr ?_), fun x => ?_, ?_⟩
      · rw [hrel.mark]
        exact hseen
      · by_cases hx : x = p
        · subst hx
          exact .inr (by rw [St.set_mark_self, hfailed])
        · rw [St.set_mark_of_ne _ _ hx]
          exact hothers x hx
      · rw [St.set_mark_self, hfailed]

/-- In an acyclic graph a call answers whether the package can be resolved. -/
theorem recurse_resolves (hi : i < 31) (hacyclic : Acyclic (view [])) (fuel : ℕ)
    (hfair : Fair r (view []) p) : AnswersRightly r view fuel p := by
  induction fuel generalizing p with
  | zero => exact fun _ _ _ _ _ => ⟨fun _ _ hno => (nomatch hno), fun hno => (nomatch hno)⟩
  | succ fuel ih =>
      intro dep w st h hset
      by_cases hp : st.mark p = .unseen
      · have hunseen : (w.table p).resolver &&& r.resolver = 0#32 :=
          (markOf_eq_unseen_iff hr).mp (by rw [h.mark, hp])
        have henter : Rel r view (fun _ _ => True) (entered r p w) (st.set p .okay) :=
          h.set (markOf_enter hr hi)
        -- Nothing that the package leads to leads back to it.
        have hbelow : ∀ q, Leads (view []) p q → Settled (view []) q (st.set p .okay) := by
          intro q hpq x hqx
          have hne : x ≠ p := by
            rintro rfl
            exact hacyclic x (.head' hpq hqx)
          rw [St.set_mark_of_ne _ _ hne]
          exact hset.below hpq x hqx
        have hdeeper : height (view []) p < fuel + 1 → ∀ q, Leads (view []) p q →
            height (view []) q < fuel := by
          intro hlt q hpq
          have := height_lt hacyclic hpq
          omega
        have hq : ∀ q, Leads (view []) p q → AnswersRightly r view fuel q :=
          fun q hpq => ih (hfair.below hpq)
        have htype : ((entered r p w).table p).type = (view [] p).type := by
          rw [strip_type henter.strip, St.set_log, hm.type]
        have hdepends : ((entered r p w).table p).depends = (view [] p).depends := by
          rw [strip_depends henter.strip, St.set_log, hm.depends]
        rw [recurse_unseen hunseen, answerOf, htype]
        cases ht : (view [] p).type with
        | nonExistent =>
            refine ⟨fun b w' hres => ?_, fun _ => ?_⟩
            · refine concluded_right hr ?_ henter (.refl _ _) hres
              rw [hstrict p]
              exact ⟨fun hf => (nomatch hf), fun hyes =>
                absurd hyes (not_resolvable_nonExistent ht)⟩
            · dsimp only
              rw [hstrict p]
              rfl
        | realPackage =>
            have hleads : ∀ d ∈ (view [] p).depends, d.type = .depends ∨ d.type = .preDepends →
                Leads (view []) p d.ptr := fun d hd hdt => .inl ⟨ht, d, hd, hdt, rfl⟩
            have hds : ∀ d ∈ (view [] p).depends, d.type = .depends ∨ d.type = .preDepends →
                Leads (view []) p d.ptr ∧ AnswersRightly r view fuel d.ptr :=
              fun d hd hdt => ⟨hleads d hd hdt, hq _ (hleads d hd hdt)⟩
            obtain ⟨hans, hsome⟩ := checkDepends_resolves hm hds henter hbelow
            dsimp only
            rw [hdepends]
            cases hrun : checkDepends r (resolveDependenciesRecurse r fuel) p (view [] p).depends
                (entered r p w) with
            | none =>
                refine ⟨fun _ _ hno => (nomatch hno), fun hlt => ?_⟩
                have hthere := hsome fun d hd hdt => hdeeper hlt _ (hleads d hd hdt)
                rw [hrun] at hthere
                cases hthere
            | some a =>
                obtain ⟨b, w₁⟩ := a
                obtain ⟨hb, st₁, hrel, hk⟩ := hans b w₁ hrun
                rw [← resolvable_real ht] at hb
                refine ⟨fun b' w' hres => ?_, fun _ => by cases b <;> rfl⟩
                cases b with
                | false => exact concluded_right hr hb hrel hk hres
                | true =>
                    refine concluded_right hr hb (hrel.finish hm ht) ?_ hres
                    intro x
                    rw [St.finish_mark]
                    exact hk x
        | virtualPackage =>
            obtain ⟨hans, hsome⟩ := provideLoop_resolves hm hr hvirtual hstrict ht hfair hq henter
              hbelow dep fuel
            dsimp only
            cases hrun : provideLoop r (resolveDependenciesRecurse r fuel) p dep (fuel + 2)
                ((entered r p w).mark p (clearTried r ((entered r p w).table p).depends)) with
            | none =>
                refine ⟨fun _ _ hno => (nomatch hno), fun hlt => ?_⟩
                have hthere := hsome (hdeeper hlt)
                rw [hrun] at hthere
                cases hthere
            | some a =>
                obtain ⟨b, w₁⟩ := a
                obtain ⟨hb, st₁, hrel, hk⟩ := hans b w₁ hrun
                exact ⟨fun b' w' hres => concluded_right hr hb hrel hk hres, fun _ => by
                  cases b <;> rfl⟩
      · have hseen : (w.table p).resolver &&& r.resolver ≠ 0#32 := fun h0 =>
          hp (by rw [← h.mark, (markOf_eq_unseen_iff hr).mpr h0])
        have hright : st.mark p = answer (view []) p := (hset p .refl).resolve_left hp
        rw [resolveDependenciesRecurse, if_pos hseen, okay_iff hr hseen, h.mark, hright]
        refine ⟨fun b w' hres => ?_, fun _ => rfl⟩
        obtain ⟨rfl, rfl⟩ := Prod.mk.inj (Option.some.inj hres)
        exact ⟨by rw [decide_eq_true_iff, answer_eq_okay], st, h, .refl _ _, hright⟩

theorem unfair_answer (hi : i < 31) (hacyclic : Acyclic (view []))
    (hv : (view [] v).type = .virtualPackage) {best : PackageDependency ι}
    (hbest : chooseProvide r (view []) v = some best) (hfair : Fair r (view []) best.ptr)
    (hno : ¬ Resolvable (view []) best.ptr) (h : Rel r view (fun _ _ => True) w st)
    (hset : Settled (view []) v st) (hun : st.mark v = .unseen) {dep : Option ι} {b : Bool}
    {w' : Work ι} (hrun : resolveDependenciesRecurse r fuel v dep w = some (b, w')) :
    r.resolver <<< 2 ≠ 0#32 ∧ b = false := by
  have hleads : Leads (view []) v best.ptr := .inr ⟨hv, provides_of_some hvirtual hbest⟩
  have henter : Rel r view (fun _ _ => True)
      (w.mark v (· ||| r.resolver ||| (r.resolver <<< 1))) (st.set v .okay) :=
    h.set (markOf_enter hr hi)
  have hbelow : Settled (view []) best.ptr (st.set v .okay) := by
    intro x hx
    have hne : x ≠ v := by
      rintro rfl
      exact hacyclic x (.head' hleads hx)
    rw [St.set_mark_of_ne _ _ hne]
    exact hset.below hleads x hx
  have hfail : ∀ fuel st', visit (graphOf r (fun _ => false) view) fuel best.ptr
      (st.set v .okay) ≠ some (true, st') := by
    intro fuel st' hvisit
    rcases (resolveDependenciesRecurse_sim hm hr hi fuel best.ptr dep _ _ henter
      (.inl hstrict)).cases with ⟨-, hv'⟩ | ⟨st₁, -, hv', -⟩ | ⟨b, w₁, st₁, ha, hv', -⟩
    · rw [hvisit] at hv'
      cases hv'
    · rw [hvisit] at hv'
      cases hv'
    · rw [hvisit] at hv'
      obtain ⟨rfl, -⟩ := Prod.mk.inj (Option.some.inj hv')
      exact hno (((recurse_resolves hm hr hvirtual hstrict hi hacyclic fuel hfair dep _ _ henter
        hbelow).1 _ _ ha).1.mp rfl)
  have hthird : r.resolver <<< 2 ≠ 0#32 := by
    intro hz
    have hnone := recurse_diverges hm hr hi hz hstrict hv hbest h hun hfail fuel dep
    rw [hrun] at hnone
    cases hnone
  refine ⟨hthird, ?_⟩
  by_contra hb
  obtain rfl : b = true := by simpa using hb
  rcases (resolveDependenciesRecurse_sim hm hr hi fuel v dep _ _ h (.inl hstrict)).cases with
    ⟨ha, -⟩ | ⟨st₁, ha, -, -⟩ | ⟨b, w₁, st₁, ha, hvisit, -⟩
  · rw [hrun] at ha
    cases ha
  · rw [hrun] at ha
    cases ha
  · rw [hrun] at ha
    obtain ⟨rfl, -⟩ := Prod.mk.inj (Option.some.inj ha)
    cases fuel with
    | zero => cases hrun
    | succ fuel =>
        have hnext : (graphOf r (fun _ => false) view).next st.log v = [best.ptr] := by
          have hchoose : chooseProvide r (view st.log) v = some best := by
            rcases hm.uniform with hu | ⟨-, -, hu⟩
            · exact absurd (hstrict v) (by rw [hu v]; decide)
            · rw [hu, hbest]
          simp only [graphOf, hm.type, hv, hchoose, Bool.false_eq_true, if_false]
        rcases visit_cases hvisit with ⟨hs, -, -⟩ | ⟨-, -, hf, -⟩ | ⟨-, -, mid, hall, -⟩
        · exact hs hun
        · cases hf
        · rw [hnext, visitAll] at hall
          split at hall
          · cases hall
          · cases hall
          · next st₂ hb => exact hfail fuel st₂ hb

end Answer

/-! ## The calls of a run -/

section Run

variable [DecidableEq ι]

/-- The states between the calls that a run makes on some packages. What was collected may have
been moved away. -/
inductive Between (r : Check ι) (table : ι → Package ι) : Work ι → Prop
  | start : Between r table ⟨table, []⟩
  | call {w w' : Work ι} {fuel : ℕ} {p : ι} {dep : Option ι} {b : Bool} (h : Between r table w)
      (hrun : resolveDependenciesRecurse r fuel p dep w = some (b, w')) : Between r table w'
  | moved {w : Work ι} (h : Between r table w) : Between r table { w with data := [] }

omit [DecidableEq ι] in
theorem resolvable_strip {table : ι → Package ι} {p : ι} :
    Resolvable (strip table) p ↔ Resolvable table p := by
  constructor
  · intro h
    induction h with
    | real hp _ ih => exact .real hp ih
    | provided hv hq _ ih => exact .provided hv hq ih
  · intro h
    induction h with
    | real hp _ ih => exact .real hp ih
    | provided hv hq _ ih => exact .provided hv hq ih

theorem strict_models {s : Check ι} (hs : s = strictCheck ∨ s = markCheck) (m : BitVec 32)
    (table : ι → Package ι) : ∃ view : List ι → ι → Package ι, view [] = strip table ∧
      Models { s with resolver := m } (fun _ => false) view fun _ _ => True := by
  rcases hs with rfl | rfl
  · have hlist := listAppend_models m table [] checkNonExistant (.inr fun _ => rfl)
    exact ⟨listView table, rfl,
      { checkReal := hlist.checkReal
        checkVirtual := hlist.checkVirtual
        doReal := fun _ _ _ ht _ => ⟨ht, trivial⟩
        doReal_resolver := hlist.doReal_resolver
        type := hlist.type
        depends := hlist.depends
        uniform := hlist.uniform }⟩
  · exact ⟨markView table, (markView_nil table).symm, mark_models m table⟩

section Strict

variable {r : Check ι} {view : List ι → ι → Package ι} {n : ℕ}
  (hm : Models r (fun _ => false) view fun _ _ => True) (hr : r.resolver = markerOf n)
  (hvirtual : r.checkVirtual = checkVirtual) (hstrict : ∀ p, r.checkNonExistant p = false)
  (hacyclic : Acyclic (view [])) {table : ι → Package ι} (hb : Below (3 * (n % 11)) table)
  (hview : strip table = view [])

include hm hr hvirtual hstrict hacyclic hb hview

theorem settled_of_between [Fintype ι] (hfair : ∀ p, Fair r (view []) p) (h : Between r table w) :
    ∃ st, Rel r view (fun _ _ => True) w st ∧ ∀ p, Settled (view []) p st := by
  induction h with
  | start => exact ⟨start, .start hr hb hview trivial, fun _ _ _ => .inl rfl⟩
  | call _ hrun ih =>
      obtain ⟨st, hrel, hset⟩ := ih
      obtain ⟨-, st', hrel', hk, -⟩ := (recurse_resolves hm hr hvirtual hstrict
        (markerOf_position n) hacyclic _ (hfair _) _ _ st hrel (hset _)).1 _ _ hrun
      exact ⟨st', hrel', fun p => (hset p).keep hk⟩
  | moved _ ih =>
      obtain ⟨st, hrel, hset⟩ := ih
      exact ⟨st, ⟨hrel.mark, hrel.strip, trivial⟩, hset⟩

theorem fair_of_answers [Fintype ι]
    (hall : ∀ v, (view [] v).type = .virtualPackage → ∃ fuel b w',
      resolveDependenciesRecurse r fuel v none ⟨table, []⟩ = some (b, w') ∧
      (b = true ↔ ∃ q, Provides (view []) v q ∧ Resolvable (view []) q)) (p : ι) :
    Fair r (view []) p := by
  induction hk : height (view []) p using Nat.strong_induction_on generalizing p with
  | _ k ih =>
      subst hk
      intro v best hpv hv hbest hcase
      rcases hpv.cases_head with rfl | ⟨q, hpq, hqv⟩
      · by_contra hno
        obtain ⟨fuel, b, w', hrun, hb'⟩ := hall _ hv
        have hleads : Leads (view []) p best.ptr :=
          .inr ⟨hv, provides_of_some hvirtual hbest⟩
        obtain ⟨hthird, rfl⟩ := unfair_answer hm hr hvirtual hstrict (markerOf_position n)
          hacyclic hv hbest (ih _ (height_lt hacyclic hleads) _ rfl) hno
          (.start hr hb hview trivial) (fun _ _ => .inl rfl) rfl hrun
        exact nomatch hb'.mpr (hcase.resolve_left hthird)
      · exact ih _ (height_lt hacyclic hpq) q rfl v best hqv hv hbest hcase

end Strict

/-- In every call of the run the answer about a virtual package is right exactly if the provider
that the loop begins with is one that can be resolved, where any can, and in every eleventh
call where there is any. -/
theorem recurse_virtual_iff [Fintype ι] {cs : List (Call ι)} {used : List (BitVec 32)}
    {packages : Packages ι} (h : After cs used packages) (hacyclic : Acyclic packages.table)
    {s : Check ι} (hs : s = strictCheck ∨ s = markCheck) :
    (∀ w, Between { s with resolver := (resolveDependenciesMarker packages).resolver }
        (resolveDependenciesMarker packages).table w →
      ∀ v dep, (packages.table v).type = .virtualPackage → ∃ fuel b w',
        resolveDependenciesRecurse
          { s with resolver := (resolveDependenciesMarker packages).resolver } fuel v dep w =
            some (b, w') ∧
        (b = true ↔ ∃ q, Provides packages.table v q ∧ Resolvable packages.table q)) ↔
    ∀ v best, (packages.table v).type = .virtualPackage →
      chooseProvide strictCheck packages.table v = some best →
      (11 ∣ cs.length + 1 ∨ ∃ q, Provides packages.table v q ∧ Resolvable packages.table q) →
      Resolvable packages.table best.ptr := by
  obtain ⟨hres, hb, -⟩ := h.marked.marker
  obtain ⟨view, hview, hm⟩ := strict_models hs (resolveDependenciesMarker packages).resolver
    (resolveDependenciesMarker packages).table
  rw [strip_marker] at hview
  have hvirtual : s.checkVirtual = checkVirtual := by rcases hs with rfl | rfl <;> rfl
  have hstrict : ∀ p, s.checkNonExistant p = false := by
    rcases hs with rfl | rfl <;> exact fun _ => rfl
  have hacyclic' : Acyclic (view []) := by
    rw [hview]
    exact hacyclic
  have hview' : strip (resolveDependenciesMarker packages).table = view [] := by
    rw [strip_marker, hview]
  have hanswer : ∀ v, (∃ q, Provides (view []) v q ∧ Resolvable (view []) q) ↔
      ∃ q, Provides packages.table v q ∧ Resolvable packages.table q := by
    intro v
    rw [hview]
    exact exists_congr fun q => and_congr_right fun _ => resolvable_strip
  have hfair : (∀ p, Fair { s with resolver := (resolveDependenciesMarker packages).resolver }
      (view []) p) ↔
      ∀ v best, (packages.table v).type = .virtualPackage →
        chooseProvide strictCheck packages.table v = some best →
        (11 ∣ cs.length + 1 ∨ ∃ q, Provides packages.table v q ∧ Resolvable packages.table q) →
        Resolvable packages.table best.ptr := by
    have hthird : (resolveDependenciesMarker packages).resolver <<< 2 = 0#32 ↔
        11 ∣ cs.length + 1 := by
      rw [hres, markerOf_third]
      omega
    have hchoose : ∀ v, chooseProvide
        { s with resolver := (resolveDependenciesMarker packages).resolver } (view []) v =
          chooseProvide strictCheck packages.table v := by
      intro v
      rw [hview, ← chooseProvide_bits (r := strictCheck) checkVirtual_strip]
      unfold chooseProvide
      rw [hvirtual]
      rfl
    have hbest : ∀ q, Resolvable (view []) q ↔ Resolvable packages.table q := by
      intro q
      rw [hview]
      exact resolvable_strip
    unfold Fair
    simp only [hthird, hchoose, hbest]
    rw [hview]
    exact ⟨fun hall v best => hall v v best .refl, fun hall p v best _ => hall v best⟩
  rw [← hfair]
  constructor
  · intro hall
    refine fair_of_answers hm hres hvirtual hstrict hacyclic' hb hview' fun v hv => ?_
    rw [hview] at hv
    rw [hanswer]
    exact hall _ .start v none hv
  · intro hall w hw v dep hv
    obtain ⟨st, hrel, hset⟩ := settled_of_between hm hres hvirtual hstrict hacyclic' hb
      hview' hall hw
    obtain ⟨hans, hsome⟩ := recurse_resolves hm hres hvirtual hstrict (markerOf_position _)
      hacyclic' (Fintype.card ι + 1) (hall v) dep w st hrel (hset v)
    obtain ⟨⟨b, w'⟩, hrun⟩ := Option.isSome_iff_exists.mp
      (hsome (Nat.lt_succ_of_le (height_le _ v)))
    refine ⟨_, b, w', hrun, ?_⟩
    rw [(hans b w' hrun).1, ← hanswer, resolvable_virtual]
    rw [hview]
    exact hv

omit [DecidableEq ι] in
theorem acyclic_of_lt {table : ι → Package ι} (f : ι → ℕ)
    (h : ∀ p, ∀ d ∈ (table p).depends, (d.type = .depends ∨ d.type = .preDepends) ∧
      (table p).type = .realPackage ∨ d.type = .reverseProvides ∧
      (table p).type = .virtualPackage → f d.ptr < f p) : Acyclic table := by
  have hstep : ∀ p q, Leads table p q → f q < f p := by
    rintro p q (⟨hp, d, hd, ht, rfl⟩ | ⟨hp, d, hd, ht, rfl⟩)
    · exact h p d hd (.inl ⟨ht, hp⟩)
    · exact h p d hd (.inr ⟨ht, hp⟩)
  have hall : ∀ p q, Relation.TransGen (Leads table) p q → f q < f p := by
    intro p q hpq
    induction hpq with
    | single hpq => exact hstep _ _ hpq
    | tail _ hqx ih => exact (hstep _ _ hqx).trans ih
  exact fun p hp => (hall p p hp).false

/-- The virtual package `0` has the providers `1`, which is more important, and `2`, and one of
them depends on the missing package `3`. -/
def twoProviders (broken : Fin 4) : Packages (Fin 4) where
  table
    | 0 => { type := .virtualPackage
             depends := [⟨.reverseProvides, 1⟩, ⟨.reverseProvides, 2⟩] }
    | 1 => { type := .realPackage, priority := .important
             depends := if broken = 1 then [⟨.depends, 3⟩] else [] }
    | 2 => { type := .realPackage, priority := .optional
             depends := if broken = 2 then [⟨.depends, 3⟩] else [] }
    | 3 => {}
  list := [1, 2]
  resolver := 0#32

theorem recurse_virtual_right : ∃ fuel b w',
    resolveDependenciesRecurse { strictCheck with resolver := 1#32 } fuel 0 none
      ⟨(twoProviders 2).table, []⟩ = some (b, w') ∧
    (b = true ↔ ∃ q, Provides (twoProviders 2).table 0 q ∧
      Resolvable (twoProviders 2).table q) := by
  have hafter : After [] [] (twoProviders 2) := .read rfl (by decide)
  refine (recurse_virtual_iff hafter
    (acyclic_of_lt (fun p => 4 - p.val) (by decide)) (.inl rfl)).mpr ?_ _ .start 0 none rfl
  intro v best hv hbest _
  have hall : ∀ v, ((twoProviders 2).table v).type = .virtualPackage → v = 0 := by
    decide
  have hzero := hall v hv
  subst hzero
  have hone : some ⟨.reverseProvides, 1⟩ = some best := hbest
  obtain rfl := Option.some.inj hone
  exact .real rfl (by simp [twoProviders])

theorem recurse_virtual_wrong : After [] [] (twoProviders 1) ∧ Acyclic (twoProviders 1).table ∧
    ((twoProviders 1).table 0).type = .virtualPackage ∧
    (∃ w', resolveDependenciesRecurse { strictCheck with resolver := 1#32 } 5 0 none
      ⟨(twoProviders 1).table, []⟩ = some (false, w')) ∧
    Provides (twoProviders 1).table 0 2 ∧ Resolvable (twoProviders 1).table 2 := by
  refine ⟨.read rfl (by decide), acyclic_of_lt (fun p => 4 - p.val) (by decide), rfl, ?_,
    ⟨⟨.reverseProvides, 2⟩, by simp [twoProviders], rfl, rfl⟩, .real rfl (by simp [twoProviders])⟩
  have hrun : (resolveDependenciesRecurse { strictCheck with resolver := 1#32 } 5 0 none
      ⟨(twoProviders 1).table, []⟩).map (·.1) = some false := by
    decide
  obtain ⟨⟨b, w'⟩, hrun, rfl⟩ := Option.map_eq_some_iff.mp hrun
  exact ⟨w', hrun⟩

end Run

end DebianInstaller.Packages
