import DebianInstaller.Packages.Refine

/-!
# The four check records, and the loops over the roots

Four check records are in use, and each of them searches the graph that
`Refine.lean` assigns to it: collecting a list, strictly or permissively, and
marking packages, for `di_packages_resolve_dependencies_mark` or for anna. This
file says so, and lifts the comparison from one package to the loops over the
roots. They return as soon as the searches they stand for do, which leaves one
exception: a marker without a third bit, and a failure.
-/

namespace DebianInstaller.Packages

open Search

variable {ι : Type*} [DecidableEq ι]

variable {b : Bool} {fuel : Nat} {q : ι} {st : St ι} {w : Work ι}

/-! ## The four check records -/

/-- Nothing that the check functions read changes while a list is collected. -/
def listView (table : ι → Package ι) : List ι → ι → Package ι :=
  fun _ => strip table

/-- The log is what has been moved to the list that is returned, and what is
still waiting to be. -/
def listData (install : List ι) : List ι → List ι → Prop :=
  fun data log => log = install ++ data

/-- A package that is to be installed. -/
def wantInstall (p : Package ι) : Package ι := { p with statusWant := .install }

/-- Marking sets `status_want` on what has been selected. -/
def markView (table : ι → Package ι) : List ι → ι → Package ι :=
  fun log => strip fun p => if p ∈ log then wantInstall (table p) else table p

omit [DecidableEq ι] in
theorem checkVirtual_strip (table : ι → Package ι) (pk : ι)
    (best : Option (PackageDependency ι)) (d : PackageDependency ι) :
    checkVirtual table pk best d = checkVirtual (strip table) pk best d := by
  cases best <;> rfl

omit [DecidableEq ι] in
theorem listAppend_models (r : BitVec 32) (table : ι → Package ι) (install : List ι)
    (nonExistant : ι → Bool)
    (hu : (∀ p, nonExistant p = true) ∨ ∀ p, nonExistant p = false) :
    Models { strictCheck with checkNonExistant := nonExistant, resolver := r }
      (fun _ => false) (listView table) (listData install) where
  checkReal _ _ _ _ _ _ := rfl
  checkVirtual := checkVirtual_strip
  doReal p w log ht hd := ⟨ht, by
    show log ++ [p] = install ++ (w.data ++ [p])
    rw [show log = install ++ w.data from hd, List.append_assoc]⟩
  doReal_resolver _ _ _ := rfl
  type _ _ := rfl
  depends _ _ := rfl
  uniform := hu.imp id fun h => ⟨h, fun _ => rfl, fun _ _ => rfl⟩

theorem markView_apply (table : ι → Package ι) (log : List ι) (p : ι) :
    markView table log p =
      if p ∈ log then wantInstall (strip table p) else strip table p := by
  by_cases h : p ∈ log
  · simp only [markView, strip, wantInstall, h, if_true]
  · simp only [markView, strip, h, if_false]

theorem strip_doRealMark {table : ι → Package ι} {log : List ι} {p : ι}
    (h : strip w.table = markView table log) :
    strip (doRealMark p w).table = markView table (log ++ [p]) := by
  funext q
  have hq := congrFun h q
  rw [markView_apply] at hq ⊢
  by_cases hqp : q = p
  · subst hqp
    have hset : strip (doRealMark q w).table q = wantInstall (strip w.table q) := by
      simp [strip, doRealMark, wantInstall]
    have hin : q ∈ log ++ [q] := by simp
    rw [hset, hq, if_pos hin]
    split <;> rfl
  · have hset : strip (doRealMark p w).table q = strip w.table q := by
      simp [strip, doRealMark, hqp]
    rw [hset, hq]
    simp [hqp]

/-- A check that reads neither the marks nor `status_want` chooses the same
provider throughout. -/
theorem chooseProvide_markView {r : Check ι} (hr : r.checkVirtual = checkVirtual)
    (table : ι → Package ι) (log : List ι) (p : ι) :
    chooseProvide r (markView table log) p = chooseProvide r (markView table []) p := by
  have hdep : (markView table log p).depends = (markView table [] p).depends := by
    rw [markView_apply, markView_apply]
    split <;> rfl
  have hprio : ∀ q, (markView table log q).priority = (markView table [] q).priority := by
    intro q
    rw [markView_apply, markView_apply]
    split <;> rfl
  have hstat : ∀ q, (markView table log q).status = (markView table [] q).status := by
    intro q
    rw [markView_apply, markView_apply]
    split <;> rfl
  unfold chooseProvide
  rw [hdep, hr]
  congr 1
  funext best d
  cases best with
  | none => rfl
  | some b => simp only [checkVirtual, hprio, hstat]

theorem mark_models (r : BitVec 32) (table : ι → Package ι) :
    Models { markCheck with resolver := r } (fun _ => false) (markView table)
      (fun _ _ => True) where
  checkReal _ _ _ _ _ _ := rfl
  checkVirtual := checkVirtual_strip
  doReal p w log ht _ := ⟨strip_doRealMark ht, trivial⟩
  doReal_resolver p q w := by
    by_cases h : q = p
    · subst h
      simp [markCheck, doRealMark]
    · simp [markCheck, doRealMark, h]
  type log p := by
    rw [markView_apply, markView_apply]
    split <;> rfl
  depends log p := by
    rw [markView_apply, markView_apply]
    split <;> rfl
  uniform := .inr ⟨fun _ => rfl, fun _ => rfl, chooseProvide_markView rfl table⟩

theorem anna_models (r : BitVec 32) (subarchitecture kernel : Text)
    (table : ι → Package ι) :
    Models { annaCheck subarchitecture kernel with resolver := r }
      (fun p => (table p).status.atLeastUnpacked) (markView table)
      (fun _ _ => True) where
  checkReal recurse pk d w log ht := by
    have hst : (w.table d.ptr).status = (table d.ptr).status := by
      have := congrArg Package.status (congrFun ht d.ptr)
      rw [markView_apply] at this
      split at this <;> exact this
    show checkRealAnna recurse pk d w = _
    rw [checkRealAnna, hst]
  checkVirtual t pk best d := by cases best <;> rfl
  doReal p w log ht _ := ⟨strip_doRealMark ht, trivial⟩
  doReal_resolver p q w := by
    by_cases h : q = p
    · subst h
      simp [annaCheck, doRealMark]
    · simp [annaCheck, doRealMark, h]
  type log p := by
    rw [markView_apply, markView_apply]
    split <;> rfl
  depends log p := by
    rw [markView_apply, markView_apply]
    split <;> rfl
  uniform := .inl fun _ => rfl

/-! ## The loops over the roots -/

section Loops

variable {r : Check ι} {skip : ι → Bool} {view : List ι → ι → Package ι}
  {D : List ι → List ι → Prop} {i : Nat}

/-- A search that answers is followed by the resolver, unless the resolver is
stuck, which takes a marker without a third bit and a failure. -/
theorem recurse_of_visit (hm : Models r skip view D) (hr : r.resolver = BitVec.twoPow 32 i)
    (hi : i < 31) (ht : r.resolver <<< 2 ≠ 0#32 ∨ ∀ p, r.checkNonExistant p = true) (dep : Option ι)
    {st' : St ι} (h : Rel r view D w st) (hmode : Mode r st)
    (hv : visit (graphOf r skip view) fuel q st = some (b, st')) :
    ∃ w', resolveDependenciesRecurse r fuel q dep w = some (b, w') ∧
      Rel r view D w' st' := by
  rcases (resolveDependenciesRecurse_sim hm hr hi fuel q dep w st h hmode).cases with
    ⟨-, hn⟩ | ⟨st₁, -, hn, hz⟩ | ⟨b₁, w₁, st₁, ha, hn, hrel⟩
  · rw [hv] at hn
    cases hn
  · rw [hv] at hn
    cases hn
    rcases ht with ht | ht
    · exact absurd hz ht
    · rcases hmode with hu | ⟨-, hnf⟩
      · exact absurd (hu q) (by rw [ht q]; decide)
      · exact absurd (visit_alive (graphOf_alive ht) fuel q st false _ hnf hv).1
          (by decide)
  · rw [hv] at hn
    cases hn
    exact ⟨w₁, ha, hrel⟩

theorem visit_of_recurse (hm : Models r skip view D) (hr : r.resolver = BitVec.twoPow 32 i)
    (hi : i < 31) {dep : Option ι} {w' : Work ι} (h : Rel r view D w st) (hmode : Mode r st)
    (hrec : resolveDependenciesRecurse r fuel q dep w = some (b, w')) :
    ∃ st', visit (graphOf r skip view) fuel q st = some (b, st') ∧
      Rel r view D w' st' := by
  rcases (resolveDependenciesRecurse_sim hm hr hi fuel q dep w st h hmode).cases with
    ⟨hn, -⟩ | ⟨st₁, hn, -, -⟩ | ⟨b₁, w₁, st₁, ha, hn, hrel⟩
  · rw [hrec] at hn
    cases hn
  · rw [hrec] at hn
    cases hn
  · rw [hrec] at ha
    cases ha
    exact ⟨st₁, hn, hrel⟩

/-- The loop over the roots is a sequence of searches. The list that is
returned is the log as it stood when a root last resolved. -/
theorem resolveRoots_visitRoots (hm : ∀ install, Models r skip view (listData install))
    (hr : r.resolver = BitVec.twoPow 32 i) (hi : i < 31) :
    ∀ (ps : List ι) (w : Work ι) (st : St ι) (install : List ι) (w' : Work ι)
      (install' : List ι), Rel r view (listData install) w st → Mode r st →
      resolveRoots r fuel ps w install = some (w', install') →
      ∃ st', visitRoots (visit (graphOf r skip view) fuel) ps st install =
          some (st', install') ∧ Rel r view (listData install') w' st' := by
  intro ps
  induction ps with
  | nil =>
      intro w st install w' install' h _ hrun
      cases hrun
      exact ⟨st, rfl, h⟩
  | cons p ps ih =>
      intro w st install w' install' h hmode hrun
      rw [resolveRoots] at hrun
      split at hrun
      · cases hrun
      · next w₁ hrec =>
          obtain ⟨st₁, hv, hrel⟩ := visit_of_recurse (hm install) hr hi h hmode hrec
          have hlog : st₁.log = install ++ w₁.data := hrel.data
          have hrel' : Rel r view (listData (install ++ w₁.data))
              { w₁ with data := [] } st₁ :=
            ⟨hrel.mark, hrel.strip, by simpa [listData] using hlog⟩
          rw [visitRoots, hv]
          simp only [if_true, hlog]
          exact ih _ st₁ _ w' install' hrel' (hmode.visit hv) hrun
      · next w₁ hrec =>
          obtain ⟨st₁, hv, hrel⟩ := visit_of_recurse (hm install) hr hi h hmode hrec
          rw [visitRoots, hv]
          exact ih w₁ st₁ install w' install' hrel (hmode.visit hv) hrun

variable [Fintype ι]

theorem resolveRoots_isSome (hm : ∀ install, Models r skip view (listData install))
    (hr : r.resolver = BitVec.twoPow 32 i) (hi : i < 31)
    (ht : r.resolver <<< 2 ≠ 0#32 ∨ ∀ p, r.checkNonExistant p = true)
    (hfuel : Fintype.card ι < fuel) :
    ∀ (ps : List ι) (w : Work ι) (st : St ι) (install : List ι),
      Rel r view (listData install) w st → Mode r st →
      ∃ a, resolveRoots r fuel ps w install = some a := by
  intro ps
  induction ps with
  | nil => exact fun w st install _ _ => ⟨_, rfl⟩
  | cons p ps ih =>
      intro w st install h hmode
      obtain ⟨b, st₁, hv, -⟩ := visit_isSome (graphOf r skip view) fuel p st
        (Nat.lt_of_le_of_lt (Finset.card_le_univ _) hfuel)
      obtain ⟨w₁, hrec, hrel⟩ := recurse_of_visit (hm install) hr hi ht none h hmode hv
      rw [resolveRoots, hrec]
      cases b with
      | false => exact ih w₁ st₁ install hrel (hmode.visit hv)
      | true =>
          have hlog : st₁.log = install ++ w₁.data := hrel.data
          exact ih _ st₁ _ ⟨hrel.mark, hrel.strip, by simpa [listData] using hlog⟩
            (hmode.visit hv)

theorem markLoop_isSome (hm : Models r skip view D) (hr : r.resolver = BitVec.twoPow 32 i)
    (hi : i < 31) (ht : r.resolver <<< 2 ≠ 0#32 ∨ ∀ p, r.checkNonExistant p = true)
    (hfuel : Fintype.card ι < fuel) :
    ∀ (ps : List ι) (w : Work ι) (st : St ι), Rel r view D w st → Mode r st →
      ∃ w', markLoop r fuel ps w = some w' := by
  intro ps
  induction ps with
  | nil => exact fun w st _ _ => ⟨w, rfl⟩
  | cons p ps ih =>
      intro w st h hmode
      rw [markLoop]
      split
      · obtain ⟨b, st₁, hv, -⟩ := visit_isSome (graphOf r skip view) fuel p st
          (Nat.lt_of_le_of_lt (Finset.card_le_univ _) hfuel)
        obtain ⟨w₁, hrec, hrel⟩ := recurse_of_visit hm hr hi ht none h hmode hv
        rw [hrec]
        exact ih w₁ st₁ hrel (hmode.visit hv)
      · exact ih w st h hmode

end Loops

end DebianInstaller.Packages
