import DebianInstaller.Packages.Loops

/-!
# The resolver calls, one after another

What makes a sequence of calls work is that the bits of a call are fresh: no
package carries them yet. `recurse_below` shows that a call sets no bit above
its own three, and `After.marked` follows the marker through a sequence of
calls: the call after `n` others uses the marker `1 << 3 * (n % 11)`, and the
packages carry no bit from there on.
-/

namespace DebianInstaller.Packages

open Search

variable {ι : Type*} [DecidableEq ι]

variable {fuel i n : Nat} {packages packages' : Packages ι} {s : Check ι}

variable {install list : List ι} {nonExistant : ι → Bool} {r : Check ι} {w : Work ι}

/-! ## No call reaches above its own three bits -/

/-- What the marks and the two functions of the resolver keep, a call keeps. -/
theorem recurse_keeps (I : Work ι → Prop) (hmark : ∀ w p, I w →
      I (w.mark p (· ||| r.resolver ||| (r.resolver <<< 1))) ∧
      I (w.mark p (· &&& ~~~(r.resolver <<< 1))) ∧
      I (w.mark p (· ||| (r.resolver <<< 2))) ∧
      ∀ ds, I (w.mark p (clearTried r ds))) (hreal : ∀ w p, I w → I (r.doReal p w))
    (hcheck : ∀ (recurse : Recurse ι),
      (∀ q dep w b w', recurse q dep w = some (b, w') → I w → I w') →
      ∀ pk d w b w', r.checkReal recurse pk d w = some (b, w') → I w → I w') :
    ∀ (fuel : Nat) (q : ι) (dep : Option ι) (w : Work ι) (b : Bool) (w' : Work ι),
      resolveDependenciesRecurse r fuel q dep w = some (b, w') → I w → I w' := by
  intro fuel
  induction fuel with
  | zero =>
      intro q dep w b w' h
      rw [resolveDependenciesRecurse] at h
      cases h
  | succ fuel ih =>
      have hds : ∀ (p : ι) (ds : List (PackageDependency ι)) (w : Work ι) (b : Bool)
          (w' : Work ι), checkDepends r (resolveDependenciesRecurse r fuel) p ds w =
            some (b, w') → I w → I w' := by
        intro p ds
        induction ds with
        | nil =>
            intro w b w' h hI
            cases h
            exact hI
        | cons d ds ihd =>
            intro w b w' h hI
            rw [checkDepends] at h
            split at h
            · split at h
              · cases h
              · next w₁ hc =>
                  cases h
                  exact hcheck _ ih _ _ _ _ _ hc hI
              · next w₁ hc => exact ihd w₁ b w' h (hcheck _ ih _ _ _ _ _ hc hI)
            · exact ihd w b w' h hI
      have hpl : ∀ (p : ι) (dep : Option ι) (n : Nat) (w : Work ι) (b : Bool)
          (w' : Work ι), provideLoop r (resolveDependenciesRecurse r fuel) p dep n w =
            some (b, w') → I w → I w' := by
        intro p dep n
        induction n with
        | zero =>
            intro w b w' h
            rw [provideLoop] at h
            cases h
        | succ n ihn =>
            intro w b w' h hI
            rw [provideLoop] at h
            split at h
            · split at h
              · cases h
              · next w₁ hc =>
                  cases h
                  exact hcheck _ ih _ _ _ _ _ hc hI
              · next w₁ hc =>
                  exact ihn _ b w' h
                    (hmark _ p (hcheck _ ih _ _ _ _ _ hc hI)).2.2.1
            · cases h
              exact hI
      have hanswer : ∀ (q : ι) (dep : Option ι) (w : Work ι) (b : Bool) (w' : Work ι),
          answerOf r fuel q dep w = some (b, w') → I w → I w' := by
        intro q dep w b w' h hI
        unfold answerOf at h
        split at h
        · split at h
          · cases h
          · next w₁ hc =>
              cases h
              exact hds _ _ _ _ _ hc hI
          · next w₁ hc =>
              cases h
              exact hreal _ q (hds _ _ _ _ _ hc hI)
        · exact hpl _ _ _ _ _ _ h ((hmark _ q hI).2.2.2 _)
        · cases h
          exact hI
      intro q dep w b w' h hI
      by_cases hseen : (w.table q).resolver &&& r.resolver = 0#32
      · rw [recurse_unseen hseen] at h
        rcases ha : answerOf r fuel q dep (entered r q w) with _ | ⟨_ | _, w₁⟩ <;> rw [ha] at h <;>
          cases h
        · exact (hmark w₁ q (hanswer _ _ _ _ _ ha (hmark w q hI).1)).2.1
        · exact hanswer _ _ _ _ _ ha (hmark w q hI).1
      · rw [resolveDependenciesRecurse, if_pos hseen] at h
        cases h
        exact hI

/-- No package carries a bit from position `n` on. -/
def Below (n : Nat) (table : ι → Package ι) : Prop :=
  ∀ p j, n ≤ j → (table p).resolver.getLsbD j = false

theorem Below.mark (h : Below n w.table) (p : ι) {f : BitVec 32 → BitVec 32}
    (hf : ∀ x : BitVec 32, ∀ j, n ≤ j → x.getLsbD j = false →
      (f x).getLsbD j = false) : Below n (w.mark p f).table := by
  intro q j hj
  by_cases hq : q = p
  · subst hq
    rw [mark_resolver_self]
    exact hf _ j hj (h q j hj)
  · rw [mark_resolver_of_ne w f hq]
    exact h q j hj

/-- The record's own functions do not touch the bits. -/
structure Check.Plain (r : Check ι) : Prop where
  checkReal : ∀ recurse pk d w, r.checkReal recurse pk d w = some (true, w) ∨
    r.checkReal recurse pk d w = recurse d.ptr pk w
  doReal : ∀ p q w, ((r.doReal p w).table q).resolver = (w.table q).resolver

theorem recurse_below (hp : r.Plain) (hr : r.resolver = BitVec.twoPow 32 i) {q : ι} {dep : Option ι}
    {w' : Work ι} {b : Bool} (h : resolveDependenciesRecurse r fuel q dep w = some (b, w'))
    (hI : Below (i + 3) w.table) : Below (i + 3) w'.table := by
  refine recurse_keeps (fun w => Below (i + 3) w.table) ?_ ?_ ?_ fuel q dep w b w' h hI
  · intro w p hI
    refine ⟨hI.mark p ?_, hI.mark p ?_, hI.mark p ?_, fun ds => hI.mark p ?_⟩
    · intro x j hj hx
      rw [hr, twoPow_shiftLeft, getLsbD_or_twoPow, getLsbD_or_twoPow, hx]
      simp [show i ≠ j by omega, show i + 1 ≠ j by omega]
    · intro x j hj hx
      rw [hr, twoPow_shiftLeft, getLsbD_andNot_twoPow, hx]
      rfl
    · intro x j hj hx
      rw [hr, twoPow_shiftLeft, getLsbD_or_twoPow, hx]
      simp [show i + 2 ≠ j by omega]
    · intro x j hj hx
      rw [clearTried_eq]
      split
      · rw [hr, twoPow_shiftLeft, getLsbD_andNot_twoPow, hx]
        rfl
      · exact hx
  · intro w p hI q j hj
    rw [hp.doReal]
    exact hI q j hj
  · intro recurse hrec pk d w b w' hc hI
    rcases hp.checkReal recurse pk d w with he | he
    · rw [hc] at he
      cases he
      exact hI
    · rw [hc] at he
      exact hrec _ _ _ _ _ he.symm hI

/-! ## A sequence of calls -/

/-- The public entry points of the resolver. -/
inductive Call (ι : Type*) where
  | resolveDependencies (list : List ι)
  | resolveDependenciesArray (array : List ι)
  | resolveDependenciesMark
  | resolveDependenciesArrayPermissive (array : List ι)
  | resolveDependenciesMarkAnna (subarchitecture kernel : Text)

/-- One call, as a step on the packages. -/
def Call.run (packages : Packages ι) (fuel : Nat) : Call ι → Option (Packages ι)
  | .resolveDependencies list =>
      (Packages.resolveDependencies packages list fuel).map (·.1)
  | .resolveDependenciesArray array =>
      (Packages.resolveDependenciesArray packages array fuel).map (·.1)
  | .resolveDependenciesMark => Packages.resolveDependenciesMark packages fuel
  | .resolveDependenciesArrayPermissive array =>
      (Packages.resolveDependenciesArrayPermissive packages array fuel).map (·.1)
  | .resolveDependenciesMarkAnna subarchitecture kernel =>
      Packages.resolveDependenciesMarkAnna packages subarchitecture kernel fuel

/-- The call returns, and leaves these packages behind. -/
def Call.Returns (c : Call ι) (packages packages' : Packages ι) : Prop :=
  ∃ fuel, c.run packages fuel = some packages'

/-- `di_packages_resolve_dependencies_marker` starts over. -/
def resets (packages : Packages ι) : Bool :=
  decide (packages.resolver = 0#32 ∨ intMax >>> 2 < packages.resolver)

/-- The packages after a sequence of calls on packages that were just read,
when no package carries a mark, with the markers of the calls since the marker
last started over. Between the calls the callers may change everything but the
marker fields, which are internal to the resolver. -/
inductive After : List (Call ι) → List (BitVec 32) → Packages ι → Prop where
  | read {packages : Packages ι} (hresolver : packages.resolver = 0#32)
      (htable : ∀ p, (packages.table p).resolver = 0#32) : After [] [] packages
  | edit {cs : List (Call ι)} {used : List (BitVec 32)} {packages packages' : Packages ι}
      (h : After cs used packages) (hresolver : packages'.resolver = packages.resolver)
      (htable : ∀ p, (packages'.table p).resolver = (packages.table p).resolver) :
      After cs used packages'
  | call {cs : List (Call ι)} {used : List (BitVec 32)} {packages packages' : Packages ι}
      {c : Call ι} (h : After cs used packages) (hc : c.Returns packages packages') :
      After (cs ++ [c])
        ((if resets packages then [] else used) ++
          [(resolveDependenciesMarker packages).resolver]) packages'

/-- The marker that the call after `n` others uses. -/
def markerOf (n : Nat) : BitVec 32 := BitVec.twoPow 32 (3 * (n % 11))

/-- The marker fields after `n` calls. -/
def Marked (n : Nat) (packages : Packages ι) : Prop :=
  (n = 0 ∧ packages.resolver = 0#32 ∧ Below 0 packages.table) ∨
  ∃ m, n = m + 1 ∧ packages.resolver = markerOf m ∧
    Below (3 * (m % 11) + 3) packages.table

omit [DecidableEq ι] in
theorem below_zero {table : ι → Package ι} (h : ∀ p, (table p).resolver = 0#32) :
    Below 0 table := fun p j _ => by rw [h p]; simp

theorem markerOf_large : ∀ k, k < 11 →
    (BitVec.twoPow 32 (3 * k) ≠ 0#32 ∧
      (intMax >>> 2 < BitVec.twoPow 32 (3 * k) ↔ k = 10)) := by
  decide

omit [DecidableEq ι] in
theorem Marked.marker {n : Nat} {packages : Packages ι} (h : Marked n packages) :
    (resolveDependenciesMarker packages).resolver = markerOf n ∧
    Below (3 * (n % 11)) (resolveDependenciesMarker packages).table ∧
    (resets packages = true ↔ n % 11 = 0) := by
  rcases h with ⟨rfl, hres, hb⟩ | ⟨m, rfl, hres, hb⟩
  · unfold resolveDependenciesMarker resets
    rw [if_pos hres]
    exact ⟨rfl, hb, by simp [hres]⟩
  · obtain ⟨hne, hlarge⟩ := markerOf_large (m % 11) (Nat.mod_lt _ (by decide))
    unfold resolveDependenciesMarker resets
    rw [hres, markerOf, if_neg hne]
    by_cases hm : m % 11 = 10
    · have hz : (m + 1) % 11 = 0 := by omega
      rw [if_pos (hlarge.mpr hm), hz]
      refine ⟨by rw [markerOf, hz]; rfl, below_zero fun _ => rfl, ?_⟩
      simp [hlarge.mpr hm]
    · have hs : (m + 1) % 11 = m % 11 + 1 := by omega
      rw [if_neg (fun hlt => hm (hlarge.mp hlt)), hs]
      refine ⟨?_, hb, ?_⟩
      · simp only [twoPow_shiftLeft, markerOf, hs]
        rfl
      · simp [hne, hlarge, hm]

section Records

variable (r : BitVec 32)

omit [DecidableEq ι] in
theorem listAppend_plain (nonExistant : ι → Bool) :
    Check.Plain { strictCheck with checkNonExistant := nonExistant, resolver := r } where
  checkReal _ _ _ _ := .inr rfl
  doReal _ _ _ := rfl

theorem doRealMark_resolver (p q : ι) (w : Work ι) :
    ((doRealMark p w).table q).resolver = (w.table q).resolver := by
  by_cases h : q = p
  · subst h
    simp [doRealMark]
  · simp [doRealMark, h]

theorem mark_plain : Check.Plain { (markCheck : Check ι) with resolver := r } where
  checkReal _ _ _ _ := .inr rfl
  doReal := doRealMark_resolver

theorem anna_plain (subarchitecture kernel : Text) :
    Check.Plain { (annaCheck subarchitecture kernel : Check ι) with resolver := r } where
  checkReal recurse pk d w := by
    show checkRealAnna recurse pk d w = _ ∨ checkRealAnna recurse pk d w = _
    unfold checkRealAnna
    split
    · exact .inl rfl
    · exact .inr rfl
  doReal := doRealMark_resolver

end Records

theorem resolveRoots_below (hp : s.Plain) (hr : s.resolver = BitVec.twoPow 32 i) :
    ∀ (ps : List ι) (w : Work ι) (install : List ι) (w' : Work ι) (install' : List ι),
      resolveRoots s fuel ps w install = some (w', install') →
      Below (i + 3) w.table → Below (i + 3) w'.table := by
  intro ps
  induction ps with
  | nil =>
      intro w install w' install' h hb
      cases h
      exact hb
  | cons p ps ih =>
      intro w install w' install' h hb
      rw [resolveRoots] at h
      split at h
      · cases h
      · next w₁ hrec =>
          have hb₁ := recurse_below hp hr hrec hb
          exact ih _ _ w' install' h hb₁
      · next w₁ hrec => exact ih _ _ w' install' h (recurse_below hp hr hrec hb)

theorem markLoop_below (hp : s.Plain) (hr : s.resolver = BitVec.twoPow 32 i) :
    ∀ (ps : List ι) (w w' : Work ι), markLoop s fuel ps w = some w' →
      Below (i + 3) w.table → Below (i + 3) w'.table := by
  intro ps
  induction ps with
  | nil =>
      intro w w' h hb
      cases h
      exact hb
  | cons p ps ih =>
      intro w w' h hb
      rw [markLoop] at h
      split at h
      · split at h
        · cases h
        · next b w₁ hrec => exact ih _ w' h (recurse_below hp hr hrec hb)
      · exact ih w w' h hb

theorem special_marked (hm : Marked n packages) (h : resolveDependenciesSpecial packages list
      { strictCheck with checkNonExistant := nonExistant } fuel =
        some (packages', install)) : Marked (n + 1) packages' := by
  obtain ⟨hres, hb, -⟩ := hm.marker
  unfold resolveDependenciesSpecial at h
  simp only at h
  split at h
  · cases h
  · next w install' hrun =>
      cases h
      refine .inr ⟨n, rfl, hres, ?_⟩
      exact resolveRoots_below (listAppend_plain _ nonExistant) hres _ _ _ _ _ hrun
        fun p j hj => hb p j (by omega)

theorem markSpecial_marked (hp : ∀ r, Check.Plain { s with resolver := r }) (hm : Marked n packages)
    (h : resolveDependenciesMarkSpecial packages s fuel = some packages') :
    Marked (n + 1) packages' := by
  obtain ⟨hres, hb, -⟩ := hm.marker
  unfold resolveDependenciesMarkSpecial at h
  simp only at h
  split at h
  · cases h
  · next w hrun =>
      cases h
      refine .inr ⟨n, rfl, hres, ?_⟩
      exact markLoop_below (hp _) hres _ _ _ hrun fun p j hj => hb p j (by omega)

theorem Call.Returns.marked {c : Call ι} (h : c.Returns packages packages')
    (hm : Marked n packages) : Marked (n + 1) packages' := by
  obtain ⟨fuel, h⟩ := h
  cases c with
  | resolveDependencies list | resolveDependenciesArray list
  | resolveDependenciesArrayPermissive list =>
      obtain ⟨⟨_, install⟩, hrun, rfl⟩ := Option.map_eq_some_iff.mp h
      exact special_marked hm hrun
  | resolveDependenciesMark => exact markSpecial_marked mark_plain hm h
  | resolveDependenciesMarkAnna subarchitecture kernel =>
      exact markSpecial_marked (anna_plain · subarchitecture kernel) hm h

theorem After.marked {cs : List (Call ι)} {used : List (BitVec 32)} (h : After cs used packages) :
    Marked cs.length packages := by
  induction h with
  | read hresolver htable => exact .inl ⟨rfl, hresolver, below_zero htable⟩
  | edit _ hresolver htable ih =>
      rcases ih with ⟨h0, hres, hb⟩ | ⟨m, hlen, hres, hb⟩
      · exact .inl ⟨h0, hresolver.trans hres, fun p j hj => by
          rw [htable]; exact hb p j hj⟩
      · exact .inr ⟨m, hlen, hresolver.trans hres, fun p j hj => by
          rw [htable]; exact hb p j hj⟩
  | call _ hc ih =>
      rw [List.length_append, List.length_singleton]
      exact hc.marked ih

theorem After.used {cs : List (Call ι)} {used : List (BitVec 32)} (h : After cs used packages) :
    (if resets packages then [] else used) =
      (List.range (cs.length % 11)).map fun k => BitVec.twoPow 32 (3 * k) := by
  have hres := h.marked.marker.2.2
  by_cases hz : cs.length % 11 = 0
  · rw [if_pos (hres.mpr hz), hz]
    rfl
  · rw [if_neg (fun hr => hz (hres.mp hr))]
    induction h with
    | read => exact absurd rfl hz
    | edit h _ _ ih => exact ih h.marked.marker.2.2 hz
    | @call cs used packages packages' c h hc ih =>
        have hm := h.marked.marker
        rw [List.length_append, List.length_singleton] at hz ⊢
        have hs : (cs.length + 1) % 11 = cs.length % 11 + 1 := by omega
        rw [hm.1, hs, List.range_succ, List.map_append]
        congr 1
        by_cases hz' : cs.length % 11 = 0
        · rw [if_pos (hm.2.2.mpr hz'), hz']
          rfl
        · rw [if_neg (fun hr => hz' (hm.2.2.mp hr))]
          exact ih hm.2.2 hz'

/-! ## A call is a sequence of searches -/

/-- Nothing has been seen. -/
def start : St ι := ⟨fun _ => .unseen, []⟩

omit [DecidableEq ι] in
theorem Rel.start {r : Check ι} {view : List ι → ι → Package ι}
    {D : List ι → List ι → Prop} {table : ι → Package ι} {n : Nat}
    (hr : r.resolver = markerOf n) (hb : Below (3 * (n % 11)) table)
    (hview : Packages.strip table = view []) (hD : D [] []) :
    Rel r view D ⟨table, []⟩ start := by
  refine ⟨fun p => ?_, hview, hD⟩
  rw [hr, markerOf, markOf_twoPow, hb p _ (Nat.le_refl _)]
  rfl

omit [DecidableEq ι] in
theorem start_noFail : (start : St ι).NoFail := fun _ h => by cases h

omit [DecidableEq ι] in
theorem start_sorted (g : Graph ι) : Sorted g [] start where
  closed _ h := by cases h
  logged _ h := by cases h
  sorted l₁ y l₂ h := by simp [start] at h

theorem markerOf_position (n : Nat) : 3 * (n % 11) < 31 := by omega

theorem markView_nil (table : ι → Package ι) :
    strip table = markView table [] := by
  funext p
  rw [markView_apply, if_neg (by simp)]

omit [DecidableEq ι] in
theorem strip_marker (packages : Packages ι) :
    strip (resolveDependenciesMarker packages).table = strip packages.table := by
  unfold resolveDependenciesMarker
  split
  · rfl
  · split <;> rfl

/-- The list that is returned is the log as it stood when a root last
resolved. -/
theorem special_search (hn : Marked n packages)
    (hu : (∀ p, nonExistant p = true) ∨ ∀ p, nonExistant p = false)
    (hrun : resolveDependenciesSpecial packages list
      { strictCheck with checkNonExistant := nonExistant } fuel =
        some (packages', install)) :
    ∃ st', visitRoots (visit (graphOf { strictCheck with checkNonExistant := nonExistant }
        (fun _ => false) (listView packages.table)) fuel) list start [] =
      some (st', install) := by
  obtain ⟨hres, hb, -⟩ := hn.marker
  have hview : listView (resolveDependenciesMarker packages).table =
      listView packages.table := funext fun _ => strip_marker packages
  unfold resolveDependenciesSpecial at hrun
  simp only at hrun
  split at hrun
  · cases hrun
  · next w install' hroots =>
      cases hrun
      have hmode : Mode { strictCheck with
          checkNonExistant := nonExistant
          resolver := (resolveDependenciesMarker packages).resolver } start :=
        hu.symm.imp id fun hu => ⟨hu, start_noFail⟩
      obtain ⟨st', hv, -⟩ := resolveRoots_visitRoots (fun install =>
        listAppend_models (resolveDependenciesMarker packages).resolver
          (resolveDependenciesMarker packages).table install nonExistant hu) hres
        (markerOf_position n) list _ _ [] w install (.start hres hb rfl rfl) hmode hroots
      rw [hview] at hv
      exact ⟨st', hv⟩

end DebianInstaller.Packages
