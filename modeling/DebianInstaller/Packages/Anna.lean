import DebianInstaller.Packages.Permissive

/-!
# What anna will install

anna marks the components to be retrieved and lets
`di_system_packages_resolve_dependencies_mark_anna` complete the selection. The
marks that are set while the search runs are read again by it, when it prefers
a provider that is already selected. So the graph changes under the search; all
that is kept is that a provider once accepted stays acceptable, which is enough
for the selection to be closed, and for nothing to be selected without a reason.
-/

namespace DebianInstaller.Packages

open Search

variable {ι : Type*}

variable {after : ι → Package ι} {log : List ι}

variable {d : PackageDependency ι} {kernel s subarchitecture w : Text} {roots : List ι} {st : St ι}
  {table : ι → Package ι}

/-! ## The subarchitecture list -/

/-- The entries of a `Subarchitecture` field. -/
def subarchitectures (s : Text) : List Text :=
  (s.splitOnP isBlankNl).filter (· ≠ [])

theorem mem_subarchitectures_blank {c : Char} (hc : isBlankNl c = true) (s w : Text) :
    w ∈ subarchitectures (c :: s) ↔ w ∈ subarchitectures s := by
  simp [subarchitectures, List.splitOnP_cons_eq_if_modifyHead, hc]

theorem mem_subarchitectures_dropWhile (s w : Text) :
    w ∈ subarchitectures s ↔ w ∈ subarchitectures (s.dropWhile isBlankNl) := by
  induction s with
  | nil => rfl
  | cons c s ih =>
      by_cases hc : isBlankNl c = true
      · rw [mem_subarchitectures_blank hc, List.dropWhile_cons_of_pos hc]
        exact ih
      · rw [List.dropWhile_cons_of_neg hc]

theorem splitOnP_word (s : Text) :
    s.splitOnP isBlankNl = s.takeWhile (fun c => !isBlankNl c) ::
      ((s.dropWhile (fun c => !isBlankNl c)).splitOnP isBlankNl).tail := by
  induction s with
  | nil => rfl
  | cons c s ih =>
      by_cases hc : isBlankNl c = true
      · simp [List.splitOnP_cons_eq_if_modifyHead, hc]
      · rw [Bool.not_eq_true] at hc
        rw [List.splitOnP_cons_eq_if_modifyHead, ih]
        simp [hc]

theorem mem_subarchitectures_word (h : w ∈ subarchitectures s) :
    s.takeWhile (fun c => !isBlankNl c) = w ∨
      w ∈ subarchitectures (s.dropWhile (fun c => !isBlankNl c)) := by
  rw [subarchitectures, List.mem_filter, splitOnP_word, List.mem_cons] at h
  obtain ⟨rfl | h, hne⟩ := h
  · exact .inl rfl
  · exact .inr (List.mem_filter.mpr ⟨List.mem_of_mem_tail h, hne⟩)

theorem length_after_word (hs : s ≠ []) :
    ((s.dropWhile isBlankNl).dropWhile (fun c => !isBlankNl c)).length < s.length := by
  have hle : ∀ (P : Char → Bool) (t : Text), (t.dropWhile P).length ≤ t.length :=
    fun P t => (List.dropWhile_sublist P).length_le
  cases s with
  | nil => exact absurd rfl hs
  | cons c s =>
      rw [List.length_cons, Nat.lt_succ_iff]
      by_cases hc : isBlankNl c = true
      · rw [List.dropWhile_cons_of_pos hc]
        exact (hle _ _).trans (hle _ _)
      · rw [List.dropWhile_cons_of_neg hc, List.dropWhile_cons_of_pos (by simpa using hc)]
        exact hle _ _

theorem subarchitectureLoop_finds : ∀ (n : Nat) (s : Text), s.length < n →
    w ∈ subarchitectures s → subarchitectureLoop w n s = true := by
  intro n
  induction n with
  | zero => exact fun s h => absurd h (Nat.not_lt_zero _)
  | succ n ih =>
      intro s hlen hw
      have hne : s ≠ [] := by
        rintro rfl
        simp [subarchitectures] at hw
      rw [subarchitectureLoop, if_neg hne]
      simp only []
      split
      · rfl
      · next hword =>
          rw [mem_subarchitectures_dropWhile] at hw
          rcases mem_subarchitectures_word hw with rfl | hw
          · exact absurd rfl hword
          · have := length_after_word hne
            exact ih _ (by omega) hw

/-- A provider that fits the machine. -/
def Suits (subarchitecture kernel : Text) (p : Package ι) : Prop :=
  (∀ v, p.kernelVersion = some v → v = kernel) ∧
    ∀ s, p.subarchitecture = some s → subarchitecture ∈ subarchitectures s

theorem Suits.checkSubarchitecture {p : Package ι} (h : Suits subarchitecture kernel p) :
    checkSubarchitecture p subarchitecture = true := by
  unfold Packages.checkSubarchitecture
  split
  · rfl
  · next s hs => exact subarchitectureLoop_finds _ _ (Nat.lt_succ_self _) (h.2 s hs)

/-! ## A closed selection -/

/-- What the reader leaves behind: every package with a stanza is in the list, and
providers have stanzas. Of the statuses nothing is known: anna sets that of a virtual package
where a component of its name is installed. -/
structure WellFormed (packages : Packages ι) : Prop where
  listed : ∀ p, (packages.table p).type = .realPackage → p ∈ packages.list
  providers : ProvidersReal packages.table

/-- A reason to select a package: something selected needs it, or it is a
provider that was accepted for a virtual package. -/
inductive AnnaNeeds (subarchitecture kernel : Text) (table : ι → Package ι) :
    ι → ι → Prop where
  | depends {p : ι} {d : PackageDependency ι} (hp : (table p).type = .realPackage)
      (hd : d ∈ (table p).depends) (ht : d.type = .depends ∨ d.type = .preDepends)
      (hs : (table d.ptr).status.atLeastUnpacked = false) :
      AnnaNeeds subarchitecture kernel table p d.ptr
  | provider {p : ι} {d : PackageDependency ι}
      (hp : (table p).type = .virtualPackage) (hd : d ∈ (table p).depends)
      (ht : d.type = .reverseProvides)
      (hk : ∀ v, (table d.ptr).kernelVersion = some v → v = kernel)
      (ha : checkSubarchitecture (table d.ptr) subarchitecture = true)
      (hs : (table d.ptr).status.atLeastUnpacked = false) :
      AnnaNeeds subarchitecture kernel table p d.ptr

/-- What the resolver leaves alone. -/
def unmarked (p : Package ι) : Package ι :=
  { p with statusWant := .unknown, resolver := 0#32 }

/-- What anna relies on. A virtual package that has the status of an installed one is accepted
as it is, and no provider of it is looked for. -/
structure Selection (subarchitecture kernel : Text) (before after : ι → Package ι) :
    Prop where
  frame : ∀ p, unmarked (after p) = unmarked (before p)
  depends : ∀ p, (after p).type = .realPackage → (after p).statusWant = .install →
    ∀ d ∈ (after p).depends, d.type = .depends ∨ d.type = .preDepends →
    (after d.ptr).type = .realPackage →
    (after d.ptr).status.atLeastUnpacked = true ∨ (after d.ptr).statusWant = .install
  provided : ∀ p, (after p).type = .realPackage → (after p).statusWant = .install →
    ∀ d ∈ (after p).depends, d.type = .depends ∨ d.type = .preDepends →
    (after d.ptr).type = .virtualPackage →
    (∃ e ∈ (after d.ptr).depends, e.type = .reverseProvides ∧
      Suits subarchitecture kernel (after e.ptr)) →
    (after d.ptr).status.atLeastUnpacked = true ∨
      ∃ e ∈ (after d.ptr).depends, e.type = .reverseProvides ∧
        ((after e.ptr).status.atLeastUnpacked = true ∨
          (after e.ptr).statusWant = .install)
  minimal : ∀ p, (after p).statusWant = .install → (before p).statusWant ≠ .install →
    ∃ x, (before x).statusWant = .install ∧
      Relation.ReflTransGen (AnnaNeeds subarchitecture kernel before) x p

/-! ## The provider that is chosen -/

theorem checkVirtualAnna_picks (subarchitecture kernel : Text) (table : ι → Package ι)
    (p : ι) (best : Option (PackageDependency ι)) (d : PackageDependency ι) :
    checkVirtualAnna subarchitecture kernel table p best d = some d ∧
        (∀ v, (table d.ptr).kernelVersion = some v → v = kernel) ∧
        checkSubarchitecture (table d.ptr) subarchitecture = true ∨
      checkVirtualAnna subarchitecture kernel table p best d = best := by
  unfold checkVirtualAnna
  split
  · exact .inr rfl
  · next hk =>
      split
      · exact .inr rfl
      · next hs =>
          have hfit : (∀ v, (table d.ptr).kernelVersion = some v → v = kernel) ∧
              checkSubarchitecture (table d.ptr) subarchitecture = true := by
            refine ⟨fun v hv => ?_, by simpa using hs⟩
            by_contra hne
            exact hk (by simp [hv, hne])
          split
          · exact .inl ⟨rfl, hfit⟩
          · split
            · exact .inl ⟨rfl, hfit⟩
            · exact .inr rfl

theorem checkVirtualAnna_isSome (p : ι) {best : Option (PackageDependency ι)}
    (h : best.isSome = true ∨ Suits subarchitecture kernel (table d.ptr)) :
    (checkVirtualAnna subarchitecture kernel table p best d).isSome = true := by
  unfold checkVirtualAnna
  rcases best with - | b
  · have hs : Suits subarchitecture kernel (table d.ptr) := by simpa using h
    rw [if_neg, if_neg]
    · rfl
    · rw [hs.checkSubarchitecture]
      decide
    · rintro ⟨hv, hne⟩
      obtain ⟨v, hv⟩ := Option.isSome_iff_exists.mp hv
      exact hne (by rw [hv, hs.1 v hv])
  · repeat' split
    all_goals rfl

/-! ## The marking loop -/

variable [DecidableEq ι]

/-- The loop over `packages->list` searches from every package that was to be
installed when the loop began, and from no other. -/
theorem markLoop_grows {r : Check ι} {skip : ι → Bool} {i : Nat}
    (hm : Models r skip (markView table) (fun _ _ => True)) (hr : r.resolver = BitVec.twoPow 32 i)
    (hi : i < 31) (hpass : ∀ p, r.checkNonExistant p = true) {fuel : Nat} :
    ∀ (ps : List ι) (w w' : Work ι) (st : St ι) (roots : List ι),
      Rel r (markView table) (fun _ _ => True) w st → st.NoFail →
      Grows (graphOf r skip (markView table)) roots start st →
      (∀ x ∈ roots, (table x).statusWant = .install) →
      markLoop r fuel ps w = some w' →
      ∃ st' roots', Rel r (markView table) (fun _ _ => True) w' st' ∧ st'.NoFail ∧
        Grows (graphOf r skip (markView table)) roots' start st' ∧
        (∀ x ∈ roots', (table x).statusWant = .install) ∧
        (∀ y, st.mark y ≠ .unseen → st'.mark y ≠ .unseen) ∧
        ∀ p ∈ ps, (table p).statusWant = .install → st'.mark p ≠ .unseen := by
  intro ps
  induction ps with
  | nil =>
      intro w w' st roots hrel hnf hg hroots h
      cases h
      exact ⟨st, roots, hrel, hnf, hg, hroots, fun _ h => h, by simp⟩
  | cons p ps ih =>
      intro w w' st roots hrel hnf hg hroots h
      have hwant : st.mark p = .unseen →
          (w.table p).statusWant = (table p).statusWant := by
        intro hun
        have hnot : p ∉ st.log := by
          obtain ⟨L, hL, -, hmem⟩ := hg.log
          rw [hL]
          intro hp
          have := ((hmem p).mp (by simpa [start] using hp)).2.1
          rw [hun] at this
          cases this
        have := congrArg Package.statusWant (congrFun hrel.strip p)
        rw [markView_apply, if_neg hnot] at this
        exact this
      have hseen : (w.table p).resolver &&& r.resolver = 0#32 ↔ st.mark p = .unseen := by
        rw [← markOf_eq_unseen_iff hr, hrel.mark]
      rw [markLoop] at h
      split at h
      · next hc =>
          have hun := hseen.mp hc.1
          have hmode : Mode r st := .inr ⟨hpass, hnf⟩
          split at h
          · cases h
          · next b w₁ hrec =>
              obtain ⟨st₁, hv, hrel₁⟩ := visit_of_recurse hm hr hi hrel hmode hrec
              have hvis := visit_visited _ fuel p st b st₁ hv
              obtain ⟨hb, hnf₁⟩ := visit_alive (graphOf_alive hpass) fuel p st b st₁ hnf hv
              have hg₁ := hg.trans (fun y hy => absurd hy (hnf y)) hvis.grows
              have hroots₁ : ∀ x ∈ roots ++ [p], (table x).statusWant = .install := by
                intro x hx
                rcases List.mem_append.mp hx with hx | hx
                · exact hroots x hx
                · rw [List.mem_singleton.mp hx, ← hwant hun]
                  exact hc.2
              obtain ⟨st', roots', hrel', hnf', hg', hroots', hold, hall⟩ :=
                ih w₁ w' st₁ _ hrel₁ hnf₁ hg₁ hroots₁ h
              have hkeep : ∀ y, st.mark y ≠ .unseen → st₁.mark y ≠ .unseen := by
                intro y hy
                rw [hvis.grows.keep y hy]
                exact hy
              refine ⟨st', roots', hrel', hnf', hg', hroots',
                fun y hy => hold y (hkeep y hy), fun q hq hqw => ?_⟩
              rcases List.mem_cons.mp hq with rfl | hq
              · refine hold q ?_
                rw [hvis.answer, hb]
                decide
              · exact hall q hq hqw
      · next hc =>
          obtain ⟨st', roots', hrel', hnf', hg', hroots', hold, hall⟩ :=
            ih w w' st roots hrel hnf hg hroots h
          refine ⟨st', roots', hrel', hnf', hg', hroots', hold, fun q hq hqw => ?_⟩
          rcases List.mem_cons.mp hq with rfl | hq
          · refine hold q fun hun => hc ⟨hseen.mpr hun, ?_⟩
            rw [hwant hun]
            exact hqw
          · exact hall q hq hqw

/-! ## The search of anna -/

/-- The graph anna searches; what is unpacked already is not entered. -/
def annaGraph (subarchitecture kernel : Text) (table : ι → Package ι) : Graph ι :=
  graphOf (annaCheck subarchitecture kernel)
    (fun p => (table p).status.atLeastUnpacked) (markView table)

section AnnaGraph

variable {subarchitecture kernel : Text} {table : ι → Package ι} {p : ι}

theorem markView_type (log : List ι) (p : ι) :
    (markView table log p).type = (table p).type := by
  rw [markView_apply]
  split <;> rfl

theorem markView_depends (log : List ι) (p : ι) :
    (markView table log p).depends = (table p).depends := by
  rw [markView_apply]
  split <;> rfl

variable (subarchitecture kernel) in
theorem annaGraph_emit {p : ι} :
    (annaGraph subarchitecture kernel table).emit p = true ↔
      (table p).type = .realPackage := by
  rw [← markView_type []]
  exact decide_eq_true_iff

theorem annaGraph_next_real (hp : (table p).type = .realPackage) (log : List ι) :
    (annaGraph subarchitecture kernel table).next log p =
      ((table p).depends.filter fun d =>
        PackageDependency.isDepends d && !(table d.ptr).status.atLeastUnpacked).map
          (·.ptr) := by
  simp only [annaGraph, graphOf, markView_type, hp, markView_depends]

theorem annaGraph_next_virtual (hp : (table p).type = .virtualPackage) (log : List ι) :
    (annaGraph subarchitecture kernel table).next log p =
      match chooseProvide (annaCheck subarchitecture kernel) (markView table log) p with
      | none => []
      | some d => if (table d.ptr).status.atLeastUnpacked then [] else [d.ptr] := by
  have htype : (markView table log p).type = .virtualPackage := (markView_type log p).trans hp
  unfold annaGraph graphOf
  dsimp only
  split
  · next h => cases htype.symm.trans h
  · rfl
  · next h => cases htype.symm.trans h

theorem Suits.markView (h : Suits subarchitecture kernel (table p)) (log : List ι) :
    Suits subarchitecture kernel (markView table log p) := by
  rw [markView_apply]
  split <;> exact h

theorem annaChoice (h : chooseProvide (annaCheck subarchitecture kernel) (markView table log) p =
      some d) :
    d ∈ (table p).depends ∧ d.type = .reverseProvides ∧
      (∀ v, (table d.ptr).kernelVersion = some v → v = kernel) ∧
      checkSubarchitecture (table d.ptr) subarchitecture = true := by
  have hmem := chooseProvide_mem
    (checkVirtualAnna_picks subarchitecture kernel (Packages.markView table log) p) h
  rw [markView_depends] at hmem
  refine ⟨hmem.1, hmem.2.1, ?_⟩
  have hfit := hmem.2.2
  rw [markView_apply] at hfit
  split at hfit <;> exact hfit

theorem annaGraph_edge {x y : ι} (h : (annaGraph subarchitecture kernel table).Edge x y) :
    AnnaNeeds subarchitecture kernel table x y := by
  obtain ⟨log, hy⟩ := h
  cases hx : (table x).type with
  | nonExistent =>
      simp only [annaGraph, graphOf, markView_type, hx] at hy
      cases hy
  | realPackage =>
      rw [annaGraph_next_real hx] at hy
      obtain ⟨d, hd, rfl⟩ := List.mem_map.mp hy
      obtain ⟨hd, hdep⟩ := List.mem_filter.mp hd
      rw [Bool.and_eq_true, PackageDependency.isDepends, decide_eq_true_iff,
        Bool.not_eq_true'] at hdep
      exact .depends hx hd hdep.1 hdep.2
  | virtualPackage =>
      rw [annaGraph_next_virtual hx] at hy
      split at hy
      · cases hy
      · next d hd =>
          obtain ⟨hm, ht, hk, ha⟩ := annaChoice hd
          split at hy
          · cases hy
          · next hs =>
              obtain rfl := List.mem_singleton.mp hy
              exact .provider hx hm ht hk ha (by simpa using hs)

theorem unmarked_of_strip (hstrip : strip after = markView table log) (p : ι) :
    unmarked (after p) = unmarked (table p) := by
  have hafter := congrFun hstrip p
  rw [markView_apply] at hafter
  show unmarked (strip after p) = unmarked (strip table p)
  rw [hafter]
  split <;> rfl

theorem statusWant_of_strip (hstrip : strip after = markView table log) (p : ι) :
    (after p).statusWant = .install ↔ p ∈ log ∨ (table p).statusWant = .install := by
  have hafter := congrFun hstrip p
  rw [markView_apply] at hafter
  show (strip after p).statusWant = .install ↔ _
  rw [hafter]
  split
  · next hin => simp [hin, wantInstall]
  · next hin => simp [hin, strip]

omit [DecidableEq ι] in
theorem mark_okay {st : St ι} (hnf : st.NoFail) {p : ι} (hp : st.mark p ≠ .unseen) :
    st.mark p = .okay := by
  cases hm : st.mark p with
  | unseen => exact absurd hm hp
  | okay => rfl
  | failed => exact absurd hm (hnf p)

/-- Of a virtual package that was searched a provider was chosen, where one suits. -/
theorem provider_of_okay (hnf : st.NoFail)
    (hg : Grows (annaGraph subarchitecture kernel table) roots start st) {v : ι}
    (hvirtual : (table v).type = .virtualPackage) (hok : st.mark v = .okay)
    {e : PackageDependency ι} (he : e ∈ (table v).depends) (het : e.type = .reverseProvides)
    (hsuits : Suits subarchitecture kernel (table e.ptr)) :
    ∃ c ∈ (table v).depends, c.type = .reverseProvides ∧
      ((table c.ptr).status.atLeastUnpacked = true ∨ st.mark c.ptr = .okay) := by
  obtain ⟨-, l, hnext⟩ := hg.okay v rfl hok
  rw [annaGraph_next_virtual hvirtual] at hnext
  have hsome : (chooseProvide (annaCheck subarchitecture kernel)
      (markView table l) v).isSome = true :=
    chooseProvide_isSome (fun best c hb => checkVirtualAnna_isSome v (.inl hb))
      (by rw [markView_depends]; exact he) het
      (fun best => checkVirtualAnna_isSome v (.inr (hsuits.markView l)))
  obtain ⟨c, hc⟩ := Option.isSome_iff_exists.mp hsome
  obtain ⟨hcm, hct, -, -⟩ := annaChoice hc
  refine ⟨c, hcm, hct, ?_⟩
  rw [hc] at hnext
  dsimp only at hnext
  split at hnext
  · next hs => exact .inl hs
  · exact .inr (mark_okay hnf (hnext c.ptr List.mem_cons_self).1)

/-- A search that nothing fails leaves a selection behind. -/
theorem selection_of_grows {packages : Packages ι} (hwf : WellFormed packages)
    (hstrip : strip after = markView packages.table st.log) (hnf : st.NoFail)
    (hg : Grows (annaGraph subarchitecture kernel packages.table) roots start st)
    (hroots : ∀ x ∈ roots, (packages.table x).statusWant = .install)
    (hall : ∀ p ∈ packages.list, (packages.table p).statusWant = .install →
      st.mark p ≠ .unseen) : Selection subarchitecture kernel packages.table after := by
  obtain ⟨L, hL, -, hmem⟩ := hg.log
  have hlog : ∀ p, p ∈ st.log ↔
      st.mark p = .okay ∧ (packages.table p).type = .realPackage := by
    intro p
    rw [hL, ← annaGraph_emit subarchitecture kernel]
    simpa [start] using hmem p
  have hframe := unmarked_of_strip hstrip
  have htype : ∀ p, (after p).type = (packages.table p).type := fun p => by
    show (unmarked (after p)).type = (unmarked (packages.table p)).type
    rw [hframe p]
  have hdepends : ∀ p, (after p).depends = (packages.table p).depends := fun p => by
    show (unmarked (after p)).depends = (unmarked (packages.table p)).depends
    rw [hframe p]
  have hstatus : ∀ p, (after p).status = (packages.table p).status := fun p => by
    show (unmarked (after p)).status = (unmarked (packages.table p)).status
    rw [hframe p]
  have hinstall := statusWant_of_strip hstrip
  have hselected : ∀ p, st.mark p = .okay → (packages.table p).type = .realPackage →
      (after p).statusWant = .install :=
    fun p hok hreal => (hinstall p).mpr (.inl ((hlog p).mpr ⟨hok, hreal⟩))
  -- A selected package has been searched, and what it needs was looked at then.
  have hentry : ∀ p, (after p).type = .realPackage → (after p).statusWant = .install →
      ∀ d ∈ (after p).depends, d.type = .depends ∨ d.type = .preDepends →
      (packages.table d.ptr).status.atLeastUnpacked = true ∨ st.mark d.ptr = .okay := by
    intro p hreal hwant d hd ht
    rw [htype] at hreal
    rw [hdepends] at hd
    have hsearched : st.mark p = .okay := by
      rcases (hinstall p).mp hwant with hin | hold
      · exact ((hlog p).mp hin).1
      · exact mark_okay hnf (hall p (hwf.listed p hreal) hold)
    cases hs : (packages.table d.ptr).status.atLeastUnpacked with
    | true => exact .inl rfl
    | false =>
        obtain ⟨-, l, hnext⟩ := hg.okay p rfl hsearched
        rw [annaGraph_next_real hreal] at hnext
        refine .inr (mark_okay hnf (hnext d.ptr (List.mem_map.mpr ⟨d, ?_, rfl⟩)).1)
        exact List.mem_filter.mpr ⟨hd, by simp [PackageDependency.isDepends, ht, hs]⟩
  constructor
  case frame => exact hframe
  case depends =>
    intro p hreal hwant d hd ht hdr
    rcases hentry p hreal hwant d hd ht with hs | hok
    · exact .inl (by rw [hstatus]; exact hs)
    · exact .inr (hselected _ hok (by rw [← htype]; exact hdr))
  case provided =>
    intro p hreal hwant d hd ht hdv hprov
    rcases hentry p hreal hwant d hd ht with hs | hok
    · exact .inl (by rw [hstatus]; exact hs)
    obtain ⟨e, he, het, hsuits⟩ := hprov
    have hfit : Suits subarchitecture kernel (packages.table e.ptr) := by
      show Suits subarchitecture kernel (unmarked (packages.table e.ptr))
      rw [← hframe]
      exact hsuits
    rw [htype] at hdv
    rw [hdepends] at he
    obtain ⟨c, hcm, hct, hc⟩ := provider_of_okay hnf hg hdv hok he het hfit
    refine .inr ⟨c, by rw [hdepends]; exact hcm, hct, ?_⟩
    rcases hc with hs | hcok
    · exact .inl (by rw [hstatus]; exact hs)
    · exact .inr (hselected _ hcok (hwf.providers d.ptr c hcm hct))
  case minimal =>
    intro p hwant hnew
    have hin : p ∈ st.log := ((hinstall p).mp hwant).resolve_right hnew
    have hok := ((hlog p).mp hin).1
    obtain ⟨x, hx, hreach⟩ := hg.reach p rfl (by rw [hok]; decide)
    exact ⟨x, hroots x hx, hreach.lift id fun _ _ => annaGraph_edge⟩

end AnnaGraph

/-- Whatever calls were made before, the call of anna returns, and what it
leaves behind is a selection. -/
theorem resolveDependenciesMarkAnna_selection [Fintype ι] {cs : List (Call ι)}
    {used : List (BitVec 32)} {packages : Packages ι} (h : After cs used packages)
    (hwf : WellFormed packages) (subarchitecture kernel : Text) :
    (∃ fuel a, resolveDependenciesMarkAnna packages subarchitecture kernel fuel =
      some a) ∧
    ∀ fuel packages',
      resolveDependenciesMarkAnna packages subarchitecture kernel fuel = some packages' →
      Selection subarchitecture kernel packages.table packages'.table := by
  obtain ⟨hres, hb, -⟩ := h.marked.marker
  have hstrip := strip_marker packages
  obtain ⟨a, ha⟩ := markSpecial_isSome h.marked
    (anna_models _ subarchitecture kernel _) (.inl fun _ => rfl)
  refine ⟨⟨_, a, ha⟩, fun fuel packages' hrun => ?_⟩
  unfold resolveDependenciesMarkAnna resolveDependenciesMarkSpecial at hrun
  simp only at hrun
  split at hrun
  · cases hrun
  · next w hloop =>
      cases hrun
      obtain ⟨st, roots, hrel, hnf, hg, hroots, -, hall⟩ :=
        markLoop_grows (anna_models _ subarchitecture kernel _) hres
          (markerOf_position _) (fun _ => rfl) _ _ w start []
          (.start hres hb (markView_nil _) trivial) start_noFail (.refl _ _) (by simp)
          hloop
      have hview : markView (resolveDependenciesMarker packages).table =
          markView packages.table := by
        funext log p
        rw [markView_apply, markView_apply, hstrip]
      have hwant : ∀ p, ((resolveDependenciesMarker packages).table p).statusWant =
          (packages.table p).statusWant := fun p => by
        show (strip (resolveDependenciesMarker packages).table p).statusWant =
          (strip packages.table p).statusWant
        rw [hstrip]
      have hskip : (fun p => ((resolveDependenciesMarker
          packages).table p).status.atLeastUnpacked) =
          fun p => (packages.table p).status.atLeastUnpacked := by
        funext p
        show (strip (resolveDependenciesMarker packages).table p).status.atLeastUnpacked =
          (strip packages.table p).status.atLeastUnpacked
        rw [hstrip]
      rw [hview, hskip] at hg
      have hlist : (resolveDependenciesMarker packages).list = packages.list := by
        unfold resolveDependenciesMarker
        split
        · rfl
        · split <;> rfl
      refine selection_of_grows hwf
        (hrel.strip.trans (congrFun hview _)) hnf hg (fun x hx => ?_) fun p hp hold => ?_
      · rw [← hwant]
        exact hroots x hx
      · exact hall p (by rw [hlist]; exact hp) (by rw [hwant]; exact hold)

/-- A component `0` that needs the virtual package `1`, which two kernels'
builds of one module provide; the second fits, and needs `4`. -/
def components : Packages (Fin 5) where
  table
    | 0 => { type := .realPackage, statusWant := .install, depends := [⟨.depends, 1⟩] }
    | 1 => { type := .virtualPackage
             depends := [⟨.reverseProvides, 2⟩, ⟨.reverseProvides, 3⟩] }
    | 2 => { type := .realPackage, kernelVersion := some ['4']
             depends := [⟨.provides, 1⟩] }
    | 3 => { type := .realPackage, kernelVersion := some ['5']
             subarchitecture := some ['p', ' ', 'q']
             depends := [⟨.provides, 1⟩, ⟨.depends, 4⟩] }
    | 4 => { type := .realPackage }
  list := [0, 2, 3, 4]
  resolver := 0#32

theorem components_selection :
    ((∃ fuel a, resolveDependenciesMarkAnna components ['q'] ['5'] fuel = some a) ∧
    ∀ fuel packages',
      resolveDependenciesMarkAnna components ['q'] ['5'] fuel = some packages' →
      Selection ['q'] ['5'] components.table packages'.table) ∧
    (resolveDependenciesMarkAnna components ['q'] ['5'] 6).map (fun packages' =>
      (List.finRange 5).filter fun p => (packages'.table p).statusWant = .install) =
      some [0, 3, 4] :=
  ⟨resolveDependenciesMarkAnna_selection (.read rfl (by decide))
    ⟨by decide, by unfold ProvidersReal; decide⟩ _ _, by decide⟩

/-- A component `0` that needs `1`, which is only a virtual package here: the component of that
name is installed, and `2` provides it too. -/
def installedVirtual : Packages (Fin 3) where
  table
    | 0 => { type := .realPackage, statusWant := .install, depends := [⟨.depends, 1⟩] }
    | 1 => { type := .virtualPackage, status := .installed
             depends := [⟨.reverseProvides, 2⟩] }
    | 2 => { type := .realPackage, depends := [⟨.provides, 1⟩] }
  list := [0, 2]
  resolver := 0#32

/-- No provider is selected for it, although one suits. -/
theorem installedVirtual_noProvider : After [] [] installedVirtual ∧
    WellFormed installedVirtual ∧ ∃ packages',
      resolveDependenciesMarkAnna installedVirtual ['q'] ['5'] 6 = some packages' ∧
      (packages'.table 0).type = .realPackage ∧ (packages'.table 0).statusWant = .install ∧
      ⟨.depends, 1⟩ ∈ (packages'.table 0).depends ∧
      (packages'.table 1).type = .virtualPackage ∧
      ⟨.reverseProvides, 2⟩ ∈ (packages'.table 1).depends ∧
      Suits ['q'] ['5'] (packages'.table 2) ∧
      ¬ ∃ e ∈ (packages'.table 1).depends, e.type = .reverseProvides ∧
        ((packages'.table e.ptr).status.atLeastUnpacked = true ∨
          (packages'.table e.ptr).statusWant = .install) := by
  refine ⟨.read rfl (by decide), ⟨by decide, by unfold ProvidersReal; decide⟩, _, rfl, rfl, rfl,
    List.mem_singleton_self _, rfl, List.mem_singleton_self _, ⟨fun v hv => ?_, fun t ht => ?_⟩,
    by decide⟩
  · cases hv
  · cases ht

end DebianInstaller.Packages
