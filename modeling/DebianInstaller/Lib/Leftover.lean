import DebianInstaller.Lib.Credit

/-!
# What a failing search leaves behind

A search that fails has accepted nodes on its way: below each node of the path along which
it fails, everything that stands before the first successor from which a dead node can be
reached. `FailsAt` and `Left` say this of the graph and of the set of nodes accepted before,
and `visit_leaves` shows that it is exact: it determines the marks after a search from the
marks before it, whatever credit was given and not repaid.

A sequence of searches keeps the log of the last one that succeeds. So what a failing search
leaves behind is kept if any later search succeeds, and `visitRoots_kept` says which nodes
are kept.
-/

namespace Search

variable {ι : Type*} {g : Graph ι}

variable {d x : ι} {fuel : ℕ} {pre : List ι} {st st' : St ι}

/-- `y` can be reached from `x` without going through `O`. -/
def Found (g : Graph ι) (O : Set ι) (x y : ι) : Prop :=
  x ∉ O ∧ Relation.ReflTransGen (fun a b => g.Edge a b ∧ b ∉ O) x y

/-- A dead node can be reached without going through `O`. -/
def Bad (g : Graph ι) (O : Set ι) (x : ι) : Prop := ∃ y, Found g O x y ∧ g.dead y = true

/-- The successors of `x` up to the first from which a dead node can be reached. -/
structure Split (g : Graph ι) (O : Set ι) (x : ι) (pre : List ι) (d : ι) : Prop where
  alive : g.dead x = false
  next : ∃ post, g.next [] x = pre ++ d :: post
  good : ∀ c ∈ pre, ¬ Bad g (insert x O) c
  bad : Bad g (insert x O) d

/-- What is accepted below `x` before it fails. -/
def before (g : Graph ι) (O : Set ι) (x : ι) (pre : List ι) : Set ι :=
  insert x O ∪ { q | ∃ c ∈ pre, Found g (insert x O) c q }

/-- `FailsAt g F O x y T`: a search from `x` fails after the nodes `O` were accepted and the
nodes `F` have failed, and on its way it fails at `y`, with `T` accepted. -/
inductive FailsAt (g : Graph ι) (F : Set ι) : Set ι → ι → ι → Set ι → Prop where
  | here {O : Set ι} {x : ι} (hx : x ∉ F) (hb : Bad g O x) : FailsAt g F O x x O
  | down {O T : Set ι} {pre : List ι} {x d y : ι} (hx : x ∉ F) (hb : Bad g O x)
      (hs : Split g O x pre d) (h : FailsAt g F (before g O x pre) d y T) : FailsAt g F O x y T

/-- A search from `x` fails and leaves `p` accepted. -/
def Left (g : Graph ι) (F O : Set ι) (x p : ι) : Prop :=
  ∃ y T pre d, FailsAt g F O x y T ∧ Split g T y pre d ∧ ∃ c ∈ pre, Found g (insert y T) c p

/-! ## Reaching without going through a set -/

section Found

variable {O A : Set ι} {x y z : ι}

theorem Found.refl (hx : x ∉ O) : Found g O x x := ⟨hx, .refl⟩

theorem Found.not_mem (h : Found g O x y) : y ∉ O := by
  obtain ⟨hx, hr⟩ := h
  cases hr with
  | refl => exact hx
  | tail _ he => exact he.2

theorem Found.reach (h : Found g O x y) : g.Reach x y :=
  h.2.lift id fun _ _ he => he.1

theorem Found.anti (h : Found g A x y) (hsub : O ⊆ A) : Found g O x y :=
  ⟨fun hx => h.1 (hsub hx),
    h.2.lift id fun _ _ he => ⟨he.1, fun hO => he.2 (hsub hO)⟩⟩

theorem Found.head (hx : x ∉ O) (he : g.Edge x y) (h : Found g O y z) : Found g O x z :=
  ⟨hx, .head ⟨he, h.1⟩ h.2⟩

theorem Found.avoid (hA : ∀ a ∈ A, ∀ b, g.Edge a b → b ∉ O → b ∈ A) (h : Found g O x y) :
    y ∈ A ∨ Found g (O ∪ A) x y := by
  obtain ⟨hx, hr⟩ := h
  induction hr with
  | refl =>
      by_cases hxA : x ∈ A
      · exact .inl hxA
      · exact .inr (.refl fun h => h.elim hx hxA)
  | @tail a b _ he ih =>
      rcases ih with haA | hfound
      · exact .inl (hA a haA b he.1 he.2)
      · by_cases hbA : b ∈ A
        · exact .inl hbA
        · exact .inr ⟨hfound.1, hfound.2.tail ⟨he.1, fun h => h.elim he.2 hbA⟩⟩

theorem found_iff (hx : x ∉ O) :
    Found g O x y ↔ y = x ∨ ∃ z, g.Edge x z ∧ Found g (insert x O) z y := by
  constructor
  · rintro ⟨-, hr⟩
    induction hr with
    | refl => exact .inl rfl
    | @tail a b _ he ih =>
        by_cases hbx : b = x
        · exact .inl hbx
        · have hb : b ∉ insert x O := fun h => h.elim hbx he.2
          rcases ih with rfl | ⟨z, hz, hfound⟩
          · exact .inr ⟨b, he.1, .refl hb⟩
          · exact .inr ⟨z, hz, hfound.1, hfound.2.tail ⟨he.1, hb⟩⟩
  · rintro (rfl | ⟨z, hz, hfound⟩)
    · exact .refl hx
    · exact .head hx hz (hfound.anti (Set.subset_insert x O))

theorem Bad.not_mem (h : Bad g O x) : x ∉ O := by
  obtain ⟨y, hy, -⟩ := h
  exact hy.1

theorem Bad.anti (h : Bad g A x) (hsub : O ⊆ A) : Bad g O x := by
  obtain ⟨y, hy, hd⟩ := h
  exact ⟨y, hy.anti hsub, hd⟩

theorem Bad.head (hx : x ∉ O) (he : g.Edge x y) (h : Bad g O y) : Bad g O x := by
  obtain ⟨z, hz, hd⟩ := h
  exact ⟨z, .head hx he hz, hd⟩

end Found

/-- The nodes found from good ones. -/
def foundFrom (g : Graph ι) (O : Set ι) (zs : List ι) : Set ι := { q | ∃ c ∈ zs, Found g O c q }

section FoundFrom

variable {O : Set ι} {zs : List ι} {x y z : ι}

theorem foundFrom_closed :
    ∀ a ∈ foundFrom g O zs, ∀ b, g.Edge a b → b ∉ O → b ∈ foundFrom g O zs := by
  rintro a ⟨c, hc, ha⟩ b he hb
  exact ⟨c, hc, ha.1, ha.2.tail ⟨he, hb⟩⟩

theorem bad_union_iff (hgood : ∀ c ∈ zs, ¬ Bad g O c) :
    Bad g (O ∪ foundFrom g O zs) z ↔ Bad g O z := by
  constructor
  · exact fun h => h.anti Set.subset_union_left
  · rintro ⟨y, hy, hd⟩
    rcases hy.avoid foundFrom_closed with ⟨c, hc, hcy⟩ | hfound
    · exact absurd ⟨y, hcy, hd⟩ (hgood c hc)
    · exact ⟨y, hfound, hd⟩

theorem foundFrom_cons :
    O ∪ foundFrom g O [z] ∪ foundFrom g (O ∪ foundFrom g O [z]) zs = O ∪ foundFrom g O (z :: zs) := by
  ext p
  constructor
  · rintro ((hp | ⟨c, hc, hcp⟩) | ⟨c, hc, hcp⟩)
    · exact .inl hp
    · exact .inr ⟨c, List.mem_cons.mpr (.inl (List.mem_singleton.mp hc)), hcp⟩
    · exact .inr ⟨c, List.mem_cons_of_mem _ hc, hcp.anti Set.subset_union_left⟩
  · rintro (hp | ⟨c, hc, hcp⟩)
    · exact .inl (.inl hp)
    · rcases List.mem_cons.mp hc with rfl | hc
      · exact .inl (.inr ⟨c, List.mem_singleton_self c, hcp⟩)
      · rcases hcp.avoid foundFrom_closed with hp | hfound
        · exact .inl (.inr hp)
        · exact .inr ⟨c, hc, hfound⟩

theorem foundFrom_nil : O ∪ foundFrom g O [] = O := by
  ext p
  simp [foundFrom]

end FoundFrom

/-! ## The failing path -/

section FailsAt

variable {F O T : Set ι} {x y p : ι}

theorem before_eq (g : Graph ι) (O : Set ι) (x : ι) (pre : List ι) :
    before g O x pre = insert x O ∪ foundFrom g (insert x O) pre := rfl

theorem subset_before (g : Graph ι) (O : Set ι) (x : ι) (pre : List ι) : O ⊆ before g O x pre :=
  fun _ hq => .inl (.inr hq)

theorem FailsAt.bad (h : FailsAt g F O x y T) : x ∉ F ∧ Bad g O x := by
  cases h with
  | here hx hb => exact ⟨hx, hb⟩
  | down hx hb => exact ⟨hx, hb⟩

theorem FailsAt.subset (h : FailsAt g F O x y T) : O ⊆ T := by
  induction h with
  | here => exact subset_rfl
  | down _ _ _ _ ih => exact (subset_before g _ _ _).trans ih

theorem Left.not_mem (h : Left g F O x p) : p ∉ O := by
  obtain ⟨y, T, pre, d, hf, -, c, -, hfound⟩ := h
  exact fun hp => hfound.not_mem (.inr (hf.subset hp))

theorem Split.unique {pre' : List ι} {d' : ι} (h : Split g O x pre d) (h' : Split g O x pre' d') :
    pre = pre' ∧ d = d' := by
  obtain ⟨post, hnext⟩ := h.next
  obtain ⟨post', hnext'⟩ := h'.next
  exact first_split_unique (P := fun c => ¬ Bad g (insert x O) c) (hnext.symm.trans hnext') h.good
    (not_not.mpr h.bad) h'.good (not_not.mpr h'.bad)

theorem failsAt_iff (hx : x ∉ F) (hb : Bad g O x) (hs : Split g O x pre d) :
    FailsAt g F O x y T ↔ (y = x ∧ T = O) ∨ FailsAt g F (before g O x pre) d y T := by
  constructor
  · intro h
    cases h with
    | here => exact .inl ⟨rfl, rfl⟩
    | down _ _ hs' h =>
        obtain ⟨rfl, rfl⟩ := hs.unique hs'
        exact .inr h
  · rintro (⟨rfl, rfl⟩ | h)
    · exact .here hx hb
    · exact .down hx hb hs h

theorem left_iff (hx : x ∉ F) (hb : Bad g O x) (hs : Split g O x pre d) :
    Left g F O x p ↔
      p ∈ foundFrom g (insert x O) pre ∨ Left g F (before g O x pre) d p := by
  constructor
  · rintro ⟨y, T, pre', d', hf, hs', hleft⟩
    rcases (failsAt_iff hx hb hs).mp hf with ⟨rfl, rfl⟩ | hf
    · obtain ⟨rfl, rfl⟩ := hs.unique hs'
      exact .inl hleft
    · exact .inr ⟨y, T, pre', d', hf, hs', hleft⟩
  · rintro (hleft | ⟨y, T, pre', d', hf, hs', hleft⟩)
    · exact ⟨x, O, pre, d, .here hx hb, hs, hleft⟩
    · exact ⟨y, T, pre', d', .down hx hb hs hf, hs', hleft⟩

end FailsAt

/-! ## What a search does to the marks

The sets of a state are the nodes accepted and the nodes that have failed. A node that has
failed leads to a dead one through nodes that have failed, and so it is bad whatever has been
accepted. -/

def St.accepted (st : St ι) : Set ι := { y | st.mark y = .okay }

def St.refused (st : St ι) : Set ι := { y | st.mark y = .failed }

/-- Every failure has its cause. -/
def Caused (g : Graph ι) (st : St ι) : Prop :=
  ∀ y ∈ st.refused, ∃ z, g.dead z = true ∧
    Relation.ReflTransGen (fun a b => g.Edge a b ∧ b ∈ st.refused) y z

theorem Caused.bad (h : Caused g st) {y : ι} (hy : y ∈ st.refused) : Bad g st.accepted y := by
  have hout : ∀ x ∈ st.refused, x ∉ st.accepted := by
    intro x hx hO
    have hfailed : st.mark x = .failed := hx
    have hokay : st.mark x = .okay := hO
    rw [hfailed] at hokay
    cases hokay
  obtain ⟨z, hd, hr⟩ := h y hy
  exact ⟨z, ⟨hout y hy, hr.lift id fun a b he => ⟨he.1, hout b he.2⟩⟩, hd⟩

/-- What a search leaves. -/
structure Leaves (g : Graph ι) (x : ι) (st : St ι) (b : Bool) (st' : St ι) : Prop where
  answer : b = false ↔ Bad g st.accepted x
  okay : ∀ p, p ∈ st'.accepted ↔ p ∈ st.accepted ∨
    (¬ Bad g st.accepted x ∧ Found g st.accepted x p) ∨ Left g st.refused st.accepted x p
  failed : ∀ y, y ∈ st'.refused ↔
    y ∈ st.refused ∨ ∃ T, FailsAt g st.refused st.accepted x y T
  caused : Caused g st'

/-- What a list of searches leaves, the last of which may fail. -/
structure LeavesAll (g : Graph ι) (zs : List ι) (st : St ι) (b : Bool) (st' : St ι) : Prop where
  passed : b = true → (∀ z ∈ zs, ¬ Bad g st.accepted z) ∧
    (st'.accepted = st.accepted ∪ foundFrom g st.accepted zs) ∧ st'.refused = st.refused
  refused : b = false → ∃ pre d post, zs = pre ++ d :: post ∧
    (∀ c ∈ pre, ¬ Bad g st.accepted c) ∧ Bad g st.accepted d ∧ d ∈ st'.refused ∧
    (∀ p, p ∈ st'.accepted ↔ p ∈ st.accepted ∪ foundFrom g st.accepted pre ∨
      Left g st.refused (st.accepted ∪ foundFrom g st.accepted pre) d p) ∧
    ∀ y, y ∈ st'.refused ↔ y ∈ st.refused ∨
      ∃ T, FailsAt g st.refused (st.accepted ∪ foundFrom g st.accepted pre) d y T
  caused : Caused g st'

theorem Left.bad {F O : Set ι} {p : ι} (h : Left g F O x p) : Bad g O x := by
  obtain ⟨y, T, pre, d, hf, -⟩ := h
  exact hf.bad.2

theorem Leaves.mem_refused (h : Leaves g x st false st') : x ∈ st'.refused := by
  have hb : Bad g st.accepted x := h.answer.mp rfl
  by_cases hx : x ∈ st.refused
  · exact (h.failed x).mpr (.inl hx)
  · exact (h.failed x).mpr (.inr ⟨st.accepted, .here hx hb⟩)

theorem leavesAll {rec : ι → St ι → Option (Bool × St ι)}
    (hrec : ∀ x st b st', Caused g st → rec x st = some (b, st') → Leaves g x st b st') :
    ∀ (zs : List ι) (st st' : St ι) (b : Bool), Caused g st →
      visitAll rec zs st = some (b, st') → LeavesAll g zs st b st' := by
  intro zs
  induction zs with
  | nil =>
      intro st st' b hst h
      cases h
      exact ⟨fun _ => ⟨by simp, foundFrom_nil.symm, rfl⟩, fun h => (by cases h), hst⟩
  | cons z zs ih =>
      intro st st' b hst h
      rw [visitAll] at h
      split at h
      · cases h
      · next mid hmid =>
          cases h
          have hl := hrec z st false st' hst hmid
          have hb : Bad g st.accepted z := hl.answer.mp rfl
          refine ⟨fun h => (by cases h), fun _ => ⟨[], z, zs, rfl, by simp, hb, hl.mem_refused, fun p => ?_,
            fun y => ?_⟩, hl.caused⟩
          · rw [foundFrom_nil, hl.okay]
            exact or_congr_right ⟨fun h => h.resolve_left fun h => h.1 hb, .inr⟩
          · rw [foundFrom_nil]
            exact hl.failed y
      · next mid hmid =>
          have hl := hrec z st true mid hst hmid
          have hgood : ¬ Bad g st.accepted z := fun hb => absurd (hl.answer.mpr hb) (by decide)
          have hone : ∀ c ∈ [z], ¬ Bad g st.accepted c := by simpa using hgood
          have hokay : mid.accepted = st.accepted ∪ foundFrom g st.accepted [z] := by
            ext p
            rw [hl.okay, Set.mem_union]
            refine or_congr_right ⟨?_, ?_⟩
            · rintro (h | h)
              · exact ⟨z, by simp, h.2⟩
              · exact absurd h.bad hgood
            · rintro ⟨c, hc, hfound⟩
              obtain rfl := List.mem_singleton.mp hc
              exact .inl ⟨hgood, hfound⟩
          have hfailed : mid.refused = st.refused := by
            ext y
            rw [hl.failed]
            refine ⟨fun h => h.resolve_right fun hfails => ?_, .inl⟩
            obtain ⟨T, hf⟩ := hfails
            exact hgood hf.bad.2
          have hall := ih mid st' b hl.caused h
          constructor
          case caused => exact hall.caused
          case passed =>
            intro hb
            obtain ⟨hzs, hokay', hfailed'⟩ := hall.passed hb
            refine ⟨List.forall_mem_cons.mpr ⟨hgood, fun c hc hbad => hzs c hc ?_⟩, ?_, ?_⟩
            · rwa [hokay, bad_union_iff hone]
            · rw [hokay', hokay, foundFrom_cons]
            · rw [hfailed', hfailed]
          case refused =>
            intro hb
            obtain ⟨pre, d, post, rfl, hpre, hd, hmem, hokay', hfailed'⟩ := hall.refused hb
            rw [hokay, foundFrom_cons] at hokay' hfailed'
            refine ⟨z :: pre, d, post, rfl, List.forall_mem_cons.mpr ⟨hgood, fun c hc hbad =>
              hpre c hc ?_⟩, ?_, hmem, ?_, ?_⟩
            · rwa [hokay, bad_union_iff hone]
            · rwa [hokay, bad_union_iff hone] at hd
            · rwa [hfailed] at hokay'
            · rwa [hfailed] at hfailed'

section Visit

variable [DecidableEq ι] (hstatic : ∀ l l' x, g.next l x = g.next l' x)

omit [DecidableEq ι] in
theorem leaves_seen {x : ι} {st : St ι} (hst : Caused g st) (hx : st.mark x ≠ .unseen) :
    Leaves g x st (decide (st.mark x = .okay)) st := by
  cases hm : st.mark x with
  | unseen => exact absurd hm hx
  | okay =>
      have hgood : ¬ Bad g st.accepted x := fun hb => hb.not_mem hm
      refine ⟨by simp [hgood], fun p => ⟨.inl, ?_⟩, fun y => ⟨.inl, ?_⟩, hst⟩
      · rintro (h | ⟨-, hfound⟩ | hleft)
        · exact h
        · exact absurd hm hfound.1
        · exact absurd hleft.bad hgood
      · rintro (h | ⟨T, hf⟩)
        · exact h
        · exact absurd hf.bad.2 hgood
  | failed =>
      have hb : Bad g st.accepted x := hst.bad hm
      refine ⟨by simp [hb], fun p => ⟨.inl, ?_⟩, fun y => ⟨.inl, ?_⟩, hst⟩
      · rintro (h | ⟨hgood, -⟩ | ⟨y, T, pre, d, hf, -⟩)
        · exact h
        · exact absurd hb hgood
        · exact absurd hm hf.bad.1
      · rintro (h | ⟨T, hf⟩)
        · exact h
        · exact absurd hm hf.bad.1

theorem accepted_set_okay (st : St ι) (x : ι) :
    (st.set x .okay).accepted = insert x st.accepted := by
  ext y
  by_cases hy : y = x
  · subst hy
    simp [St.accepted]
  · simp [St.accepted, St.set_mark_of_ne st _ hy, hy]

theorem refused_set_okay (hx : x ∉ st.refused) : (st.set x .okay).refused = st.refused := by
  ext y
  by_cases hy : y = x
  · subst hy
    simpa [St.refused] using hx
  · simp [St.refused, St.set_mark_of_ne st _ hy]

theorem mem_accepted_set_failed {y : ι} :
    y ∈ (st.set x .failed).accepted ↔ y ∈ st.accepted ∧ y ≠ x := by
  by_cases hy : y = x
  · subst hy
    simp [St.accepted]
  · simp [St.accepted, St.set_mark_of_ne st _ hy, hy]

theorem refused_set_failed (st : St ι) (x : ι) :
    (st.set x .failed).refused = insert x st.refused := by
  ext y
  by_cases hy : y = x
  · subst hy
    simp [St.refused]
  · simp [St.refused, St.set_mark_of_ne st _ hy, hy]

theorem Caused.fail (h : Caused g st) (hd : g.dead x = true ∨ g.Edge x d ∧ d ∈ st.refused) :
    Caused g (st.set x .failed) := by
  have hmono : ∀ {y z : ι}, Relation.ReflTransGen (fun a b => g.Edge a b ∧ b ∈ st.refused) y z →
      Relation.ReflTransGen (fun a b => g.Edge a b ∧ b ∈ (st.set x .failed).refused) y z := by
    intro y z hr
    rw [refused_set_failed]
    exact hr.lift id fun _ _ he => ⟨he.1, .inr he.2⟩
  intro y hy
  rw [refused_set_failed] at hy
  rcases hy with rfl | hy
  · rcases hd with hd | ⟨he, hd⟩
    · exact ⟨y, hd, .refl⟩
    · obtain ⟨z, hz, hr⟩ := h d hd
      exact ⟨z, hz, .head ⟨he, by rw [refused_set_failed]; exact .inr hd⟩ (hmono hr)⟩
  · obtain ⟨z, hz, hr⟩ := h y hy
    exact ⟨z, hz, hmono hr⟩

theorem leaves_dead (hst : Caused g st) (hx : st.mark x = .unseen) (hd : g.dead x = true) :
    Leaves g x st false (st.set x .failed) := by
  have hO : x ∉ st.accepted := by simp [St.accepted, hx]
  have hF : x ∉ st.refused := by simp [St.refused, hx]
  have hb : Bad g st.accepted x := ⟨x, .refl hO, hd⟩
  have hpath : ∀ {y T}, FailsAt g st.refused st.accepted x y T → y = x ∧ T = st.accepted := by
    intro y T hf
    cases hf with
    | here => exact ⟨rfl, rfl⟩
    | down _ _ hs => exact absurd hd (by rw [hs.alive]; decide)
  refine ⟨by simp [hb], fun p => ?_, fun y => ?_, hst.fail (d := x) (.inl hd)⟩
  · rw [mem_accepted_set_failed]
    constructor
    · exact fun h => .inl h.1
    · rintro (h | ⟨hgood, -⟩ | ⟨y, T, pre, d, hf, hs, -⟩)
      · exact ⟨h, fun hp => hO (hp ▸ h)⟩
      · exact absurd hb hgood
      · obtain ⟨rfl, -⟩ := hpath hf
        exact absurd hd (by rw [hs.alive]; decide)
  · rw [refused_set_failed]
    constructor
    · rintro (rfl | hy)
      · exact .inr ⟨_, .here hF hb⟩
      · exact .inl hy
    · rintro (hy | ⟨T, hf⟩)
      · exact .inr hy
      · exact .inl (hpath hf).1

include hstatic

/-- What a search leaves is determined by what was accepted and what had failed before. -/
theorem visit_leaves : ∀ (fuel : ℕ) (x : ι) (st : St ι) (b : Bool) (st' : St ι), Caused g st →
    visit g fuel x st = some (b, st') → Leaves g x st b st' := by
  intro fuel
  induction fuel with
  | zero =>
      intro x st b st' _ h
      rw [visit] at h
      cases h
  | succ fuel ih =>
      intro x st b st' hst h
      rcases visit_cases h with ⟨hx, rfl, rfl⟩ | ⟨hx, hd, rfl, rfl⟩ | ⟨hx, hd, mid, hmid, rfl⟩
      · exact leaves_seen hst hx
      · exact leaves_dead hst hx hd
      · have hO : x ∉ st.accepted := by simp [St.accepted, hx]
        have hF : x ∉ st.refused := by simp [St.refused, hx]
        have hedge : ∀ {z}, g.Edge x z ↔ z ∈ g.next [] x := by
          refine ⟨fun hz => ?_, fun hz => ⟨[], hz⟩⟩
          obtain ⟨l, hz⟩ := hz
          rwa [hstatic [] l]
        have hcaused : Caused g (st.set x .okay) := by
          intro y hy
          rw [refused_set_okay hF] at hy ⊢
          exact hst y hy
        rw [hstatic st.log []] at hmid
        have hall := leavesAll ih (g.next [] x) (st.set x .okay) mid b hcaused hmid
        have hokay0 := accepted_set_okay st x
        have hfailed0 : (st.set x .okay).refused = st.refused := refused_set_okay hF
        cases b with
        | true =>
            obtain ⟨hgood, hokay, hfailed⟩ := hall.passed rfl
            rw [hokay0] at hgood hokay
            rw [hfailed0] at hfailed
            have hx' : ¬ Bad g st.accepted x := by
              rintro ⟨y, hy, hdy⟩
              rcases (found_iff hO).mp hy with rfl | ⟨z, hz, hfound⟩
              · rw [hd] at hdy
                cases hdy
              · exact hgood z (hedge.mp hz) ⟨y, hfound, hdy⟩
            have hsame : (mid.finish g x).accepted = mid.accepted ∧
                (mid.finish g x).refused = mid.refused :=
              ⟨by simp [St.accepted], by simp [St.refused]⟩
            rw [if_pos rfl]
            refine ⟨by simp [hx'], fun p => ?_, fun y => ?_, ?_⟩
            · rw [hsame.1, hokay]
              constructor
              · rintro ((rfl | hp) | ⟨c, hc, hfound⟩)
                · exact .inr (.inl ⟨hx', .refl hO⟩)
                · exact .inl hp
                · exact .inr (.inl ⟨hx', (found_iff hO).mpr (.inr ⟨c, hedge.mpr hc, hfound⟩)⟩)
              · rintro (hp | ⟨-, hfound⟩ | hleft)
                · exact .inl (.inr hp)
                · rcases (found_iff hO).mp hfound with rfl | ⟨z, hz, hfound⟩
                  · exact .inl (.inl rfl)
                  · exact .inr ⟨z, hedge.mp hz, hfound⟩
                · exact absurd hleft.bad hx'
            · rw [hsame.2, hfailed]
              refine ⟨.inl, fun h => h.resolve_right fun hfails => ?_⟩
              obtain ⟨T, hf⟩ := hfails
              exact hx' hf.bad.2
            · intro y hy
              rw [hsame.2] at hy ⊢
              exact hall.caused y hy
        | false =>
            obtain ⟨pre, d, post, hnext, hpre, hbad, hmem, hokay, hfailed⟩ := hall.refused rfl
            rw [hokay0] at hpre hbad hokay hfailed
            rw [hfailed0] at hokay hfailed
            have hs : Split g st.accepted x pre d := ⟨hd, ⟨post, hnext⟩, hpre, hbad⟩
            have hxd : g.Edge x d := hedge.mpr (by rw [hnext]; simp)
            have hx' : Bad g st.accepted x :=
              .head hO hxd (hbad.anti (Set.subset_insert x st.accepted))
            rw [if_neg Bool.false_ne_true]
            refine ⟨by simp [hx'], fun p => ?_, fun y => ?_, hall.caused.fail (.inr ⟨hxd, hmem⟩)⟩
            · rw [mem_accepted_set_failed, hokay, left_iff hF hx' hs, before_eq]
              constructor
              · rintro ⟨((rfl | hp) | hp) | hp, hne⟩
                · exact absurd rfl hne
                · exact .inl hp
                · exact .inr (.inr (.inl hp))
                · exact .inr (.inr (.inr hp))
              · rintro (hp | ⟨hgood, -⟩ | hp | hp)
                · exact ⟨.inl (.inl (.inr hp)), fun h => hO (h ▸ hp)⟩
                · exact absurd hx' hgood
                · obtain ⟨c, hc, hfound⟩ := hp
                  exact ⟨.inl (.inr ⟨c, hc, hfound⟩), fun h => hfound.not_mem (.inl h)⟩
                · exact ⟨.inr hp, fun h => hp.not_mem (.inl (.inl h))⟩
            · rw [refused_set_failed, Set.mem_insert_iff, hfailed, or_left_comm]
              refine or_congr_right ⟨?_, ?_⟩
              · rintro (rfl | ⟨T, hf⟩)
                · exact ⟨st.accepted, .here hF hx'⟩
                · exact ⟨T, .down hF hx' hs hf⟩
              · rintro ⟨T, hf⟩
                rcases (failsAt_iff hF hx' hs).mp hf with ⟨rfl, -⟩ | hf
                · exact .inl rfl
                · exact .inr ⟨T, hf⟩

end Visit

/-! ## A sequence of searches -/

/-- The nodes that are accepted and those that have failed. -/
structure Sets (ι : Type*) where
  accepted : Set ι
  refused : Set ι

/-- The sets after one more search. -/
def Sets.after (g : Graph ι) (s : Sets ι) (x : ι) : Sets ι where
  accepted := { p | p ∈ s.accepted ∨ (¬ Bad g s.accepted x ∧ Found g s.accepted x p) ∨
    Left g s.refused s.accepted x p }
  refused := { y | y ∈ s.refused ∨ ∃ T, FailsAt g s.refused s.accepted x y T }

/-- The sets after the searches from a list of roots. -/
def afterRoots (g : Graph ι) (xs : List ι) : Sets ι := xs.foldl (Sets.after g) ⟨∅, ∅⟩

/-- The search from a root of the list succeeds, and `p` can be reached from that root. -/
def Vouched (g : Graph ι) (xs : List ι) (p : ι) : Prop :=
  ∃ pre r post, xs = pre ++ r :: post ∧ ¬ Bad g (afterRoots g pre).accepted r ∧ g.Reach r p

/-- What a root that fails leaves behind before one that succeeds can be reached from one that
succeeds. -/
def Redeemed (g : Graph ι) (xs : List ι) : Prop :=
  ∀ pre r mid r' post, xs = pre ++ r :: (mid ++ r' :: post) →
    Bad g (afterRoots g pre).accepted r →
    ¬ Bad g (afterRoots g (pre ++ r :: mid)).accepted r' →
    ∀ p, g.emit p = true → Left g (afterRoots g pre).refused (afterRoots g pre).accepted r p →
      Vouched g xs p

theorem afterRoots_concat (g : Graph ι) (xs : List ι) (x : ι) :
    afterRoots g (xs ++ [x]) = (afterRoots g xs).after g x := by
  rw [afterRoots, List.foldl_append, List.foldl_cons, List.foldl_nil, afterRoots]

theorem accepted_mono (g : Graph ι) (xs ys : List ι) :
    (afterRoots g xs).accepted ⊆ (afterRoots g (xs ++ ys)).accepted := by
  induction ys using List.reverseRecOn with
  | nil => rw [List.append_nil]
  | append_singleton ys y ih =>
      rw [← List.append_assoc, afterRoots_concat]
      exact fun p hp => .inl (ih hp)

theorem exists_root {xs : List ι} {p : ι} (h : p ∈ (afterRoots g xs).accepted) :
    ∃ pre r post, xs = pre ++ r :: post ∧
      ((¬ Bad g (afterRoots g pre).accepted r ∧ g.Reach r p) ∨
        Left g (afterRoots g pre).refused (afterRoots g pre).accepted r p) := by
  induction xs using List.reverseRecOn with
  | nil => exact absurd h (Set.notMem_empty p)
  | append_singleton xs x ih =>
      rw [afterRoots_concat] at h
      rcases h with h | ⟨hgood, hfound⟩ | hleft
      · obtain ⟨pre, r, post, rfl, hr⟩ := ih h
        exact ⟨pre, r, post ++ [x], by simp, hr⟩
      · exact ⟨xs, x, [], rfl, .inl ⟨hgood, hfound.reach⟩⟩
      · exact ⟨xs, x, [], rfl, .inr hleft⟩

section Roots

variable [DecidableEq ι]

/-- The state after the searches from the roots `ys`. -/
structure Agrees (g : Graph ι) (ys : List ι) (st : St ι) : Prop where
  accepted : st.accepted = (afterRoots g ys).accepted
  refused : st.refused = (afterRoots g ys).refused
  caused : Caused g st
  log : ∀ p, p ∈ st.log ↔ p ∈ st.accepted ∧ g.emit p = true

variable (hstatic : ∀ l l' x, g.next l x = g.next l' x)

include hstatic

theorem Agrees.step {ys : List ι} (h : Agrees g ys st) {b : Bool}
    (hv : visit g fuel x st = some (b, st')) :
    Agrees g (ys ++ [x]) st' ∧ (b = false ↔ Bad g (afterRoots g ys).accepted x) := by
  obtain ⟨hanswer, hokay, hfailed, hcaused⟩ := visit_leaves hstatic fuel x st b st' h.caused hv
  rw [h.accepted] at hanswer
  refine ⟨⟨?_, ?_, hcaused, fun p => ?_⟩, hanswer⟩
  · ext p
    rw [afterRoots_concat, hokay, h.accepted, h.refused]
    rfl
  · ext y
    rw [afterRoots_concat, hfailed, h.accepted, h.refused]
    rfl
  · have hgrows := (visit_visited g fuel x st b st' hv).grows
    obtain ⟨L, hlog, -, hL⟩ := hgrows.log
    rw [hlog, List.mem_append, h.log, hL]
    constructor
    · rintro (⟨hp, hemit⟩ | ⟨-, hp, hemit⟩)
      · exact ⟨(hokay p).mpr (.inl hp), hemit⟩
      · exact ⟨hp, hemit⟩
    · rintro ⟨hp, hemit⟩
      by_cases hu : st.mark p = .unseen
      · exact .inr ⟨hu, hp, hemit⟩
      · exact .inl ⟨(hgrows.keep p hu).symm.trans hp, hemit⟩

theorem visitRoots_agrees : ∀ (xs ys : List ι) (st st' : St ι) (kept kept' : List ι),
    Agrees g ys st → visitRoots (visit g fuel) xs st kept = some (st', kept') →
    Agrees g (ys ++ xs) st' := by
  intro xs
  induction xs with
  | nil =>
      intro ys st st' kept kept' hst h
      cases h
      rwa [List.append_nil]
  | cons x xs ih =>
      intro ys st st' kept kept' hst h
      rw [visitRoots] at h
      split at h
      · cases h
      · next b mid hv =>
          rw [List.append_cons]
          exact ih (ys ++ [x]) mid st' _ kept' (hst.step hstatic hv).1 h

/-- What is kept: whatever was accepted when a root last succeeded. -/
theorem visitRoots_kept : ∀ (xs ys : List ι) (st st' : St ι) (kept kept' : List ι),
    Agrees g ys st → kept ⊆ st.log → visitRoots (visit g fuel) xs st kept = some (st', kept') →
    ∀ p, p ∈ kept' ↔ p ∈ kept ∨ ∃ pre r post, xs = pre ++ r :: post ∧
      ¬ Bad g (afterRoots g (ys ++ pre)).accepted r ∧ g.emit p = true ∧
      p ∈ (afterRoots g (ys ++ (pre ++ [r]))).accepted := by
  intro xs
  induction xs with
  | nil =>
      intro ys st st' kept kept' _ _ h p
      cases h
      refine ⟨.inl, ?_⟩
      rintro (hp | ⟨pre, r, post, heq, -⟩)
      · exact hp
      · exact absurd heq (by simp)
  | cons x xs ih =>
      intro ys st st' kept kept' hst hkept h p
      rw [visitRoots] at h
      split at h
      · cases h
      · next b mid hv =>
          obtain ⟨hmid, hanswer⟩ := hst.step hstatic hv
          obtain ⟨L, hlog, -⟩ := (visit_visited g fuel x st b mid hv).grows.log
          have hsub : st.log ⊆ mid.log := by
            rw [hlog]
            exact List.subset_append_left _ _
          have hnow : p ∈ mid.log ↔ g.emit p = true ∧
              p ∈ (afterRoots g (ys ++ [x])).accepted := by
            rw [hmid.log, hmid.accepted, and_comm]
          have hlater : (∃ pre r post, x :: xs = pre ++ r :: post ∧
              ¬ Bad g (afterRoots g (ys ++ pre)).accepted r ∧ g.emit p = true ∧
              p ∈ (afterRoots g (ys ++ (pre ++ [r]))).accepted) ↔
              (b = true ∧ p ∈ mid.log) ∨ ∃ pre r post, xs = pre ++ r :: post ∧
                ¬ Bad g (afterRoots g (ys ++ [x] ++ pre)).accepted r ∧ g.emit p = true ∧
                p ∈ (afterRoots g (ys ++ [x] ++ (pre ++ [r]))).accepted := by
            rw [hnow]
            constructor
            · rintro ⟨pre, r, post, heq, hgood, hemit, hp⟩
              cases pre with
              | nil =>
                  obtain ⟨rfl, rfl⟩ := List.cons.inj heq
                  rw [List.append_nil] at hgood
                  refine .inl ⟨?_, hemit, hp⟩
                  exact Bool.eq_true_of_not_eq_false fun hb => hgood (hanswer.mp hb)
              | cons y pre =>
                  obtain ⟨rfl, rfl⟩ := List.cons.inj heq
                  exact .inr ⟨pre, r, post, rfl, by simpa using hgood, hemit, by simpa using hp⟩
            · rintro (⟨hb, hemit, hp⟩ | ⟨pre, r, post, rfl, hgood, hemit, hp⟩)
              · refine ⟨[], x, xs, rfl, ?_, hemit, hp⟩
                rw [List.append_nil, ← hanswer, hb]
                decide
              · exact ⟨x :: pre, r, post, rfl, by simpa using hgood, hemit, by simpa using hp⟩
          rw [hlater]
          cases b with
          | true =>
              rw [if_pos rfl] at h
              rw [ih (ys ++ [x]) mid st' mid.log kept' hmid (List.Subset.refl _) h p, ← or_assoc]
              refine or_congr_left ⟨fun hp => .inr ⟨rfl, hp⟩, ?_⟩
              rintro (hp | ⟨-, hp⟩)
              · exact hsub (hkept hp)
              · exact hp
          | false =>
              rw [if_neg Bool.false_ne_true] at h
              rw [ih (ys ++ [x]) mid st' kept kept' hmid (fun q hq => hsub (hkept hq)) h p]
              exact or_congr_right ⟨.inr, fun h => h.resolve_left fun h => absurd h.1 (by decide)⟩

/-- Everything that is kept is vouched for exactly if what failing roots leave behind is. -/
theorem visitRoots_vouched_iff {xs : List ι} {kept : List ι} (hst : Agrees g [] st)
    (h : visitRoots (visit g fuel) xs st [] = some (st', kept)) :
    (∀ p ∈ kept, Vouched g xs p) ↔ Redeemed g xs := by
  have hkept := visitRoots_kept hstatic xs [] st st' [] kept hst (List.nil_subset _) h
  constructor
  · intro hall pre r mid r' post hxs hbad hgood p hemit hleft
    refine hall p ((hkept p).mpr (.inr ⟨pre ++ r :: mid, r', post, by simp [hxs], hgood, hemit, ?_⟩))
    have hp : p ∈ (afterRoots g (pre ++ [r])).accepted := by
      rw [afterRoots_concat]
      exact .inr (.inr hleft)
    have := accepted_mono g (pre ++ [r]) (mid ++ [r']) hp
    simpa using this
  · intro hred p hp
    obtain hp | ⟨pre, r', post, rfl, hgood, hemit, hp⟩ := (hkept p).mp hp
    · exact absurd hp List.not_mem_nil
    · rw [List.nil_append] at hgood hp
      obtain ⟨pre', r, rest, heq, ⟨hr, hreach⟩ | hleft⟩ := exists_root hp
      · exact ⟨pre', r, rest ++ post, by rw [List.append_cons, heq]; simp, hr, hreach⟩
      · -- the root that left the node stands before the one that succeeds
        rcases List.eq_nil_or_concat rest with rfl | ⟨mid, s, rfl⟩
        · obtain ⟨rfl, hrr⟩ := List.append_inj' heq rfl
          obtain rfl : r' = r := by simpa using hrr
          exact absurd hleft.bad hgood
        · rw [List.concat_eq_append, ← List.cons_append, ← List.append_assoc] at heq
          obtain ⟨rfl, hrr⟩ := List.append_inj' heq rfl
          obtain rfl : r' = s := by simpa using hrr
          exact hred pre' r mid r' post (by simp) hleft.bad hgood p hemit hleft

end Roots

end Search
