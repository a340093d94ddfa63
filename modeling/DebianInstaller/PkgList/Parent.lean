import DebianInstaller.PkgList.Closure

/-!
# The image and its parent

The second call of `getlists` finds the table of the first one. What it does is what it would
have done with an empty table as long as it does not come upon a package with dependencies
that is in the table. When it does, the dependencies of that package are not collected for the
parent, and the driver image repeats them.

So whether the set for the parent is right depends on what the image lists. It is right for
whatever image only if there is nothing to search for: the lists of each type already name
what the listed packages depend on.
-/

namespace DebianInstaller.PkgList

open Lib

variable {S : Finset Text} {driver_for type : Text} {n : ℕ} {s s' : Collected}

namespace Env

variable {env : Env}

/-- The program comes to an end with complete sets for the image and for its parent, and the
set for the parent is the one that is computed when the parent comes first. -/
def Right (env : Env) (type driver_for : Text) : Prop :=
  ∃ n run, env.pkgList n type driver_for = some run ∧ env.Complete type run.image ∧
    ∀ parent ∈ run.parent, env.Complete driver_for parent ∧
      ∃ m first, env.getlists m driver_for ∅ = some first ∧ parent.collect = first.collect ∧
        ∀ p ∈ run.printed, p ∉ first.collect

/-- The lists already name what the listed packages depend on. -/
def ListsClosed (env : Env) (type : Text) : Prop :=
  ∀ p, env.Listed type p → ∀ deplist ∈ env.pkgdeps p, ∃ d ∈ deplist, env.Listed type d

/-- Two image types share no package that has dependencies. -/
def Separate (env : Env) (type driver_for : Text) : Prop :=
  ∀ p, env.Visits type p → env.Visits driver_for p → env.pkgdeps p = []

/-! ## Two calls, one with a larger table -/

/-- The same state with a larger table. -/
def withTable (S : Finset Text) (s : Collected) : Collected :=
  { s with seendeps := s.seendeps ∪ S }

@[simp] theorem withTable_collect (S : Finset Text) (s : Collected) :
    (withTable S s).collect = s.collect := rfl

theorem mem_withTable {p : Text} :
    p ∈ (withTable S s).seendeps ↔ p ∈ s.seendeps ∨ p ∈ S := Finset.mem_union

section Table

variable {P : Text → Prop} {S : Finset Text} (hS : ∀ p, P p → p ∈ S → env.pkgdeps p = [])
  (hP : ∀ q, P q → ∀ deplist ∈ env.pkgdeps q, P (deplist.headD []))

include hS hP

theorem collectdeps_withTable {p : Text} (hp : P p) (h : env.collectdeps n p s = some s') :
    env.collectdeps n p (withTable S s) = some (withTable S s') := by
  induction n generalizing p s s' with
  | zero => cases h
  | succ n ih =>
      by_cases hseen : p ∈ s.seendeps
      · obtain rfl := collectdeps_seen hseen h
        rw [collectdeps_succ, if_pos (mem_withTable.mpr (.inl hseen))]
      · rw [collectdeps_succ, if_neg hseen] at h
        by_cases hpS : p ∈ S
        · rw [hS p hp hpS] at h
          obtain rfl : s.see p = s' := by simpa using h
          rw [collectdeps_succ, if_pos (mem_withTable.mpr (.inr hpS))]
          have hsame : insert p s.seendeps ∪ S = s.seendeps ∪ S := by
            rw [Finset.insert_union, Finset.insert_eq_self.mpr (Finset.mem_union_right _ hpS)]
          simp only [withTable, Collected.see, hsame]
        · have hnot : p ∉ (withTable S s).seendeps := fun hmem =>
            (mem_withTable.mp hmem).elim hseen hpS
          have hsee : (withTable S s).see p = withTable S (s.see p) := by
            simp only [withTable, Collected.see, Finset.insert_union]
          rw [collectdeps_succ, if_neg hnot, hsee]
          refine foldlM_map (fun deplist hd a b hab => ?_) h
          rw [collectAll] at hab ⊢
          split at hab
          · next hlong =>
              obtain rfl := Option.some.inj hab
              rw [if_pos hlong]
              rfl
          · next hlong =>
              rw [if_neg hlong]
              exact ih (hP p hp deplist hd) hab

theorem collectpackage_withTable {line : Text} (hline : ∀ p, env.Names line p → P p)
    (h : env.collectpackage n s line = some s') :
    env.collectpackage n (withTable S s) line = some (withTable S s') := by
  rw [collectpackage] at h ⊢
  cases ha : env.applies line with
  | none =>
      rw [ha] at h
      obtain rfl := Option.some.inj h
      rfl
  | some l =>
      rw [ha] at h
      dsimp only at h ⊢
      cases hx : excluded l with
      | some q =>
          rw [hx] at h
          obtain rfl := Option.some.inj h
          rfl
      | none =>
          rw [hx] at h
          exact collectdeps_withTable hS hP (hline l ⟨ha, hx⟩) h

theorem satisfy_withTable {T : Finset Text} {k : ℕ} (hW : Within env P T s)
    (h : env.satisfy n k s = some s') :
    env.satisfy n k (withTable S s) = some (withTable S s') := by
  induction k generalizing s with
  | zero => cases h
  | succ k ih =>
      cases hs : s.postponed with
      | nil =>
          rw [satisfy_nil hs] at h
          obtain rfl := Option.some.inj h
          exact satisfy_nil (s := withTable S s) hs
      | cons set rest =>
          rw [satisfy_cons hs] at h
          rw [satisfy_cons (s := withTable S s) hs, withTable_collect]
          split at h
          · next hmet =>
              rw [if_pos hmet]
              exact ih (s := { s with postponed := rest }) (hW.pop hs) h
          · next hmet =>
              rw [if_neg hmet]
              obtain ⟨mid, hmid, hrest⟩ := Option.bind_eq_some_iff.mp h
              obtain ⟨q, hq, hd⟩ := hW.posed set (hs ▸ List.mem_cons_self)
              have hhead := hP q hq set hd
              have hW' := collectdeps_within (fun q hq l hl _ => hP q hq l hl) hhead
                ((hW.pop hs).add hhead) hmid
              have hmid' := collectdeps_withTable hS hP hhead hmid
              exact Option.bind_eq_some_iff.mpr ⟨_, hmid', ih hW' hrest⟩

end Table

theorem getlists_withTable (hS : ∀ p, env.Visits type p → p ∈ S → env.pkgdeps p = [])
    (h : env.getlists n type ∅ = some s) : env.getlists n type S = some (withTable S s) := by
  obtain ⟨o, mid, ho, hfold, hs⟩ := getlists_eq_some.mp h
  have hlisted : ∀ line ∈ o.flatMap env.entriesOf, ∀ p, env.Names line p → env.Visits type p :=
    fun line hline p hp => .listed ((mem_entriesOf ho p).mpr ⟨line, hline, hp⟩)
  have hstart : withTable S { seendeps := ∅ } = { seendeps := S } := by
    simp only [withTable, Finset.empty_union]
  refine getlists_eq_some.mpr ⟨o, withTable S mid, ho, ?_, ?_⟩
  · rw [← hstart]
    exact foldlM_map (fun line hline _ _ hab =>
      collectpackage_withTable hS visits_head (hlisted line hline) hab) hfold
  · have hW : Within env (env.Visits type) ∅ mid :=
      fold_within (fun q hq l hl _ => visits_head q hq l hl) hlisted (within_start _ ∅) hfold
    exact satisfy_withTable hS visits_head hW hs

/-! ## Lists that are closed already -/

theorem getlists_of_closed (hclosed : env.ListsClosed type) (h : env.getlists n type S = some s)
    (p : Text) : p ∈ s.collect ↔ env.Listed type p := by
  refine ⟨fun hp => ?_, (getlists_result h).listed p⟩
  obtain ⟨o, mid, ho, hfold, hs⟩ := getlists_eq_some.mp h
  have hsingle : ∀ q, env.Listed type q → ∀ deplist ∈ env.pkgdeps q, deplist.length ≤ 1 →
      env.Listed type (deplist.headD []) := by
    intro q hq deplist hd hlen
    obtain ⟨d, hmem, hlisted⟩ := hclosed q hq deplist hd
    obtain rfl : deplist = [d] := by
      cases deplist with
      | nil => cases hmem
      | cons e l =>
          rw [List.length_cons] at hlen
          obtain rfl : l = [] := List.length_eq_zero_iff.mp (by omega)
          rw [List.mem_singleton.mp hmem]
    exact hlisted
  have hW : Within env (env.Listed type) S mid :=
    fold_within hsingle
      (fun line hline q hq => (mem_entriesOf ho q).mpr ⟨line, hline, hq⟩) (within_start _ S) hfold
  have hmet : ∀ deplist ∈ mid.postponed, ∃ d ∈ deplist, d ∈ mid.collect := by
    intro deplist hd
    obtain ⟨q, hq, hdeps⟩ := hW.posed deplist hd
    obtain ⟨d, hmem, hlisted⟩ := hclosed q hq deplist hdeps
    obtain ⟨line, hline, hn⟩ := (mem_entriesOf ho d).mp hlisted
    exact ⟨d, hmem, (fold_grows hfold).2 line hline d hn⟩
  rw [satisfy_met hmet hs] at hp
  exact hW.collect p hp

theorem getlists_of_seen (hS : ∀ p, env.Listed type p → p ∈ S)
    (h : env.getlists n type S = some s) : ∀ p ∈ s.collect, env.Listed type p := by
  obtain ⟨o, mid, ho, hfold, hs⟩ := getlists_eq_some.mp h
  let I : Collected → Prop := fun s =>
    s.seendeps = S ∧ s.postponed = [] ∧ ∀ p ∈ s.collect, env.Listed type p
  have hmid : I mid := by
    refine foldlM_inv (fun line hline a b ha hab => ?_) ⟨rfl, rfl, by simp⟩ hfold
    rcases collectpackage_cases n a line with ⟨he, -⟩ | ⟨q, he, -⟩ | ⟨q, hq, he⟩
    · obtain rfl := Option.some.inj (he.symm.trans hab)
      exact ha
    · obtain rfl := Option.some.inj (he.symm.trans hab)
      exact ha
    · have hlisted := (mem_entriesOf ho q).mpr ⟨line, hline, hq⟩
      have hseen : q ∈ (a.add q).seendeps := ha.1 ▸ hS q hlisted
      obtain rfl := collectdeps_seen hseen (he.symm.trans hab)
      refine ⟨ha.1, ha.2.1, fun p hp => ?_⟩
      rcases Finset.mem_insert.mp hp with rfl | hp
      · exact hlisted
      · exact ha.2.2 p hp
  intro p hp
  rw [satisfy_met (by rw [hmid.2.1]; simp) hs] at hp
  exact hmid.2.2 p hp

/-! ## A run of the program -/

theorem pkgList_eq_some {run : Run} :
    env.pkgList n type driver_for = some run ↔
      env.getlists n type ∅ = some run.image ∧
        (driver_for = [] ∧ run.parent = none ∨
          driver_for ≠ [] ∧ ∃ parent, run.parent = some parent ∧
            env.getlists n driver_for run.image.seendeps = some parent) := by
  rw [pkgList]
  constructor
  · intro h
    obtain ⟨image, himage, h⟩ := Option.bind_eq_some_iff.mp h
    split at h
    · next hd =>
        obtain rfl := Option.some.inj h
        exact ⟨himage, .inl ⟨hd, rfl⟩⟩
    · next hd =>
        obtain ⟨parent, hparent, h⟩ := Option.bind_eq_some_iff.mp h
        obtain rfl := Option.some.inj h
        exact ⟨himage, .inr ⟨hd, parent, rfl, hparent⟩⟩
  · obtain ⟨image, parent?⟩ := run
    rintro ⟨himage, ⟨hd, hnone⟩ | ⟨hd, parent, hsome, hparent⟩⟩
    · obtain rfl : parent? = none := hnone
      exact Option.bind_eq_some_iff.mpr ⟨image, himage, by rw [if_pos hd]; rfl⟩
    · obtain rfl : parent? = some parent := hsome
      refine Option.bind_eq_some_iff.mpr ⟨image, himage, ?_⟩
      rw [if_neg hd]
      exact Option.bind_eq_some_iff.mpr ⟨parent, hparent, rfl⟩

theorem Right.includesEnd (hfin : ∀ type, {p | env.Visits type p ∧ env.pkgdeps p ≠ []}.Finite)
    (h : env.Right type driver_for) :
    env.IncludesEnd type ∧ (driver_for ≠ [] → env.IncludesEnd driver_for) := by
  obtain ⟨n, run, hrun, -⟩ := h
  obtain ⟨himage, hparent⟩ := pkgList_eq_some.mp hrun
  refine ⟨(getlists_isSome_iff (hfin type) ∅).mp ⟨n, _, himage⟩, fun hd => ?_⟩
  rcases hparent with ⟨hnil, -⟩ | ⟨-, parent, -, hparent⟩
  · exact absurd hnil hd
  · exact (getlists_isSome_iff (hfin driver_for) _).mp ⟨n, parent, hparent⟩

theorem right_of_same (hfin : ∀ type, {p | env.Visits type p ∧ env.pkgdeps p ≠ []}.Finite)
    (htype : env.IncludesEnd type)
    (hdriver : driver_for ≠ [] → env.IncludesEnd driver_for)
    (hsame : driver_for ≠ [] → ∀ n image first, env.getlists n type ∅ = some image →
      env.getlists n driver_for ∅ = some first → ∃ m parent,
        env.getlists m driver_for image.seendeps = some parent ∧ parent.collect = first.collect) :
    env.Right type driver_for := by
  obtain ⟨n, image, himage⟩ := (getlists_isSome_iff (hfin type) ∅).mpr htype
  by_cases hd : driver_for = []
  · refine ⟨n, ⟨image, none⟩, pkgList_eq_some.mpr ⟨himage, .inl ⟨hd, rfl⟩⟩,
      getlists_complete himage, ?_⟩
    rintro parent ⟨⟩
  · obtain ⟨m, first, hfirst⟩ := (getlists_isSome_iff (hfin driver_for) ∅).mpr (hdriver hd)
    obtain ⟨k, parent, hparent, heq⟩ := hsame hd (max n m) image first
      (getlists_mono (le_max_left n m) himage) (getlists_mono (le_max_right n m) hfirst)
    refine ⟨max n k, ⟨image, some parent⟩, pkgList_eq_some.mpr
      ⟨getlists_mono (le_max_left n k) himage, .inr ⟨hd, parent, rfl,
        getlists_mono (le_max_right n k) hparent⟩⟩, getlists_complete himage, ?_⟩
    intro parent' hp
    obtain rfl : parent = parent' := Option.some.inj hp
    have hc := getlists_complete hfirst
    refine ⟨⟨heq ▸ hc.listed, heq ▸ hc.closed⟩, m, first, hfirst, heq, fun p hp => ?_⟩
    rw [← heq]
    exact (Finset.mem_filter.mp hp).2.2 parent rfl

theorem initialLists_nil_subset (type : Text) :
    env.initialLists [] ⊆ env.initialLists type := by
  have hnil : env.initialLists [] =
      ["pkg-lists/local", "pkg-lists/exclude"].reverse := by
    rw [initialLists]
    simp [subtypes, List.rdropWhile]
  rw [hnil, initialLists, List.reverse_append]
  exact List.subset_append_right _ _

/-- The sets for an image and for its parent are right, whatever these are, exactly if the
lists of each type come to an end and are closed already; and for one image and its parent,
if they share no package with dependencies, exactly if their lists come to an end. -/
theorem pkgList_right_iff (env : Env)
    (hfin : ∀ type, {p | env.Visits type p ∧ env.pkgdeps p ≠ []}.Finite) :
    ((∀ type driver_for, env.Right type driver_for) ↔
        ∀ type, type ≠ [] → env.IncludesEnd type ∧ env.ListsClosed type) ∧
      ∀ type driver_for, (driver_for ≠ [] → env.Separate type driver_for) →
        (env.Right type driver_for ↔
          env.IncludesEnd type ∧ (driver_for ≠ [] → env.IncludesEnd driver_for)) := by
  refine ⟨⟨fun hall type hne => ?_, fun hall type driver_for => ?_⟩,
    fun type driver_for hsep => ⟨Right.includesEnd hfin, fun ⟨htype, hdriver⟩ => ?_⟩⟩
  · -- an image that is its own parent: the table already has what is listed
    have hright := hall type type
    refine ⟨(hright.includesEnd hfin).1, fun p hp deplist hd => ?_⟩
    obtain ⟨n, run, hrun, himage, hparent⟩ := hright
    obtain ⟨hget, ⟨hnil, -⟩ | ⟨-, parent, hsome, hget'⟩⟩ := pkgList_eq_some.mp hrun
    · exact absurd hnil hne
    · obtain ⟨hc, -⟩ := hparent parent hsome
      obtain ⟨d, hmem, hd'⟩ := hc.closed p (hc.listed p hp) deplist hd
      have hseen : ∀ q, env.Listed type q → q ∈ run.image.seendeps := fun q hq =>
        (getlists_result hget).seen q (himage.listed q hq)
      exact ⟨d, hmem, getlists_of_seen hseen hget' d hd'⟩
  · have htype : env.IncludesEnd type := by
      by_cases hne : type = []
      · subst hne
        exact fun list hl => (hall ['x'] (by simp)).1 list (initialLists_nil_subset ['x'] hl)
      · exact (hall type hne).1
    refine right_of_same hfin htype (fun hne => (hall driver_for hne).1)
      fun hne n image first _ hfirst => ?_
    have hclosed := (hall driver_for hne).2
    obtain ⟨m, parent, hparent⟩ :=
      (getlists_isSome_iff (hfin driver_for) image.seendeps).mpr (hall driver_for hne).1
    refine ⟨m, parent, hparent, Finset.ext fun p => ?_⟩
    rw [getlists_of_closed hclosed hparent, getlists_of_closed hclosed hfirst]
  · refine right_of_same hfin htype hdriver fun hne n image first himage hfirst => ?_
    refine ⟨n, withTable image.seendeps first, getlists_withTable (fun p hp hmem => ?_) hfirst, rfl⟩
    rcases (getlists_result himage).visits p hmem with hempty | hvisits
    · exact absurd hempty (Finset.notMem_empty p)
    · exact hsep hne p hvisits hp

/-! ## A package of both images, and a list that includes itself -/

/-- The files with these lists, and a cache where each package has these dependencies. -/
def plain (lists depends : List (Text × Text)) : Env where
  file list := lists.lookup list
  apt_cache params := (depends.lookup (params.drop 8)).getD []
  deb_host_arch := "i386"
  deb_host_arch_os := "linux"
  kernel_flavour := "486"
  kernel_major := "2.6"
  sub_arch := []
  kernel_versions := ["2.6.18"]

/-- Two image types that list the same package, and one that lists what it depends on. -/
def shared : Env :=
  plain [("pkg-lists/a/common", "ext3\n"), ("pkg-lists/b/common", "ext3\n"),
      ("pkg-lists/c/common", "kernel\n")]
    [("ext3", "ext3\n  Depends: kernel\n")]

/-- A list that includes itself. -/
def circular : Env :=
  plain [("pkg-lists/local", "#include \"local\"\n")] []

theorem shared_eq_of_ne_nil {p : Text} (hp : shared.pkgdeps p ≠ []) : p = "ext3" := by
  by_contra hne
  have hnone : shared.apt_cache ("depends " ++ p) = [] := by
    change (List.lookup p [("ext3", _)]).getD [] = []
    rw [List.lookup_cons, beq_eq_false_iff_ne.mpr hne]
    rfl
  exact hp (by rw [pkgdeps, hnone]; rfl)

theorem shared_finite (type : Text) :
    {p | shared.Visits type p ∧ shared.pkgdeps p ≠ []}.Finite :=
  (Set.finite_singleton "ext3".toList).subset fun _ hp => shared_eq_of_ne_nil hp.2

theorem circular_finite (type : Text) :
    {p | circular.Visits type p ∧ circular.pkgdeps p ≠ []}.Finite :=
  Set.finite_empty.subset fun _ hp => hp.2 rfl

theorem shared_visits {p : Text} (h : shared.Visits "c" p) : p = "kernel" := by
  obtain ⟨s, hs, hcollect⟩ : ∃ s, shared.getlists 9 "c" ∅ = some s ∧
      s.collect = {"kernel".toList} := ⟨_, rfl, by decide⟩
  induction h with
  | listed h =>
      have hmem := (getlists_complete hs).listed _ h
      rw [hcollect] at hmem
      exact Finset.mem_singleton.mp hmem
  | step _ hd ih =>
      subst ih
      cases hd

theorem pkgList_right_apart : shared.Right "a" "c" := by
  have hend : ∀ type ∈ ["a".toList, "c".toList], shared.IncludesEnd type := by
    intro type ht list hlist
    have hall : ∀ type ∈ ["a".toList, "c".toList], ∀ list ∈ shared.initialLists type,
        shared.includes list = [] := by decide
    exact .intro _ fun x hx => by rw [hall type ht list hlist] at hx; cases hx
  refine ((pkgList_right_iff shared shared_finite).2 "a" "c" fun _ p _ hp => ?_).mpr
    ⟨hend _ (by simp), fun _ => hend _ (by simp)⟩
  rw [shared_visits hp]
  decide

/-- A driver image repeats what a package of both images depends on, and a list that includes
itself is read forever. -/
theorem pkgList_not_right :
    ¬ shared.Right "a" "b" ∧ ¬ circular.Right "a" [] := by
  refine ⟨?_, fun h => ?_⟩
  · rintro ⟨n, run, hrun, -, hparent⟩
    obtain ⟨himage, ⟨hnil, -⟩ | ⟨-, parent, hsome, hget⟩⟩ := pkgList_eq_some.mp hrun
    · cases hnil
    · obtain ⟨-, m, first, hfirst, hsame, -⟩ := hparent parent hsome
      let both : Finset Text := {"kernel".toList, "ext3".toList}
      have himage' : shared.getlists 9 "a" ∅ =
          some { collect := both, seendeps := both } := by decide
      have hfirst' : shared.getlists 9 "b" ∅ =
          some { collect := both, seendeps := both } := by decide
      have hparent' : shared.getlists 9 "b" both =
          some { collect := {"ext3".toList}, seendeps := both } := by decide
      rw [getlists_unique himage himage'] at hget
      rw [getlists_unique hget hparent', getlists_unique hfirst hfirst'] at hsame
      revert hsame
      decide
  · have hacc := (h.includesEnd circular_finite).1 "pkg-lists/local" (by decide)
    have hself : "pkg-lists/local".toList ∈ circular.includes "pkg-lists/local".toList := by
      decide
    have hno : ∀ x, Acc (fun b a => b ∈ circular.includes a) x →
        x ≠ "pkg-lists/local" := by
      intro x hx
      induction hx with
      | intro x _ ih => rintro rfl; exact ih _ hself rfl
    exact hno _ hacc rfl

end Env

end DebianInstaller.PkgList
