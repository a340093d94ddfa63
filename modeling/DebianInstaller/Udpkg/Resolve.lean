import DebianInstaller.Lib.Walk
import DebianInstaller.Udpkg.Depends
import DebianInstaller.Udpkg.Merge

/-!
# The order of installation

`depends_resolve` notes for each package which others require it, and `depends_sort` puts the
packages in an order by a depth-first search from the packages to those that require them. The
order is made of the same links as the list that the search goes through: the link of a package
is set when the package is finished. So the loop over the list goes on behind the first package
in the list that it has made from it, and comes to no package that does not lead back to it.

A package is its place in the list. It has a name: its control file has been read.
-/

namespace DebianInstaller.Udpkg

open Text

/-- A package with a name. -/
abbrev Named := { p : PackageT // p.package.isSome = true }

def Named.name (p : Named) : Text := p.1.package.get p.2

/-- A package is taken for what a name asks for. -/
def Named.answers (chk : Named) (name : Text) : Bool :=
  chk.name = name || chk.1.provides.elim false fun provides => name.isPrefixOf provides

/-- The package of a name is installed. -/
def installed (tree : Tree) (name : Text) : Bool :=
  (tree name).elim false fun status => status.flag = some .ok && status.state = some .installed

/-- `requiredfor` of each of the packages. -/
abbrev Required (n : ℕ) := Fin n → List (Fin n)

section Resolve

variable (tree : Tree) (pkgs : List Named)

/-- What `depends_resolve` does with one name that a package depends on. -/
def requireOne (pkg : Fin pkgs.length) (required : Required pkgs.length) (name : Text) :
    Option (Required pkgs.length) :=
  if installed tree name then some required
  else
    match pkgs.findFinIdx? (·.answers name) with
    | none => none
    | some chk =>
        if dependsMax ≤ (required chk).length then none
        else if chk ≠ pkg then some (Function.update required chk (required chk ++ [pkg]))
        else some required

/-- The loop over the packages. -/
def requireAll : List (Fin pkgs.length) → List (Option ℕ) → Required pkgs.length →
    Option (Required pkgs.length)
  | [], _, required => some required
  | pkg :: rest, vec, required => do
      let s ← dependsSplit vec pkgs[pkg].1.depends
      let required ← s.names.foldlM (requireOne tree pkgs pkg) required
      requireAll rest s.vec required

end Resolve

/-! ## `depends_sort` -/

/-- `COLOR_…` -/
inductive Color where
  | white
  | gray
  | black
  deriving DecidableEq

/-- The links and the colors of the packages, and the list that is made. -/
structure Chain (n : ℕ) where
  next : Fin n → Option (Fin n)
  color : Fin n → Color
  ordered : Option (Fin n)

section Chain

variable {n : ℕ}

def Chain.paint (st : Chain n) (pkg : Fin n) (c : Color) : Chain n :=
  { st with color := Function.update st.color pkg c }

/-- The package is put before the others. -/
def Chain.push (st : Chain n) (pkg : Fin n) : Chain n :=
  { st with next := Function.update st.next pkg st.ordered, ordered := some pkg }

/-- `depends_sort_visit`, to a depth. -/
def dependsSortVisit (required : Required n) : ℕ → Fin n → Chain n → Option (Chain n)
  | 0, _, _ => none
  | depth + 1, pkg, st => do
      let st ← (required pkg).foldlM (fun st other =>
        if st.color other = .white then dependsSortVisit required depth other st else some st)
        (st.paint pkg .gray)
      return (st.push pkg).paint pkg .black

/-- The first loop of `depends_sort`, for a number of rounds. -/
def whiten : ℕ → Option (Fin n) → Chain n → Option (Chain n)
  | _, none, st => some st
  | 0, some _, _ => none
  | rounds + 1, some pkg, st => whiten rounds (st.next pkg) (st.paint pkg .white)

/-- The second loop. -/
def visitEach (required : Required n) : ℕ → Option (Fin n) → Chain n → Option (Chain n)
  | _, none, st => some st
  | 0, some _, _ => none
  | rounds + 1, some pkg, st => do
      let st ← (if st.color pkg = .white then dependsSortVisit required (n + 1) pkg st else some st)
      visitEach required rounds (st.next pkg) st

/-- The first package of the list. -/
def firstOf (n : ℕ) : Option (Fin n) := if h : 0 < n then some ⟨0, h⟩ else none

/-- The packages in the order in which they were given. -/
def givenList (color : Fin n → Color) : Chain n where
  next pkg := if h : pkg.1 + 1 < n then some ⟨pkg.1 + 1, h⟩ else none
  color := color
  ordered := none

/-- `depends_sort` -/
def dependsSort (required : Required n) (color : Fin n → Color) : Option (Chain n) := do
  let st ← whiten n (firstOf n) (givenList color)
  visitEach required n (firstOf n) st

end Chain

/-- `depends_resolve`; nothing where it returns no list. -/
def dependsResolve (vec : List (Option ℕ)) (tree : Tree) (pkgs : List Named)
    (color : Fin pkgs.length → Color) : Option (Chain pkgs.length) := do
  let required ← requireAll tree pkgs (List.finRange pkgs.length) vec fun _ => []
  dependsSort required color

/-! ## What the list is to be -/

/-- The packages of a list, along the links. -/
def Linked {n : ℕ} (next : Fin n → Option (Fin n)) : Option (Fin n) → List (Fin n) → Prop
  | p, [] => p = none
  | p, pkg :: L => p = some pkg ∧ Linked next (next pkg) L

/-- One package satisfies an element of the other one's `Depends`. -/
def Satisfies (pkgs : List Named) (q p : Fin pkgs.length) : Prop :=
  q ≠ p ∧ ∃ depends, pkgs[p].1.depends = some depends ∧
    ∃ name ∈ dependsNames depends, pkgs[q].answers name = true

/-- No package depends on itself over others. -/
def AcyclicDepends (pkgs : List Named) : Prop :=
  ∀ p, ¬ Relation.TransGen (Satisfies pkgs) p p

/-- All packages are in the list, once each, and those that depend on others come later. -/
def SortedOk (pkgs : List Named) (st : Chain pkgs.length) : Prop :=
  ∃ L, Linked st.next st.ordered L ∧ (∀ p, p ∈ L) ∧ L.Nodup ∧
    (AcyclicDepends pkgs → ∀ q p, Satisfies pkgs q p → [q, p].Sublist L)

/-! ## The loops over the links -/

section Loops

variable {n : ℕ} {next next' : Fin n → Option (Fin n)}

theorem Linked.congr {p : Option (Fin n)} {L : List (Fin n)} (h : Linked next p L)
    (hnext : ∀ q ∈ L, next' q = next q) : Linked next' p L := by
  induction L generalizing p with
  | nil => exact h
  | cons pkg L ih =>
      obtain ⟨hp, hrest⟩ := h
      obtain ⟨hpkg, htail⟩ := List.forall_mem_cons.mp hnext
      exact ⟨hp, ih (hpkg ▸ hrest) htail⟩

theorem Linked.unique {p : Option (Fin n)} {L L' : List (Fin n)} (h : Linked next p L)
    (h' : Linked next p L') : L = L' := by
  induction L generalizing p L' with
  | nil =>
      cases L' with
      | nil => rfl
      | cons pkg L' =>
          have hnone : p = none := h
          rw [hnone] at h'
          cases h'.1
  | cons pkg L ih =>
      cases L' with
      | nil =>
          have hnone : p = none := h'
          rw [hnone] at h
          cases h.1
      | cons pkg' L' =>
          obtain rfl : pkg = pkg' := Option.some.inj (h.1.symm.trans h'.1)
          rw [ih h.2 h'.2]

theorem whiten_givenList (color : Fin n → Color) :
    whiten n (firstOf n) (givenList color) = some (givenList fun _ => .white) := by
  have hfrom (rounds k : ℕ) (hk : k + rounds = n) (color : Fin n → Color)
      (hcolor : ∀ p : Fin n, p.1 < k → color p = .white) :
      whiten rounds (if h : k < n then some ⟨k, h⟩ else none) (givenList color) =
        some (givenList fun _ => .white) := by
    induction rounds generalizing k color with
    | zero =>
        have hall : color = fun _ => .white := funext fun p => hcolor p (by omega)
        rw [dif_neg (by omega), whiten, hall]
    | succ rounds ih =>
        rw [dif_pos (by omega : k < n), whiten]
        refine ih (k + 1) (by omega) (Function.update color ⟨k, by omega⟩ .white) fun p hp => ?_
        by_cases hpk : p = ⟨k, by omega⟩
        · rw [hpk, Function.update_self]
        · rw [Function.update_of_ne hpk]
          refine hcolor p ?_
          have hne : p.1 ≠ k := fun heq => hpk (Fin.ext heq)
          omega
  exact hfrom n 0 (Nat.zero_add n) color fun p hp => absurd hp (Nat.not_lt_zero _)

/-- The search of the links is a search of the graph. -/
structure Follows (st : Chain n) (s : Search.St (Fin n)) : Prop where
  color : ∀ p, st.color p = .white ↔ s.mark p = .unseen
  linked : Linked st.next st.ordered s.log.reverse
  logged : ∀ p ∈ s.log, s.mark p ≠ .unseen

variable {required : Required n}

theorem Follows.enter {st : Chain n} {s : Search.St (Fin n)} (h : Follows st s) (pkg : Fin n) :
    Follows (st.paint pkg .gray) (s.set pkg .okay) := by
  refine ⟨fun p => ?_, h.linked, fun p hp => ?_⟩
  · by_cases hp : p = pkg
    · subst hp
      rw [Search.St.set_mark_self]
      show Function.update st.color p Color.gray p = .white ↔ _
      rw [Function.update_self]
      decide
    · rw [Search.St.set_mark_of_ne s _ hp]
      show Function.update st.color pkg Color.gray p = .white ↔ _
      rw [Function.update_of_ne hp]
      exact h.color p
  · by_cases hpkg : p = pkg
    · rw [hpkg, Search.St.set_mark_self]
      decide
    · rw [Search.St.set_mark_of_ne s _ hpkg]
      exact h.logged p hp

theorem Follows.leave (required : Required n) {st : Chain n} {s : Search.St (Fin n)}
    (h : Follows st s) {pkg : Fin n} (hmark : s.mark pkg ≠ .unseen) (hlog : pkg ∉ s.log) :
    Follows ((st.push pkg).paint pkg .black) (s.finish (Search.plain required) pkg) := by
  refine ⟨fun p => ?_, ?_, fun p hp => ?_⟩
  · rw [Search.St.finish_mark]
    by_cases hp : p = pkg
    · subst hp
      show Function.update st.color p Color.black p = .white ↔ _
      rw [Function.update_self]
      exact ⟨fun hwhite => absurd hwhite (by decide), fun hunseen => absurd hunseen hmark⟩
    · show Function.update st.color pkg Color.black p = .white ↔ _
      rw [Function.update_of_ne hp]
      exact h.color p
  · show Linked (Function.update st.next pkg st.ordered) (some pkg) (s.log ++ [pkg]).reverse
    rw [List.reverse_append]
    refine ⟨rfl, ?_⟩
    rw [Function.update_self]
    refine h.linked.congr fun q hq => Function.update_of_ne ?_ _ _
    intro heq
    exact hlog (heq ▸ List.mem_reverse.mp hq)
  · rw [Search.St.finish_mark]
    rcases List.mem_append.mp (hp : p ∈ s.log ++ [pkg]) with hp | hp
    · exact h.logged p hp
    · rw [List.mem_singleton.mp hp]
      exact hmark

theorem visit_log {depth : ℕ} {pkg : Fin n} {s s' : Search.St (Fin n)} {b : Bool}
    (hunseen : s.mark pkg = .unseen) (hfail : s.NoFail)
    (hrun : Search.visit (Search.plain required) depth pkg s = some (b, s')) :
    ∃ log, s'.log = log ++ [pkg] := by
  cases depth with
  | zero => cases hrun
  | succ depth =>
      rcases Search.visit_cases hrun with ⟨hseen, -⟩ | ⟨-, hdead, -⟩ | ⟨-, -, mid, hmid, heq⟩
      · exact absurd hunseen hseen
      · cases hdead
      · obtain ⟨rfl, -⟩ := Search.visit_alive (fun _ => rfl) _ pkg s b s' hfail hrun
        subst heq
        exact ⟨mid.log, rfl⟩

/-- `depends_sort_visit` goes where the search goes. -/
theorem visit_follows (depth : ℕ) {pkg : Fin n} {s s' : Search.St (Fin n)} {b : Bool}
    {st : Chain n} (hunseen : s.mark pkg = .unseen) (hfail : s.NoFail) (h : Follows st s)
    (hrun : Search.visit (Search.plain required) depth pkg s = some (b, s')) :
    ∃ st', dependsSortVisit required depth pkg st = some st' ∧ Follows st' s' := by
  induction depth generalizing pkg s s' b st with
  | zero => cases hrun
  | succ depth ih =>
      have hall (others : List (Fin n)) {s s' : Search.St (Fin n)} {b : Bool} {st : Chain n}
          (hfail : s.NoFail) (h : Follows st s)
          (hrun : Search.visitAll (Search.visit (Search.plain required) depth) others s =
            some (b, s')) :
          ∃ st', others.foldlM (fun st other => if st.color other = .white then
              dependsSortVisit required depth other st else some st) st = some st' ∧
            Follows st' s' := by
        induction others generalizing s st with
        | nil =>
            cases hrun
            exact ⟨st, rfl, h⟩
        | cons other others ihothers =>
            rw [Search.visitAll] at hrun
            split at hrun
            · cases hrun
            · next mid hmid =>
                have halive := Search.visit_alive (fun _ => rfl) depth other s _ mid hfail hmid
                exact absurd halive.1 (by decide)
            · next mid hmid =>
                have halive := Search.visit_alive (fun _ => rfl) depth other s _ mid hfail hmid
                rw [List.foldlM_cons]
                by_cases hwhite : st.color other = .white
                · obtain ⟨st₁, hst₁, hfollows⟩ := ih ((h.color other).mp hwhite) hfail h hmid
                  rw [if_pos hwhite, hst₁]
                  exact ihothers halive.2 hfollows hrun
                · have hseen : s.mark other ≠ .unseen := fun hm => hwhite ((h.color other).mpr hm)
                  have hsame : mid = s := by
                    cases depth with
                    | zero => cases hmid
                    | succ depth =>
                        rw [Search.visit_seen hseen] at hmid
                        exact (congrArg Prod.snd (Option.some.inj hmid)).symm
                  rw [if_neg hwhite]
                  exact ihothers halive.2 (hsame ▸ h) hrun
      rcases Search.visit_cases hrun with ⟨hseen, -⟩ | ⟨-, hdead, -⟩ | ⟨-, -, mid, hmid, heq⟩
      · exact absurd hunseen hseen
      · cases hdead
      · obtain ⟨rfl, -⟩ := Search.visit_alive (fun _ => rfl) _ pkg s b s' hfail hrun
        subst heq
        have hset : (s.set pkg .okay).NoFail := by
          intro p
          by_cases hp : p = pkg
          · rw [hp, Search.St.set_mark_self]
            decide
          · rw [Search.St.set_mark_of_ne s _ hp]
            exact hfail p
        obtain ⟨st₁, hst₁, hfollows⟩ := hall (required pkg) hset (h.enter pkg) hmid
        obtain ⟨hgrows, -⟩ := Search.visitAll_grows (Search.visit_visited _ depth) _ _ _ _ hmid
        have hmark : mid.mark pkg ≠ .unseen := by
          have hself : (s.set pkg .okay).mark pkg ≠ .unseen := by
            rw [Search.St.set_mark_self]
            decide
          rw [hgrows.keep pkg hself]
          exact hself
        have hlog : pkg ∉ mid.log := by
          obtain ⟨L, hL, -, hmem⟩ := hgrows.log
          rw [hL, List.mem_append, hmem, Search.St.set_mark_self]
          rintro (hold | ⟨hnew, -⟩)
          · exact h.logged pkg hold hunseen
          · cases hnew
        refine ⟨_, ?_, hfollows.leave required hmark hlog⟩
        rw [dependsSortVisit, hst₁]
        rfl

theorem visitEach_visited {rounds : ℕ} {p : Option (Fin n)} {st : Chain n} {L : List (Fin n)}
    (h : Linked st.next p L) (hL : ∀ q ∈ L, st.color q ≠ .white) (hlength : L.length ≤ rounds) :
    visitEach required rounds p st = some st := by
  induction L generalizing rounds p with
  | nil =>
      obtain rfl : p = none := h
      rw [visitEach]
  | cons pkg L ih =>
      obtain ⟨rfl, hrest⟩ := h
      obtain ⟨hpkg, htail⟩ := List.forall_mem_cons.mp hL
      obtain ⟨rounds, rfl⟩ := Nat.exists_eq_succ_of_ne_zero (Nat.ne_of_gt
        (Nat.lt_of_lt_of_le (Nat.succ_pos _) hlength))
      rw [visitEach, if_neg hpkg]
      exact ih hrest htail (Nat.le_of_succ_le_succ hlength)

theorem dependsSort_spec (required : Required n) (color : Fin n → Color) {first : Fin n}
    (hfirst : first.1 = 0) :
    ∃ st s, dependsSort required color = some st ∧
      Search.visit (Search.plain required) (n + 1) first (Search.start (Fin n)) = some (true, s) ∧
      Linked st.next st.ordered s.log.reverse := by
  have hpos : 0 < n := Nat.lt_of_le_of_lt (Nat.zero_le _) first.2
  have hfirstOf : firstOf n = some first := by
    rw [firstOf, dif_pos hpos]
    exact congrArg some (Fin.ext hfirst.symm)
  have hcard : (Search.start (Fin n)).unseen.card < n + 1 := by
    refine Nat.lt_succ_of_le ((Finset.card_le_univ _).trans ?_)
    rw [Fintype.card_fin]
  obtain ⟨b, s, hrun, -⟩ := Search.visit_isSome (Search.plain required) (n + 1) first _ hcard
  obtain ⟨rfl, hnodup, -, hunseen⟩ := Search.start_visit hrun
  have hbegin : Follows (givenList fun _ : Fin n => Color.white) (Search.start (Fin n)) :=
    ⟨fun p => ⟨fun _ => rfl, fun _ => rfl⟩, rfl, fun p hp => by cases hp⟩
  have hfail : (Search.start (Fin n)).NoFail := (Search.start_open required).noFail
  obtain ⟨st, hst, hfollows⟩ := visit_follows (n + 1) (rfl : _ = Search.Mark.unseen) hfail hbegin
    hrun
  refine ⟨st, s, ?_, hrun, hfollows.linked⟩
  obtain ⟨log, hlog⟩ := visit_log (rfl : _ = Search.Mark.unseen) hfail hrun
  have hlinked := hfollows.linked
  rw [hlog, List.reverse_append] at hlinked
  obtain ⟨hordered, hrest⟩ := hlinked
  have hlength : log.reverse.length ≤ n - 1 := by
    have hle := (hlog ▸ hnodup).length_le_card
    rw [Fintype.card_fin, List.length_append, List.length_singleton] at hle
    rw [List.length_reverse]
    omega
  have hcolor : ∀ q ∈ log.reverse, st.color q ≠ .white := by
    intro q hq hwhite
    refine (hunseen q).mp ((hfollows.color q).mp hwhite) ?_
    rw [hlog]
    exact List.mem_append_left _ (List.mem_reverse.mp hq)
  obtain ⟨rounds, rfl⟩ := Nat.exists_eq_succ_of_ne_zero (Nat.ne_of_gt hpos)
  rw [dependsSort, whiten_givenList, Option.bind_eq_bind, Option.bind_some, hfirstOf, visitEach]
  have hwhite : (givenList fun _ : Fin (rounds + 1) => Color.white).color first = .white := rfl
  rw [if_pos hwhite, hst]
  exact visitEach_visited hrest hcolor hlength

end Loops

/-! ## Who requires whom -/

section Require

variable (tree : Tree) (pkgs : List Named)

/-- The packages of the list that some names ask for: of those that are not installed, each asks
for the first that answers. -/
def askedBy (pkg : Fin pkgs.length) (names : List Text) : List (Fin pkgs.length) :=
  ((names.filter fun name => !installed tree name).filterMap fun name =>
    pkgs.findFinIdx? (·.answers name)).filter (· ≠ pkg)

/-- The packages that require another, in the order of the list. -/
def requiredFor (chk : Fin pkgs.length) : List (Fin pkgs.length) :=
  (List.finRange pkgs.length).flatMap fun pkg =>
    ((askedBy tree pkgs pkg (readNames pkgs[pkg].1.depends)).filter (· = chk)).map fun _ => pkg

variable {tree pkgs}

theorem requireOne_eq {pkg : Fin pkgs.length} {names : List Text}
    {required required' : Required pkgs.length}
    (h : names.foldlM (requireOne tree pkgs pkg) required = some required')
    (chk : Fin pkgs.length) :
    required' chk = required chk ++
      ((askedBy tree pkgs pkg names).filter (· = chk)).map fun _ => pkg := by
  induction names generalizing required with
  | nil =>
      obtain rfl : required = required' := Option.some.inj h
      exact (List.append_nil _).symm
  | cons name names ih =>
      rw [List.foldlM_cons] at h
      obtain ⟨mid, hmid, hrest⟩ := Option.bind_eq_some_iff.mp h
      rw [ih hrest]
      unfold requireOne at hmid
      by_cases hinstalled : installed tree name = true
      · rw [if_pos hinstalled] at hmid
        cases hmid
        simp [askedBy, hinstalled]
      · rw [if_neg hinstalled] at hmid
        split at hmid
        · cases hmid
        · next first hfirst =>
            split at hmid
            · cases hmid
            · split at hmid
              · next hne =>
                  obtain rfl := Option.some.inj hmid
                  by_cases hchk : first = chk
                  · subst hchk
                    simp [askedBy, hinstalled, hfirst, hne]
                  · rw [Function.update_of_ne (Ne.symm hchk)]
                    simp [askedBy, hinstalled, hfirst, hne, hchk]
              · next heq =>
                  cases hmid
                  simp [askedBy, hinstalled, hfirst, not_not.mp heq]

theorem requireAll_eq {rest : List (Fin pkgs.length)} {vec : Pointers}
    {required required' : Required pkgs.length}
    (h : requireAll tree pkgs rest vec.1 required = some required') (chk : Fin pkgs.length) :
    required' chk = required chk ++ rest.flatMap fun pkg =>
      ((askedBy tree pkgs pkg (readNames pkgs[pkg].1.depends)).filter (· = chk)).map
        fun _ => pkg := by
  induction rest generalizing vec required with
  | nil =>
      obtain rfl : required = required' := Option.some.inj h
      exact (List.append_nil _).symm
  | cons pkg rest ih =>
      obtain ⟨s, hs, hmore⟩ := Option.bind_eq_some_iff.mp h
      obtain ⟨mid, hmid, hrest⟩ := Option.bind_eq_some_iff.mp hmore
      have hlength : s.vec.length = dependsMax := (dependsSplit_length hs).trans vec.2
      have hrest' := ih (show requireAll tree pkgs rest
        (⟨s.vec, hlength⟩ : Pointers).1 mid = some required' from hrest)
      rw [hrest', requireOne_eq hmid, dependsSplit_names hs, List.append_assoc]
      rfl

theorem satisfies_of_requiredFor {q p : Fin pkgs.length} (h : p ∈ requiredFor tree pkgs q) :
    Satisfies pkgs q p := by
  obtain ⟨pkg, -, hp⟩ := List.mem_flatMap.mp h
  obtain ⟨chk, hchk, rfl⟩ := List.mem_map.mp hp
  obtain ⟨hasked, hq⟩ := List.mem_filter.mp hchk
  obtain rfl : chk = q := of_decide_eq_true hq
  obtain ⟨hfirst, hne⟩ := List.mem_filter.mp hasked
  obtain ⟨name, hname, hanswers⟩ := List.mem_filterMap.mp hfirst
  have hread := (List.mem_filter.mp hname).1
  refine ⟨of_decide_eq_true hne, ?_⟩
  cases hdepends : pkgs[pkg].1.depends with
  | none =>
      rw [hdepends] at hread
      cases hread
  | some depends =>
      rw [hdepends] at hread
      refine ⟨depends, rfl, name, ?_, ?_⟩
      · have hmem := List.mem_takeWhile_imp hread
        exact List.mem_filter.mpr ⟨(List.takeWhile_prefix _).subset hread, hmem⟩
      · exact (List.findFinIdx?_eq_some_iff.mp hanswers).1

theorem transGen_satisfies {q p : Fin pkgs.length}
    (h : Relation.TransGen (fun x y => y ∈ requiredFor tree pkgs x) q p) :
    Relation.TransGen (Satisfies pkgs) q p :=
  Relation.TransGen.mono (fun _ _ hp => satisfies_of_requiredFor hp) _ _ h

/-! ## The list -/

/-- All packages require the first one, at once or over others. And where one satisfies an
element of another, the other requires it, at once or over others, or a walk from the first
package to those that require it comes to the other package sooner. -/
def Arranged (tree : Tree) (pkgs : List Named) : Prop :=
  ∀ first : Fin pkgs.length, first.1 = 0 →
    (∀ p, Search.Leads (requiredFor tree pkgs) first p) ∧
    (AcyclicDepends pkgs → ∀ q p, Satisfies pkgs q p →
      Search.Leads (requiredFor tree pkgs) q p ∨ Search.Meets (requiredFor tree pkgs) first p q)

/-- If `depends_resolve` returns a list, all packages are in it in the right order if and only if
they are arranged in this way. -/
theorem dependsResolve_ok_iff {vec : Pointers} {color : Fin pkgs.length → Color}
    {st : Chain pkgs.length} (h : dependsResolve vec.1 tree pkgs color = some st) :
    SortedOk pkgs st ↔ Arranged tree pkgs := by
  obtain ⟨required, hrequired, hsort⟩ := Option.bind_eq_some_iff.mp h
  obtain rfl : required = requiredFor tree pkgs := by
    funext chk
    exact requireAll_eq hrequired chk
  rcases Nat.eq_zero_or_pos pkgs.length with hempty | hpos
  · -- There is nothing to put in an order.
    have hnone (p : Fin pkgs.length) : False := absurd p.2 (by omega)
    constructor
    · exact fun _ first => (hnone first).elim
    · intro _
      refine ⟨[], ?_, fun p => (hnone p).elim, List.nodup_nil, fun _ q => (hnone q).elim⟩
      show st.ordered = none
      cases st.ordered with
      | none => rfl
      | some p => exact (hnone p).elim
  · let first : Fin pkgs.length := ⟨0, hpos⟩
    obtain ⟨st', s, hst', hrun, hlinked⟩ :=
      dependsSort_spec (requiredFor tree pkgs) color (rfl : first.1 = 0)
    obtain rfl : st = st' := Option.some.inj (hsort.symm.trans hst')
    obtain ⟨-, hnodup, hmem, -⟩ := Search.start_visit hrun
    have horder (hacyc : AcyclicDepends pkgs)
        (hall : ∀ p, Search.Leads (requiredFor tree pkgs) first p) {q p : Fin pkgs.length}
        (hsat : Satisfies pkgs q p) :
        [q, p].Sublist s.log.reverse ↔
          Search.Leads (requiredFor tree pkgs) q p ∨
            Search.Meets (requiredFor tree pkgs) first p q := by
      have hacyc' : Search.Acyclic (requiredFor tree pkgs) :=
        fun x hx => hacyc x (transGen_satisfies hx)
      have hnot : ¬ Search.Leads (requiredFor tree pkgs) p q := by
        intro hpq
        rcases Relation.reflTransGen_iff_eq_or_transGen.mp hpq with heq | hpq
        · exact hsat.1 heq
        · exact hacyc p ((transGen_satisfies hpq).tail hsat)
      have hpair : [q, p].Sublist s.log.reverse ↔ [p, q].Sublist s.log := by
        rw [← List.reverse_sublist]
        simp
      rw [hpair, Search.start_order hacyc' hrun (hall p) (hall q) (Ne.symm hsat.1),
        Search.Finishes]
      exact or_congr_right (and_iff_right hnot)
    constructor
    · rintro ⟨L, hL, hin, -, hsorted⟩ first' hfirst'
      have heq : first' = first := Fin.ext hfirst'
      obtain rfl : L = s.log.reverse := hL.unique hlinked
      have hall : ∀ p, Search.Leads (requiredFor tree pkgs) first p :=
        fun p => (hmem p).mp (List.mem_reverse.mp (hin p))
      rw [heq]
      exact ⟨hall, fun hacyc q p hsat => (horder hacyc hall hsat).mp (hsorted hacyc q p hsat)⟩
    · intro harranged
      obtain ⟨hall, hsorted⟩ := harranged first rfl
      refine ⟨s.log.reverse, hlinked, fun p => List.mem_reverse.mpr ((hmem p).mpr (hall p)),
        List.nodup_reverse.mpr hnodup, fun hacyc q p hsat => ?_⟩
      exact (horder hacyc hall hsat).mpr (hsorted hacyc q p hsat)

end Require

/-! ## Two packages -/

/-- Neither depends on the other. -/
def independent : List Named :=
  [⟨{ package := some "anna" }, rfl⟩, ⟨{ package := some "di-utils" }, rfl⟩]

/-- The second of two packages is lost. -/
theorem independent_lost : ∃ st,
    dependsResolve noPointers.1 (fun _ => none) independent (fun _ => .white) = some st ∧
      ¬ SortedOk independent st := by
  have hlinks : (dependsResolve noPointers.1 (fun _ => none) independent fun _ => .white).map
      (fun st => (st.ordered, st.next ⟨0, by decide⟩)) = some (some ⟨0, by decide⟩, none) := by
    decide
  obtain ⟨st, hst, hpair⟩ := Option.map_eq_some_iff.mp hlinks
  obtain ⟨hordered, hnext⟩ := Prod.mk.inj hpair
  refine ⟨st, hst, fun hok => ?_⟩
  obtain ⟨L, hL, hin, -⟩ := hok
  have hfirst : Linked st.next st.ordered [⟨0, by decide⟩] := ⟨hordered, hnext⟩
  have hmem := hin ⟨1, by decide⟩
  rw [hL.unique hfirst, List.mem_singleton] at hmem
  exact absurd hmem (by decide)

/-- The second one depends on the first. -/
def dependent : List Named :=
  [⟨{ package := some "di-utils" }, rfl⟩,
    ⟨{ package := some "anna", depends := some "di-utils" }, rfl⟩]

theorem dependent_arranged : Arranged (fun _ => none) dependent := by
  have hedge (first q : Fin dependent.length) (hfirst : first.1 = 0) (hq : q.1 = 1) :
      Search.Leads (requiredFor (fun _ => none) dependent) first q := by
    refine .single ?_
    revert first q
    decide
  have hzero (p : Fin dependent.length) (hp : p.1 ≠ 1) : p.1 = 0 := by
    have hlt : p.1 < 2 := p.2
    omega
  intro first hfirst
  refine ⟨fun p => ?_, fun _ q p hsat => .inl ?_⟩
  · by_cases hp : p.1 = 1
    · exact hedge first p hfirst hp
    · rw [show p = first from Fin.ext ((hzero p hp).trans hfirst.symm)]
  · obtain ⟨hne, depends, hdepends, -⟩ := hsat
    have hp : p.1 = 1 := by
      by_contra hp
      rw [show p = ⟨0, by decide⟩ from Fin.ext (hzero p hp)] at hdepends
      cases hdepends
    have hq : q.1 ≠ 1 := fun hq => hne (Fin.ext (hq.trans hp.symm))
    exact hedge q p (hzero q hq) hp

/-- The package that the other one depends on comes first. -/
theorem dependent_sorted : ∃ st,
    dependsResolve noPointers.1 (fun _ => none) dependent (fun _ => .white) = some st ∧
      SortedOk dependent st := by
  have hsome : (dependsResolve noPointers.1 (fun _ => none) dependent fun _ => .white).isSome =
      true := by
    decide
  obtain ⟨st, hst⟩ := Option.isSome_iff_exists.mp hsome
  exact ⟨st, hst, (dependsResolve_ok_iff hst).mpr dependent_arranged⟩

end DebianInstaller.Udpkg
