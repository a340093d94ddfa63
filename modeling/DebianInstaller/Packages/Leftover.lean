import DebianInstaller.Lib.Leftover
import DebianInstaller.Packages.Strict

/-!
# What a root that fails leaves behind

All roots share one list that `do_real` appends to, and it is moved over to the list that is
returned whenever a root resolves. A root that fails does not take back what it appended, so
the next root that resolves brings it along. `FailsAt` and `Left` of `Lib.Leftover` say on the
graph which packages these are.
-/

namespace DebianInstaller.Packages

open Search

variable {ι : Type*} [DecidableEq ι]

variable {a : Work ι × List ι} {fuel : ℕ} {install pre : List ι} {r : ι} {w : Work ι}

/-- The check record of a call of `di_packages_resolve_dependencies`, and the packages it works
on. -/
def callCheck (packages : Packages ι) : Check ι :=
  { strictCheck with resolver := (resolveDependenciesMarker packages).resolver }

def callWork (packages : Packages ι) : Work ι := ⟨(resolveDependenciesMarker packages).table, []⟩

/-- `di_packages_resolve_dependencies_recurse` returns true for `r`, as a root of the list. -/
def Resolves (packages : Packages ι) (list : List ι) (fuel : ℕ) (r : ι) : Prop :=
  ∃ pre post w install w', list = pre ++ r :: post ∧
    resolveRoots (callCheck packages) fuel pre (callWork packages) [] = some (w, install) ∧
    resolveDependenciesRecurse (callCheck packages) fuel r none w = some (true, w')

/-- Every package of the list returned can be reached from a root that resolved. -/
def NothingLeft (packages : Packages ι) (list : List ι) (fuel : ℕ) (install : List ι) : Prop :=
  ∀ p ∈ install, ∃ r, Resolves packages list fuel r ∧
    Relation.ReflTransGen (Needs strictCheck packages.table) r p

theorem resolveRoots_append {s : Check ι} {post : List ι} :
    ∀ {pre : List ι} {w : Work ι} {install : List ι},
      resolveRoots s fuel (pre ++ r :: post) w install = some a →
      ∃ w' install' b w'', resolveRoots s fuel pre w install = some (w', install') ∧
        resolveDependenciesRecurse s fuel r none w' = some (b, w'') := by
  intro pre
  induction pre with
  | nil =>
      intro w install h
      rw [List.nil_append, resolveRoots] at h
      cases hrec : resolveDependenciesRecurse s fuel r none w with
      | none =>
          rw [hrec] at h
          cases h
      | some answer => exact ⟨w, install, answer.1, answer.2, rfl, hrec⟩
  | cons q pre ih =>
      intro w install h
      rw [List.cons_append, resolveRoots] at h
      rw [resolveRoots]
      split at h
      · cases h
      · exact ih h
      · exact ih h

omit [DecidableEq ι] in
theorem start_agrees (g : Graph ι) : Agrees g [] start where
  accepted := by
    ext p
    simp [St.accepted, start, afterRoots]
  refused := by
    ext p
    simp [St.refused, start, afterRoots]
  caused y hy := by cases hy
  log p := by simp [start, St.accepted]

section Run

variable {packages : Packages ι} {n : ℕ} (hn : Marked n packages)

include hn

theorem roots_agree
    (h : resolveRoots (callCheck packages) fuel pre (callWork packages) [] = some (w, install)) :
    ∃ st, Agrees (strictGraph packages.table) pre st ∧ Mode (callCheck packages) st ∧
      Rel (callCheck packages) (listView packages.table) (listData install) w st := by
  obtain ⟨hres, hb, -⟩ := hn.marker
  have hview : listView (resolveDependenciesMarker packages).table = listView packages.table :=
    funext fun _ => strip_marker packages
  have hmode : Mode (callCheck packages) start := .inl fun _ => rfl
  obtain ⟨st, hv, hrel⟩ := resolveRoots_visitRoots (fun install =>
    listAppend_models (resolveDependenciesMarker packages).resolver
      (resolveDependenciesMarker packages).table install (fun _ => false) (.inr fun _ => rfl))
    hres (markerOf_position n) pre _ _ [] w install (.start hres hb rfl rfl) hmode h
  rw [hview] at hv hrel
  refine ⟨st, ?_, .inl fun _ => rfl, hrel⟩
  have := visitRoots_agrees (g := strictGraph packages.table) (fun _ _ _ => rfl) pre [] start st []
    install (start_agrees _) hv
  rwa [List.nil_append] at this

theorem recurse_answer {w' : Work ι} {b : Bool}
    (h : resolveRoots (callCheck packages) fuel pre (callWork packages) [] = some (w, install))
    (hrec : resolveDependenciesRecurse (callCheck packages) fuel r none w = some (b, w')) :
    b = false ↔ Bad (strictGraph packages.table)
      (afterRoots (strictGraph packages.table) pre).accepted r := by
  obtain ⟨hres, -, -⟩ := hn.marker
  obtain ⟨st, hst, hmode, hrel⟩ := roots_agree hn h
  have hview : listView (resolveDependenciesMarker packages).table = listView packages.table :=
    funext fun _ => strip_marker packages
  have hmodels := listAppend_models (resolveDependenciesMarker packages).resolver
    (resolveDependenciesMarker packages).table install (fun _ => false) (.inr fun _ => rfl)
  rw [hview] at hmodels
  obtain ⟨st', hv, -⟩ := visit_of_recurse hmodels hres (markerOf_position n) hrel hmode hrec
  exact (hst.step (g := strictGraph packages.table) (fun _ _ _ => rfl) hv).2

theorem vouched_iff {list : List ι}
    (h : resolveRoots (callCheck packages) fuel list (callWork packages) [] = some a) {p : ι} :
    Vouched (strictGraph packages.table) list p ↔ ∃ r, Resolves packages list fuel r ∧
      Relation.ReflTransGen (Needs strictCheck packages.table) r p := by
  have hreach : ∀ {r : ι}, (strictGraph packages.table).Reach r p ↔
      Relation.ReflTransGen (Needs strictCheck packages.table) r p := by
    intro r
    rw [Graph.Reach, strictGraph_edge]
  constructor
  · rintro ⟨pre, r, post, rfl, hgood, hr⟩
    obtain ⟨w, install, b, w', hroots, hrec⟩ := resolveRoots_append h
    have hanswer := recurse_answer hn hroots hrec
    cases b with
    | true => exact ⟨r, ⟨pre, post, w, install, w', rfl, hroots, hrec⟩, hreach.mp hr⟩
    | false => exact absurd (hanswer.mp rfl) hgood
  · rintro ⟨r, ⟨pre, post, w, install, w', rfl, hroots, hrec⟩, hr⟩
    refine ⟨pre, r, post, rfl, ?_, hreach.mpr hr⟩
    rw [← recurse_answer hn hroots hrec]
    decide

end Run

/-- The list holds nothing that a failing root left behind exactly if whatever a failing root
leaves behind before one that resolves can be reached from one that resolves. -/
theorem resolveDependencies_nothingLeft_iff [Fintype ι] {cs : List (Call ι)}
    {used : List (BitVec 32)} {packages : Packages ι} (h : After cs used packages) (list : List ι) :
    (¬ 11 ∣ cs.length + 1 → ∃ fuel a, resolveDependencies packages list fuel = some a) ∧
    ∀ fuel packages' install,
      resolveDependencies packages list fuel = some (packages', install) →
      (NothingLeft packages list fuel install ↔ Redeemed (strictGraph packages.table) list) := by
  refine ⟨fun hn => ?_, fun fuel packages' install hrun => ?_⟩
  · obtain ⟨a, ha⟩ := special_isSome h.marked list
      (.inr ⟨fun _ => rfl, by omega⟩ : (∀ p, checkNonExistant p = true) ∨ _)
    exact ⟨_, a, ha⟩
  · obtain ⟨st', hv⟩ := special_search h.marked (.inr fun _ => rfl) hrun
    have hroots : ∃ a,
        resolveRoots (callCheck packages) fuel list (callWork packages) [] = some a := by
      rw [resolveDependencies, resolveDependenciesSpecial] at hrun
      split at hrun
      · cases hrun
      · next w install' hroots => exact ⟨_, hroots⟩
    obtain ⟨a, hroots⟩ := hroots
    rw [← visitRoots_vouched_iff (g := strictGraph packages.table) (fun _ _ _ => rfl)
      (start_agrees _) hv]
    exact forall₂_congr fun p _ => (vouched_iff h.marked hroots).symm

/-- A package `0` that depends on `1` and on the missing package `2`, and an unrelated package
`3`. -/
def halfDone : Packages (Fin 4) where
  table
    | 0 => { type := .realPackage, depends := [⟨.depends, 1⟩, ⟨.depends, 2⟩] }
    | 1 => { type := .realPackage }
    | 2 => {}
    | 3 => { type := .realPackage }
  list := [0, 1, 3]
  resolver := 0#32

theorem halfDone_nothingLeft_iff :
    After [] [] halfDone ∧
    ((¬ 11 ∣ 0 + 1 → ∃ fuel a, resolveDependencies halfDone [0, 1] fuel = some a) ∧
      ∀ fuel packages' install,
        resolveDependencies halfDone [0, 1] fuel = some (packages', install) →
        (NothingLeft halfDone [0, 1] fuel install ↔
          Redeemed (strictGraph halfDone.table) [0, 1])) :=
  ⟨.read rfl (by decide), resolveDependencies_nothingLeft_iff (.read rfl (by decide)) [0, 1]⟩

/-- The root `0` fails, and the root `3` brings `1` along. -/
theorem halfDone_not_nothingLeft :
    After [] [] halfDone ∧ ∃ fuel packages' install,
      resolveDependencies halfDone [0, 3] fuel = some (packages', install) ∧
      ¬ NothingLeft halfDone [0, 3] fuel install := by
  have hrun : (resolveDependencies halfDone [0, 3] 5).map (·.2) = some [1, 3] := by decide
  obtain ⟨⟨packages', install⟩, hrun, rfl⟩ := Option.map_eq_some_iff.mp hrun
  refine ⟨.read rfl (by decide), 5, packages', _, hrun, fun hleft => ?_⟩
  obtain ⟨r, ⟨pre, post, w, install, w', heq, hroots, hrec⟩, hreach⟩ := hleft 1 (by decide)
  have hleaf : ∀ q, ¬ Needs strictCheck halfDone.table 3 q := by
    intro q hq
    cases hq with
    | depends _ hd _ => cases hd
    | provider hv _ => cases hv
  rcases pre with _ | ⟨q, _ | ⟨q', pre⟩⟩
  · -- the first root fails
    obtain ⟨rfl, -⟩ := List.cons.inj heq
    cases hroots
    have hfirst : (resolveDependenciesRecurse (callCheck halfDone) 5 0 none
        (callWork halfDone)).map (·.1) = some false := by decide
    rw [hrec] at hfirst
    cases hfirst
  · obtain ⟨rfl, hrest⟩ := List.cons.inj heq
    obtain ⟨rfl, -⟩ := List.cons.inj hrest
    rcases Relation.ReflTransGen.cases_head hreach with h | ⟨q, hq, -⟩
    · exact absurd h (by decide)
    · exact hleaf q hq
  · have hlen := congrArg List.length heq
    simp at hlen

end DebianInstaller.Packages
