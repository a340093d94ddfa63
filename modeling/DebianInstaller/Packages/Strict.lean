import DebianInstaller.Lib.Credit
import DebianInstaller.Packages.Permissive

/-!
# Closed lists, and a list that is not

`di_packages_resolve_dependencies` refuses missing packages, so a root may fail.
The packages that were accepted before it failed stay accepted, and the next
root that resolves takes them along. That is harmless as long as they do not
depend on the package that failed, and a dependency cycle is what makes them:
the list is closed if the searches from its roots are honest in the sense of
`Credit.lean`, and `orphaned` below is a list that is not closed.
-/

namespace DebianInstaller.Packages

open Search

variable {ι : Type*}

variable {p : ι} {table : ι → Package ι}

/-- Whatever a listed package depends on is listed. -/
structure DependencyClosed (table : ι → Package ι) (list : List ι) : Prop where
  real : ∀ p ∈ list, ∀ d ∈ (table p).depends, d.type = .depends ∨ d.type = .preDepends →
    (table d.ptr).type = .realPackage → d.ptr ∈ list
  provided : ∀ p ∈ list, ∀ d ∈ (table p).depends,
    d.type = .depends ∨ d.type = .preDepends →
    (table d.ptr).type = .virtualPackage →
    ∃ e ∈ (table d.ptr).depends, e.type = .reverseProvides ∧ e.ptr ∈ list
  existing : ∀ p ∈ list, ∀ d ∈ (table p).depends,
    d.type = .depends ∨ d.type = .preDepends → (table d.ptr).type ≠ .nonExistent

/-- The graph that is searched. Dead are the missing packages and the virtual
ones without a provider. -/
def strictGraph (table : ι → Package ι) : Graph ι :=
  graphOf strictCheck (fun _ => false) (listView table)

theorem strictGraph_edge : (strictGraph table).Edge = Needs strictCheck table := by
  funext x y
  exact propext (edge_iff_needs checkVirtual_strip)

theorem strictGraph_emit : (strictGraph table).emit p = true ↔ (table p).type = .realPackage :=
  decide_eq_true_iff

theorem strictGraph_dead (h : (strictGraph table).dead p = false) :
    (table p).type ≠ .nonExistent ∧
      ((table p).type = .virtualPackage →
        ∃ d, chooseProvide strictCheck table p = some d) := by
  have htype : (strip table p).type = (table p).type := rfl
  have hchoose : chooseProvide strictCheck (strip table) p =
      chooseProvide strictCheck table p := chooseProvide_bits checkVirtual_strip
  simp only [strictGraph, graphOf, listView, htype, hchoose] at h
  refine ⟨fun hne => ?_, fun hv => ?_⟩
  · rw [hne] at h
    cases h
  · rw [hv] at h
    refine Option.isSome_iff_exists.mp ?_
    simpa [strictCheck, checkNonExistant] using h

theorem dependencyClosed_of_sound (hp : ProvidersReal table) {st : St ι}
    (h : Sound (strictGraph table) [] st) : DependencyClosed table st.log := by
  have hlog : ∀ p, p ∈ st.log ↔ st.mark p = .okay ∧ (table p).type = .realPackage := by
    intro p
    rw [h.log, strictGraph_emit]
    simp
  have hokay : ∀ p ∈ st.log, ∀ d ∈ (table p).depends,
      d.type = .depends ∨ d.type = .preDepends → st.mark d.ptr = .okay := by
    intro p hin d hd ht
    obtain ⟨hok, hreal⟩ := (hlog p).mp hin
    refine (h.okay p hok (by simp)).2 d.ptr ?_
    rw [strictGraph_edge]
    exact .depends hreal hd ht
  have hdead : ∀ p, st.mark p = .okay → (strictGraph table).dead p = false :=
    fun p hok => (h.okay p hok (by simp)).1
  constructor
  case real => exact fun p hin d hd ht hr => (hlog _).mpr ⟨hokay p hin d hd ht, hr⟩
  case existing =>
    exact fun p hin d hd ht => (strictGraph_dead (hdead _ (hokay p hin d hd ht))).1
  case provided =>
    intro p hin d hd ht hv
    have hok := hokay p hin d hd ht
    obtain ⟨e, he⟩ := (strictGraph_dead (hdead _ hok)).2 hv
    obtain ⟨hem, het, -⟩ := chooseProvide_mem (Q := fun _ => True)
      (fun best c => (checkVirtual_picks table d.ptr best c).imp (⟨·, trivial⟩) id) he
    have heok : st.mark e.ptr = .okay := by
      refine (h.okay d.ptr hok (by simp)).2 e.ptr ?_
      rw [strictGraph_edge]
      exact .provider hv he
    exact ⟨e, hem, het, (hlog _).mpr ⟨heok, hp d.ptr e hem het⟩⟩

variable [DecidableEq ι]

omit [DecidableEq ι] in
theorem start_sound (g : Graph ι) : Sound g [] start where
  okay _ h := by cases h
  failed _ h := by cases h
  log y := by simp [start]
  stack _ h := by cases h

omit [DecidableEq ι] in
theorem dependencyClosed_nil (table : ι → Package ι) : DependencyClosed table [] where
  real _ h := by cases h
  provided _ h := by cases h
  existing _ h := by cases h

/-- The list is closed where no package is accepted on the credit of one that
fails. -/
theorem resolveDependencies_dependencyClosed [Fintype ι] {cs : List (Call ι)}
    {used : List (BitVec 32)} {packages : Packages ι} (h : After cs used packages)
    (hp : ProvidersReal packages.table) {list : List ι}
    (hhon : HonestRoots (strictGraph packages.table) ∅ list) :
    (¬ 11 ∣ cs.length + 1 → ∃ fuel a, resolveDependencies packages list fuel = some a) ∧
    ∀ fuel packages' install,
      resolveDependencies packages list fuel = some (packages', install) →
      DependencyClosed packages.table install := by
  refine ⟨fun hn => ?_, fun fuel packages' install hrun => ?_⟩
  · obtain ⟨a, ha⟩ := special_isSome h.marked list
      (.inr ⟨fun _ => rfl, by omega⟩ : (∀ p, checkNonExistant p = true) ∨ _)
    exact ⟨_, a, ha⟩
  · obtain ⟨st', hv⟩ := special_search h.marked (.inr fun _ => rfl) hrun
    exact visitRoots_sound (g := strictGraph packages.table) (fun _ _ _ => rfl)
      (fun st hst => dependencyClosed_of_sound hp hst) list ∅ start st' [] install
      (start_sound _) (fun y => by simp [start]) hhon (dependencyClosed_nil _) hv

omit [DecidableEq ι] in
theorem honest_of_length {g : Graph ι} {y : ι} {T : List ι}
    (h : (g.next [] y).length ≤ 1) : Honest g y T := by
  intro pre d post heq _ _ c hc
  rw [heq, List.length_append, List.length_cons] at h
  have : pre.length = 0 := by omega
  rw [List.length_eq_zero_iff.mp this] at hc
  cases hc

/-- Two packages that depend on each other, and one that depends on a missing
package. -/
def twoCycle : Packages (Fin 4) where
  table
    | 0 => { type := .realPackage, depends := [⟨.depends, 1⟩] }
    | 1 => { type := .realPackage, depends := [⟨.depends, 0⟩] }
    | 2 => { type := .realPackage, depends := [⟨.depends, 3⟩] }
    | 3 => {}
  list := [0, 1, 2]
  resolver := 0#32

theorem twoCycle_honest : HonestRoots (strictGraph twoCycle.table) ∅ [2, 0] := by
  have hall : ∀ y T, Honest (strictGraph twoCycle.table) y T :=
    fun y T => honest_of_length ((by decide : ∀ y,
      ((strictGraph twoCycle.table).next [] y).length ≤ 1) y)
  exact ⟨fun y T _ => hall y T, fun y T _ => hall y T, trivial⟩

theorem twoCycle_dependencyClosed :
    ((¬ 11 ∣ 0 + 1 → ∃ fuel a, resolveDependencies twoCycle [2, 0] fuel = some a) ∧
    ∀ fuel packages' install,
      resolveDependencies twoCycle [2, 0] fuel = some (packages', install) →
      DependencyClosed twoCycle.table install) ∧
    (resolveDependencies twoCycle [2, 0] 5).map (·.2) = some [1, 0] :=
  ⟨resolveDependencies_dependencyClosed (.read rfl (by decide))
    (by unfold ProvidersReal; decide) twoCycle_honest, by decide⟩

/-- A package `0` that depends on `1` and on the missing package `2`, where `1`
depends on `0`; and an unrelated package `3`. -/
def orphaned : Packages (Fin 4) where
  table
    | 0 => { type := .realPackage, depends := [⟨.depends, 1⟩, ⟨.depends, 2⟩] }
    | 1 => { type := .realPackage, depends := [⟨.depends, 0⟩] }
    | 2 => {}
    | 3 => { type := .realPackage }
  list := [0, 1, 3]
  resolver := 0#32

/-- The root `0` fails, and the root `3` brings `1` along, which depends on
`0`. -/
theorem orphaned_not_dependencyClosed :
    After [] [] orphaned ∧ ProvidersReal orphaned.table ∧
    ∃ fuel packages' install,
      resolveDependencies orphaned [0, 3] fuel = some (packages', install) ∧
      install = [1, 3] ∧ ¬ DependencyClosed orphaned.table install := by
  have hrun : (resolveDependencies orphaned [0, 3] 5).map (·.2) = some [1, 3] := by
    decide
  obtain ⟨⟨packages', install⟩, hrun, rfl⟩ := Option.map_eq_some_iff.mp hrun
  refine ⟨.read rfl (by decide), by unfold ProvidersReal; decide, 5, packages', _, hrun,
    rfl, fun hc => ?_⟩
  have := hc.real 1 (by decide) ⟨.depends, 0⟩ (by decide) (by decide) (by decide)
  exact absurd this (by decide)

end DebianInstaller.Packages
