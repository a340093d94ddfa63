import DebianInstaller.Packages.Termination

/-!
# The order of the main menu

`main-menu` sorts its items with
`di_system_packages_resolve_dependencies_array_permissive`. Missing packages
pass, so nothing ever fails, and the list that comes back is a depth-first
postorder: closed under dependencies whatever the graph, and a topological
order where the graph has no cycle.
-/

namespace DebianInstaller.Packages

open Search

variable {ι : Type*}

variable {array list : List ι} {fuel n : Nat} {packages packages' : Packages ι} {r : Check ι}
  {table : ι → Package ι} {x : ι}

/-- Whoever provides a virtual package is a real package. The reader sees to
this: the entry is made while the stanza of the provider is read. -/
def ProvidersReal (table : ι → Package ι) : Prop :=
  ∀ p, ∀ d ∈ (table p).depends, d.type = .reverseProvides →
    (table d.ptr).type = .realPackage

/-- An edge of the dependency graph: from a real package to what it depends on,
and from a virtual package to the provider chosen for it. -/
inductive Needs (r : Check ι) (table : ι → Package ι) : ι → ι → Prop where
  | depends {p : ι} {d : PackageDependency ι} (hp : (table p).type = .realPackage)
      (hd : d ∈ (table p).depends) (ht : d.type = .depends ∨ d.type = .preDepends) :
      Needs r table p d.ptr
  | provider {p : ι} {d : PackageDependency ι} (hp : (table p).type = .virtualPackage)
      (hd : chooseProvide r table p = some d) : Needs r table p d.ptr

/-- What `main-menu` relies on. -/
structure MenuOrder (table : ι → Package ι) (array list : List ι) : Prop where
  nodup : list.Nodup
  real : ∀ p ∈ list, (table p).type = .realPackage
  roots : ∀ p ∈ array, (table p).type = .realPackage → p ∈ list
  depends : ∀ p ∈ list, ∀ d ∈ (table p).depends,
    d.type = .depends ∨ d.type = .preDepends →
    (table d.ptr).type = .realPackage → d.ptr ∈ list
  provided : ∀ p ∈ list, ∀ d ∈ (table p).depends,
    d.type = .depends ∨ d.type = .preDepends →
    (table d.ptr).type = .virtualPackage →
    (∃ e ∈ (table d.ptr).depends, e.type = .reverseProvides) →
    ∃ e ∈ (table d.ptr).depends, e.type = .reverseProvides ∧
      (table e.ptr).type = .realPackage ∧ e.ptr ∈ list
  sorted : (∀ x ∈ array, ∀ y, Relation.ReflTransGen (Needs permissiveCheck table) x y →
      ¬ Relation.TransGen (Needs permissiveCheck table) y y) →
    ∀ l₁ p l₂, list = l₁ ++ p :: l₂ →
      ∀ q, Relation.TransGen (Needs permissiveCheck table) p q →
        (table q).type = .realPackage → q ∈ l₁

/-! ## The graph is the one that is searched -/

theorem checkVirtual_picks (table : ι → Package ι) (p : ι)
    (best : Option (PackageDependency ι)) (d : PackageDependency ι) :
    checkVirtual table p best d = some d ∨ checkVirtual table p best d = best := by
  cases best with
  | none => exact .inl rfl
  | some b =>
      rw [checkVirtual]
      split
      · exact .inl rfl
      · exact .inr rfl

theorem checkVirtual_isSome (table : ι → Package ι) (p : ι)
    (best : Option (PackageDependency ι)) (d : PackageDependency ι) :
    (checkVirtual table p best d).isSome = true := by
  rcases best with - | b
  · rfl
  · rw [checkVirtual]
    split <;> rfl

theorem chooseProvide_bits
    (hr : ∀ t p best d, r.checkVirtual t p best d = r.checkVirtual (strip t) p best d) :
    chooseProvide r (strip table) x = chooseProvide r table x := by
  unfold chooseProvide
  refine List.foldl_ext _ _ _ fun best d _ => ?_
  rw [hr table]

theorem edge_iff_needs {y : ι}
    (hr : ∀ t p best d, r.checkVirtual t p best d = r.checkVirtual (strip t) p best d) :
    (graphOf r (fun _ => false) (listView table)).Edge x y ↔ Needs r table x y := by
  have hchoose : chooseProvide r (strip table) x = chooseProvide r table x :=
    chooseProvide_bits hr
  refine ⟨?_, ?_⟩
  · rintro ⟨log, hy⟩
    simp only [graphOf, listView] at hy
    split at hy
    · next ht =>
        obtain ⟨d, hd, rfl⟩ := List.mem_map.mp hy
        obtain ⟨hd, hdep⟩ := List.mem_filter.mp hd
        exact .depends ht hd (by simpa [PackageDependency.isDepends] using hdep)
    · next ht =>
        rw [hchoose] at hy
        split at hy
        · cases hy
        · next d hd =>
            obtain rfl : y = d.ptr := by simpa using hy
            exact .provider ht hd
    · cases hy
  · rintro (⟨hp, hd, ht⟩ | ⟨hp, hd⟩)
    · have htype : (strip table x).type = .realPackage := hp
      refine ⟨[], ?_⟩
      simp only [graphOf, listView, htype]
      exact List.mem_map.mpr ⟨_, List.mem_filter.mpr
        ⟨hd, by simpa [PackageDependency.isDepends] using ht⟩, rfl⟩
    · have htype : (strip table x).type = .virtualPackage := hp
      refine ⟨[], ?_⟩
      simp only [graphOf, listView, htype, hchoose, hd]
      simp

/-! ## The list that is returned -/

/-- The graph that is searched. -/
def menuGraph (table : ι → Package ι) : Graph ι :=
  graphOf permissiveCheck (fun _ => false) (listView table)

theorem menuGraph_alive (table : ι → Package ι) (p : ι) :
    (menuGraph table).dead p = false := graphOf_alive (fun _ => rfl) p

theorem menuGraph_emit {p : ι} : (menuGraph table).emit p = true ↔ (table p).type = .realPackage :=
  decide_eq_true_iff

theorem menuGraph_edge : (menuGraph table).Edge = Needs permissiveCheck table := by
  funext x y
  exact propext (edge_iff_needs checkVirtual_strip)

variable [DecidableEq ι]

theorem menu_search (hn : Marked n packages)
    (hrun : resolveDependenciesArrayPermissive packages array fuel =
      some (packages', list)) :
    ∃ st', visitRoots (visit (menuGraph packages.table) fuel) array start [] =
        some (st', list) ∧
      Grows (menuGraph packages.table) array start st' ∧ st'.NoFail ∧
      (∀ x ∈ array, st'.mark x = .okay) ∧ list = st'.log := by
  obtain ⟨st', hv⟩ := special_search hn (.inl fun _ => rfl) hrun
  obtain ⟨hg, hnf, hroots, hlist⟩ := visitRoots_alive (menuGraph_alive packages.table)
    array start [] st' list start_noFail hv
  refine ⟨st', hv, hg, hnf, hroots, ?_⟩
  rw [hlist]
  split
  · next hnil =>
      subst hnil
      cases hv
      rfl
  · rfl

theorem menu_order (hn : Marked n packages) (hp : ProvidersReal packages.table)
    (hrun : resolveDependenciesArrayPermissive packages array fuel =
      some (packages', list)) : MenuOrder packages.table array list := by
  obtain ⟨st', hv, hg, hnf, hroots, rfl⟩ := menu_search hn hrun
  obtain ⟨L, hL, hnodup, hmem⟩ := hg.log
  rw [show st'.log = L from hL]
  have hlisted : ∀ y, y ∈ L ↔
      st'.mark y = .okay ∧ (packages.table y).type = .realPackage := by
    intro y
    rw [hmem, menuGraph_emit]
    simp [start]
  have hnext : ∀ {y z}, st'.mark y = .okay → Needs permissiveCheck packages.table y z →
      st'.mark z = .okay := by
    intro y z hy hyz
    rw [← menuGraph_edge] at hyz
    obtain ⟨-, l, hall⟩ := hg.okay y rfl hy
    obtain ⟨l', hz⟩ := hyz
    have hseen := (hall z hz).1
    cases hz' : st'.mark z with
    | unseen => exact absurd hz' hseen
    | okay => rfl
    | failed => exact absurd hz' (hnf z)
  constructor
  case nodup => exact hnodup
  case real => exact fun p hp => ((hlisted p).mp hp).2
  case roots => exact fun p hin hreal => (hlisted p).mpr ⟨hroots p hin, hreal⟩
  case depends =>
    intro p hp d hd ht hreal
    obtain ⟨hok, hpr⟩ := (hlisted p).mp hp
    exact (hlisted _).mpr ⟨hnext hok (.depends hpr hd ht), hreal⟩
  case provided =>
    intro p hp' d hd ht hvirt hprov
    obtain ⟨e, he, het⟩ := hprov
    obtain ⟨hok, hpr⟩ := (hlisted p).mp hp'
    have hsome : (chooseProvide permissiveCheck packages.table d.ptr).isSome = true :=
      chooseProvide_isSome
        (fun best c _ => checkVirtual_isSome packages.table d.ptr best c) he het
        (fun best => checkVirtual_isSome packages.table d.ptr best e)
    obtain ⟨c, hc⟩ := Option.isSome_iff_exists.mp hsome
    obtain ⟨hcm, hct, -⟩ := chooseProvide_mem (Q := fun _ => True)
      (fun best c => (checkVirtual_picks packages.table d.ptr best c).imp (⟨·, trivial⟩) id)
      hc
    have hcr := hp d.ptr c hcm hct
    have hcok := hnext (hnext hok (.depends hpr hd ht)) (.provider hvirt hc)
    exact ⟨c, hcm, hct, hcr, (hlisted _).mpr ⟨hcok, hcr⟩⟩
  case sorted =>
    intro hacyc l₁ p l₂ hsplit q hpq hq
    have hsorted := visitRoots_sorted (menuGraph_alive packages.table)
      (fun _ _ _ => rfl) array start st' [] _ start_noFail
      (start_sorted _) (by rw [Graph.Reach, menuGraph_edge]; exact hacyc) hv
    refine hsorted.sorted l₁ p l₂ (hL.trans hsplit) q ?_ (menuGraph_emit.mpr hq)
    rw [menuGraph_edge]
    exact hpq

/-- Whatever calls were made before, the call of `main-menu` returns, and what
it returns is a menu order. -/
theorem resolveDependenciesArrayPermissive_menuOrder [Fintype ι] {cs : List (Call ι)}
    {used : List (BitVec 32)} {packages : Packages ι} (h : After cs used packages)
    (hp : ProvidersReal packages.table) (array : List ι) :
    (∃ fuel a, resolveDependenciesArrayPermissive packages array fuel = some a) ∧
    ∀ fuel packages' list,
      resolveDependenciesArrayPermissive packages array fuel = some (packages', list) →
      MenuOrder packages.table array list := by
  obtain ⟨a, ha⟩ := special_isSome h.marked array (.inl fun _ => rfl)
  exact ⟨⟨_, a, ha⟩, fun fuel packages' list hrun => menu_order h.marked hp hrun⟩

/-- A menu item `0` that depends on the virtual package `1`, which `2` and `3`
provide; `2` depends on the missing package `4`, and `3` on `0`. -/
def menuItems : Packages (Fin 5) where
  table
    | 0 => { type := .realPackage, depends := [⟨.depends, 1⟩] }
    | 1 => { type := .virtualPackage
             depends := [⟨.reverseProvides, 2⟩, ⟨.reverseProvides, 3⟩] }
    | 2 => { type := .realPackage, priority := .standard
             depends := [⟨.provides, 1⟩, ⟨.preDepends, 4⟩] }
    | 3 => { type := .realPackage, depends := [⟨.provides, 1⟩, ⟨.depends, 0⟩] }
    | 4 => {}
  list := [0, 2, 3]
  resolver := 0#32

theorem menuItems_menuOrder :
    ((∃ fuel a, resolveDependenciesArrayPermissive menuItems [3, 0, 2] fuel = some a) ∧
    ∀ fuel packages' list,
      resolveDependenciesArrayPermissive menuItems [3, 0, 2] fuel =
        some (packages', list) →
      MenuOrder menuItems.table [3, 0, 2] list) ∧
    (resolveDependenciesArrayPermissive menuItems [3, 0, 2] 6).map (·.2) =
      some [2, 0, 3] :=
  ⟨resolveDependenciesArrayPermissive_menuOrder (.read rfl (by decide)) (by
    unfold ProvidersReal; decide) _, by decide⟩

end DebianInstaller.Packages
