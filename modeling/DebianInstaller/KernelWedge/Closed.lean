import DebianInstaller.KernelWedge.Modules
import DebianInstaller.Lib.Worklist

/-!
# Closed lists of modules

When a udeb is processed, everything that it depends on is done. So its file in `module-deps`
has what it depends on directly or indirectly by the pairs that `gen-deps` printed, and its
modules are those that its list names together with what they lead to without a step into a
module of those udebs. That is what is required, if the pairs are the dependencies of the
udebs.

They are not always. A dependency with the mark `!` is kept by `gen-control`, without the
mark, while `gen-deps` looks for a modules list whose name has the mark. And the name of a
package is a regular expression that may match the lines of other packages. A dependency that
is lost in these ways makes `copy-modules` put modules into a udeb that are in a udeb it
depends on already.
-/

namespace DebianInstaller.KernelWedge

open Lib

variable {d u : Text} {done order rest : List Text} {modulesdep out : List (Text × Text)} {n : ℕ}
  {ps : List Stanza} {re : Engine} {s s' : Files} {stanza : Stanza}
  {tsort : List (Text × Text) → List Text}

namespace Lists

variable {c : Lists}

/-! ## What is required -/

/-- A udeb depends on another one that is built, with or without the mark. -/
def DependsOn (c : Lists) (u d : Text) : Prop :=
  ∃ stanza ∈ c.built, c.name stanza = u ∧ d ∈ c.files ∧
    (d ∈ c.depends stanza ∨ d ++ ['!'] ∈ c.depends stanza)

/-- A udeb depends on another one directly or indirectly. -/
abbrev Needs (c : Lists) : Text → Text → Prop := Relation.TransGen c.DependsOn

/-- A module is in a udeb that `u` depends on. -/
def Elsewhere (c : Lists) (s : Files) (u m : Text) : Prop := ∃ d, c.Needs u d ∧ m ∈ s.list d

/-- What is required of the modules of all udebs. -/
structure Good (c : Lists) (preprocess : Text → List Text) (modulesdep : List (Text × Text))
    (s : Files) : Prop where
  closed : ∀ u ∈ c.files, ∀ m ∈ s.list u, ∀ m', (m, m') ∈ modulesdep →
    m' ∈ s.list u ∨ c.Elsewhere s u m'
  named : ∀ u ∈ c.files, ∀ m ∈ preprocess u, m ∈ s.list u
  needed : ∀ u ∈ c.files, ∀ m ∈ s.list u, m ∉ preprocess u →
    ∃ m₀ ∈ preprocess u, ∃ m₁, (m₁, m) ∈ modulesdep ∧
      Relation.ReflTransGen (fun a b => (a, b) ∈ modulesdep ∧ ¬ c.Elsewhere s u b) m₀ m₁
  apart : ∀ u ∈ c.files, ∀ m ∈ s.list u, m ∉ preprocess u → ¬ c.Elsewhere s u m

/-- A dependency that stands in one of the stanzas and is not lost by a later one. -/
def Kept (c : Lists) (re : Engine) (ps : List Stanza) (u d : Text) : Prop :=
  ∃ pre stanza post, ps = pre ++ stanza :: post ∧ c.name stanza = u ∧ d ∈ c.depends stanza ∧
    d ∈ c.files ∧ ∀ later ∈ post, re (c.name later) (line (u, d)) = some false

/-- What is documented of `tsort`: each name once, and a pair in its order. -/
structure Sorts (pairs : List (Text × Text)) (order : List Text) : Prop where
  nodup : order.Nodup
  mem : ∀ x, x ∈ order ↔ ∃ p ∈ pairs, x = p.1 ∨ x = p.2
  before : ∀ pre a post, order = pre ++ a :: post → ∀ b, (a, b) ∈ pairs → a ≠ b → b ∈ post

/-! ## What `gen-deps` prints -/

end Lists

/-! ## The loop over the udebs -/

section Loop

variable {out modulesdep : List (Text × Text)} {preprocess : Text → List Text}

/-- A module depends on another one that is not in one of these udebs. -/
def Step (modulesdep : List (Text × Text)) (list : Text → List Text) (others : Text → Prop)
    (a b : Text) : Prop :=
  (a, b) ∈ modulesdep ∧ ¬ ∃ d, others d ∧ b ∈ list d

theorem mem_tmpdeps {exclude : List Text} (he : exclude.Pairwise (· ≤ ·)) (a b : Text) :
    (a, b) ∈ sortBy Prod.fst (unpaired Prod.snd exclude (sortBy Prod.snd modulesdep)) ↔
      (a, b) ∈ modulesdep ∧ b ∉ exclude := by
  rw [mem_sortBy, mem_unpaired he (sorted_sortBy _ _), mem_sortBy]

theorem processUdeb_spec (hout : out.Pairwise (·.1 ≤ ·.1)) {i : Text}
    (h : processUdeb n out (sortBy Prod.snd modulesdep) preprocess s i = some s') :
    ∃ deps list, s' = ⟨Function.update s.deps i deps, Function.update s.list i list⟩ ∧
      (∀ d, d ∈ deps ↔ (i, d) ∈ out ∨ ∃ e, (i, e) ∈ out ∧ d ∈ s.deps e) ∧
      ∀ m, m ∈ list ↔ ∃ m₀ ∈ preprocess i,
        Relation.ReflTransGen (Step modulesdep s.list (· ∈ deps)) m₀ m := by
  obtain ⟨list, hlist, hs⟩ := Option.bind_eq_some_iff.mp h
  obtain rfl := Option.some.inj hs
  refine ⟨_, list, rfl, fun d => ?_, ?_⟩
  · have hdirect : ∀ e, e ∈ join [i] out ↔ (i, e) ∈ out := fun e => by
      rw [mem_join (List.pairwise_singleton _ i) hout]
      simp
    rw [mem_sortUnique, List.mem_append, hdirect, List.mem_flatMap]
    simp only [hdirect]
  · generalize sortUnique (join [i] out ++ (join [i] out).flatMap s.deps) = deps at hlist
    have hsorted := sorted_sortUnique (deps.flatMap s.list)
    have hstart := sorted_sortBy id (preprocess i)
    obtain ⟨-, hmem⟩ := mem_closure (sorted_sortBy _ _) hstart hstart (List.Subset.refl _)
      (fun y hy => ⟨y, hy, .refl⟩) (List.Subset.refl _) (fun x hx hnx => absurd hx hnx) hlist
    have hstep : (fun a b => (a, b) ∈ sortBy Prod.fst (unpaired Prod.snd
        (sortUnique (deps.flatMap s.list)) (sortBy Prod.snd modulesdep))) =
        Step modulesdep s.list (· ∈ deps) := by
      funext a b
      rw [mem_tmpdeps hsorted, mem_sortUnique, List.mem_flatMap]
      rfl
    intro m
    rw [hmem, hstep]
    simp only [mem_sortBy]

/-- The udebs that are done. -/
def Done (out modulesdep : List (Text × Text)) (preprocess : Text → List Text)
    (done : List Text) (s : Files) : Prop :=
  ∀ u ∈ done, (∀ d, d ∈ s.deps u ↔ Relation.TransGen (fun a b => (a, b) ∈ out) u d) ∧
    ∀ m, m ∈ s.list u ↔ ∃ m₀ ∈ preprocess u, Relation.ReflTransGen
      (Step modulesdep s.list (Relation.TransGen (fun a b => (a, b) ∈ out) u)) m₀ m

/-- Everything that a udeb depends on comes before it. -/
structure Ready (out : List (Text × Text)) (order : List Text) : Prop where
  nodup : order.Nodup
  before : ∀ done i rest, order = done ++ i :: rest → ∀ d, (i, d) ∈ out → d ∈ done

theorem Ready.closed (h : Ready out order) (horder : order = done ++ rest) (hu : u ∈ done)
    (hd : Relation.TransGen (fun a b => (a, b) ∈ out) u d) : d ∈ done := by
  have hstep : ∀ a b, a ∈ done → (a, b) ∈ out → b ∈ done := by
    intro a b ha hab
    obtain ⟨pre, post, rfl⟩ := List.append_of_mem ha
    have := h.before pre a (post ++ rest) (by rw [horder]; simp) b hab
    exact List.mem_append_left _ this
  induction hd with
  | single hab => exact hstep _ _ hu hab
  | tail _ hbc ih => exact hstep _ _ ih hbc

theorem step_congr {list list' : Text → List Text} {p q : Text → Prop} (hpq : ∀ d, p d ↔ q d)
    (hlist : ∀ d, p d → list d = list' d) :
    Step modulesdep list p = Step modulesdep list' q := by
  funext a b
  have hex : (∃ d, p d ∧ b ∈ list d) ↔ ∃ d, q d ∧ b ∈ list' d := by
    constructor
    · rintro ⟨d, hd, hb⟩
      exact ⟨d, (hpq d).mp hd, hlist d hd ▸ hb⟩
    · rintro ⟨d, hd, hb⟩
      have hd' := (hpq d).mpr hd
      exact ⟨d, hd', (hlist d hd').symm ▸ hb⟩
  rw [Step, Step, hex]

theorem Done.step (hout : out.Pairwise (·.1 ≤ ·.1)) {i : Text} (hready : Ready out order)
    (horder : order = done ++ i :: rest) (hdone : Done out modulesdep preprocess done s)
    (h : processUdeb n out (sortBy Prod.snd modulesdep) preprocess s i = some s') :
    Done out modulesdep preprocess (done ++ [i]) s' := by
  obtain ⟨deps, list, rfl, hdeps, hlist⟩ := processUdeb_spec hout h
  have hi : i ∉ done := fun hmem =>
    List.disjoint_of_nodup_append (horder ▸ hready.nodup) hmem List.mem_cons_self
  have hsame : ∀ {d}, d ∈ done → Function.update s.list i list d = s.list d := by
    intro d hd
    have hne : d ≠ i := fun heq => hi (heq ▸ hd)
    exact Function.update_of_ne hne _ _
  have hdirect : ∀ d, (i, d) ∈ out → d ∈ done := hready.before done i rest horder
  have hneeds : ∀ d, d ∈ deps ↔ Relation.TransGen (fun a b => (a, b) ∈ out) i d := by
    intro d
    rw [hdeps]
    constructor
    · rintro (hd | ⟨e, he, hd⟩)
      · exact .single hd
      · exact .head he (((hdone e (hdirect e he)).1 d).mp hd)
    · intro hd
      obtain ⟨e, he, hed⟩ := Relation.TransGen.head'_iff.mp hd
      rcases Relation.reflTransGen_iff_eq_or_transGen.mp hed with rfl | hed
      · exact .inl he
      · exact .inr ⟨e, he, ((hdone e (hdirect e he)).1 d).mpr hed⟩
  have hdepsDone : ∀ d, d ∈ deps → d ∈ done := by
    intro d hd
    obtain he | ⟨e, he, hed⟩ := (hdeps d).mp hd
    · exact hdirect d he
    · exact hready.closed horder (hdirect e he) (((hdone e (hdirect e he)).1 d).mp hed)
  intro u hu
  rcases List.mem_append.mp hu with hu | hu
  · have hne : u ≠ i := fun heq => hi (heq ▸ hu)
    refine ⟨fun d => ?_, fun m => ?_⟩
    · dsimp only
      rw [Function.update_of_ne hne]
      exact (hdone u hu).1 d
    · dsimp only
      rw [hsame hu, (hdone u hu).2 m,
        step_congr (fun _ => Iff.rfl) fun d hd => (hsame (hready.closed horder hu hd)).symm]
  · obtain rfl := List.mem_singleton.mp hu
    refine ⟨fun d => ?_, fun m => ?_⟩
    · dsimp only
      rw [Function.update_self]
      exact hneeds d
    · dsimp only
      rw [Function.update_self, hlist m,
        step_congr hneeds fun d hd => (hsame (hdepsDone d hd)).symm]

end Loop

namespace Lists

variable {c : Lists} {re : Engine}

/-! ## The whole program -/

theorem Kept.dependsOn (h : c.Kept re c.built u d) : c.DependsOn u d := by
  obtain ⟨pre, stanza, post, hsplit, hu, hd, hf, -⟩ := h
  exact ⟨stanza, hsplit ▸ List.mem_append_right _ List.mem_cons_self, hu, hf, .inl hd⟩

theorem ready (hsort : Sorts (c.tsortInput out) order) (hirrefl : ∀ u, (u, u) ∉ out) :
    Ready out order.reverse where
  nodup := List.nodup_reverse.mpr hsort.nodup
  before := by
    intro done i rest h d hd
    have hsplit : order = rest.reverse ++ i :: done.reverse := by
      rw [← List.reverse_reverse order, h]
      simp
    have hne : i ≠ d := fun heq => hirrefl i (heq ▸ hd)
    exact List.mem_reverse.mp (hsort.before _ i _ hsplit d (List.mem_append_right _ hd) hne)

/-- The first module depends on the second one, and this on a third one. -/
def chain : List (Text × Text) := [(['x'], ['y']), (['y'], ['z'])]

def nic : Text := "nic-pci"

def core : Text := "core"

theorem names_of_all {files : List Text}
    (h : (files.all fun f => !f.isEmpty && f.all fun ch => ' ' < ch) = true) :
    ∀ f ∈ files, f ≠ [] ∧ ∀ ch ∈ f, ' ' < ch := by
  intro f hf
  simpa using List.all_eq_true.1 h f hf

/-- The dependency has the mark. -/
def marked : Lists where
  arch := "i386"
  flavour := "686"
  noModules := false
  packages := [[("Package", nic), ("Depends", "core!")],
    [("Package", core)]]
  files := [nic, core]
  names := names_of_all (by decide)
  named := by decide
  whole := by decide

end Lists

end DebianInstaller.KernelWedge
