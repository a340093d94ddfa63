import DebianInstaller.Packages.Basic

/-!
# The answer to anna's question

The end of `choose_modules`: the packages whose `status_want` is unknown are offered, and then
every package of the list is marked for installation whose name `strstr` finds in the answer,
not only those that were offered. A name is found in the answer if it is in one of the names that
were chosen. As long as no name has a comma or a blank, or is empty, it is found nowhere else:
what is around a comma belongs to two names.
-/

namespace DebianInstaller.Packages

variable {ι : Type}

variable {s : Char} {w x y : Text} {words : List (Text × Text)}

/-! ## The code -/

/-- The packages that are offered. -/
def asklist (packages : Packages ι) : List ι :=
  packages.list.filter fun p => (packages.table p).statusWant = .unknown

section Code

variable [DecidableEq ι]

/-- One package of the list, when there is an answer. -/
def markFound (choices : Text) (table : ι → Package ι) (p : ι) : ι → Package ι :=
  if (table p).package <:+: choices then
    Function.update table p { table p with statusWant := .install }
  else table

/-- `choose_modules`, from `debconf_go` on: what it returns, and the packages. -/
def chooseModules (go : Int) (value : Option Text) (packages : Packages ι) : Int × Packages ι :=
  if go = 30 then (1, packages)
  else
    match value with
    | none => (0, packages)
    | some choices =>
        (0, { packages with table := packages.list.foldl (markFound choices) packages.table })

end Code

/-! ## Answers -/

/-- Texts with a comma and some blanks between them. -/
def commaSeparated : List (Text × Text) → Text
  | [] => []
  | [(w, _)] => w
  | (w, blanks) :: c :: cs => w ++ ',' :: (blanks ++ commaSeparated (c :: cs))

/-- Some of the packages that are offered, each with the blanks behind its comma. -/
structure Answer (packages : Packages ι) where
  chosen : List (ι × Text)
  offered : ∀ c ∈ chosen, c.1 ∈ asklist packages
  blanks : ∀ c ∈ chosen, ∀ x ∈ c.2, x = ' '

namespace Answer

variable {packages : Packages ι}

def names (answer : Answer packages) : List Text :=
  answer.chosen.map fun c => (packages.table c.1).package

def text (answer : Answer packages) : Text :=
  commaSeparated (answer.chosen.map fun c => ((packages.table c.1).package, c.2))

end Answer

/-- The packages of the list that have one of the names are marked, and no other one changes. -/
def MarksNamed (packages : Packages ι) (names : List Text) (table : ι → Package ι) : Prop :=
  ∀ p, (p ∈ packages.list ∧ (packages.table p).package ∈ names →
      table p = { packages.table p with statusWant := .install }) ∧
    (¬ (p ∈ packages.list ∧ (packages.table p).package ∈ names) → table p = packages.table p)

/-- A name that can be told from what is around it. -/
structure OneWord (w : Text) : Prop where
  ne_nil : w ≠ []
  noComma : ',' ∉ w
  noBlank : ' ' ∉ w

/-! ## Names in an answer -/

theorem prefix_append_cons (hs : s ∉ w) (h : w <+: x ++ s :: y) : w <+: x := by
  induction w generalizing x with
  | nil => exact List.nil_prefix
  | cons c w ih =>
      cases x with
      | nil =>
          obtain ⟨rfl, -⟩ := List.cons_prefix_cons.1 h
          exact absurd List.mem_cons_self hs
      | cons d x =>
          obtain ⟨rfl, hrest⟩ := List.cons_prefix_cons.1 h
          have hprefix := ih (fun hmem => hs (List.mem_cons_of_mem _ hmem)) hrest
          exact List.cons_prefix_cons.2 ⟨rfl, hprefix⟩

theorem infix_append_cons (hs : s ∉ w) (h : w <:+: x ++ s :: y) : w <:+: x ∨ w <:+: y := by
  induction x with
  | nil =>
      rcases List.infix_cons_iff.1 h with hprefix | hinfix
      · exact .inl (prefix_append_cons (x := []) hs hprefix).isInfix
      · exact .inr hinfix
  | cons c x ih =>
      rcases List.infix_cons_iff.1 h with hprefix | hinfix
      · exact .inl (prefix_append_cons (x := c :: x) hs hprefix).isInfix
      · rcases ih hinfix with hleft | hright
        · exact .inl (List.infix_cons hleft)
        · exact .inr hright

theorem infix_of_blanks {blanks : Text} (hw : OneWord w) (hblanks : ∀ x ∈ blanks, x = ' ')
    (h : w <:+: blanks ++ y) : w <:+: y := by
  induction blanks with
  | nil => exact h
  | cons c blanks ih =>
      obtain rfl := hblanks c List.mem_cons_self
      rcases infix_append_cons (x := []) hw.noBlank h with hnil | hrest
      · exact absurd (List.infix_nil.1 hnil) hw.ne_nil
      · exact ih (fun x hx => hblanks x (List.mem_cons_of_mem _ hx)) hrest

theorem infix_commaSeparated (hw : OneWord w) (hblanks : ∀ c ∈ words, ∀ x ∈ c.2, x = ' ')
    (h : w <:+: commaSeparated words) : ∃ c ∈ words, w <:+: c.1 := by
  induction words with
  | nil => exact absurd (List.infix_nil.1 h) hw.ne_nil
  | cons c words ih =>
      cases words with
      | nil => exact ⟨c, List.mem_cons_self, h⟩
      | cons d words =>
          rcases infix_append_cons hw.noComma h with hword | hrest
          · exact ⟨c, List.mem_cons_self, hword⟩
          · have hrest := infix_of_blanks hw (hblanks c List.mem_cons_self) hrest
            obtain ⟨e, he, hin⟩ :=
              ih (fun e he => hblanks e (List.mem_cons_of_mem _ he)) hrest
            exact ⟨e, List.mem_cons_of_mem _ he, hin⟩

theorem infix_of_mem_commaSeparated {c : Text × Text} (hc : c ∈ words) :
    c.1 <:+: commaSeparated words := by
  induction words with
  | nil => nomatch hc
  | cons d words ih =>
      cases words with
      | nil =>
          obtain rfl := List.mem_singleton.1 hc
          exact List.infix_refl _
      | cons e words =>
          have hsplit : commaSeparated (d :: e :: words)
              = d.1 ++ ([','] ++ d.2) ++ commaSeparated (e :: words) := by
            simp [commaSeparated]
          rw [hsplit]
          rcases List.mem_cons.1 hc with rfl | hrest
          · exact ((List.prefix_append _ _).trans (List.prefix_append _ _)).isInfix
          · exact (ih hrest).trans (List.suffix_append _ _).isInfix

namespace Answer

variable {packages : Packages ι}

theorem infix_text (answer : Answer packages) (hw : w ∈ answer.names) : w <:+: answer.text := by
  obtain ⟨c, hc, rfl⟩ := List.mem_map.1 hw
  exact infix_of_mem_commaSeparated (c := ((packages.table c.1).package, c.2))
    (List.mem_map.2 ⟨c, hc, rfl⟩)

theorem infix_names (answer : Answer packages) (hw : OneWord w) (h : w <:+: answer.text) :
    ∃ n ∈ answer.names, w <:+: n := by
  obtain ⟨c, hc, hin⟩ := infix_commaSeparated hw (by
    intro c hc
    obtain ⟨d, hd, rfl⟩ := List.mem_map.1 hc
    exact answer.blanks d hd) h
  obtain ⟨d, hd, rfl⟩ := List.mem_map.1 hc
  exact ⟨_, List.mem_map.2 ⟨d, hd, rfl⟩, hin⟩

theorem infix_text_iff (answer : Answer packages) (hw : OneWord w) :
    w <:+: answer.text ↔ ∃ n ∈ answer.names, w <:+: n := by
  constructor
  · exact answer.infix_names hw
  · rintro ⟨n, hn, hin⟩
    exact hin.trans (answer.infix_text hn)

end Answer

/-! ## The packages that are marked -/

section Marks

variable [DecidableEq ι]

@[simp]
theorem markFound_package (choices : Text) (table : ι → Package ι) (p q : ι) :
    (markFound choices table p q).package = (table q).package := by
  unfold markFound
  split
  · rcases eq_or_ne q p with rfl | hne
    · rw [Function.update_self]
    · rw [Function.update_of_ne hne]
  · rfl

theorem markFound_of_ne (choices : Text) (table : ι → Package ι) {p q : ι} (hne : q ≠ p) :
    markFound choices table p q = table q := by
  unfold markFound
  split
  · rw [Function.update_of_ne hne]
  · rfl

theorem markFound_self (choices : Text) (table : ι → Package ι) (p : ι) :
    markFound choices table p p
      = if (table p).package <:+: choices then { table p with statusWant := .install }
        else table p := by
  unfold markFound
  split
  · rw [Function.update_self]
  · rfl

theorem foldl_markFound (choices : Text) (list : List ι) (table : ι → Package ι) (q : ι) :
    list.foldl (markFound choices) table q
      = if q ∈ list ∧ (table q).package <:+: choices then
          { table q with statusWant := .install }
        else table q := by
  induction list generalizing table with
  | nil => rw [List.foldl_nil, if_neg (fun h => nomatch h.1)]
  | cons p list ih =>
      rw [List.foldl_cons, ih, markFound_package]
      rcases eq_or_ne q p with rfl | hne
      · rw [markFound_self]
        by_cases hfound : (table q).package <:+: choices
        · by_cases hmem : q ∈ list <;> simp [hfound, hmem]
        · simp [hfound]
      · rw [markFound_of_ne _ _ hne]
        simp [hne]

theorem chooseModules_table {go : Int} (hgo : go ≠ 30) (choices : Text) (packages : Packages ι)
    (q : ι) :
    (chooseModules go (some choices) packages).2.table q
      = if q ∈ packages.list ∧ (packages.table q).package <:+: choices then
          { packages.table q with statusWant := .install }
        else packages.table q := by
  rw [chooseModules, if_neg hgo]
  exact foldl_markFound choices packages.list packages.table q

end Marks

theorem marked_eq_iff {package : Package ι} :
    { package with statusWant := PackageStatusWant.install } = package
      ↔ package.statusWant = .install := by
  constructor
  · intro h
    rw [← h]
  · intro h
    rw [← h]

/-! ## Which answers are followed -/

variable [DecidableEq ι] {packages : Packages ι}

/-- What is marked is what was chosen, except for a package of the list, not yet marked, whose
name is found in the answer and was not chosen; for names that are words, in a name that was. -/
theorem chooseModules_iff {go : Int} (hgo : go ≠ 30) (answer : Answer packages) :
    (MarksNamed packages answer.names (chooseModules go (some answer.text) packages).2.table ↔
      ∀ p ∈ packages.list, (packages.table p).statusWant ≠ .install →
        (packages.table p).package <:+: answer.text →
          (packages.table p).package ∈ answer.names) ∧
    ((∀ p ∈ packages.list, OneWord (packages.table p).package) →
      (MarksNamed packages answer.names (chooseModules go (some answer.text) packages).2.table ↔
        ∀ p ∈ packages.list, (packages.table p).statusWant ≠ .install →
          ∀ n ∈ answer.names, (packages.table p).package <:+: n →
            (packages.table p).package ∈ answer.names)) := by
  have hmarks :
      MarksNamed packages answer.names (chooseModules go (some answer.text) packages).2.table ↔
        ∀ p ∈ packages.list, (packages.table p).statusWant ≠ .install →
          (packages.table p).package <:+: answer.text →
            (packages.table p).package ∈ answer.names := by
    constructor
    · intro h p hp hwant hfound
      by_contra hnot
      have hsame := (h p).2 (fun hnamed => hnot hnamed.2)
      rw [chooseModules_table hgo, if_pos ⟨hp, hfound⟩] at hsame
      exact hwant (marked_eq_iff.1 hsame)
    · intro h p
      rw [chooseModules_table hgo]
      constructor
      · rintro ⟨hp, hnamed⟩
        rw [if_pos ⟨hp, answer.infix_text hnamed⟩]
      · intro hnot
        by_cases hfound : p ∈ packages.list ∧ (packages.table p).package <:+: answer.text
        · have hwant : (packages.table p).statusWant = .install := by
            by_contra hwant
            exact hnot ⟨hfound.1, h p hfound.1 hwant hfound.2⟩
          rw [if_pos hfound, marked_eq_iff.2 hwant]
        · rw [if_neg hfound]
  refine ⟨hmarks, fun hwords => hmarks.trans ?_⟩
  refine forall₂_congr fun p hp => forall_congr' fun _ => ?_
  rw [answer.infix_text_iff (hwords p hp)]
  exact ⟨fun h n hn hin => h ⟨n, hn, hin⟩, fun h ⟨n, hn, hin⟩ => h n hn hin⟩

/-! ## One name in another -/

/-- Two packages on offer, and nothing else known about them. -/
def nicModules (one other : Text) : Packages Bool where
  table p := { package := if p then one else other }
  list := [true, false]
  resolver := 0#32

def onlyTheFirst (one other : Text) : Answer (nicModules one other) where
  chosen := [(true, [])]
  offered := by simp [asklist, nicModules]
  blanks := by simp

theorem chooseModules_ppp :
    MarksNamed (nicModules "ppp-udeb" "nic-modules")
      (onlyTheFirst "ppp-udeb" "nic-modules").names
      (chooseModules 0 (some (onlyTheFirst "ppp-udeb" "nic-modules").text)
        (nicModules "ppp-udeb" "nic-modules")).2.table := by
  refine (chooseModules_iff (by decide) (onlyTheFirst _ _)).1.2 ?_
  decide

/-- Who chooses `nic-modules-extra` gets `nic-modules` too. -/
theorem chooseModules_extra :
    ¬ MarksNamed (nicModules "nic-modules-extra" "nic-modules")
      (onlyTheFirst "nic-modules-extra" "nic-modules").names
      (chooseModules 0
        (some (onlyTheFirst "nic-modules-extra" "nic-modules").text)
        (nicModules "nic-modules-extra" "nic-modules")).2.table := by
  intro h
  have hsame := (h false).2 (by decide)
  have hwant := congrArg Package.statusWant hsame
  revert hwant
  decide

end DebianInstaller.Packages
