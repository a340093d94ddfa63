import DebianInstaller.Debconf.Merge
import DebianInstaller.Lib.Stores

/-!
# Loading a file of templates into the databases

`template_db_loadfile` gives each template of a file to the template database and makes
the question of the same tag point to it. With the merge flag a template that the
database has already is changed in place, and it is this object that the database goes on
to hand out; but the question is made to point to the one from the file.

Templates and questions are objects in memory here, and a database holds pointers.
Databases are stores that may refuse an object because of its type, as stacks do.
-/

namespace DebianInstaller.Debconf

open Text Lib

variable {tag : Text} {ts : List Template}

/-- `struct question`, as far as the loading of templates looks at it. -/
structure QuestionCell where
  tag : Text
  owners : List Text := []
  template : Option Ref := none

/-- A database of pointers. Whether it takes an object depends on the types of objects. -/
abbrev RefStore (σ : Type) := Store Text Ref (Ref → Option Text) σ

/-- The layer of a stack, with the test of `template_db_accept` and `question_db_accept`. -/
def typedLayer (acceptTypes rejectTypes : Option (List Text)) :
    Layer Text Ref (Ref → Option Text) where
  accepts typeOf tag r root :=
    let type := if (typeOf r).getD [] = [] then ((root.tfind tag).bind typeOf).getD []
      else (typeOf r).getD []
    commonAccept type acceptTypes rejectTypes != .reject
  root := ∅

/-- The objects in memory and the two databases; there may be none of questions. -/
structure Databases (σ τ : Type) where
  templates : Ref → Template
  freshTemplate : Ref
  questions : Ref → QuestionCell
  freshQuestion : Ref
  tdb : σ
  qdb : Option τ

variable {σ τ : Type}

namespace Databases

/-- The types of the templates. -/
def templateType (w : Databases σ τ) (r : Ref) : Option Text := (w.templates r).type

/-- The types of the questions. -/
def questionType (w : Databases σ τ) (q : Ref) : Option Text :=
  (w.questions q).template.bind w.templateType

/-- `template_load` has made another template. -/
def alloc (w : Databases σ τ) (t : Template) : Databases σ τ :=
  { w with
    templates := Function.update w.templates w.freshTemplate t
    freshTemplate := w.freshTemplate + 1 }

/-- The template of the database that the new one is merged into, and what it becomes. -/
def mergedInto (T : RefStore σ) (merge : Bool) (t : Template) (w : Databases σ τ) :
    Option (Ref × Template) :=
  if merge then
    (T.get t.tag w.tdb).bind fun old =>
      (templateL10nmerge (w.templates old) t).map fun merged => (old, merged)
  else none

/-- The template database gets the template `r`, which is `t`. -/
def storeTemplate (T : RefStore σ) (merge : Bool) (t : Template) (r : Ref) (w : Databases σ τ) :
    Databases σ τ :=
  match mergedInto T merge t w with
  | some (old, merged) => { w with templates := Function.update w.templates old merged }
  | none => { w with tdb := (T.set w.templateType t.tag r w.tdb).2.2 }

/-- The question of the tag, or a new one, and where there is room after it. -/
def questionFor (Q : RefStore τ) (tag : Text) (qdb : τ) (w : Databases σ τ) :
    Ref × QuestionCell × Ref :=
  match Q.get tag qdb with
  | some q => (q, w.questions q, w.freshQuestion)
  | none => (w.freshQuestion, { tag := tag }, w.freshQuestion + 1)

/-- The question points to the template `r`, and is the owner's. -/
def pointTo (Q : RefStore τ) (owner tag : Text) (r : Ref) (qdb : τ) (w : Databases σ τ) :
    Databases σ τ :=
  let q := w.questionFor Q tag qdb
  { w with
    questions := Function.update w.questions q.1
      { q.2.1 with template := some r, owners := addOwner q.2.1.owners owner }
    freshQuestion := q.2.2 }

/-- The question `q` is given to its database, which adds the owners of the one before. -/
def storeQuestion (Q : RefStore τ) (tag : Text) (q : Ref) (qdb : τ) (w : Databases σ τ) :
    Databases σ τ :=
  let set := Q.set w.questionType tag q qdb
  let owners := (set.2.1.map fun old => (w.questions old).owners).getD []
  { w with
    questions := Function.update w.questions q
      { w.questions q with owners := owners.foldl addOwner (w.questions q).owners }
    qdb := some set.2.2 }

/-- The question of a template. -/
def loadQuestion (Q : RefStore τ) (owner tag : Text) (r : Ref) (w : Databases σ τ) :
    Databases σ τ :=
  match w.qdb with
  | none => w
  | some qdb =>
      (w.pointTo Q owner tag r qdb).storeQuestion Q tag (w.questionFor Q tag qdb).1 qdb

/-- One round of the loop in `template_db_loadfile`. -/
def loadOne (T : RefStore σ) (Q : RefStore τ) (merge : Bool) (owner : Text)
    (w : Databases σ τ) (t : Template) : Databases σ τ :=
  ((w.alloc t).storeTemplate T merge t w.freshTemplate).loadQuestion Q owner t.tag
    w.freshTemplate

/-- The loop over the templates of a file. -/
def loadAll (T : RefStore σ) (Q : RefStore τ) (merge : Bool) (owner : Text)
    (ts : List Template) (w : Databases σ τ) : Databases σ τ :=
  ts.foldl (loadOne T Q merge owner) w

end Databases

/-- `template_db_loadfile`, where it returns. -/
def templateDbLoadfile (env : Env) (T : RefStore σ) (Q : RefStore τ) (merge : Bool)
    (file owner : Text) (w : Databases σ τ) : Option (Databases σ τ) :=
  (templateLoad env file).map fun ts => w.loadAll T Q merge owner ts

namespace Databases

/-! ## Questions and their templates -/

/-- The question of a tag, if there is one, points to the template of the database. -/
def Linked (T : RefStore σ) (Q : RefStore τ) (tag : Text) (w : Databases σ τ) : Prop :=
  ∀ qdb ∈ w.qdb, ∀ q, Q.get tag qdb = some q → (w.questions q).template = T.get tag w.tdb

/-- The databases point to objects that are there, and to questions by their tags. -/
structure Valid (T : RefStore σ) (Q : RefStore τ) (w : Databases σ τ) : Prop where
  template_lt : ∀ tag r, T.get tag w.tdb = some r → r < w.freshTemplate
  question_lt : ∀ qdb ∈ w.qdb, ∀ tag q, Q.get tag qdb = some q → q < w.freshQuestion
  question_tag : ∀ qdb ∈ w.qdb, ∀ tag q, Q.get tag qdb = some q → (w.questions q).tag = tag

/-- The template is merged into one that the database has. -/
def Merges (T : RefStore σ) (merge : Bool) (t : Template) (w : Databases σ τ) : Prop :=
  merge = true ∧ ∃ old, T.get t.tag w.tdb = some old ∧
    ((w.templates old).type = none ∨ (w.templates old).type = t.type)

/-- The template database takes the template, as a new object. -/
def TakesTemplate (T : RefStore σ) (t : Template) (w : Databases σ τ) : Prop :=
  (T.set (w.alloc t).templateType t.tag w.freshTemplate w.tdb).1 = true

/-- The question database takes the question of the template, once it points there. -/
def TakesQuestion (T : RefStore σ) (Q : RefStore τ) (merge : Bool) (owner : Text) (t : Template)
    (w : Databases σ τ) : Prop :=
  let w₁ := (w.alloc t).storeTemplate T merge t w.freshTemplate
  ∃ qdb ∈ w.qdb, (Q.set (w₁.pointTo Q owner t.tag w.freshTemplate qdb).questionType t.tag
    (w.questionFor Q t.tag qdb).1 qdb).1 = true

/-- The question is not taken, or the template is taken and not merged. -/
def KeepsLink (T : RefStore σ) (Q : RefStore τ) (merge : Bool) (owner : Text) (t : Template)
    (w : Databases σ τ) : Prop :=
  w.TakesQuestion T Q merge owner t → ¬ w.Merges T merge t ∧ w.TakesTemplate T t

/-! ## The template of a round -/

variable {T : RefStore σ} {Q : RefStore τ} {merge : Bool} {owner : Text} {t : Template}
  {w : Databases σ τ}

theorem Valid.templates_alloc (hw : w.Valid T Q) {r : Ref} (h : T.get tag w.tdb = some r)
    (t : Template) : (w.alloc t).templates r = w.templates r :=
  Function.update_of_ne (Nat.ne_of_lt (hw.template_lt tag r h)) ..

theorem storeTemplate_cases (hw : w.Valid T Q) (merge : Bool) (t : Template) :
    (w.Merges T merge t ∧ ∃ templates,
        (w.alloc t).storeTemplate T merge t w.freshTemplate =
          { w.alloc t with templates := templates }) ∨
      ¬ w.Merges T merge t ∧ (w.alloc t).storeTemplate T merge t w.freshTemplate =
        { w.alloc t with
          tdb := (T.set (w.alloc t).templateType t.tag w.freshTemplate w.tdb).2.2 } := by
  unfold storeTemplate
  cases hmerged : mergedInto T merge t (w.alloc t) with
  | some m =>
      refine .inl ⟨?_, _, rfl⟩
      unfold mergedInto at hmerged
      split at hmerged
      · next hmerge =>
          obtain ⟨old, hold, hm⟩ := Option.bind_eq_some_iff.mp hmerged
          obtain ⟨merged, hmerge', -⟩ := Option.map_eq_some_iff.mp hm
          refine ⟨hmerge, old, hold, ?_⟩
          rw [hw.templates_alloc hold t] at hmerge'
          unfold templateL10nmerge at hmerge'
          split at hmerge'
          · cases hmerge'
          · next hno =>
              rw [not_and_or, not_not, not_not] at hno
              exact hno
      · cases hmerged
  | none =>
      refine .inr ⟨?_, rfl⟩
      rintro ⟨hmerge, old, hold, htype⟩
      have hold' : T.get t.tag (w.alloc t).tdb = some old := hold
      unfold mergedInto at hmerged
      rw [if_pos hmerge, hold', Option.bind_some, Option.map_eq_none_iff,
        hw.templates_alloc hold t] at hmerged
      unfold templateL10nmerge at hmerged
      rw [if_neg (by rwa [not_and_or, not_not, not_not])] at hmerged
      cases hmerged

theorem get_storeTemplate (hw : w.Valid T Q) (merge : Bool) (t : Template) :
    T.get t.tag ((w.alloc t).storeTemplate T merge t w.freshTemplate).tdb =
        some w.freshTemplate ↔ ¬ w.Merges T merge t ∧ w.TakesTemplate T t := by
  unfold TakesTemplate
  rcases storeTemplate_cases hw merge t with ⟨hmerges, templates, heq⟩ | ⟨hno, heq⟩
  · refine iff_of_false (fun h => ?_) fun h => h.1 hmerges
    rw [heq] at h
    exact Nat.lt_irrefl _ (hw.template_lt _ _ h)
  · rw [heq, and_iff_right hno]
    cases hset : (T.set (w.alloc t).templateType t.tag w.freshTemplate w.tdb).1 with
    | true => exact iff_of_true (T.get_set hset) rfl
    | false =>
        refine iff_of_false (fun h => ?_) Bool.false_ne_true
        cases (T.get_refused hset).symm.trans h

theorem get_storeTemplate_other (hw : w.Valid T Q) (merge : Bool) (htag : tag ≠ t.tag) :
    T.get tag ((w.alloc t).storeTemplate T merge t w.freshTemplate).tdb = T.get tag w.tdb := by
  rcases storeTemplate_cases hw merge t with ⟨-, templates, heq⟩ | ⟨-, heq⟩
  · rw [heq]
    rfl
  · rw [heq]
    exact T.get_other htag

theorem storeTemplate_rest (hw : w.Valid T Q) (merge : Bool) (t : Template) :
    ((w.alloc t).storeTemplate T merge t w.freshTemplate).questions = w.questions ∧
      ((w.alloc t).storeTemplate T merge t w.freshTemplate).qdb = w.qdb ∧
      ((w.alloc t).storeTemplate T merge t w.freshTemplate).freshQuestion = w.freshQuestion ∧
      ((w.alloc t).storeTemplate T merge t w.freshTemplate).freshTemplate =
        w.freshTemplate + 1 := by
  rcases storeTemplate_cases hw merge t with ⟨-, templates, heq⟩ | ⟨-, heq⟩
  · rw [heq]
    exact ⟨rfl, rfl, rfl, rfl⟩
  · rw [heq]
    exact ⟨rfl, rfl, rfl, rfl⟩

theorem Valid.storeTemplate (hw : w.Valid T Q) (merge : Bool) (t : Template) :
    ((w.alloc t).storeTemplate T merge t w.freshTemplate).Valid T Q := by
  obtain ⟨hquestions, hqdb, hfreshQ, hfreshT⟩ := storeTemplate_rest hw merge t
  refine ⟨fun tag r h => ?_, fun qdb hq tag q h => ?_, fun qdb hq tag q h => ?_⟩
  · rw [hfreshT]
    rcases storeTemplate_cases hw merge t with ⟨-, templates, heq⟩ | ⟨-, heq⟩
    · rw [heq] at h
      exact Nat.lt_succ_of_lt (hw.template_lt tag r h)
    · rw [heq] at h
      rcases T.get_set_cases h with ⟨-, rfl⟩ | ⟨-, h⟩
      · exact Nat.lt_succ_self _
      · exact Nat.lt_succ_of_lt (hw.template_lt tag r h)
  · rw [hfreshQ]
    rw [hqdb] at hq
    exact hw.question_lt qdb hq tag q h
  · rw [hquestions]
    rw [hqdb] at hq
    exact hw.question_tag qdb hq tag q h

/-! ## The question of a round -/

/-- What the question database answers when it is given the question of a tag. -/
def questionSet (Q : RefStore τ) (owner tag : Text) (r : Ref) (qdb : τ) (w : Databases σ τ) :
    Bool × Option Ref × τ :=
  Q.set (w.pointTo Q owner tag r qdb).questionType tag (w.questionFor Q tag qdb).1 qdb

theorem questionFor_cases (hw : w.Valid T Q) {qdb : τ} (hqdb : w.qdb = some qdb) (tag : Text) :
    (w.questionFor Q tag qdb).2.1.tag = tag ∧ w.freshQuestion ≤ (w.questionFor Q tag qdb).2.2 ∧
      (w.questionFor Q tag qdb).1 < (w.questionFor Q tag qdb).2.2 ∧
      ∀ tag' ≠ tag, ∀ q, Q.get tag' qdb = some q → q ≠ (w.questionFor Q tag qdb).1 := by
  unfold questionFor
  cases hget : Q.get tag qdb with
  | some q =>
      have htag := hw.question_tag qdb hqdb tag q hget
      refine ⟨htag, Nat.le_refl _, hw.question_lt qdb hqdb tag q hget, fun tag' hne q' h he => ?_⟩
      rw [he] at h
      exact hne ((hw.question_tag qdb hqdb tag' q h).symm.trans htag)
  | none =>
      refine ⟨rfl, Nat.le_succ _, Nat.lt_succ_self _, fun tag' _ q' h he => ?_⟩
      exact Nat.ne_of_lt (hw.question_lt qdb hqdb tag' q' h) he

theorem loadQuestion_spec {qdb : τ} (hqdb : w.qdb = some qdb) (owner tag : Text) (r : Ref) :
    (w.loadQuestion Q owner tag r).qdb = some (w.questionSet Q owner tag r qdb).2.2 ∧
      (w.loadQuestion Q owner tag r).tdb = w.tdb ∧
      (w.loadQuestion Q owner tag r).freshTemplate = w.freshTemplate ∧
      (w.loadQuestion Q owner tag r).freshQuestion = (w.questionFor Q tag qdb).2.2 ∧
      ((w.loadQuestion Q owner tag r).questions (w.questionFor Q tag qdb).1).template = some r ∧
      ((w.loadQuestion Q owner tag r).questions (w.questionFor Q tag qdb).1).tag =
        (w.questionFor Q tag qdb).2.1.tag ∧
      ∀ q, q ≠ (w.questionFor Q tag qdb).1 →
        (w.loadQuestion Q owner tag r).questions q = w.questions q := by
  have heq : w.loadQuestion Q owner tag r =
      (w.pointTo Q owner tag r qdb).storeQuestion Q tag (w.questionFor Q tag qdb).1 qdb := by
    unfold loadQuestion
    rw [hqdb]
  rw [heq]
  refine ⟨rfl, rfl, rfl, rfl, ?_, ?_, fun q hq => ?_⟩
  · simp [storeQuestion, pointTo]
  · simp [storeQuestion, pointTo]
  · unfold storeQuestion pointTo
    simp only
    rw [Function.update_of_ne hq, Function.update_of_ne hq]

theorem loadQuestion_none (hqdb : w.qdb = none) (owner tag : Text) (r : Ref) :
    w.loadQuestion Q owner tag r = w := by
  unfold loadQuestion
  rw [hqdb]

theorem Valid.loadQuestion (hw : w.Valid T Q) (owner tag : Text) (r : Ref) :
    (w.loadQuestion Q owner tag r).Valid T Q := by
  cases hqdb : w.qdb with
  | none => rwa [loadQuestion_none hqdb]
  | some qdb =>
      obtain ⟨hq, ht, hfreshT, hfreshQ, -, htag, hother⟩ :=
        loadQuestion_spec hqdb (Q := Q) owner tag r
      obtain ⟨hcell, hle, hlt, hne⟩ := questionFor_cases hw hqdb tag
      refine ⟨fun tag' r' h => ?_, fun qdb' hq' tag' q h => ?_, fun qdb' hq' tag' q h => ?_⟩
      · rw [hfreshT]
        rw [ht] at h
        exact hw.template_lt tag' r' h
      · obtain rfl := Option.some.inj (hq.symm.trans hq')
        rw [hfreshQ]
        rcases Q.get_set_cases h with ⟨-, rfl⟩ | ⟨-, h⟩
        · exact hlt
        · exact Nat.lt_of_lt_of_le (hw.question_lt qdb hqdb tag' q h) hle
      · obtain rfl := Option.some.inj (hq.symm.trans hq')
        rcases Q.get_set_cases h with ⟨rfl, rfl⟩ | ⟨htag', h⟩
        · exact htag.trans hcell
        · rw [hother q (hne tag' htag' q h)]
          exact hw.question_tag qdb hqdb tag' q h

theorem linked_loadQuestion {qdb : τ} (hqdb : w.qdb = some qdb) (owner tag : Text) (r : Ref) :
    (w.loadQuestion Q owner tag r).Linked T Q tag ↔
      ((w.questionSet Q owner tag r qdb).1 = true → T.get tag w.tdb = some r) := by
  obtain ⟨hq, ht, -, -, htemplate, -, -⟩ := loadQuestion_spec hqdb (Q := Q) owner tag r
  unfold Linked
  rw [ht]
  constructor
  · intro h hset
    exact ((h _ hq _ (Q.get_set hset)).symm.trans htemplate)
  · intro h qdb' hq' q hget
    obtain rfl := Option.some.inj (hq.symm.trans hq')
    cases hset : (w.questionSet Q owner tag r qdb).1 with
    | true =>
        obtain rfl := Option.some.inj ((Q.get_set hset).symm.trans hget)
        rw [htemplate, h hset]
    | false => cases (Q.get_refused hset).symm.trans hget

theorem linked_loadQuestion_other (hw : w.Valid T Q) (owner : Text) {tag' : Text} (hne : tag' ≠ tag)
    (r : Ref) : (w.loadQuestion Q owner tag r).Linked T Q tag' ↔ w.Linked T Q tag' := by
  cases hqdb : w.qdb with
  | none => rw [loadQuestion_none hqdb]
  | some qdb =>
      obtain ⟨hq, ht, -, -, -, -, hother⟩ := loadQuestion_spec hqdb (Q := Q) owner tag r
      obtain ⟨-, -, -, hqne⟩ := questionFor_cases hw hqdb tag
      have hget : Q.get tag' (w.questionSet Q owner tag r qdb).2.2 = Q.get tag' qdb :=
        Q.get_other hne
      unfold Linked
      rw [hq, hqdb, ht]
      constructor
      · intro h qdb' hqdb' q hq'
        obtain rfl := Option.some.inj hqdb'
        have hlinked := h _ rfl q (hget.trans hq')
        rwa [hother q (hqne tag' hne q hq')] at hlinked
      · intro h qdb' hqdb' q hq'
        obtain rfl := Option.some.inj hqdb'
        rw [hget] at hq'
        rw [hother q (hqne tag' hne q hq')]
        exact h _ rfl q hq'

/-! ## The rounds -/

theorem Valid.loadOne (hw : w.Valid T Q) (merge : Bool) (owner : Text) (t : Template) :
    (w.loadOne T Q merge owner t).Valid T Q := (hw.storeTemplate merge t).loadQuestion _ _ _

theorem linked_loadOne (hw : w.Valid T Q) (merge : Bool) (owner : Text) (t : Template) :
    (w.loadOne T Q merge owner t).Linked T Q t.tag ↔ w.KeepsLink T Q merge owner t := by
  obtain ⟨hquestions, hqdb, hfreshQ, -⟩ := storeTemplate_rest hw merge t
  unfold KeepsLink TakesQuestion Databases.loadOne
  cases hq : w.qdb with
  | none =>
      rw [loadQuestion_none (hqdb.trans hq)]
      refine iff_of_true (fun qdb h => ?_) ?_
      · rw [hqdb, hq] at h
        cases h
      · rintro ⟨qdb, h, -⟩
        cases h
  | some qdb =>
      have hfor : ((w.alloc t).storeTemplate T merge t w.freshTemplate).questionFor Q t.tag qdb =
          w.questionFor Q t.tag qdb := by
        unfold questionFor
        rw [hquestions, hfreshQ]
      rw [linked_loadQuestion (hqdb.trans hq), get_storeTemplate hw]
      unfold questionSet
      rw [hfor]
      constructor
      · rintro h ⟨qdb', hq', hset⟩
        obtain rfl := Option.some.inj hq'
        exact h hset
      · exact fun h hset => h ⟨qdb, rfl, hset⟩

theorem linked_loadOne_other (hw : w.Valid T Q) (merge : Bool) (owner : Text) (hne : tag ≠ t.tag) :
    (w.loadOne T Q merge owner t).Linked T Q tag ↔ w.Linked T Q tag := by
  obtain ⟨hquestions, hqdb, -, -⟩ := storeTemplate_rest hw merge t
  unfold Databases.loadOne
  rw [linked_loadQuestion_other (hw.storeTemplate merge t) owner hne]
  unfold Linked
  rw [hquestions, hqdb, get_storeTemplate_other hw merge hne]

theorem Valid.loadAll (hw : w.Valid T Q) (merge : Bool) (owner : Text) (ts : List Template) :
    (w.loadAll T Q merge owner ts).Valid T Q := by
  induction ts generalizing w with
  | nil => exact hw
  | cons t ts ih => exact ih (hw.loadOne merge owner t)

theorem linked_loadAll_other (hw : w.Valid T Q) (merge : Bool) (owner : Text)
    (hne : tag ∉ ts.map Template.tag) :
    (w.loadAll T Q merge owner ts).Linked T Q tag ↔ w.Linked T Q tag := by
  induction ts generalizing w with
  | nil => exact Iff.rfl
  | cons t ts ih =>
      rw [List.map_cons, List.mem_cons, not_or] at hne
      exact (ih (hw.loadOne merge owner t) hne.2).trans (linked_loadOne_other hw merge owner hne.1)

theorem linked_loadAll (hw : w.Valid T Q) (merge : Bool) (owner : Text) (pre : List Template)
    (t : Template) {post : List Template} (hlast : t.tag ∉ post.map Template.tag) :
    (w.loadAll T Q merge owner (pre ++ t :: post)).Linked T Q t.tag ↔
      (w.loadAll T Q merge owner pre).KeepsLink T Q merge owner t := by
  have hpre := hw.loadAll merge owner pre
  have hsplit : w.loadAll T Q merge owner (pre ++ t :: post) =
      ((w.loadAll T Q merge owner pre).loadOne T Q merge owner t).loadAll T Q merge owner post := by
    unfold Databases.loadAll
    rw [List.foldl_append, List.foldl_cons]
  rw [hsplit, linked_loadAll_other (hpre.loadOne merge owner t) merge owner hlast,
    linked_loadOne hpre]

end Databases

theorem exists_last (h : tag ∈ ts.map Template.tag) :
    ∃ pre t post, ts = pre ++ t :: post ∧ t.tag = tag ∧ tag ∉ post.map Template.tag := by
  induction ts with
  | nil => cases h
  | cons t ts ih =>
      by_cases hmem : tag ∈ ts.map Template.tag
      · obtain ⟨pre, t', post, rfl, htag, hlast⟩ := ih hmem
        exact ⟨t :: pre, t', post, rfl, htag, hlast⟩
      · rcases List.mem_cons.mp h with htag | h
        · exact ⟨[], t, ts, rfl, htag.symm, hmem⟩
        · exact absurd h hmem

/-- The questions of a file point to the templates of the database exactly if each template
that is the last one of its tag is taken and not merged, or its question is not taken. -/
theorem templateDbLoadfile_linked_iff (T : RefStore σ) (Q : RefStore τ) (merge : Bool)
    (owner : Text) {w : Databases σ τ} (hw : w.Valid T Q) {env : Env} {file : Text}
    {ts : List Template} (hload : templateLoad env file = some ts) :
    (∃ w', templateDbLoadfile env T Q merge file owner w = some w' ∧
        ∀ t ∈ ts, w'.Linked T Q t.tag) ↔
      ∀ pre t post, ts = pre ++ t :: post → t.tag ∉ post.map Template.tag →
        (w.loadAll T Q merge owner pre).KeepsLink T Q merge owner t := by
  have hrun : templateDbLoadfile env T Q merge file owner w =
      some (w.loadAll T Q merge owner ts) := by
    unfold templateDbLoadfile
    rw [hload]
    rfl
  rw [hrun]
  constructor
  · rintro ⟨w', hw', hlinked⟩ pre t post rfl hlast
    obtain rfl := Option.some.inj hw'
    exact (Databases.linked_loadAll hw merge owner pre t hlast).mp (hlinked t (by simp))
  · intro h
    refine ⟨_, rfl, fun t ht => ?_⟩
    obtain ⟨pre, t', post, rfl, htag, hlast⟩ := exists_last (List.mem_map_of_mem (f := Template.tag) ht)
    rw [← htag] at hlast ⊢
    exact (Databases.linked_loadAll hw merge owner pre t' hlast).mpr (h pre t' post rfl hlast)

/-! ## A template that is there already -/

/-- Databases that take everything; the template `a` has been loaded before. -/
def loadedBefore : Databases (List (Layer Text Ref (Ref → Option Text)))
    (List (Layer Text Ref (Ref → Option Text))) where
  templates := fun _ => templateNew "a"
  freshTemplate := 1
  questions := fun _ => { tag := "a" }
  freshQuestion := 0
  tdb := [{ typedLayer none none with root := (∅ : Tree Text Ref).tsearch "a" 0 }]
  qdb := some [typedLayer none none]

theorem loadedBefore_get (tag : Text) : layers.get tag loadedBefore.tdb =
    if tag = "a" then some 0 else none := by
  show getLayers tag [_] = _
  rw [getLayers_cons]
  split
  · next h => rw [h, Tree.tfind_tsearch_self]; rfl
  · next h => rw [Tree.tfind_tsearch_of_ne h]; rfl

theorem loadedBefore_valid : loadedBefore.Valid layers layers := by
  refine ⟨fun tag r h => ?_, fun qdb hq tag q h => ?_, fun qdb hq tag q h => ?_⟩
  · rw [loadedBefore_get] at h
    split at h
    · obtain rfl := Option.some.inj h
      exact Nat.one_pos
    · cases h
  · obtain rfl := Option.some.inj hq
    cases h
  · obtain rfl := Option.some.inj hq
    cases h

theorem templateLoad_a : templateLoad {} "Template: a\n" = some [templateNew "a"] :=
  rfl

/-- Without the flag the database takes the new template. -/
theorem templateDbLoadfile_set :
    ∃ w', templateDbLoadfile {} layers layers false "Template: a\n" [] loadedBefore =
        some w' ∧ ∀ t ∈ [templateNew "a"], w'.Linked layers layers t.tag := by
  refine (templateDbLoadfile_linked_iff layers layers false [] loadedBefore_valid
    templateLoad_a).mpr fun pre t post hts _ _ => ⟨fun h => Bool.false_ne_true h.1, ?_⟩
  obtain ⟨rfl, rfl, rfl⟩ : pre = [] ∧ t = templateNew "a" ∧ post = [] := by
    cases pre with
    | nil => exact ⟨rfl, (List.cons.inj hts).1.symm, (List.cons.inj hts).2.symm⟩
    | cons p pre => simp at hts
  rfl

/-- With the flag the question points to the template of the file, and the database keeps the
one it has. -/
theorem templateDbLoadfile_merged :
    ¬ ∃ w', templateDbLoadfile {} layers layers true "Template: a\n" [] loadedBefore =
        some w' ∧ ∀ t ∈ [templateNew "a"], w'.Linked layers layers t.tag := by
  rintro ⟨w', hw', hlinked⟩
  obtain rfl := Option.some.inj hw'
  have hlast : "a".toList ∉ ([] : List Template).map Template.tag := nofun
  have hkeeps := (Databases.linked_loadAll loadedBefore_valid true [] []
    (templateNew "a") hlast).mp (hlinked _ List.mem_cons_self)
  have hmerges := (hkeeps ⟨_, rfl, rfl⟩).1
  exact hmerges ⟨rfl, 0, (loadedBefore_get _).trans (if_pos rfl), .inl rfl⟩

end DebianInstaller.Debconf
