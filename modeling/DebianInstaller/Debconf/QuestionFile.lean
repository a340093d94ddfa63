import DebianInstaller.Debconf.Fields
import Mathlib.Algebra.Order.BigOperators.Group.List
import Mathlib.Algebra.Order.Group.Nat
import Mathlib.Data.List.Perm.Subperm

/-!
# What a question database keeps

A database that is saved and loaded again has the questions it had, as far as they
can be written. The questions are read one by one, each under the tag it is read
with; a database whose tags are all found again has lost none of them on the way.
-/

namespace DebianInstaller.Debconf

open Text Lib

variable {db : QuestionDb} {h : Heap} {q : Question} {tag : Text} {tdb : TemplateDb}

/-! ## Questions -/

/-- What a database keeps of a question under its tag. -/
structure Record where
  templateTag : Text
  value : Option Text
  owners : List Text
  seen : Bool
  vars : List (Text × Text)
  deriving DecidableEq

def Question.record (q : Question) : Record where
  templateTag := q.templateTag
  value := q.value
  owners := q.owners
  seen := q.seen
  vars := q.vars

/-- A question whose fields are read back as they are. -/
structure Question.FieldsStorable (q : Question) : Prop where
  template : Plain q.templateTag
  value : ∀ v ∈ q.value, Plain v
  owners : OwnersStorable q.owners
  vars : ∀ p ∈ q.vars, VariableStorable p

/-- And whose tag is, too. -/
structure Question.Storable (q : Question) : Prop extends q.FieldsStorable where
  tag : Plain q.tag

/-- The templates are found under their tags. -/
def TemplateDb.Tagged (tdb : TemplateDb) : Prop :=
  ∀ tag t, templateDbGet tdb tag = some t → t.tag = tag

theorem templateDbGet_set_self (tdb : TemplateDb) (t : Template) :
    templateDbGet (templateDbSet tdb t) t.tag = some t := tdb.root.tfind_replace_self _ t

theorem templateDbGet_set_of_ne {t : Template} (h : tag ≠ t.tag) :
    templateDbGet (templateDbSet tdb t) tag = templateDbGet tdb tag :=
  Tree.tfind_replace_of_ne h

theorem TemplateDb.Tagged.set (h : tdb.Tagged) (t : Template) : (templateDbSet tdb t).Tagged := by
  intro tag t' hget
  by_cases htag : tag = t.tag
  · subst htag
    rw [templateDbGet_set_self] at hget
    rw [← Option.some.inj hget]
  · rw [templateDbGet_set_of_ne htag] at hget
    exact h tag t' hget

theorem templateDbGet_set_ne_none (t : Template) (h : templateDbGet tdb tag ≠ none) :
    templateDbGet (templateDbSet tdb t) tag ≠ none := by
  by_cases htag : tag = t.tag
  · subst htag
    rw [templateDbGet_set_self]
    exact Option.some_ne_none _
  · rwa [templateDbGet_set_of_ne htag]

/-- The question that the fields of a stanza make, before it has its template. -/
def readFields (q : Question) : Question :=
  let r := questionSetvalue (questionNew (storedText q.tag)) (q.value.map storedText)
  let r := parseFlags r (if q.seen then some "seen" else none)
  let r := parseOwners r (if q.owners = [] then none else some (storedOwners q.owners))
  parseVariables r (if q.vars = [] then none else some (storedVariables q.vars))

theorem foldl_ownerAdd_fields (os : List Text) (q : Question) :
    (os.foldl questionOwnerAdd q).tag = q.tag ∧ (os.foldl questionOwnerAdd q).value = q.value ∧
      (os.foldl questionOwnerAdd q).seen = q.seen ∧
      (os.foldl questionOwnerAdd q).vars = q.vars := by
  induction os generalizing q with
  | nil => exact ⟨rfl, rfl, rfl, rfl⟩
  | cons o os ih => exact ih _

theorem foldl_variableAdd_fields (ps : List (Text × Text)) (q : Question) :
    (ps.foldl (fun q p => questionVariableAdd q p.1 p.2) q).tag = q.tag ∧
      (ps.foldl (fun q p => questionVariableAdd q p.1 p.2) q).value = q.value ∧
      (ps.foldl (fun q p => questionVariableAdd q p.1 p.2) q).seen = q.seen ∧
      (ps.foldl (fun q p => questionVariableAdd q p.1 p.2) q).owners = q.owners := by
  induction ps generalizing q with
  | nil => exact ⟨rfl, rfl, rfl, rfl⟩
  | cons p ps ih => exact ih _

theorem parseOwners_fields (q : Question) (t : Option Text) :
    (parseOwners q t).tag = q.tag ∧ (parseOwners q t).value = q.value ∧
      (parseOwners q t).seen = q.seen ∧ (parseOwners q t).vars = q.vars := by
  cases t with
  | none => exact ⟨rfl, rfl, rfl, rfl⟩
  | some t => exact foldl_ownerAdd_fields _ q

theorem parseVariables_fields (q : Question) (t : Option Text) :
    (parseVariables q t).tag = q.tag ∧ (parseVariables q t).value = q.value ∧
      (parseVariables q t).seen = q.seen ∧ (parseVariables q t).owners = q.owners := by
  cases t with
  | none => exact ⟨rfl, rfl, rfl, rfl⟩
  | some t => exact foldl_variableAdd_fields _ q

theorem readFields_scalars (q : Question) :
    (readFields q).tag = storedText q.tag ∧ (readFields q).value = q.value.map storedText ∧
      (readFields q).seen = q.seen := by
  have hflags : ∀ r : Question, r.seen = false →
      parseFlags r (if q.seen then some "seen" else none) = { r with seen := q.seen } := by
    intro r hr
    cases q.seen with
    | false =>
        show r = _
        rw [← hr]
    | true =>
        show questionSetFlag r "seen" = _
        simp [questionSetFlag, flagValue]
  unfold readFields
  dsimp only
  obtain ⟨ht, hv, hs, -⟩ := parseVariables_fields _
    (if q.vars = [] then none else some (storedVariables q.vars))
  rw [ht, hv, hs]
  obtain ⟨ht, hv, hs, -⟩ := parseOwners_fields _
    (if q.owners = [] then none else some (storedOwners q.owners))
  rw [ht, hv, hs, hflags _ rfl]
  exact ⟨rfl, rfl, rfl⟩

theorem parseFlags_fields (q : Question) (t : Option Text) :
    (parseFlags q t).owners = q.owners ∧ (parseFlags q t).vars = q.vars := by
  have hfold : ∀ (fs : List Text) (q : Question),
      (fs.foldl questionSetFlag q).owners = q.owners ∧
        (fs.foldl questionSetFlag q).vars = q.vars := by
    intro fs
    induction fs with
    | nil => exact fun q => ⟨rfl, rfl⟩
    | cons f fs ih => exact fun q => ih _
  cases t with
  | none => exact ⟨rfl, rfl⟩
  | some t => exact hfold _ q

theorem readFields_owners_iff (q : Question) :
    (readFields q).owners = q.owners ↔ OwnersStorable q.owners := by
  unfold readFields
  dsimp only
  rw [(parseVariables_fields _ _).2.2.2]
  by_cases h : q.owners = []
  · rw [if_pos h, h, parseOwners, (parseFlags_fields _ _).1]
    exact iff_of_true rfl trivial
  · rw [if_neg h, parseOwners, owners_foldl, (parseFlags_fields _ _).1]
    exact owners_read_iff q.owners q.owners_nodup h

theorem readFields_vars_iff (q : Question) :
    (readFields q).vars = q.vars ↔ ∀ p ∈ q.vars, VariableStorable p := by
  have hempty : ∀ t, (parseOwners (parseFlags (questionSetvalue (questionNew (storedText q.tag))
      (q.value.map storedText)) (if q.seen then some "seen" else none)) t).vars = [] := by
    intro t
    rw [(parseOwners_fields _ t).2.2.2, (parseFlags_fields _ _).2]
    rfl
  unfold readFields
  dsimp only
  by_cases h : q.vars = []
  · rw [if_pos h, h, parseVariables, hempty]
    simp
  · rw [if_neg h, parseVariables, vars_foldl, hempty]
    exact variables_read_iff q.vars q.vars_nodup h

theorem optionMap_storedText_iff (v : Option Text) :
    v.map storedText = v ↔ ∀ t ∈ v, Plain t := by
  cases v with
  | none => simp
  | some t => simp [storedText_eq_iff]

theorem loadStanza_entries (htdb : tdb.Tagged) (htemplate : templateDbGet tdb q.templateTag ≠ none)
    (htag : storedText q.tag ≠ []) :
    ∃ r tdb', loadStanza tdb (q.entries.map Entry.parsed) = some (r, tdb') ∧
      r.tag = storedText q.tag ∧ (r.record = q.record ↔ q.FieldsStorable) ∧ tdb'.Tagged ∧
      ∀ tag, templateDbGet tdb tag ≠ none → templateDbGet tdb' tag ≠ none := by
  have hfields : ∀ t : Template,
      (t.tag = q.templateTag ↔ Plain q.templateTag) →
      (({ readFields q with template := some t } : Question).record = q.record ↔
        q.FieldsStorable) := by
    intro t ht
    obtain ⟨-, hvalue, hseen⟩ := readFields_scalars q
    constructor
    · intro h
      have hv := congrArg Record.value h
      exact ⟨ht.mp (congrArg Record.templateTag h),
        (optionMap_storedText_iff _).mp (hvalue.symm.trans hv),
        (readFields_owners_iff q).mp (congrArg Record.owners h),
        (readFields_vars_iff q).mp (congrArg Record.vars h)⟩
    · rintro ⟨htpl, hval, howners, hvars⟩
      have hv := hvalue.trans ((optionMap_storedText_iff _).mpr hval)
      have ho := (readFields_owners_iff q).mpr howners
      have hp := (readFields_vars_iff q).mpr hvars
      have htt : ({ readFields q with template := some t } : Question).templateTag =
          q.templateTag := ht.mpr htpl
      unfold Question.record
      rw [htt]
      dsimp only
      rw [hv, ho, hseen, hp]
  obtain ⟨hname, htpl, hvalue, hflags, howners, hvars⟩ := headerLookup_entries q
  obtain ⟨c, name, hcons⟩ := List.exists_cons_of_ne_nil htag
  have hload : loadStanza tdb (q.entries.map Entry.parsed) =
      (templateDbGet tdb (storedText q.templateTag)).elim
        (some ({ readFields q with template := some (templateNew (storedText q.tag)) },
          templateDbSet tdb (templateNew (storedText q.tag))))
        fun t => some ({ readFields q with template := some t }, tdb) := by
    unfold loadStanza
    rw [hname, htpl, hvalue, hflags, howners, hvars]
    unfold readFields
    rw [hcons]
    simp only [Option.getD_some]
    cases templateDbGet tdb (storedText q.templateTag) <;> rfl
  rw [hload]
  cases hget : templateDbGet tdb (storedText q.templateTag) with
  | some t =>
      refine ⟨_, _, rfl, (readFields_scalars q).1, hfields t ?_, htdb, fun _ h => h⟩
      rw [htdb _ t hget]
      exact storedText_eq_iff _
  | none =>
      -- the template's tag has been changed into one that is not known
      have hplain : ¬ Plain q.templateTag := fun hp => by
        rw [(storedText_eq_iff _).mpr hp] at hget
        exact htemplate hget
      refine ⟨_, _, rfl, (readFields_scalars q).1, hfields _ ?_, htdb.set _,
        fun _ h => templateDbGet_set_ne_none _ h⟩
      refine iff_of_false (fun he => hplain ?_) hplain
      rw [← he]
      exact plain_storedText q.tag

theorem loadStanza_empty (tdb : TemplateDb) (h : storedText q.tag = []) :
    loadStanza tdb (q.entries.map Entry.parsed) = none := by
  unfold loadStanza
  rw [(headerLookup_entries q).1, h]

/-! ## Databases -/

/-- What is known while the stanzas of some questions are read. -/
structure Loading.Fit (s : Loading) (qs : List Question) : Prop where
  tagged : s.tdb.Tagged
  templates : ∀ q ∈ qs, templateDbGet s.tdb q.templateTag ≠ none
  refs : ∀ tag r, questionGet s.db tag = some r → r < s.heap.fresh

theorem loadQuestion_entries {s : Loading} {qs : List Question} (hs : s.Fit (q :: qs)) :
    (loadQuestion s (q.entries.map Entry.parsed)).Fit qs ∧
      (∀ tag r, questionGet s.db tag = some r →
        questionGet (loadQuestion s (q.entries.map Entry.parsed)).db tag = some r ∧
          (loadQuestion s (q.entries.map Entry.parsed)).heap.cell r = s.heap.cell r) ∧
      ∀ tag, questionGet s.db tag = none →
        (questionGet (loadQuestion s (q.entries.map Entry.parsed)).db tag = none ∧
          (storedText q.tag = tag → tag = [])) ∨
        ∃ r, questionGet (loadQuestion s (q.entries.map Entry.parsed)).db tag = some r ∧
          storedText q.tag = tag ∧
          (((loadQuestion s (q.entries.map Entry.parsed)).heap.cell r).record = q.record ↔
            q.FieldsStorable) := by
  by_cases hempty : storedText q.tag = []
  · have hload : loadQuestion s (q.entries.map Entry.parsed) = s := by
      unfold loadQuestion
      rw [loadStanza_empty s.tdb hempty]
    rw [hload]
    refine ⟨⟨hs.tagged, fun p hp => hs.templates p (List.mem_cons_of_mem _ hp), hs.refs⟩,
      fun tag r hr => ⟨hr, rfl⟩, fun tag hnone => .inl ⟨hnone, fun h => h.symm.trans hempty⟩⟩
  · obtain ⟨r, tdb', hstanza, htag, hrecord, htagged, hmono⟩ :=
      loadStanza_entries hs.tagged (hs.templates q List.mem_cons_self) hempty
    have hload : loadQuestion s (q.entries.map Entry.parsed) =
        { heap := (s.heap.alloc r).2
          db := { s.db with root := s.db.root.tsearch (storedText q.tag) s.heap.fresh }
          tdb := tdb' } := by
      unfold loadQuestion
      rw [hstanza]
      dsimp only
      rw [htag]
      rfl
    have hkeep : ∀ tag p, questionGet s.db tag = some p →
        (s.db.root.tsearch (storedText q.tag) s.heap.fresh).tfind tag = some p := by
      intro tag p hp
      have hp' : s.db.root.tfind tag = some p := hp
      by_cases ht : tag = storedText q.tag
      · rw [ht] at hp' ⊢
        rw [Tree.tfind_tsearch_self, hp']
        rfl
      · rwa [Tree.tfind_tsearch_of_ne ht]
    rw [hload]
    refine ⟨⟨htagged, fun p hp => hmono _ (hs.templates p (List.mem_cons_of_mem _ hp)), ?_⟩,
      fun tag p hp => ⟨hkeep tag p hp, Function.update_of_ne (Nat.ne_of_lt (hs.refs tag p hp)) ..⟩,
      fun tag hnone => ?_⟩
    · intro tag p hp
      show p < s.heap.fresh + 1
      cases hget : questionGet s.db tag with
      | some p' =>
          have := (hkeep tag p' hget).symm.trans hp
          rw [← Option.some.inj this]
          exact Nat.lt_succ_of_lt (hs.refs tag p' hget)
      | none =>
          have hget' : s.db.root.tfind tag = none := hget
          by_cases ht : tag = storedText q.tag
          · have hp' : (s.db.root.tsearch (storedText q.tag) s.heap.fresh).tfind tag = some p := hp
            rw [← ht, Tree.tfind_tsearch_self, hget'] at hp'
            rw [← Option.some.inj hp']
            exact Nat.lt_succ_self _
          · have hp' : (s.db.root.tsearch (storedText q.tag) s.heap.fresh).tfind tag = some p := hp
            rw [Tree.tfind_tsearch_of_ne ht, hget'] at hp'
            cases hp'
    · have hnone' : s.db.root.tfind tag = none := hnone
      by_cases ht : tag = storedText q.tag
      · refine .inr ⟨s.heap.fresh, ?_, ht.symm, ?_⟩
        · show (s.db.root.tsearch (storedText q.tag) s.heap.fresh).tfind tag = _
          rw [← ht, Tree.tfind_tsearch_self, hnone']
          rfl
        · have hcell : ((s.heap.alloc r).2).cell s.heap.fresh = r := Function.update_self ..
          rw [hcell]
          exact hrecord
      · refine .inl ⟨?_, fun h => absurd h.symm ht⟩
        show (s.db.root.tsearch (storedText q.tag) s.heap.fresh).tfind tag = _
        rw [Tree.tfind_tsearch_of_ne ht, hnone']

theorem foldl_loadQuestion (qs : List Question) {s : Loading} (hs : s.Fit qs) :
    (∀ tag r, questionGet s.db tag = some r →
      questionGet ((qs.map fun q => q.entries.map Entry.parsed).foldl loadQuestion s).db tag =
          some r ∧
        ((qs.map fun q => q.entries.map Entry.parsed).foldl loadQuestion s).heap.cell r =
          s.heap.cell r) ∧
    ∀ tag, questionGet s.db tag = none →
      (questionGet ((qs.map fun q => q.entries.map Entry.parsed).foldl loadQuestion s).db tag =
          none ∧
        ∀ q ∈ qs, storedText q.tag = tag → tag = []) ∨
      ∃ r, ∃ q ∈ qs,
        questionGet ((qs.map fun q => q.entries.map Entry.parsed).foldl loadQuestion s).db tag =
          some r ∧
        storedText q.tag = tag ∧
        ((((qs.map fun q => q.entries.map Entry.parsed).foldl loadQuestion s).heap.cell r).record =
          q.record ↔ q.FieldsStorable) := by
  induction qs generalizing s with
  | nil => exact ⟨fun tag r hr => ⟨hr, rfl⟩, fun tag hnone => .inl ⟨hnone, by simp⟩⟩
  | cons q qs ih =>
      obtain ⟨hfit, hkeep, hnew⟩ := loadQuestion_entries hs
      obtain ⟨hkeeps, hnews⟩ := ih hfit
      rw [List.map_cons, List.foldl_cons]
      refine ⟨fun tag r hr => ?_, fun tag hnone => ?_⟩
      · obtain ⟨hget, hcell⟩ := hkeep tag r hr
        obtain ⟨hgets, hcells⟩ := hkeeps tag r hget
        exact ⟨hgets, hcells.trans hcell⟩
      · rcases hnew tag hnone with ⟨hnone, hstored⟩ | ⟨r, hget, hstored, hrecord⟩
        · rcases hnews tag hnone with ⟨hnone, hrest⟩ | ⟨r, p, hp, hget, hstored, hrecord⟩
          · refine .inl ⟨hnone, fun p hp => ?_⟩
            rcases List.mem_cons.mp hp with rfl | hp
            · exact hstored
            · exact hrest p hp
          · exact .inr ⟨r, p, List.mem_cons_of_mem _ hp, hget, hstored, hrecord⟩
        · obtain ⟨hgets, hcells⟩ := hkeeps tag r hget
          refine .inr ⟨r, q, List.mem_cons_self, hgets, hstored, ?_⟩
          rw [hcells]
          exact hrecord

/-- What a database has under a tag. -/
def QuestionDb.lookup (h : Heap) (db : QuestionDb) (tag : Text) : Option Record :=
  (questionGet db tag).map fun r => (h.cell r).record

theorem tags_questions (htag : db.Tagged h) : (db.questions h).map Question.tag = db.root.keys := by
  unfold QuestionDb.questions Tree.keys
  rw [List.map_map]
  exact List.map_congr_left fun n hn => htag n hn

theorem lookup_eq_some (htag : db.Tagged h) (hq : q ∈ db.questions h) :
    db.lookup h q.tag = some q.record := by
  obtain ⟨n, hn, rfl⟩ := List.mem_map.mp hq
  have hfind : questionGet db n.1 = some n.2 := Tree.tfind_eq_some.mpr hn
  unfold QuestionDb.lookup
  rw [htag n hn, hfind]
  rfl

theorem lookup_eq_none (htag : db.Tagged h) (hne : ∀ q ∈ db.questions h, q.tag ≠ tag) :
    db.lookup h tag = none := by
  have hfind : questionGet db tag = none := by
    refine Tree.tfind_eq_none.mpr fun hmem => ?_
    rw [← tags_questions htag] at hmem
    obtain ⟨q, hq, hqt⟩ := List.mem_map.mp hmem
    exact hne q hq hqt
  unfold QuestionDb.lookup
  rw [hfind]
  rfl

theorem keys_nodup {ν : Type} (t : Tree Text ν) : t.keys.Nodup :=
  List.pairwise_map.mpr (t.sorted.imp fun h => ne_of_lt h)

/-- Tags that are all found again have all been read as they are: as many tags, and none
of them longer than before. -/
theorem plain_of_subset {tags : List Text} (hnd : tags.Nodup)
    (h : ∀ t ∈ tags, t ∈ tags.map storedText) : ∀ t ∈ tags, Plain t := by
  have hperm : (tags.map storedText).Perm tags :=
    ((List.Nodup.subperm hnd h).perm_of_length_le (by simp)).symm
  have hsum := (hperm.map List.length).sum_eq
  rw [List.map_map] at hsum
  intro t ht
  refine plain_of_length (le_antisymm (length_storedText_le t) (Nat.le_of_not_lt fun hlt => ?_))
  have := List.sum_lt_sum (l := tags) (List.length ∘ storedText) List.length
    (fun t _ => length_storedText_le t) ⟨t, ht, hlt⟩
  omega

/-- A database that is saved and loaded is the same exactly if all its questions can be
stored. -/
theorem save_load_iff (h heap : Heap) (db : QuestionDb) (tdb : TemplateDb) (file : Option Text)
    (hdirty : db.dirty = true) (htag : db.Tagged h) (hne : ∀ q ∈ db.questions h, q.tag ≠ [])
    (htdb : tdb.Tagged)
    (htemplate : ∀ q ∈ db.questions h, ∃ t, q.template = some t ∧ templateDbGet tdb t.tag ≠ none) :
    (∃ contents, questionSave h db file .written = (.ok, some contents) ∧
      ∀ tag, (questionLoad ⟨heap, {}, tdb⟩ contents).db.lookup
          (questionLoad ⟨heap, {}, tdb⟩ contents).heap tag = db.lookup h tag) ↔
      ∀ q ∈ db.questions h, q.Storable := by
  have hsave : questionSave h db file .written = (.ok, some (dumpFile h db)) := by
    unfold questionSave
    rw [hdirty]
    rfl
  have hfit : Loading.Fit ⟨heap, {}, tdb⟩ (db.questions h) := by
    refine ⟨htdb, fun q hq => ?_, fun tag r hr => by cases hr⟩
    obtain ⟨t, ht, hget⟩ := htemplate q hq
    rwa [Question.templateTag, ht]
  have hnew := (foldl_loadQuestion (db.questions h) hfit).2
  have hsame : ∀ q ∈ db.questions h, ∀ p ∈ db.questions h, p.tag = q.tag → p = q := by
    have hnd := keys_nodup db.root
    rw [← tags_questions htag] at hnd
    exact fun q hq p hp he => List.inj_on_of_nodup_map hnd hp hq he
  rw [hsave]
  unfold questionLoad
  constructor
  · rintro ⟨contents, hcontents, hload⟩
    obtain rfl : dumpFile h db = contents := by simpa using hcontents
    rw [parseFile_dumpFile] at hload
    have hfound : ∀ q ∈ db.questions h, ∃ p ∈ db.questions h, storedText p.tag = q.tag ∧
        (q.record = p.record ↔ p.FieldsStorable) := by
      intro q hq
      have hlook := hload q.tag
      rw [lookup_eq_some htag hq] at hlook
      rcases hnew q.tag rfl with ⟨hnone, -⟩ | ⟨r, p, hp, hget, hstored, hrecord⟩
      · unfold QuestionDb.lookup at hlook
        rw [hnone] at hlook
        cases hlook
      · unfold QuestionDb.lookup at hlook
        rw [hget] at hlook
        exact ⟨p, hp, hstored, (Option.some.inj hlook : _ = q.record) ▸ hrecord⟩
    have hplain : ∀ t ∈ (db.questions h).map Question.tag, Plain t := by
      refine plain_of_subset (tags_questions htag ▸ keys_nodup db.root) fun t ht => ?_
      obtain ⟨q, hq, rfl⟩ := List.mem_map.mp ht
      obtain ⟨p, hp, hstored, -⟩ := hfound q hq
      exact List.mem_map.mpr ⟨p.tag, List.mem_map_of_mem hp, hstored⟩
    intro q hq
    obtain ⟨p, hp, hstored, hrecord⟩ := hfound q hq
    rw [(storedText_eq_iff _).mpr (hplain _ (List.mem_map_of_mem hp))] at hstored
    obtain rfl := hsame q hq p hp hstored
    exact ⟨hrecord.mp rfl, hplain _ (List.mem_map_of_mem hp)⟩
  · intro hall
    refine ⟨dumpFile h db, rfl, fun tag => ?_⟩
    rw [parseFile_dumpFile]
    have hstored : ∀ p ∈ db.questions h, storedText p.tag = p.tag := fun p hp =>
      (storedText_eq_iff _).mpr (hall p hp).tag
    rcases hnew tag rfl with ⟨hnone, hrest⟩ | ⟨r, p, hp, hget, htagp, hrecord⟩
    · rw [lookup_eq_none htag fun q hq he => hne q hq (he ▸ hrest q hq (he ▸ hstored q hq))]
      unfold QuestionDb.lookup
      rw [hnone]
      rfl
    · rw [hstored p hp] at htagp
      subst htagp
      rw [lookup_eq_some htag hp]
      unfold QuestionDb.lookup
      rw [hget]
      exact congrArg some (hrecord.mpr (hall p hp).toFieldsStorable)

/-- A database with one question. -/
def oneQuestion (q : Question) : Heap × QuestionDb :=
  ({ cell := fun _ => q, fresh := 1 }, { root := Tree.tsearch ∅ q.tag 0, dirty := true })

/-- Its template. -/
def oneTemplate (tag : Text) : TemplateDb := templateDbSet {} (templateNew tag)

/-- An answer over two lines with a backslash. -/
def answered : Question where
  tag := "d-i/answer"
  value := some "one\n two\\"
  seen := true
  template := some (templateNew "d-i/template")
  vars := [("name", "a = b"), ("empty", [])]
  owners := ["d-i", ""]
  vars_nodup := by decide
  owners_nodup := by decide

theorem save_load_iff_answered :
    ∃ contents, questionSave (oneQuestion answered).1 (oneQuestion answered).2 none .written =
        (.ok, some contents) ∧
      ∀ tag, (questionLoad ⟨(oneQuestion answered).1, {}, oneTemplate "d-i/template"⟩
            contents).db.lookup
          (questionLoad ⟨(oneQuestion answered).1, {}, oneTemplate "d-i/template"⟩
            contents).heap tag =
        (oneQuestion answered).2.lookup (oneQuestion answered).1 tag := by
  have hall : ∀ q ∈ (oneQuestion answered).2.questions (oneQuestion answered).1, q = answered :=
    fun q hq => List.mem_singleton.mp hq
  have howners : OwnersStorable answered.owners := by
    refine ⟨by decide, fun p hp => ?_⟩
    rw [List.mem_singleton.mp hp]
    exact ⟨by decide, rfl, fun c hc => by cases hc⟩
  refine (save_load_iff _ _ _ _ none rfl (by unfold QuestionDb.Tagged; decide)
    (fun q hq => ?_) ?_ (fun q hq => ?_)).mpr
    fun q hq => ?_
  · rw [hall q hq]
    decide
  · exact TemplateDb.Tagged.set (fun _ _ h => by cases h) _
  · rw [hall q hq]
    exact ⟨_, rfl, by decide⟩
  · rw [hall q hq]
    exact { tag := by decide, template := by decide, value := by decide
            owners := howners, vars := by unfold VariableStorable; decide }

/-- A variable over two lines, which `SUBST` stores. -/
def substituted : Question where
  tag := "d-i/answer"
  template := some (templateNew "d-i/template")
  vars := [("name", "one\ntwo")]
  owners := ["d-i"]

/-- It is read back with a backslash and an `n`. -/
theorem save_load_substituted :
    ¬ ∃ contents, questionSave (oneQuestion substituted).1 (oneQuestion substituted).2 none
          .written = (.ok, some contents) ∧
      ∀ tag, (questionLoad ⟨(oneQuestion substituted).1, {}, oneTemplate "d-i/template"⟩
            contents).db.lookup
          (questionLoad ⟨(oneQuestion substituted).1, {}, oneTemplate "d-i/template"⟩
            contents).heap tag =
        (oneQuestion substituted).2.lookup (oneQuestion substituted).1 tag := by
  rintro ⟨contents, hsave, hload⟩
  have hcontents : dumpFile (oneQuestion substituted).1 (oneQuestion substituted).2 = contents := by
    simpa [questionSave, oneQuestion, rfc822dbSave] using hsave
  have htag := hload "d-i/answer"
  rw [← hcontents] at htag
  revert htag
  decide +kernel

end DebianInstaller.Debconf
