import DebianInstaller.Debconf.QuestionFile

/-!
# The file of the templates

`rfc822db_template_dump` writes the texts of a template that stand in no other place:
first those without a language, then, language by language, those that are not found
by a pointer among the first. `rfc822db_template_load` gives each line to
`template_lset`, which takes the language out of the name of the field again.

A template is read back if the names of its languages survive this and its texts are
plain. A language of one letter is not taken for a language, a `.UTF-8` within a name is
taken for its end, and a colon ends the name of the field.
-/

namespace DebianInstaller.Debconf

open Text Lib

variable {e : Entry} {env : Env} {lang : Text} {p : L10nFields} {t : Template}
  {ts : List L10nFields}

/-! ## Writing -/

/-- `template_fields_list`. -/
def templateFieldsList : List Text :=
  ["tag", "type", "default", "choices", "indices",
    "description", "extended_description", "help"]

/-- The name of a field with its first letter in upper case. -/
def upperFirst : Text → Text
  | [] => []
  | c :: t => c.toUpper :: t

/-- A field without a language. -/
def dumpField (env : Env) (t : Template) (field : Text) : Text :=
  match templateLget env t none field with
  | none => []
  | some p =>
      (if field = "tag".toList then "Name".toList else upperFirst field) ++ ": ".toList ++
        escapestr p ++ ['\n']

/-- A field in a language, if it is not the same string. -/
def dumpTranslation (env : Env) (t : Template) (lang field : Text) : Text :=
  match templateLgetFrom env t (some lang) field with
  | none => []
  | some p =>
      if some p = templateLgetFrom env t none field then []
      else
        upperFirst field ++ '-' :: (if lang = "C" then lang else lang ++ utf8Suffix) ++
          ": " ++ escapestr p.2 ++ ['\n']

/-- The loop over the languages, for a number of rounds. -/
def languagesFrom (t : Template) : Nat → Option Text → List Text
  | 0, _ => []
  | _, none => []
  | n + 1, some lang => lang :: languagesFrom t n (templateNextLang t (some lang))

/-- `rfc822db_template_dump`. -/
def templateDump (env : Env) (t : Template) : Text :=
  templateFieldsList.flatMap (dumpField env t) ++
    (languagesFrom t (t.translations.length + 1) (templateNextLang t none)).flatMap (fun lang =>
      templateFieldsList.flatMap (dumpTranslation env t lang)) ++ ['\n']

/-- What `twalk` writes with `rfc822db_template_dump`. -/
def templateDumpFile (env : Env) (tdb : TemplateDb) : Text :=
  tdb.root.nodes.flatMap fun n => templateDump env n.2

/-- `rfc822db_template_save`. -/
def templateSave (env : Env) (tdb : TemplateDb) (file : Option Text) (r : WriteResult) :
    Status × Option Text :=
  if !tdb.dirty && file.isSome then (.ok, file)
  else rfc822dbSave (templateDumpFile env tdb) file r

/-! ## Reading -/

/-- A stanza of `rfc822db_template_load`. -/
def loadTemplate (env : Env) (hs : List Header) : Option Template :=
  (headerLookup hs "name".toList).map fun name =>
    (hs.filter fun h => h.header ≠ "Name".toList).foldl
      (fun t h => templateLset env t none h.header h.value) (templateNew name)

/-- `rfc822db_template_load`. -/
def templateDbLoad (env : Env) (tdb : TemplateDb) (file : Text) : TemplateDb :=
  (parseFile file).foldl (fun tdb hs =>
    match loadTemplate env hs with
    | none => tdb
    | some t => { tdb with root := tdb.root.tsearch t.tag t }) tdb

/-! ## Templates as they are built -/

/-- What holds of the templates that `template_load` builds. -/
structure Template.WellBuilt (t : Template) : Prop where
  language : t.fields.language = []
  nodup : (t.translations.map L10nFields.language).Nodup
  named : ∀ p ∈ t.translations, p.language ≠ []
  filled : ∀ p ∈ t.translations, ∃ f, p.text f ≠ none

/-- A language whose name is found again behind that of a field. -/
def GoodLanguage (lang : Text) : Prop :=
  lang = "C" ∨
    ':' ∉ lang ∧ '\n' ∉ lang ∧ beforeUtf8 (lang ++ utf8Suffix) = some lang

/-- A template all of whose strings are plain. -/
structure Template.AllPlain (t : Template) : Prop where
  tag : Plain t.tag
  type : ∀ v ∈ t.type, Plain v
  help : ∀ v ∈ t.help, Plain v
  fields : ∀ f, ∀ v ∈ t.fields.text f, Plain v
  translations : ∀ p ∈ t.translations, ∀ f, ∀ v ∈ p.text f, Plain v

/-! ## The languages -/

theorem languageAfter_of_not_mem {ps qs : List L10nFields} (h : ∀ p ∈ ps, p.language ≠ lang) :
    languageAfter lang (ps ++ qs) = languageAfter lang qs := by
  induction ps with
  | nil => rfl
  | cons p ps ih =>
      rw [List.cons_append, languageAfter, if_neg (h p List.mem_cons_self),
        ih fun p' hp' => h p' (List.mem_cons_of_mem _ hp')]

theorem languagesFrom_eq (ht : t.WellBuilt) (ps : List L10nFields) {qs : List L10nFields}
    (hps : t.translations = ps ++ qs) {n : Nat} (hn : qs.length < n) :
    languagesFrom t n (qs.head?.map L10nFields.language) = qs.map L10nFields.language := by
  induction qs generalizing ps n with
  | nil =>
      obtain ⟨n, rfl⟩ := Nat.exists_eq_succ_of_ne_zero (Nat.ne_of_gt hn)
      rfl
  | cons q qs ih =>
      obtain ⟨n, rfl⟩ := Nat.exists_eq_succ_of_ne_zero (Nat.ne_of_gt (Nat.zero_lt_of_lt hn))
      have hnd := ht.nodup
      rw [hps, List.map_append, List.map_cons] at hnd
      have hother : ∀ p ∈ t.fields :: ps, p.language ≠ q.language := by
        intro p hp
        rcases List.mem_cons.mp hp with rfl | hp
        · rw [ht.language]
          exact fun h => ht.named q (by rw [hps]; simp) h.symm
        · exact fun h => (List.nodup_append.mp hnd).2.2 _ (List.mem_map_of_mem hp) q.language
            (by simp) h
      have hnext : templateNextLang t (some q.language) = qs.head?.map L10nFields.language := by
        show languageAfter q.language (t.fields :: t.translations) = _
        rw [hps, ← List.cons_append, languageAfter_of_not_mem hother, languageAfter, if_pos rfl]
      rw [List.head?_cons, Option.map_some, languagesFrom, hnext,
        ih (ps ++ [q]) (by rw [hps]; simp) (Nat.lt_of_succ_lt_succ hn)]
      rfl

/-! ## Lookups by the names of fields -/

theorem ofName_name (f : Field) : Field.ofName f.name = some f := by cases f <;> rfl

theorem ofName_upperFirst (f : Field) : Field.ofName (upperFirst f.name) = some f := by
  cases f <;> rfl

theorem templateLgetFrom_name (env : Env) (t : Template) (lang : Option Text) (f : Field) :
    templateLgetFrom env t lang f.name = templateFind env t lang f.name := by
  cases f <;> rfl

theorem templateFind_none (env : Env) (t : Template) (f : Field) :
    templateFind env t none f.name = (t.fields.text f).map fun v => (0, v) := by
  unfold templateFind templateFieldGet
  rw [ofName_name]
  rfl

theorem templateGetInternal_of_language {ps : List L10nFields} (hps : ∀ r ∈ ps, r.language ≠ lang)
    (hp : p.language = lang) (field : Text) (qs : List L10nFields) (alt : Option Found) (i : Nat) :
    templateGetInternal lang field alt i (ps ++ p :: qs) =
      (templateFieldGet p field).map fun v => (i + ps.length, v) := by
  induction ps generalizing alt i with
  | nil =>
      rw [List.nil_append, templateGetInternal, if_pos hp]
      rfl
  | cons r ps ih =>
      rw [List.cons_append, templateGetInternal, if_neg (hps r List.mem_cons_self),
        ih fun r' hr' => hps r' (List.mem_cons_of_mem _ hr')]
      simp only [List.length_cons, Nat.add_assoc, Nat.add_comm 1]

theorem Template.WellBuilt.find_language (ht : t.WellBuilt) (hp : p ∈ t.translations) (env : Env)
    (f : Field) :
    ∃ i ≠ 0, templateFind env t (some p.language) f.name =
      ((p.text f).map fun v => (i, v)).or ((t.fields.text f).map fun v => (0, v)) := by
  obtain ⟨ps, qs, hsplit⟩ := List.append_of_mem hp
  have hnd := ht.nodup
  rw [hsplit, List.map_append, List.map_cons] at hnd
  have hother : ∀ r ∈ ps, r.language ≠ p.language := fun r hr he =>
    (List.nodup_append.mp hnd).2.2 _ (List.mem_map_of_mem hr) p.language (by simp) he
  have hdefault := templateFind_none env t f
  obtain ⟨c, l, hl⟩ := List.exists_cons_of_ne_nil (ht.named p hp)
  refine ⟨1 + ps.length, by omega, ?_⟩
  have hinternal := templateGetInternal_of_language hother rfl f.name qs none 1
  rw [← hsplit, templateFieldGet, ofName_name, Option.bind_some] at hinternal
  rw [← hinternal, ← hdefault, hl]
  rfl

/-! ## The lines of a template -/

/-- A string on a line of its own. -/
def textEntry (name v : Text) : Entry := ⟨name, ' ' :: escapestr v, []⟩

/-- The lines of a structure, each under its name. -/
def L10nFields.entries (name : Field → Text) (p : L10nFields) : List Entry :=
  Field.all.flatMap fun f => ((p.text f).map (textEntry (name f))).toList

/-- The name under which a field is written in a language. -/
def localizedName (lang : Text) (f : Field) : Text :=
  upperFirst f.name ++ '-' :: if lang = "C" then lang else lang ++ utf8Suffix

/-- The lines without a language. -/
def Template.ownEntries (t : Template) : List Entry :=
  textEntry "Name" t.tag :: ((t.type.map (textEntry "Type")).toList ++
    t.fields.entries (fun f => upperFirst f.name) ++
    (t.help.map (textEntry "Help")).toList)

/-- The lines that `rfc822db_template_dump` writes. -/
def Template.entries (t : Template) : List Entry :=
  t.ownEntries ++ t.translations.flatMap fun p => p.entries (localizedName p.language)

theorem unlines_textEntry (name v : Text) :
    unlines '\n' ([textEntry name v].flatMap Entry.lines) =
      name ++ ": " ++ escapestr v ++ ['\n'] := unlines_field name _

theorem unlines_flatMap {α : Type} (g : α → List Entry) (as : List α) :
    unlines '\n' ((as.flatMap g).flatMap Entry.lines) =
      as.flatMap fun a => unlines '\n' ((g a).flatMap Entry.lines) := by
  unfold unlines
  rw [List.flatMap_assoc, List.flatMap_assoc]
  simp only [List.flatMap_assoc]

theorem dumpField_name (env : Env) (t : Template) (f : Field) :
    dumpField env t f.name = unlines '\n'
      ((((t.fields.text f).map (textEntry (upperFirst f.name))).toList).flatMap Entry.lines) := by
  have hget : templateLget env t none f.name = t.fields.text f := by
    unfold templateLget
    rw [templateLgetFrom_name, templateFind_none, Option.map_map]
    cases t.fields.text f <;> rfl
  have hname : f.name ≠ "tag".toList := by cases f <;> decide
  unfold dumpField
  rw [hget]
  cases t.fields.text f with
  | none => rfl
  | some v => simp only [if_neg hname, Option.map_some, Option.toList_some, unlines_textEntry]

theorem dumpTranslation_name (ht : t.WellBuilt) (hp : p ∈ t.translations) (env : Env) (f : Field) :
    dumpTranslation env t p.language f.name = unlines '\n'
      ((((p.text f).map (textEntry (localizedName p.language f))).toList).flatMap
        Entry.lines) := by
  obtain ⟨i, hi, hfind⟩ := ht.find_language hp env f
  unfold dumpTranslation
  rw [templateLgetFrom_name, templateLgetFrom_name, hfind, templateFind_none]
  cases p.text f with
  | none =>
      rw [Option.map_none, Option.none_or]
      cases t.fields.text f with
      | none => rfl
      | some v => exact if_pos rfl
  | some v =>
      have hne : some (i, v) ≠ (t.fields.text f).map fun v => (0, v) := by
        intro he
        obtain ⟨w, -, hw⟩ := Option.map_eq_some_iff.mp he.symm
        exact hi (congrArg Prod.fst hw).symm
      rw [Option.map_some, Option.some_or]
      simp only [if_neg hne, Option.map_some, Option.toList_some, unlines_textEntry, localizedName]

theorem dumpTranslation_other (env : Env) (t : Template) (lang : Text) {field : Text}
    (h : field ∈ ["tag".toList, "type".toList, "help".toList]) :
    dumpTranslation env t lang field = [] := by
  have hsame : templateLgetFrom env t (some lang) field = templateLgetFrom env t none field := by
    simp only [List.mem_cons, List.not_mem_nil, or_false] at h
    rcases h with rfl | rfl | rfl <;> rfl
  unfold dumpTranslation
  rw [hsame]
  split
  · rfl
  · next p hp => exact if_pos hp.symm

theorem templateFieldsList_eq : templateFieldsList =
    ["tag".toList, "type".toList] ++ Field.all.map Field.name ++ ["help".toList] := rfl

theorem flatMap_dumpField (env : Env) (t : Template) :
    templateFieldsList.flatMap (dumpField env t) =
      unlines '\n' (t.ownEntries.flatMap Entry.lines) := by
  have htag : dumpField env t "tag" =
      unlines '\n' ([textEntry "Name" t.tag].flatMap Entry.lines) :=
    (unlines_textEntry _ _).symm
  have htype : dumpField env t "type" =
      unlines '\n' ((t.type.map (textEntry "Type")).toList.flatMap Entry.lines) := by
    have hget : templateLget env t none "type" = t.type := by
      show (t.type.map _).map _ = _
      cases t.type <;> rfl
    unfold dumpField
    rw [hget]
    cases t.type with
    | none => rfl
    | some v => exact (unlines_textEntry _ _).symm
  have hhelp : dumpField env t "help" =
      unlines '\n' ((t.help.map (textEntry "Help")).toList.flatMap Entry.lines) := by
    have hget : templateLget env t none "help" = t.help := by
      show (t.help.map _).map _ = _
      cases t.help <;> rfl
    unfold dumpField
    rw [hget]
    cases t.help with
    | none => rfl
    | some v => exact (unlines_textEntry _ _).symm
  rw [templateFieldsList_eq, Template.ownEntries, ← List.singleton_append (l := _ ++ _ ++ _)]
  simp only [List.flatMap_append, unlines_append, L10nFields.entries, unlines_flatMap,
    List.flatMap_map, ← dumpField_name env t, ← htype, ← hhelp, ← htag]
  simp

theorem flatMap_dumpTranslation (ht : t.WellBuilt) (hp : p ∈ t.translations) (env : Env) :
    templateFieldsList.flatMap (dumpTranslation env t p.language) =
      unlines '\n' ((p.entries (localizedName p.language)).flatMap Entry.lines) := by
  rw [templateFieldsList_eq]
  simp only [List.flatMap_append, List.flatMap_cons, List.flatMap_nil, List.flatMap_map,
    L10nFields.entries, unlines_flatMap, ← dumpTranslation_name ht hp env]
  rw [dumpTranslation_other env t _ (by simp), dumpTranslation_other env t _ (by simp),
    dumpTranslation_other env t _ (by simp)]
  simp

theorem templateDump_eq (ht : t.WellBuilt) (env : Env) :
    templateDump env t = unlines '\n' (t.entries.flatMap Entry.lines ++ [[]]) := by
  have hlanguages : languagesFrom t (t.translations.length + 1) (templateNextLang t none) =
      t.translations.map L10nFields.language := languagesFrom_eq ht [] rfl (Nat.lt_succ_self _)
  have htranslations : (t.translations.map L10nFields.language).flatMap (fun lang =>
        templateFieldsList.flatMap (dumpTranslation env t lang)) =
      unlines '\n' ((t.translations.flatMap fun p =>
        p.entries (localizedName p.language)).flatMap Entry.lines) := by
    rw [unlines_flatMap, List.flatMap_map]
    exact List.flatMap_congr fun p hp => flatMap_dumpTranslation ht hp env
  unfold templateDump Template.entries
  rw [hlanguages, htranslations, flatMap_dumpField, List.flatMap_append, unlines_append,
    unlines_append]
  rfl

/-! ## The lines as they are read -/

theorem textEntry_wellFormed {name : Text} (hname : ∃ c n, name = c :: n ∧ isSpace c = false)
    (hcolon : ':' ∉ name) (hn : '\n' ∉ name) (v : Text) :
    (textEntry name v).WellFormed ∧ ∀ l ∈ (textEntry name v).lines, '\n' ∉ l := by
  refine line_wellFormed hname hcolon hn ?_ (by simp)
  rw [List.mem_cons, not_or]
  exact ⟨by decide, newline_not_mem_escapestr v⟩

theorem upperFirst_wellFormed (f : Field) (rest : Text) :
    (∃ c n, upperFirst f.name ++ rest = c :: n ∧ isSpace c = false) ∧
      ':' ∉ upperFirst f.name ∧ '\n' ∉ upperFirst f.name ∧ '-' ∉ upperFirst f.name := by
  cases f <;> exact ⟨⟨_, _, rfl, rfl⟩, by decide, by decide, by decide⟩

theorem localizedName_wellFormed (h : GoodLanguage lang) (f : Field) :
    (∃ c n, localizedName lang f = c :: n ∧ isSpace c = false) ∧
      ':' ∉ localizedName lang f ∧ '\n' ∉ localizedName lang f := by
  obtain ⟨hcons, hcolon, hn, -⟩ := upperFirst_wellFormed f
    ('-' :: if lang = "C" then lang else lang ++ utf8Suffix)
  have hlang : ∀ c : Char, c ∉ upperFirst f.name → c ≠ '-' → c ∉ "C".toList → c ∉ utf8Suffix →
      (lang ≠ "C".toList → c ∉ lang) → c ∉ localizedName lang f := by
    intro c hf hdash hC hutf hc
    unfold localizedName
    rw [List.mem_append, List.mem_cons, not_or, not_or]
    refine ⟨hf, hdash, ?_⟩
    split
    · next he => rwa [he]
    · next hne =>
        rw [List.mem_append, not_or]
        exact ⟨hc hne, hutf⟩
  have hgood : lang ≠ "C" → ':' ∉ lang ∧ '\n' ∉ lang := fun hne =>
    (h.resolve_left hne).imp_right And.left
  exact ⟨hcons, hlang _ hcolon (by decide) (by decide) (by decide) fun hne => (hgood hne).1,
    hlang _ hn (by decide) (by decide) (by decide) fun hne => (hgood hne).2⟩

theorem mem_fieldEntries {name : Field → Text} (he : e ∈ p.entries name) :
    ∃ f v, e = textEntry (name f) v := by
  obtain ⟨f, -, hf⟩ := List.mem_flatMap.mp he
  obtain ⟨v, -, rfl⟩ := Option.map_eq_some_iff.mp (Option.mem_toList.mp hf)
  exact ⟨f, v, rfl⟩

theorem mem_tail_entries (he : e ∈ t.entries.tail) :
    ∃ name v, e = textEntry name v ∧
      (name = "Type" ∨ name = "Help" ∨ (∃ f : Field, name = upperFirst f.name) ∨
        ∃ p ∈ t.translations, ∃ f, name = localizedName p.language f) := by
  rcases List.mem_append.mp he with he | he
  · rw [List.mem_append, List.mem_append, Option.mem_toList, Option.mem_toList] at he
    rcases he with (he | he) | he
    · obtain ⟨v, -, rfl⟩ := Option.map_eq_some_iff.mp he
      exact ⟨_, v, rfl, .inl rfl⟩
    · obtain ⟨f, v, rfl⟩ := mem_fieldEntries he
      exact ⟨_, v, rfl, .inr (.inr (.inl ⟨f, rfl⟩))⟩
    · obtain ⟨v, -, rfl⟩ := Option.map_eq_some_iff.mp he
      exact ⟨_, v, rfl, .inr (.inl rfl)⟩
  · obtain ⟨p, hp, he⟩ := List.mem_flatMap.mp he
    obtain ⟨f, v, rfl⟩ := mem_fieldEntries he
    exact ⟨_, v, rfl, .inr (.inr (.inr ⟨p, hp, f, rfl⟩))⟩

theorem mem_templateEntries (hlang : ∀ p ∈ t.translations, GoodLanguage p.language)
    (he : e ∈ t.entries) : e.WellFormed ∧ ∀ l ∈ e.lines, '\n' ∉ l := by
  rcases List.mem_cons.mp he with rfl | he
  · exact textEntry_wellFormed ⟨_, _, rfl, rfl⟩ (by decide) (by decide) _
  · obtain ⟨name, v, rfl, hname⟩ := mem_tail_entries he
    rcases hname with rfl | rfl | ⟨f, rfl⟩ | ⟨p, hp, f, rfl⟩
    · exact textEntry_wellFormed ⟨_, _, rfl, rfl⟩ (by decide) (by decide) v
    · exact textEntry_wellFormed ⟨_, _, rfl, rfl⟩ (by decide) (by decide) v
    · obtain ⟨hcons, hcolon, hn, -⟩ := upperFirst_wellFormed f []
      rw [List.append_nil] at hcons
      exact textEntry_wellFormed hcons hcolon hn v
    · obtain ⟨hcons, hcolon, hn⟩ := localizedName_wellFormed (hlang p hp) f
      exact textEntry_wellFormed hcons hcolon hn v

theorem tail_entries_ne_name (he : e ∈ t.entries.tail) : e.parsed.header ≠ "Name" := by
  obtain ⟨name, v, rfl, hname⟩ := mem_tail_entries he
  show name ≠ _
  rcases hname with rfl | rfl | ⟨f, rfl⟩ | ⟨p, -, f, rfl⟩
  · decide
  · decide
  · cases f <;> decide
  · have hdash : '-' ∈ localizedName p.language f := by simp [localizedName]
    intro h
    rw [h] at hdash
    exact absurd hdash (by decide)

/-! ## Setting one field after the other -/

def L10nFields.set (p : L10nFields) (f : Field) (v : Text) : L10nFields :=
  { p with text := Function.update p.text f (some v) }

theorem templateFieldSet_upperFirst (p : L10nFields) (f : Field) (v : Text) :
    templateFieldSet p (upperFirst f.name) v = p.set f v := by
  unfold templateFieldSet
  rw [ofName_upperFirst]
  rfl

/-- A structure after the texts of some fields are set. -/
def L10nFields.setTexts (text : Field → Option Text) (fs : List Field) (p : L10nFields) :
    L10nFields :=
  fs.foldl (fun p f => (text f).elim p (p.set f)) p

theorem setTexts_language (text : Field → Option Text) (fs : List Field) (p : L10nFields) :
    (p.setTexts text fs).language = p.language := by
  induction fs generalizing p with
  | nil => rfl
  | cons f fs ih =>
      have hstep : ((text f).elim p (p.set f)).language = p.language := by
        cases text f <;> rfl
      exact (ih _).trans hstep

theorem setTexts_text (text : Field → Option Text) (fs : List Field) (p : L10nFields)
    (f : Field) :
    (p.setTexts text fs).text f = if f ∈ fs then (text f).or (p.text f) else p.text f := by
  induction fs generalizing p with
  | nil => rfl
  | cons g fs ih =>
      have hstep : ((text g).elim p (p.set g)).text f =
          if f = g then (text f).or (p.text f) else p.text f := by
        split
        · next he =>
            subst he
            cases text f with
            | none => rfl
            | some v => exact Function.update_self ..
        · next hne =>
            cases text g with
            | none => rfl
            | some v => exact Function.update_of_ne hne ..
      show (L10nFields.setTexts text fs _).text f = _
      rw [ih, hstep]
      by_cases hf : f = g
      · subst hf
        cases text f <;> simp
      · simp [hf]

theorem setTexts_all (text : Field → Option Text) (lang : Text) :
    L10nFields.setTexts text Field.all { language := lang } = { language := lang, text := text } := by
  have htext : (L10nFields.setTexts text Field.all { language := lang }).text = text := by
    funext f
    have hmem : f ∈ Field.all := by cases f <;> decide
    rw [setTexts_text, if_pos hmem, Option.or_none]
  have hlang := setTexts_language text Field.all { language := lang }
  cases hset : L10nFields.setTexts text Field.all { language := lang }
  rw [hset] at htext hlang
  exact congrArg₂ L10nFields.mk hlang htext

/-- Whether there is a text at all. -/
def L10nFields.filled (p : L10nFields) : Bool := Field.all.any fun f => (p.text f).isSome

theorem filled_iff (p : L10nFields) : p.filled = true ↔ ∃ f, p.text f ≠ none := by
  have hmem : ∀ f, f ∈ Field.all := by
    intro f
    cases f <;> decide
  simp [L10nFields.filled, hmem, Option.isSome_iff_ne_none]

/-- The structures with one more at the end, as soon as it has a text. -/
def withText (ts : List L10nFields) (p : L10nFields) : List L10nFields :=
  if p.filled then ts ++ [p] else ts

theorem setLanguage_append (hts : ∀ r ∈ ts, r.language ≠ lang) (field v : Text)
    (ps : List L10nFields) :
    setLanguage lang field v (ts ++ ps) = ts ++ setLanguage lang field v ps := by
  induction ts with
  | nil => rfl
  | cons r ts ih =>
      rw [List.cons_append, setLanguage, if_neg (hts r List.mem_cons_self),
        ih fun r' hr' => hts r' (List.mem_cons_of_mem _ hr')]
      rfl

theorem setLanguage_withText (hts : ∀ r ∈ ts, r.language ≠ p.language) (f : Field) (v : Text) :
    setLanguage p.language (upperFirst f.name) v (withText ts p) = withText ts (p.set f v) := by
  have hset : (p.set f v).filled = true := by
    refine (filled_iff _).mpr ⟨f, ?_⟩
    show Function.update p.text f (some v) f ≠ none
    rw [Function.update_self]
    exact Option.some_ne_none v
  unfold withText
  rw [if_pos hset]
  split
  · rw [setLanguage_append hts, setLanguage, if_pos rfl, templateFieldSet_upperFirst]
  · next h =>
      have hempty : p = { language := p.language } := by
        refine congrArg (L10nFields.mk p.language) (funext fun g => ?_)
        by_contra hg
        exact h ((filled_iff p).mpr ⟨g, hg⟩)
      rw [← List.append_nil ts, setLanguage_append hts, setLanguage, templateFieldSet_upperFirst,
        ← hempty, List.append_nil]

/-! ## A template as it is read -/

theorem templateLset_field (env : Env) (t : Template) (f : Field) (v : Text) :
    templateLset env t none (upperFirst f.name) v = { t with fields := t.fields.set f v } := by
  have hset : templateLset env t none (upperFirst f.name) v =
      { t with fields := templateFieldSet t.fields (upperFirst f.name) v } := by
    cases f <;> rfl
  rw [hset, templateFieldSet_upperFirst]

theorem templateSet_language (hall : env.dropTranslations = false) (ht : t.fields.language = [])
    (hne : lang ≠ []) (f : Field) (v : Text) :
    templateSet env t (some lang) (upperFirst f.name) v =
      { t with translations := setLanguage lang (upperFirst f.name) v t.translations } := by
  obtain ⟨c, l, rfl⟩ := List.exists_cons_of_ne_nil hne
  have hwants : env.wants (c :: l) = true := by simp [Env.wants, hall]
  have hfield : t.fields.language ≠ c :: l := by simp [ht]
  unfold templateSet
  rw [if_neg (by cases f <;> decide), if_neg (by cases f <;> decide),
    if_neg (by cases f <;> decide)]
  simp only [if_pos hwants, if_neg hfield]

theorem templateLset_localized (hall : env.dropTranslations = false) (hi18n : env.noI18n = false)
    (ht : t.fields.language = []) (hgood : GoodLanguage lang) (hne : lang ≠ []) (f : Field)
    (v : Text) :
    templateLset env t none (localizedName lang f) v =
      { t with translations := setLanguage lang (upperFirst f.name) v t.translations } := by
  have hfield : ∀ c ∈ upperFirst f.name, (c != '-') = true := by
    intro c hc
    rw [bne_iff_ne]
    exact fun he => (upperFirst_wellFormed f []).2.2.2 (he ▸ hc)
  have hdash : '-' ∈ localizedName lang f := by simp [localizedName]
  have htake : (localizedName lang f).takeWhile (· != '-') = upperFirst f.name := by
    unfold localizedName
    rw [List.takeWhile_append_of_pos hfield]
    simp
  have hdrop : ((localizedName lang f).dropWhile (· != '-')).tail =
      if lang = "C" then lang else lang ++ utf8Suffix := by
    unfold localizedName
    rw [List.dropWhile_append_of_pos hfield]
    simp
  unfold templateLset
  simp only [if_pos hdash, htake, hdrop]
  by_cases hC : lang = "C"
  · subst hC
    exact templateSet_language hall ht hne f v
  · have hcase : sameIgnoringCase (lang ++ utf8Suffix) "C" = false := by
      have hlen : utf8Suffix.length = 6 := rfl
      rw [sameIgnoringCase, beq_eq_false_iff_ne]
      intro he
      have := congrArg List.length he
      rw [List.length_map, List.length_map, List.length_append, hlen] at this
      simp at this
    rw [if_neg hC, hcase, hi18n, (hgood.resolve_left hC).2.2]
    exact templateSet_language hall ht hne f v

theorem foldl_fieldEntries {β : Type} (step : β → Header → β) (name : Field → Text)
    (p : L10nFields) (b : β) :
    ((p.entries name).map Entry.parsed).foldl step b =
      Field.all.foldl (fun b f => ((p.text f).map storedText).elim b fun v =>
        step b ⟨name f, v⟩) b := by
  unfold L10nFields.entries
  rw [List.map_flatMap, List.foldl_flatMap]
  congr 1
  funext b f
  cases p.text f <;> rfl

def L10nFields.stored (p : L10nFields) : L10nFields :=
  { p with text := fun f => (p.text f).map storedText }

/-- A template as it is read. -/
def Template.stored (t : Template) : Template where
  tag := storedText t.tag
  type := t.type.map storedText
  help := t.help.map storedText
  fields := t.fields.stored
  translations := t.translations.map L10nFields.stored

theorem foldl_ownFields (env : Env) (text : Field → Option Text) (fs : List Field)
    (t : Template) :
    fs.foldl (fun t f => (text f).elim t fun v =>
        templateLset env t none (upperFirst f.name) v) t =
      { t with fields := t.fields.setTexts text fs } := by
  induction fs generalizing t with
  | nil => rfl
  | cons f fs ih =>
      rw [List.foldl_cons, ih, L10nFields.setTexts, L10nFields.setTexts, List.foldl_cons]
      cases text f with
      | none => rfl
      | some v => rw [Option.elim_some, Option.elim_some, templateLset_field]

theorem foldl_language (hall : env.dropTranslations = false) (hi18n : env.noI18n = false)
    (hgood : GoodLanguage lang) (hne : lang ≠ []) (hts : ∀ r ∈ ts, r.language ≠ lang)
    (text : Field → Option Text) (fs : List Field) (ht : t.fields.language = [])
    (hp : p.language = lang) :
    fs.foldl (fun t f => (text f).elim t fun v => templateLset env t none (localizedName lang f) v)
        { t with translations := withText ts p } =
      { t with translations := withText ts (p.setTexts text fs) } := by
  induction fs generalizing p with
  | nil => rfl
  | cons f fs ih =>
      have hset : p.setTexts text (f :: fs) =
          L10nFields.setTexts text fs ((text f).elim p (p.set f)) := rfl
      rw [List.foldl_cons, hset]
      cases text f with
      | none => exact ih hp
      | some v =>
          have hfirst : templateLset env { t with translations := withText ts p } none
                (localizedName lang f) v =
              { t with translations := withText ts (p.set f v) } := by
            have hset := setLanguage_withText (p := p) (hp.symm ▸ hts) f v
            rw [hp] at hset
            rw [← hset]
            exact templateLset_localized hall hi18n (t := { t with translations := withText ts p })
              ht hgood hne f v
          rw [Option.elim_some, Option.elim_some, hfirst]
          exact ih hp

theorem stored_eq_mk (p : L10nFields) :
    p.stored = { language := p.language, text := fun f => (p.text f).map storedText } := rfl

theorem foldl_translations (hall : env.dropTranslations = false) (hi18n : env.noI18n = false)
    (ht : t.fields.language = []) (ps : List L10nFields) (hgood : ∀ p ∈ ps, GoodLanguage p.language)
    (hnamed : ∀ p ∈ ps, p.language ≠ []) (hfilled : ∀ p ∈ ps, ∃ f, p.text f ≠ none)
    (hnd : ((t.translations ++ ps).map L10nFields.language).Nodup) :
    ((ps.flatMap fun p => p.entries (localizedName p.language)).map Entry.parsed).foldl
        (fun t h => templateLset env t none h.header h.value) t =
      { t with translations := t.translations ++ ps.map L10nFields.stored } := by
  induction ps generalizing t with
  | nil => simp
  | cons p ps ih =>
      have hts : ∀ r ∈ t.translations, r.language ≠ p.language := by
        rw [List.map_append, List.map_cons] at hnd
        exact fun r hr he =>
          (List.nodup_append.mp hnd).2.2 _ (List.mem_map_of_mem hr) p.language (by simp) he
      have hstored : p.stored.filled = true := by
        obtain ⟨f, hf⟩ := hfilled p List.mem_cons_self
        refine (filled_iff _).mpr ⟨f, ?_⟩
        show (p.text f).map storedText ≠ none
        rwa [ne_eq, Option.map_eq_none_iff]
      have hfirst : ((p.entries (localizedName p.language)).map Entry.parsed).foldl
            (fun t h => templateLset env t none h.header h.value) t =
          { t with translations := t.translations ++ [p.stored] } := by
        have hlanguage := foldl_language hall hi18n (hgood p List.mem_cons_self)
          (hnamed p List.mem_cons_self) hts (fun f => (p.text f).map storedText) Field.all ht
          (p := { language := p.language }) rfl
        rw [setTexts_all, ← stored_eq_mk, withText, withText, if_pos hstored] at hlanguage
        rw [foldl_fieldEntries]
        exact hlanguage
      rw [List.flatMap_cons, List.map_append, List.foldl_append, hfirst,
        ih (t := { t with translations := t.translations ++ [p.stored] }) ht
          (fun q hq => hgood q (List.mem_cons_of_mem _ hq))
          (fun q hq => hnamed q (List.mem_cons_of_mem _ hq))
          (fun q hq => hfilled q (List.mem_cons_of_mem _ hq))]
      · simp
      · simpa [L10nFields.stored] using hnd

theorem loadTemplate_entries (hall : env.dropTranslations = false) (hi18n : env.noI18n = false)
    (ht : t.WellBuilt) (hgood : ∀ p ∈ t.translations, GoodLanguage p.language) :
    loadTemplate env (t.entries.map Entry.parsed) = some t.stored := by
  have hname : headerLookup (t.entries.map Entry.parsed) "name" = some (storedText t.tag) :=
    rfl
  have hfilter : (t.entries.map Entry.parsed).filter (fun h => h.header ≠ "Name".toList) =
      t.entries.tail.map Entry.parsed := by
    have hkept : ∀ h ∈ t.entries.tail.map Entry.parsed,
        decide (h.header ≠ "Name".toList) = true := by
      intro h hh
      obtain ⟨e, he, rfl⟩ := List.mem_map.mp hh
      exact decide_eq_true (tail_entries_ne_name he)
    exact List.filter_eq_self.mpr hkept
  have htype : ((t.type.map (textEntry "Type")).toList.map Entry.parsed).foldl
        (fun t h => templateLset env t none h.header h.value) (templateNew (storedText t.tag)) =
      { tag := storedText t.tag, type := t.type.map storedText } := by
    cases t.type <;> rfl
  have hfields : ((t.fields.entries fun f => upperFirst f.name).map Entry.parsed).foldl
        (fun t h => templateLset env t none h.header h.value)
        { tag := storedText t.tag, type := t.type.map storedText } =
      { tag := storedText t.tag, type := t.type.map storedText, fields := t.fields.stored } := by
    rw [foldl_fieldEntries, foldl_ownFields, setTexts_all, stored_eq_mk, ht.language]
  have hhelp : ((t.help.map (textEntry "Help".toList)).toList.map Entry.parsed).foldl
        (fun t h => templateLset env t none h.header h.value)
        { tag := storedText t.tag, type := t.type.map storedText, fields := t.fields.stored } =
      { t.stored with translations := [] } := by
    unfold Template.stored
    cases t.help <;> rfl
  have htranslations := foldl_translations hall hi18n (t := { t.stored with translations := [] })
    ht.language t.translations hgood ht.named ht.filled (by simpa using ht.nodup)
  unfold loadTemplate
  rw [hname, hfilter, Option.map_some]
  show some (((_ ++ _ ++ _) ++ _ : List Entry).map Entry.parsed |>.foldl _ _) = _
  rw [List.map_append, List.map_append, List.map_append, List.foldl_append, List.foldl_append,
    List.foldl_append, htype, hfields, hhelp, htranslations]
  rfl

end DebianInstaller.Debconf
