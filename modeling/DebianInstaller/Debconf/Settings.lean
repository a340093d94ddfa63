import DebianInstaller.Debconf.TemplateLoad

/-!
# Texts that are set and looked up

A text of a template is set for a language and a field, and the language may also stand
behind the name of the field: `Description-de.UTF-8`. Whether `template_lset` and
`template_lget` find it there is decided by one test, which was meant for a name with
nothing between the hyphen and the dot, and leaves out the languages of one letter.

Where the language is found the template is a finite map from languages and fields to
texts, and each language has one structure in the list.
-/

namespace DebianInstaller.Debconf

open Text

variable {env : Env} {f : Field} {lang name : Text} {t : Template}

/-! ## The texts of a language -/

/-- The text that stands in the structure of a language. -/
def textFor (lang : Text) (f : Field) (ps : List L10nFields) : Option Text :=
  (ps.find? fun p => p.language = lang).bind fun p => p.text f

theorem textFor_cons (lang : Text) (f : Field) (p : L10nFields) (ps : List L10nFields) :
    textFor lang f (p :: ps) = if p.language = lang then p.text f else textFor lang f ps := by
  unfold textFor
  split
  · next h => rw [List.find?_cons_of_pos (by simpa using h), Option.bind_some]
  · next h => rw [List.find?_cons_of_neg (by simpa using h)]

/-- The structure without a language is the first one, and no language stands twice. -/
structure Template.Listed (t : Template) : Prop where
  language : t.fields.language = []
  nodup : ((t.fields :: t.translations).map L10nFields.language).Nodup

theorem Template.Listed.named (ht : t.Listed) {p : L10nFields} (hp : p ∈ t.translations) :
    p.language ≠ [] := by
  intro h
  have hnodup := ht.nodup
  rw [List.map_cons, List.nodup_cons, ht.language] at hnodup
  exact hnodup.1 (List.mem_map.mpr ⟨p, hp, h⟩)

theorem Template.WellBuilt.listed (ht : t.WellBuilt) : t.Listed := by
  refine ⟨ht.language, List.nodup_cons.mpr ⟨fun h => ?_, ht.nodup⟩⟩
  obtain ⟨p, hp, he⟩ := List.mem_map.mp h
  exact ht.named p hp (he.trans ht.language)

/-! ## The names of the fields -/

theorem toLower_name (f : Field) : f.name.map Char.toLower = f.name := by
  cases f <;> rfl

theorem lower_of_ofName (h : Field.ofName name = some f) : name.map Char.toLower = f.name := by
  have hsame := List.find?_some h
  rwa [sameIgnoringCase, beq_iff_eq, toLower_name] at hsame

theorem dash_not_mem (h : Field.ofName name = some f) : '-' ∉ name := by
  intro hmem
  have hlower : ('-' : Char).toLower ∈ name.map Char.toLower := List.mem_map_of_mem hmem
  rw [lower_of_ofName h] at hlower
  revert hlower
  cases f <;> decide

theorem own_names (h : Field.ofName name = some f) :
    sameIgnoringCase name "tag" = false ∧ sameIgnoringCase name "type" = false ∧
      sameIgnoringCase name "help" = false := by
  unfold sameIgnoringCase
  rw [lower_of_ofName h]
  cases f <;> decide

theorem templateFieldSet_of_ofName (h : Field.ofName name = some f) (p : L10nFields) (v : Text) :
    templateFieldSet p name v = p.set f v := by
  unfold templateFieldSet
  rw [h]
  rfl

theorem templateFieldGet_of_ofName (h : Field.ofName name = some f) (p : L10nFields) :
    templateFieldGet p name = p.text f := by
  unfold templateFieldGet
  rw [h]
  rfl

/-! ## Looking up a text -/

/-- What `template_get_internal` finds: the text of the very language, also if it has none,
or else that of the language of the first two letters. -/
def textInternal (lang field : Text) (ps : List L10nFields) : Option Text :=
  match ps.find? fun p => p.language = lang with
  | some p => templateFieldGet p field
  | none => (ps.find? fun p => p.language.length = 2 ∧ lang.take 2 = p.language).bind
      fun p => templateFieldGet p field

theorem templateGetInternal_text (lang field : Text) {ps : List L10nFields}
    (hps : (ps.map L10nFields.language).Nodup) (alt : Option Found) (i : Nat) :
    (templateGetInternal lang field alt i ps).map Prod.snd =
      match ps.find? fun p => p.language = lang with
      | some p => templateFieldGet p field
      | none =>
          match ps.find? fun p => p.language.length = 2 ∧ lang.take 2 = p.language with
          | some p => templateFieldGet p field
          | none => alt.map Prod.snd := by
  induction ps generalizing alt i with
  | nil => rfl
  | cons p ps ih =>
      rw [List.map_cons, List.nodup_cons] at hps
      have hfound : ((templateFieldGet p field).map fun v => ((i, v) : Found)).map Prod.snd =
          templateFieldGet p field := by
        rw [Option.map_map]
        cases templateFieldGet p field <;> rfl
      rw [templateGetInternal]
      simp only
      by_cases hexact : p.language = lang
      · rw [if_pos hexact, hfound, List.find?_cons_of_pos (by simpa using hexact)]
      · rw [if_neg hexact, ih hps.2, List.find?_cons_of_neg (by simpa using hexact)]
        cases hrest : ps.find? fun p => p.language = lang with
        | some q => rfl
        | none =>
            by_cases htwo : p.language.length = 2 ∧ lang.take 2 = p.language
            · have hnone : (ps.find? fun p => p.language.length = 2 ∧ lang.take 2 = p.language) =
                  none := by
                rw [List.find?_eq_none]
                intro q hq he
                have he : q.language.length = 2 ∧ lang.take 2 = q.language := by simpa using he
                exact hps.1 (List.mem_map.mpr ⟨q, hq, he.2.symm.trans htwo.2⟩)
              rw [if_pos htwo, hnone, List.find?_cons_of_pos (by simpa using htwo)]
              exact hfound
            · rw [if_neg htwo, List.find?_cons_of_neg (by simpa using htwo)]

theorem templateGetInternal_eq (lang field : Text) (ht : t.Listed) (i : Nat) :
    (templateGetInternal lang field none i t.translations).map Prod.snd =
      textInternal lang field t.translations := by
  have hnodup := ht.nodup
  rw [List.map_cons, List.nodup_cons] at hnodup
  rw [templateGetInternal_text lang field hnodup.2]
  unfold textInternal
  cases t.translations.find? fun p => p.language = lang with
  | some p => rfl
  | none => cases t.translations.find? _ <;> rfl

theorem templateGet_lang (hname : Field.ofName name = some f) (hlang : lang ≠ []) (ht : t.Listed) :
    (templateGet env t (some lang) name).map Prod.snd =
      (textInternal lang name t.translations).or (t.fields.text f) := by
  obtain ⟨htag, htype, hhelp⟩ := own_names hname
  obtain ⟨c, l, rfl⟩ := List.exists_cons_of_ne_nil hlang
  unfold templateGet templateFind
  rw [htag, htype, hhelp]
  simp only [Bool.false_eq_true, if_false]
  rw [Option.map_or, templateGetInternal_eq _ _ ht, templateFieldGet_of_ofName hname,
    Option.map_map]
  cases t.fields.text f <;> rfl

theorem textInternal_of_textFor {v : Text} (hname : Field.ofName name = some f)
    {ps : List L10nFields} (h : textFor lang f ps = some v) :
    textInternal lang name ps = some v := by
  obtain ⟨p, hp, hv⟩ := Option.bind_eq_some_iff.mp h
  unfold textInternal
  rw [hp]
  exact (templateFieldGet_of_ofName hname p).trans hv

/-! ## A language behind a name -/

/-- The language is found in front of `.UTF-8`. -/
def Spellable (env : Env) (lang : Text) : Prop :=
  env.noI18n = false ∧ lang.length ≠ 1 ∧ strcasestr utf8Suffix lang = none

instance (env : Env) (lang : Text) : Decidable (Spellable env lang) :=
  inferInstanceAs (Decidable (_ ∧ _ ∧ _))

theorem sameIgnoringCase_take (hne : lang ≠ []) :
    sameIgnoringCase ((lang ++ utf8Suffix).take 6) utf8Suffix =
      sameIgnoringCase (lang.take 6) utf8Suffix := by
  rcases Nat.lt_or_ge lang.length 6 with hlt | hge
  · have hright : sameIgnoringCase (lang.take 6) utf8Suffix = false := by
      rw [sameIgnoringCase, beq_eq_false_iff_ne]
      intro he
      have hlen := congrArg List.length he
      rw [List.length_map, List.length_map, List.take_of_length_le hlt.le] at hlen
      exact Nat.ne_of_lt hlt hlen
    -- the dot stands where the suffix has none
    have hleft : sameIgnoringCase ((lang ++ utf8Suffix).take 6) utf8Suffix = false := by
      rw [sameIgnoringCase, beq_eq_false_iff_ne]
      intro he
      have hdot : (lang ++ utf8Suffix)[lang.length]? = some '.' := by
        rw [List.getElem?_append_right (Nat.le_refl _), Nat.sub_self]
        rfl
      have hat := congrArg (fun l => l[lang.length]?) he
      simp only [List.getElem?_map, List.getElem?_take_of_lt hlt, hdot] at hat
      have hpos : 0 < lang.length := List.length_pos_iff.mpr hne
      generalize lang.length = n at hlt hat hpos
      revert hat
      decide +revert
    rw [hleft, hright]
  · rw [List.take_append_of_le_length hge]

theorem strcasestr_utf8 (lang : Text) :
    strcasestr utf8Suffix (lang ++ utf8Suffix) =
      some ((strcasestr utf8Suffix lang).getD lang.length) := by
  induction lang with
  | nil => rfl
  | cons c lang ih =>
      rw [List.cons_append, strcasestr, strcasestr, ← List.cons_append]
      have hlen : utf8Suffix.length = 6 := rfl
      rw [hlen, sameIgnoringCase_take (List.cons_ne_nil c lang), ih]
      split
      · rfl
      · cases strcasestr utf8Suffix lang <;> rfl

theorem strcasestr_length {needle t : Text} {i : Nat} (h : strcasestr needle t = some i) :
    i + needle.length ≤ t.length ∨ needle = [] := by
  have hsame := strcasestr_some h
  rw [sameIgnoringCase, beq_iff_eq] at hsame
  have hlen := congrArg List.length hsame
  rw [List.length_map, List.length_map, List.length_take, List.length_drop] at hlen
  cases needle with
  | nil => exact .inr rfl
  | cons c needle =>
      rw [List.length_cons] at hlen ⊢
      omega

theorem beforeUtf8_append (lang : Text) : beforeUtf8 (lang ++ utf8Suffix) =
    if lang.length ≠ 1 ∧ strcasestr utf8Suffix lang = none then some lang else none := by
  have hlen : utf8Suffix.length = 6 := rfl
  unfold beforeUtf8
  rw [strcasestr_utf8]
  cases hfind : strcasestr utf8Suffix lang with
  | none =>
      simp only [Option.getD_none, List.length_append, hlen, true_and, and_true]
      rw [List.take_left]
  | some i =>
      have hle := (strcasestr_length hfind).resolve_right (by decide)
      rw [hlen] at hle
      simp only [Option.getD_some, List.length_append, hlen]
      rw [if_neg (by omega), if_neg (by simp)]

/-! ## Setting and getting -/

/-- A language and a field, and whether the language stands behind the name of the field. -/
structure Place where
  lang : Text
  name : Text
  field : Field
  spelled : Bool
  lang_ne : lang ≠ []
  name_of : Field.ofName name = some field

variable {s : Place}

/-- The name of the field that `template_lset` and `template_lget` are given. -/
def Place.key (s : Place) : Text :=
  if s.spelled then s.name ++ '-' :: (s.lang ++ utf8Suffix) else s.name

def Place.set (env : Env) (s : Place) (v : Text) (t : Template) : Template :=
  templateLset env t (some s.lang) s.key v

def Place.get (env : Env) (s : Place) (t : Template) : Option Text :=
  templateLget env t (some s.lang) s.key

/-- A sequence of calls of `template_lset`. -/
def setAll (env : Env) (calls : List (Place × Text)) (t : Template) : Template :=
  calls.foldl (fun t c => c.1.set env c.2 t) t

/-- What is set last for a language and a field. -/
def lastValue (calls : List (Place × Text)) (lang : Text) (f : Field) : Option Text :=
  (calls.reverse.find? fun c => c.1.lang = lang ∧ c.1.field = f).map Prod.snd

/-- What is set last is found, wherever the language stands; nothing else has changed; and
every language stands once in the list, behind the structure without one. -/
structure GetsLast (env : Env) (t : Template) (calls : List (Place × Text)) : Prop where
  last : ∀ (s : Place) (v : Text), lastValue calls s.lang s.field = some v →
    s.get env (setAll env calls t) = some v
  others : ∀ lang f, lastValue calls lang f = none →
    textFor lang f (setAll env calls t).translations = textFor lang f t.translations
  own : { setAll env calls t with translations := t.translations } = t
  listed : (setAll env calls t).Listed

theorem spelled_parts (s : Place) :
    '-' ∈ s.name ++ '-' :: (s.lang ++ utf8Suffix) ∧
      (s.name ++ '-' :: (s.lang ++ utf8Suffix)).takeWhile (· != '-') = s.name ∧
      ((s.name ++ '-' :: (s.lang ++ utf8Suffix)).dropWhile (· != '-')).tail =
        s.lang ++ utf8Suffix := by
  have hname : ∀ c ∈ s.name, (c != '-') = true := by
    intro c hc
    rw [bne_iff_ne]
    exact fun he => dash_not_mem s.name_of (he ▸ hc)
  refine ⟨by simp, ?_, ?_⟩
  · rw [List.takeWhile_append_of_pos hname]
    simp
  · rw [List.dropWhile_append_of_pos hname]
    simp

theorem sameIgnoringCase_utf8 (lang w : Text) (hw : w.length < 6) :
    sameIgnoringCase (lang ++ utf8Suffix) w = false := by
  have hlen : utf8Suffix.length = 6 := rfl
  rw [sameIgnoringCase, beq_eq_false_iff_ne]
  intro he
  have := congrArg List.length he
  rw [List.length_map, List.length_map, List.length_append, hlen] at this
  omega

theorem templateSet_place (hall : env.dropTranslations = false) (ht : t.fields.language = [])
    (s : Place) (v : Text) :
    templateSet env t (some s.lang) s.name v =
      { t with translations := setLanguage s.lang s.name v t.translations } := by
  obtain ⟨htag, htype, hhelp⟩ := own_names s.name_of
  obtain ⟨c, l, hl⟩ := List.exists_cons_of_ne_nil s.lang_ne
  have hwants : env.wants s.lang = true := by simp [Env.wants, hall]
  have hfield : t.fields.language ≠ s.lang := by
    rw [ht]
    exact s.lang_ne.symm
  unfold templateSet
  rw [htag, htype, hhelp]
  simp only [Bool.false_eq_true, if_false]
  rw [hl] at hwants hfield ⊢
  simp only [if_pos hwants, if_neg hfield]

theorem Place.key_spelled (hs : s.spelled = true) :
    s.key = s.name ++ '-' :: (s.lang ++ utf8Suffix) := if_pos hs

theorem Place.key_apart (hs : ¬ s.spelled = true) : s.key = s.name := if_neg hs

theorem set_place (hall : env.dropTranslations = false) (ht : t.fields.language = [])
    (h : s.spelled = true → Spellable env s.lang) (v : Text) :
    s.set env v t = { t with translations := setLanguage s.lang s.name v t.translations } := by
  unfold Place.set templateLset
  by_cases hs : s.spelled = true
  · obtain ⟨hdash, htake, hdrop⟩ := spelled_parts s
    obtain ⟨hi, hgood⟩ := h hs
    rw [Place.key_spelled hs, if_pos hdash]
    simp only [htake, hdrop]
    rw [sameIgnoringCase_utf8 s.lang "C" (by decide), hi, beforeUtf8_append, if_pos hgood]
    exact templateSet_place hall ht s v
  · rw [Place.key_apart hs, if_neg (dash_not_mem s.name_of)]
    exact templateSet_place hall ht s v

theorem get_place (h : s.spelled = true → Spellable env s.lang) (ht : t.Listed) : s.get env t =
      (textInternal s.lang s.name t.translations).or (t.fields.text s.field) := by
  unfold Place.get templateLget templateLgetFrom
  by_cases hs : s.spelled = true
  · obtain ⟨hdash, htake, hdrop⟩ := spelled_parts s
    obtain ⟨hi, hgood⟩ := h hs
    rw [Place.key_spelled hs, if_pos hdash]
    simp only [htake, hdrop]
    rw [sameIgnoringCase_utf8 s.lang "C" (by decide), hi, beforeUtf8_append, if_pos hgood]
    exact templateGet_lang s.name_of s.lang_ne ht
  · rw [Place.key_apart hs, if_neg (dash_not_mem s.name_of)]
    exact templateGet_lang s.name_of s.lang_ne ht

theorem get_unspellable (hs : s.spelled = true) (h : ¬ Spellable env s.lang) (t : Template) :
    s.get env t = none := by
  obtain ⟨hdash, htake, hdrop⟩ := spelled_parts s
  unfold Place.get templateLget templateLgetFrom
  rw [Place.key_spelled hs, if_pos hdash]
  simp only [htake, hdrop]
  rw [sameIgnoringCase_utf8 s.lang "C" (by decide), beforeUtf8_append]
  by_cases hi : env.noI18n = true
  · rw [hi]
    rfl
  · have hbad : ¬ (s.lang.length ≠ 1 ∧ strcasestr utf8Suffix s.lang = none) := fun hgood =>
      h ⟨(Bool.not_eq_true _).mp hi, hgood⟩
    rw [if_neg hbad, (Bool.not_eq_true _).mp hi]
    rfl

/-! ## Sequences of calls -/

theorem textFor_setLanguage (hname : Field.ofName name = some f) (v : Text) (ps : List L10nFields)
    (lang' : Text) (f' : Field) :
    textFor lang' f' (setLanguage lang name v ps) =
      if lang = lang' ∧ f = f' then some v else textFor lang' f' ps := by
  have hset : ∀ p : L10nFields, (p.set f v).text f' = if f = f' then some v else p.text f' := by
    intro p
    split
    · next he =>
        subst he
        exact Function.update_self ..
    · next hne => exact Function.update_of_ne (Ne.symm hne) ..
  induction ps with
  | nil =>
      rw [setLanguage, templateFieldSet_of_ofName hname, textFor_cons, hset]
      show (if lang = lang' then _ else _) = _
      by_cases hl : lang = lang'
      · simp [hl, textFor]
      · simp [hl]
  | cons p ps ih =>
      rw [setLanguage, textFor_cons lang' f' p]
      split
      · next hp =>
          rw [templateFieldSet_of_ofName hname, textFor_cons, hset]
          show (if p.language = lang' then _ else _) = _
          rw [hp]
          by_cases hl : lang = lang'
          · simp [hl]
          · simp [hl]
      · next hp =>
          rw [textFor_cons, ih]
          by_cases hl : p.language = lang'
          · have hne : lang ≠ lang' := fun h => hp (hl.trans h.symm)
            simp [hl, hne]
          · simp [hl]

theorem listed_setLanguage (ht : t.Listed) (hname : Field.ofName name = some f) (hlang : lang ≠ [])
    (v : Text) :
    Template.Listed { t with translations := setLanguage lang name v t.translations } := by
  have hsame : setLanguage lang name v t.translations =
      setLanguage lang f.name v t.translations := by
    induction t.translations with
    | nil => rw [setLanguage, setLanguage, templateFieldSet_of_ofName hname, templateFieldSet_name]
    | cons p ps ih =>
        rw [setLanguage, setLanguage, ih, templateFieldSet_of_ofName hname, templateFieldSet_name]
  obtain ⟨hfirst, hnodup⟩ := List.nodup_cons.mp ht.nodup
  rw [hsame]
  refine ⟨ht.language, List.nodup_cons.mpr ⟨fun hmem => ?_, setLanguage_nodup hnodup lang f v⟩⟩
  obtain ⟨p, hp, he⟩ := List.mem_map.mp hmem
  rw [ht.language] at he
  rcases mem_setLanguage hp with hp | ⟨hp, -⟩
  · exact ht.named hp he
  · exact hlang (hp.symm.trans he)

theorem lastValue_concat (calls : List (Place × Text)) (s : Place) (v lang : Text) (f : Field) :
    lastValue (calls ++ [(s, v)]) lang f =
      if s.lang = lang ∧ s.field = f then some v else lastValue calls lang f := by
  unfold lastValue
  rw [List.reverse_concat]
  split
  · next h => rw [List.find?_cons_of_pos (by simpa using h)]; rfl
  · next h => rw [List.find?_cons_of_neg (by simpa using h)]

theorem setAll_spec (hall : env.dropTranslations = false) (ht : t.Listed)
    {calls : List (Place × Text)} (h : ∀ c ∈ calls, c.1.spelled = true → Spellable env c.1.lang) :
    (setAll env calls t).Listed ∧
      { setAll env calls t with translations := t.translations } = t ∧
      ∀ lang f, textFor lang f (setAll env calls t).translations =
        (lastValue calls lang f).or (textFor lang f t.translations) := by
  induction calls using List.reverseRecOn with
  | nil => exact ⟨ht, rfl, fun _ _ => rfl⟩
  | append_singleton calls c ih =>
      obtain ⟨s, v⟩ := c
      obtain ⟨hlisted, hown, htext⟩ := ih fun c hc => h c (List.mem_append_left _ hc)
      have hset : setAll env (calls ++ [(s, v)]) t =
          { setAll env calls t with
            translations := setLanguage s.lang s.name v (setAll env calls t).translations } := by
        unfold setAll
        rw [List.foldl_concat]
        exact set_place hall hlisted.language
          (h (s, v) (List.mem_append_right _ List.mem_cons_self)) v
      rw [hset]
      refine ⟨listed_setLanguage hlisted s.name_of s.lang_ne v, hown, fun lang f => ?_⟩
      rw [textFor_setLanguage s.name_of, lastValue_concat, htext]
      split <;> rfl

theorem exists_lastValue {calls : List (Place × Text)} {c : Place × Text} (h : c ∈ calls) :
    ∃ v, lastValue calls c.1.lang c.1.field = some v := by
  unfold lastValue
  rw [← Option.isSome_iff_exists, Option.isSome_map, List.find?_isSome]
  exact ⟨c, List.mem_reverse.mpr h, by simp⟩

/-- Texts are found again exactly if the languages are found behind the names. -/
theorem getsLast_iff {env : Env} (hall : env.dropTranslations = false) {t : Template}
    (ht : t.Listed) (calls : List (Place × Text)) :
    GetsLast env t calls ↔ ∀ c ∈ calls, Spellable env c.1.lang := by
  constructor
  · intro h c hc
    obtain ⟨v, hv⟩ := exists_lastValue hc
    by_contra hbad
    let s : Place := { c.1 with spelled := true }
    have hnone := get_unspellable (s := s) rfl hbad (setAll env calls t)
    cases (h.last s v hv).symm.trans hnone
  · intro h
    obtain ⟨hlisted, hown, htext⟩ := setAll_spec hall ht fun c hc _ => h c hc
    refine ⟨fun s v hv => ?_, fun lang f hnone => ?_, hown, hlisted⟩
    · obtain ⟨c, hc, he⟩ : ∃ c ∈ calls, c.1.lang = s.lang := by
        obtain ⟨c, hfind, -⟩ := Option.map_eq_some_iff.mp hv
        have hc := List.find?_some hfind
        exact ⟨c, List.mem_reverse.mp (List.mem_of_find?_eq_some hfind), by
          simp only [decide_eq_true_eq] at hc
          exact hc.1⟩
      rw [get_place (fun _ => he ▸ h c hc) hlisted,
        textInternal_of_textFor s.name_of ((htext _ _).trans (by rw [hv]; rfl))]
      rfl
    · rw [htext, hnone]
      rfl

/-- A description in a language that stands behind the name of the field. -/
def descriptionIn (lang : Text) (h : lang ≠ []) : Place where
  lang := lang
  name := "Description"
  field := .description
  spelled := true
  lang_ne := h
  name_of := rfl

theorem getsLast_german : GetsLast {} (templateNew "debconf/priority")
    [(descriptionIn "de" (by decide), "Fragen"),
      (descriptionIn "pt_BR" (by decide), "Perguntas")] := by
  refine (getsLast_iff rfl (templateNew_wellBuilt _).listed _).mpr fun c hc => ?_
  rcases List.mem_cons.mp hc with rfl | hc
  · exact ⟨rfl, by decide, by decide⟩
  · obtain rfl := List.mem_singleton.mp hc
    exact ⟨rfl, by decide, by decide⟩

/-- `Description-C.UTF-8` is not set. -/
theorem not_getsLast_C : ¬ GetsLast {} (templateNew "debconf/priority")
    [(descriptionIn "C" (by decide), "Questions")] := by
  intro h
  have hget := h.last (descriptionIn "C" (by decide)) "Questions" rfl
  exact absurd hget (by decide)

end DebianInstaller.Debconf
