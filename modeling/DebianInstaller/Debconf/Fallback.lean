import DebianInstaller.Debconf.Settings

/-!
# The languages of the environment

Without a language `template_lget` goes through those of `LANGUAGE`. For each of them a
text in that very language is wanted, or else, for `pt_BR` and its like, one in the
language before the underscore; and if there is none at all, the text without a language.

`template_get_internal` looks at all of this in one loop. A structure of the language
that has no text ends the loop, so that it hides the text of the shorter language; and
of a longer language only the first two letters are compared, so that `ptx` comes to `pt`.
This does harm if the languages that follow do not lead to the same text.
-/

namespace DebianInstaller.Debconf

open Text

/-! ## What is wanted -/

/-- The two letters of a language of the form `xx`, `xx_...`, `xx....` or `xx@...`. -/
def baseLanguage : Text → Option Text
  | [a, b] => if a.isAlpha && b.isAlpha then some [a, b] else none
  | a :: b :: c :: _ =>
      if a.isAlpha && b.isAlpha && (c == '_' || c == '.' || c == '@') then some [a, b] else none
  | _ => none

/-- The text in the structure of a language. -/
def entryText (t : Template) (field lang : Text) : Option Text :=
  (t.translations.find? fun p => p.language = lang).bind fun p => templateFieldGet p field

/-- The text that stands there without a language. -/
def ownText (t : Template) (field : Text) : Option Text :=
  if sameIgnoringCase field "tag" then some t.tag
  else if sameIgnoringCase field "type" then t.type
  else if sameIgnoringCase field "help" then t.help
  else templateFieldGet t.fields field

/-- The text that is wanted for a language. -/
def wantedText (t : Template) (field lang : Text) : Option Text :=
  (entryText t field lang).or ((baseLanguage lang).bind (entryText t field))

/-- The text that is wanted for the languages of the environment. -/
def bestText (env : Env) (t : Template) (field : Text) : Option Text :=
  (env.languages.findSome? (wantedText t field)).or (ownText t field)

/-! ## What is found -/

/-- There is a structure of the language. -/
def Template.Lists (t : Template) (lang : Text) : Prop := ∃ p ∈ t.translations, p.language = lang

instance (t : Template) (lang : Text) : Decidable (t.Lists lang) :=
  inferInstanceAs (Decidable (∃ p ∈ t.translations, p.language = lang))

def firstTwo (lang : Text) : Option Text := if 2 ≤ lang.length then some (lang.take 2) else none

/-- The text that is found for a language. -/
def foundText (t : Template) (field lang : Text) : Option Text :=
  if t.Lists lang then entryText t field lang else (firstTwo lang).bind (entryText t field)

/-- A structure of the language without the text stands before a shorter language with it. -/
def Hides (t : Template) (field lang : Text) : Prop :=
  t.Lists lang ∧ entryText t field lang = none ∧
    (baseLanguage lang).bind (entryText t field) ≠ none

/-- A language is taken for one that its first two letters are the name of. -/
def Strays (t : Template) (field lang : Text) : Prop :=
  ¬ t.Lists lang ∧ baseLanguage lang = none ∧ (firstTwo lang).bind (entryText t field) ≠ none

/-- Where a text is hidden, or a language leads astray, the languages behind it lead to the
same text after all. This is asked of the first language only that has a text. -/
def Harmless (t : Template) (field : Text) : List Text → Prop
  | [] => True
  | lang :: langs =>
      (Hides t field lang →
        (langs.findSome? (foundText t field)).or (ownText t field) = wantedText t field lang) ∧
      (Strays t field lang →
        (langs.findSome? (wantedText t field)).or (ownText t field) = foundText t field lang) ∧
      (wantedText t field lang = none → ¬ Strays t field lang → Harmless t field langs)

instance (t : Template) (field lang : Text) : Decidable (Hides t field lang) :=
  inferInstanceAs (Decidable (_ ∧ _ ∧ _))

instance (t : Template) (field lang : Text) : Decidable (Strays t field lang) :=
  inferInstanceAs (Decidable (_ ∧ _ ∧ _))

instance decidableHarmless (t : Template) (field : Text) :
    (langs : List Text) → Decidable (Harmless t field langs)
  | [] => isTrue trivial
  | lang :: langs =>
      have := decidableHarmless t field langs
      inferInstanceAs (Decidable ((Hides t field lang → _) ∧ (Strays t field lang → _) ∧
        (wantedText t field lang = none → ¬ Strays t field lang → Harmless t field langs)))

/-! ## One language -/

theorem entryText_of_not_lists {t : Template} {lang : Text} (h : ¬ t.Lists lang) (field : Text) :
    entryText t field lang = none := by
  unfold entryText
  rw [List.find?_eq_none.mpr fun p hp he => h ⟨p, hp, by simpa using he⟩]
  rfl

theorem textInternal_eq (t : Template) (field lang : Text) :
    textInternal lang field t.translations = foundText t field lang := by
  unfold textInternal foundText
  by_cases hlists : t.Lists lang
  · obtain ⟨p, hp⟩ : ∃ p, (t.translations.find? fun p => p.language = lang) = some p := by
      rw [← Option.isSome_iff_exists, List.find?_isSome]
      obtain ⟨p, hp, he⟩ := hlists
      exact ⟨p, hp, by simpa using he⟩
    rw [if_pos hlists, entryText, hp]
    rfl
  · have hnone : (t.translations.find? fun p => p.language = lang) = none :=
      List.find?_eq_none.mpr fun p hp he => hlists ⟨p, hp, by simpa using he⟩
    rw [if_neg hlists, hnone]
    unfold firstTwo
    show (t.translations.find? _).bind _ = _
    by_cases hlong : 2 ≤ lang.length
    · have hsame : (fun p : L10nFields => decide (p.language.length = 2 ∧
          lang.take 2 = p.language)) = fun p => decide (p.language = lang.take 2) := by
        funext p
        refine decide_eq_decide.mpr ⟨fun h => h.2.symm, fun h => ⟨?_, h.symm⟩⟩
        rw [h, List.length_take_of_le hlong]
      rw [if_pos hlong, hsame]
      rfl
    · have hnever : (t.translations.find? fun p =>
          p.language.length = 2 ∧ lang.take 2 = p.language) = none := by
        refine List.find?_eq_none.mpr fun p _ he => hlong ?_
        have he : p.language.length = 2 ∧ lang.take 2 = p.language := by simpa using he
        have hlen := congrArg List.length he.2
        rw [List.length_take, he.1] at hlen
        omega
      rw [if_neg hlong, hnever]
      rfl

theorem firstTwo_of_baseLanguage {lang m : Text} (h : baseLanguage lang = some m) :
    firstTwo lang = some m := by
  match lang, h with
  | [a, b], h =>
      rw [baseLanguage] at h
      split at h
      · exact h
      · cases h
  | a :: b :: c :: l, h =>
      rw [baseLanguage] at h
      split at h
      · exact h
      · cases h

/-- The text that is found for a language is the one that is wanted, or it is hidden, or the
language strays. -/
theorem foundText_cases (t : Template) (field lang : Text) :
    (foundText t field lang = wantedText t field lang ∧ ¬ Hides t field lang ∧
        ¬ Strays t field lang) ∨
      (Hides t field lang ∧ foundText t field lang = none ∧ wantedText t field lang ≠ none ∧
        ¬ Strays t field lang) ∨
      (Strays t field lang ∧ foundText t field lang ≠ none ∧ wantedText t field lang = none ∧
        ¬ Hides t field lang) := by
  unfold foundText wantedText
  by_cases hlists : t.Lists lang
  · have hstrays : ¬ Strays t field lang := fun h => h.1 hlists
    rw [if_pos hlists]
    cases hentry : entryText t field lang with
    | some v =>
        refine .inl ⟨rfl, fun h => ?_, hstrays⟩
        cases hentry.symm.trans h.2.1
    | none =>
        rw [Option.none_or]
        cases hbase : (baseLanguage lang).bind (entryText t field) with
        | none => exact .inl ⟨rfl, fun h => h.2.2 hbase, hstrays⟩
        | some v =>
            refine .inr (.inl ⟨⟨hlists, hentry, ?_⟩, rfl, Option.some_ne_none v, hstrays⟩)
            rw [hbase]
            exact Option.some_ne_none v
  · have hhides : ¬ Hides t field lang := fun h => hlists h.1
    rw [if_neg hlists, entryText_of_not_lists hlists, Option.none_or]
    cases hbase : baseLanguage lang with
    | some m =>
        rw [firstTwo_of_baseLanguage hbase]
        refine .inl ⟨rfl, hhides, fun h => ?_⟩
        cases hbase.symm.trans h.2.1
    | none =>
        cases htwo : (firstTwo lang).bind (entryText t field) with
        | none => exact .inl ⟨rfl, hhides, fun h => h.2.2 htwo⟩
        | some v =>
            refine .inr (.inr ⟨⟨hlists, hbase, ?_⟩, Option.some_ne_none v, rfl, hhides⟩)
            rw [htwo]
            exact Option.some_ne_none v

/-! ## The list of languages -/

theorem findSome_iff (t : Template) (field : Text) (langs : List Text) :
    (langs.findSome? (foundText t field)).or (ownText t field) =
        (langs.findSome? (wantedText t field)).or (ownText t field) ↔
      Harmless t field langs := by
  induction langs with
  | nil => exact iff_of_true rfl trivial
  | cons lang langs ih =>
      rw [List.findSome?_cons, List.findSome?_cons, Harmless]
      rcases foundText_cases t field lang with
        ⟨hsame, hhides, hstrays⟩ | ⟨hhides, hfound, hwanted, hstrays⟩ |
          ⟨hstrays, hfound, hwanted, hhides⟩
      · rw [hsame]
        cases hw : wantedText t field lang with
        | some v =>
            exact iff_of_true rfl
              ⟨fun h => absurd h hhides, fun h => absurd h hstrays, fun h => nomatch h⟩
        | none =>
            refine ih.trans ⟨fun h => ?_, fun h => h.2.2 rfl hstrays⟩
            exact ⟨fun h => absurd h hhides, fun h => absurd h hstrays, fun _ _ => h⟩
      · obtain ⟨v, hv⟩ := Option.ne_none_iff_exists'.mp hwanted
        rw [hfound, hv]
        refine ⟨fun h => ⟨fun _ => h, fun h => absurd h hstrays, fun h => nomatch h⟩,
          fun h => h.1 hhides⟩
      · obtain ⟨v, hv⟩ := Option.ne_none_iff_exists'.mp hfound
        rw [hwanted, hv]
        refine ⟨fun h => ⟨fun h => absurd h hhides, fun _ => h.symm, fun _ h => absurd hstrays h⟩,
          fun h => (h.2.1 hstrays).symm⟩

/-! ## `template_lget` without a language -/

theorem ofName_of_own {field : Text} (h : sameIgnoringCase field "tag" = true ∨
    sameIgnoringCase field "type" = true ∨ sameIgnoringCase field "help" = true) :
    Field.ofName field = none := by
  cases hname : Field.ofName field with
  | none => rfl
  | some f =>
      obtain ⟨htag, htype, hhelp⟩ := own_names hname
      rw [htag, htype, hhelp] at h
      rcases h with h | h | h <;> cases h

theorem foundText_of_no_name {field : Text} (h : Field.ofName field = none) (t : Template)
    (langs : List Text) : langs.findSome? (foundText t field) = none := by
  have hget : ∀ p, templateFieldGet p field = none := by
    intro p
    unfold templateFieldGet
    rw [h]
    rfl
  have hentry : ∀ lang, entryText t field lang = none := by
    intro lang
    unfold entryText
    rw [Option.bind_eq_none_iff]
    exact fun p _ => hget p
  rw [List.findSome?_eq_none_iff]
  intro lang _
  unfold foundText
  rw [hentry]
  split
  · rfl
  · cases firstTwo lang with
    | none => rfl
    | some m => exact hentry m

theorem templateLget_languages (env : Env) {t : Template} (ht : t.Listed) {field : Text}
    (hfield : '-' ∉ field) : templateLget env t (some []) field =
      (env.languages.findSome? (foundText t field)).or (ownText t field) := by
  unfold templateLget templateLgetFrom templateGet ownText
  rw [if_neg hfield]
  split
  · next h =>
      rw [foundText_of_no_name (ofName_of_own (.inl h))]
      rfl
  · split
    · next h =>
        rw [foundText_of_no_name (ofName_of_own (.inr (.inl h))), Option.none_or, Option.map_map]
        cases t.type <;> rfl
    · split
      · next h =>
          rw [foundText_of_no_name (ofName_of_own (.inr (.inr h))), Option.none_or, Option.map_map]
          cases t.help <;> rfl
      · unfold templateFind
        simp only
        rw [Option.map_or, List.map_findSome?, Option.map_map]
        have hfound : (Option.map Prod.snd ∘ fun l => templateGetInternal l field none 1
            t.translations) = foundText t field := by
          funext lang
          exact (templateGetInternal_eq lang field ht 1).trans (textInternal_eq t field lang)
        rw [hfound]
        cases templateFieldGet t.fields field <;> rfl

/-- The text that is wanted for the languages of the environment is found exactly if the first
of them that has a text neither hides it nor strays, or those behind it make up for that. -/
theorem templateLget_best_iff (env : Env) {t : Template} (ht : t.Listed) {field : Text}
    (hfield : '-' ∉ field) : templateLget env t (some []) field = bestText env t field ↔
      Harmless t field env.languages := by
  rw [templateLget_languages env ht hfield]
  exact findSome_iff t field env.languages

/-- A template that is described in Portuguese, and not in that of Brazil. -/
def portuguese : Template where
  tag := "debconf/priority"
  fields := { language := [], text := fun _ => some "Questions" }
  translations := [
    { language := "pt", text := fun _ => some "Perguntas" },
    { language := "pt_BR"
      text := fun f => if f = .choices then some "sim" else none }]

theorem portuguese_listed : portuguese.Listed := ⟨rfl, by decide⟩

/-- With `pt` behind `pt_BR` the text is found after all. -/
theorem templateLget_portuguese :
    templateLget { language := some "pt_BR:pt" } portuguese (some [])
        "description" =
      bestText { language := some "pt_BR:pt" } portuguese "description" :=
  (templateLget_best_iff _ portuguese_listed (by decide)).mpr (by decide)

/-- A Brazilian structure without a description hides that in Portuguese, and who asks for a
language `ptx` is answered in Portuguese. -/
theorem templateLget_not_best :
    templateLget { language := some "pt_BR" } portuguese (some [])
        "description" ≠
      bestText { language := some "pt_BR" } portuguese "description" ∧
    templateLget { language := some "ptx" } portuguese (some [])
        "description" ≠
      bestText { language := some "ptx" } portuguese "description" := by
  decide

end DebianInstaller.Debconf
