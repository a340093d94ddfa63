import DebianInstaller.Debconf.Settings

/-!
# Merging the translations of a template

When a template is loaded that the database has already, `template_l10nmerge` puts the
texts of the new one into the old one, language by language. Translations that belong to
a text that has changed are deleted before that. The comparison tells a text that is not
there from an empty one, while empty texts are not copied; so a change may be seen again
in the next merge, and the same translations are deleted and copied once more.
-/

namespace DebianInstaller.Debconf

open Text

variable {new ret t : Template} {ps : List L10nFields}

/-! ## The merge -/

/-- `same_choices`. -/
def sameChoices (src dst : L10nFields) : Bool := src.text .choices == dst.text .choices

/-- `same_description`. -/
def sameDescription (src dst : L10nFields) : Bool :=
  src.text .description == dst.text .description &&
    src.text .extendedDescription == dst.text .extendedDescription

/-- The fields whose translations are outdated. -/
def outdatedField (sameChoices sameDescription : Bool) : Field → Bool
  | .default => false
  | .choices | .indices => !sameChoices
  | .description | .extendedDescription => !sameDescription

/-- A structure after the texts of some fields are deleted. -/
def deleteTexts (outdated : Field → Bool) (p : L10nFields) : L10nFields :=
  { p with text := fun f => if outdated f then none else p.text f }

/-- A text if it is there and not empty. -/
def nonEmpty (v : Option Text) : Option Text := v.filter (· ≠ [])

/-- A structure after the texts of another one are copied. -/
def copyTexts (src dst : L10nFields) : L10nFields :=
  { dst with text := fun f => (nonEmpty (src.text f)).or (dst.text f) }

/-- The texts are copied to the structure of their language; a new one is made at the end. -/
def mergeLanguage (src : L10nFields) : List L10nFields → List L10nFields
  | [] => [copyTexts src { language := src.language }]
  | p :: ps => if p.language = src.language then copyTexts src p :: ps else p :: mergeLanguage src ps

/-- One round of the loop over the languages. -/
def mergeOne (ret : Template) (src : L10nFields) : Template :=
  if ret.fields.language = src.language then { ret with fields := copyTexts src ret.fields }
  else { ret with translations := mergeLanguage src ret.translations }

/-- What is outdated in a template when another one is merged. -/
def outdatedIn (ret t : Template) : Field → Bool :=
  outdatedField (sameChoices t.fields ret.fields) (sameDescription t.fields ret.fields)

/-- `template_l10nmerge`. -/
def templateL10nmerge (ret t : Template) : Option Template :=
  if ret.type ≠ none ∧ ret.type ≠ t.type then none
  else
    let old := { ret with
      type := t.type
      translations := ret.translations.map (deleteTexts (outdatedIn ret t)) }
    some ((t.fields :: t.translations).foldl mergeOne old)

/-! ## What it is for -/

/-- The structures of a template, the one without a language first. -/
def Template.structures (t : Template) : List L10nFields := t.fields :: t.translations

/-- The text of a template for a language, or for none. -/
def textIn (t : Template) (lang : Text) (f : Field) : Option Text :=
  textFor lang f t.structures

/-- The new texts are there, outdated translations are gone, everything else is as before,
and to merge once more changes nothing. -/
structure Merged (old new ret : Template) : Prop where
  own : { ret with fields := old.fields, translations := old.translations } = old
  taken : ∀ lang f v, v ≠ [] → textIn new lang f = some v → textIn ret lang f = some v
  outdated : ∀ lang f, lang ≠ [] → outdatedIn old new f = true →
    (∀ v, v ≠ [] → textIn new lang f ≠ some v) → textIn ret lang f = none
  kept : ∀ lang f, lang = [] ∨ outdatedIn old new f = false →
    (∀ v, v ≠ [] → textIn new lang f ≠ some v) → textIn ret lang f = textIn old lang f
  again : templateL10nmerge ret new = some ret

/-! ## Texts and languages -/

def languages (t : Template) : List Text := t.structures.map L10nFields.language

theorem nonEmpty_eq_none {v : Option Text} (h : ∀ w, w ≠ [] → v ≠ some w) : nonEmpty v = none := by
  rw [nonEmpty, Option.filter_eq_none_iff]
  rintro w rfl hw
  exact h w (by simpa using hw) rfl

theorem nonEmpty_some {v : Text} (h : v ≠ []) : nonEmpty (some v) = some v := by
  simp [nonEmpty, Option.filter, h]

theorem structures_mergeOne (ret : Template) (src : L10nFields) :
    (mergeOne ret src).structures = mergeLanguage src ret.structures := by
  unfold mergeOne Template.structures
  rw [mergeLanguage]
  split <;> rfl

theorem textFor_mergeLanguage (src : L10nFields) (ps : List L10nFields) (lang : Text) (f : Field) :
    textFor lang f (mergeLanguage src ps) =
      if src.language = lang then (nonEmpty (src.text f)).or (textFor lang f ps)
      else textFor lang f ps := by
  induction ps with
  | nil =>
      rw [mergeLanguage, textFor_cons]
      rfl
  | cons p ps ih =>
      rw [mergeLanguage, textFor_cons lang f p]
      split
      · next hp =>
          rw [textFor_cons]
          show (if p.language = lang then (nonEmpty (src.text f)).or (p.text f) else _) = _
          rw [hp]
          by_cases hl : src.language = lang
          · simp [hl]
          · simp [hl]
      · next hp =>
          rw [textFor_cons, ih]
          by_cases hl : p.language = lang
          · have hne : src.language ≠ lang := fun h => hp (hl.trans h.symm)
            simp [hl, hne]
          · simp [hl]

theorem languages_mergeLanguage (src : L10nFields) (ps : List L10nFields) :
    (mergeLanguage src ps).map L10nFields.language =
      if src.language ∈ ps.map L10nFields.language then ps.map L10nFields.language
      else ps.map L10nFields.language ++ [src.language] := by
  induction ps with
  | nil => rfl
  | cons p ps ih =>
      rw [mergeLanguage]
      split
      · next hp =>
          rw [if_pos (by rw [← hp]; exact List.mem_cons_self)]
          rfl
      · next hp =>
          rw [List.map_cons, ih, List.map_cons]
          by_cases hmem : src.language ∈ ps.map L10nFields.language
          · rw [if_pos hmem, if_pos (List.mem_cons_of_mem _ hmem)]
          · have hnot : src.language ∉ p.language :: ps.map L10nFields.language := by
              rw [List.mem_cons, not_or]
              exact ⟨Ne.symm hp, hmem⟩
            rw [if_neg hmem, if_neg hnot, List.cons_append]

theorem textFor_of_not_mem {lang : Text} (h : lang ∉ ps.map L10nFields.language) (f : Field) :
    textFor lang f ps = none := by
  unfold textFor
  rw [List.find?_eq_none.mpr fun p hp he => h (List.mem_map.mpr ⟨p, hp, by simpa using he⟩)]
  rfl

theorem structures_ext {qs : List L10nFields} (hps : (ps.map L10nFields.language).Nodup)
    (hlang : ps.map L10nFields.language = qs.map L10nFields.language)
    (htext : ∀ lang f, textFor lang f ps = textFor lang f qs) : ps = qs := by
  induction ps generalizing qs with
  | nil => exact (List.map_eq_nil_iff.mp hlang.symm).symm
  | cons p ps ih =>
      cases qs with
      | nil => cases hlang
      | cons q qs =>
          rw [List.map_cons, List.map_cons] at hlang
          obtain ⟨hpq, htail⟩ := List.cons.inj hlang
          rw [List.map_cons, List.nodup_cons] at hps
          have hfirst : p = q := by
            have hsame : p.text = q.text := by
              funext f
              have hf := htext p.language f
              rwa [textFor_cons, textFor_cons, if_pos rfl, if_pos hpq.symm] at hf
            obtain ⟨pl, pt⟩ := p
            obtain ⟨ql, qt⟩ := q
            obtain rfl : pl = ql := hpq
            obtain rfl : pt = qt := hsame
            rfl
          subst hfirst
          refine congrArg _ (ih hps.2 htail fun lang f => ?_)
          by_cases hl : p.language = lang
          · subst hl
            rw [textFor_of_not_mem hps.1, textFor_of_not_mem (htail ▸ hps.1)]
          · have hf := htext lang f
            rwa [textFor_cons, textFor_cons, if_neg hl, if_neg hl] at hf

/-! ## One language after the other -/

theorem textIn_mergeOne (ret : Template) (src : L10nFields) (lang : Text) (f : Field) :
    textIn (mergeOne ret src) lang f =
      if src.language = lang then (nonEmpty (src.text f)).or (textIn ret lang f)
      else textIn ret lang f := by
  unfold textIn
  rw [structures_mergeOne, textFor_mergeLanguage]

theorem languages_mergeOne (ret : Template) (src : L10nFields) : languages (mergeOne ret src) =
    if src.language ∈ languages ret then languages ret else languages ret ++ [src.language] := by
  unfold languages
  rw [structures_mergeOne, languages_mergeLanguage]

theorem own_mergeOne (ret : Template) (src : L10nFields) (fs : L10nFields)
    (ps : List L10nFields) :
    { mergeOne ret src with fields := fs, translations := ps } =
      { ret with fields := fs, translations := ps } := by
  unfold mergeOne
  split <;> rfl

theorem listed_mergeOne (h : ret.Listed) (src : L10nFields) : (mergeOne ret src).Listed := by
  refine ⟨?_, ?_⟩
  · unfold mergeOne
    split
    · exact h.language
    · exact h.language
  · have hlang := languages_mergeOne ret src
    have hnodup : (languages ret).Nodup := h.nodup
    show (languages (mergeOne ret src)).Nodup
    rw [hlang]
    split
    · exact hnodup
    · next hnot =>
        exact List.nodup_append.mpr ⟨hnodup, List.nodup_singleton _, fun a ha b hb => by
          rw [List.mem_singleton.mp hb]
          exact fun he => hnot (he ▸ ha)⟩

theorem foldl_mergeOne {srcs : List L10nFields} (hsrcs : (srcs.map L10nFields.language).Nodup)
    (h : ret.Listed) :
    (srcs.foldl mergeOne ret).Listed ∧
      (∀ fs ps, { srcs.foldl mergeOne ret with fields := fs, translations := ps } =
        { ret with fields := fs, translations := ps }) ∧
      (∀ lang f, textIn (srcs.foldl mergeOne ret) lang f =
        (nonEmpty (textFor lang f srcs)).or (textIn ret lang f)) ∧
      (∀ lang, lang ∈ languages ret ∨ lang ∈ srcs.map L10nFields.language →
        lang ∈ languages (srcs.foldl mergeOne ret)) ∧
      ((∀ lang ∈ srcs.map L10nFields.language, lang ∈ languages ret) →
        languages (srcs.foldl mergeOne ret) = languages ret) := by
  induction srcs generalizing ret with
  | nil =>
      exact ⟨h, fun _ _ => rfl, fun _ _ => rfl, fun lang hl => hl.resolve_right nofun, fun _ => rfl⟩
  | cons src srcs ih =>
      rw [List.map_cons, List.nodup_cons] at hsrcs
      obtain ⟨hlisted, hown, htext, hmem, hlangs⟩ := ih hsrcs.2 (listed_mergeOne h src)
      have hfirst : ∀ lang ∈ languages ret, lang ∈ languages (mergeOne ret src) := by
        intro lang hl
        rw [languages_mergeOne]
        split
        · exact hl
        · exact List.mem_append_left _ hl
      refine ⟨hlisted, fun fs ps => (hown fs ps).trans (own_mergeOne ret src fs ps), ?_, ?_, ?_⟩
      · intro lang f
        rw [List.foldl_cons, htext, textIn_mergeOne, textFor_cons]
        by_cases hl : src.language = lang
        · subst hl
          rw [if_pos rfl, if_pos rfl, textFor_of_not_mem hsrcs.1]
          rfl
        · rw [if_neg hl, if_neg hl]
      · rintro lang (hl | hl)
        · exact hmem lang (.inl (hfirst lang hl))
        · rcases List.mem_cons.mp hl with rfl | hl
          · refine hmem _ (.inl ?_)
            rw [languages_mergeOne]
            split
            · next hin => exact hin
            · exact List.mem_append_right _ List.mem_cons_self
          · exact hmem lang (.inr hl)
      · intro hall
        obtain ⟨hsrc, hrest⟩ := List.forall_mem_cons.mp hall
        have hsame : languages (mergeOne ret src) = languages ret := by
          rw [languages_mergeOne, if_pos hsrc]
        rw [List.foldl_cons, hlangs fun lang hl => hsame ▸ hrest lang hl, hsame]

/-! ## The whole merge -/

theorem textFor_deleteTexts (outdated : Field → Bool) (ps : List L10nFields) (lang : Text)
    (f : Field) : textFor lang f (ps.map (deleteTexts outdated)) =
      if outdated f then none else textFor lang f ps := by
  induction ps with
  | nil =>
      show none = _
      split <;> rfl
  | cons p ps ih =>
      rw [List.map_cons, textFor_cons, textFor_cons, ih]
      show (if p.language = lang then (if outdated f then none else p.text f) else _) = _
      split <;> split <;> rfl

/-- The old template when the languages are gone through. -/
def readyFor (ret t : Template) : Template :=
  { ret with
    type := t.type
    translations := ret.translations.map (deleteTexts (outdatedIn ret t)) }

theorem languages_readyFor (ret t : Template) : languages (readyFor ret t) = languages ret := by
  show ret.fields.language :: List.map _ (List.map _ _) = _
  rw [List.map_map]
  rfl

theorem textIn_readyFor (h : ret.Listed) (t : Template) (lang : Text) (f : Field) :
    textIn (readyFor ret t) lang f =
      if lang ≠ [] ∧ outdatedIn ret t f = true then none else textIn ret lang f := by
  unfold textIn Template.structures
  show textFor lang f (ret.fields :: List.map (deleteTexts (outdatedIn ret t)) _) = _
  rw [textFor_cons, textFor_cons, h.language, textFor_deleteTexts]
  by_cases hl : lang = []
  · subst hl
    simp
  · rw [if_neg (Ne.symm hl), if_neg (Ne.symm hl)]
    simp [hl]

theorem templateL10nmerge_eq (htype : ret.type = t.type) :
    templateL10nmerge ret t = some (t.structures.foldl mergeOne (readyFor ret t)) := by
  unfold templateL10nmerge
  rw [if_neg fun h => h.2 htype]
  rfl

theorem textIn_nil (h : t.Listed) (f : Field) : textIn t [] f = t.fields.text f := by
  unfold textIn Template.structures
  rw [textFor_cons, if_pos h.language]

theorem outdatedIn_of_merged {old : Template}
    (h : ∀ f, ret.fields.text f = (nonEmpty (new.fields.text f)).or (old.fields.text f)) {f : Field}
    (hf : outdatedIn ret new f = true) : outdatedIn old new f = true := by
  have hsame : ∀ g, new.fields.text g = old.fields.text g → new.fields.text g = ret.fields.text g := by
    intro g hg
    rw [h g, ← hg]
    cases hv : new.fields.text g with
    | none => rfl
    | some v =>
        by_cases hne : v = []
        · subst hne
          rfl
        · rw [nonEmpty_some hne]
          rfl
  have hchoices : sameChoices new.fields old.fields = true →
      sameChoices new.fields ret.fields = true := by
    unfold sameChoices
    rw [beq_iff_eq, beq_iff_eq]
    exact hsame .choices
  have hdescription : sameDescription new.fields old.fields = true →
      sameDescription new.fields ret.fields = true := by
    unfold sameDescription
    rw [Bool.and_eq_true_iff, Bool.and_eq_true_iff, beq_iff_eq, beq_iff_eq, beq_iff_eq, beq_iff_eq]
    exact fun h => ⟨hsame .description h.1, hsame .extendedDescription h.2⟩
  revert hf
  unfold outdatedIn
  cases f with
  | default => exact id
  | choices | indices =>
      show (!sameChoices _ _) = true → (!sameChoices _ _) = true
      cases hc : sameChoices new.fields old.fields with
      | false => exact fun _ => rfl
      | true =>
          rw [hchoices hc]
          exact id
  | description | extendedDescription =>
      show (!sameDescription _ _) = true → (!sameDescription _ _) = true
      cases hc : sameDescription new.fields old.fields with
      | false => exact fun _ => rfl
      | true =>
          rw [hdescription hc]
          exact id

theorem listed_readyFor (h : ret.Listed) (t : Template) : (readyFor ret t).Listed := by
  refine ⟨h.language, ?_⟩
  show (languages (readyFor ret t)).Nodup
  rw [languages_readyFor]
  exact h.nodup

theorem templateL10nmerge_same (hret : ret.Listed) (hnew : new.Listed) (htype : ret.type = new.type)
    (hlangs : ∀ lang ∈ languages new, lang ∈ languages ret)
    (htexts : ∀ lang f, (nonEmpty (textIn new lang f)).or
      (if lang ≠ [] ∧ outdatedIn ret new f = true then none else textIn ret lang f) =
        textIn ret lang f) : templateL10nmerge ret new = some ret := by
  have hnodup : (new.structures.map L10nFields.language).Nodup := hnew.nodup
  obtain ⟨hlisted, hown, htext, -, hsame⟩ := foldl_mergeOne hnodup (listed_readyFor hret new)
  rw [languages_readyFor] at hsame
  have hstructures : (new.structures.foldl mergeOne (readyFor ret new)).structures =
      ret.structures := by
    refine structures_ext hlisted.nodup (hsame hlangs) fun lang f => ?_
    have hf := htext lang f
    rw [textIn_readyFor hret] at hf
    exact hf.trans (htexts lang f)
  have hown := hown ret.fields ret.translations
  rw [templateL10nmerge_eq htype]
  generalize new.structures.foldl mergeOne (readyFor ret new) = ret' at *
  obtain ⟨hfields, htranslations⟩ := List.cons.inj hstructures
  refine congrArg some ?_
  calc ret' = { ret' with fields := ret.fields, translations := ret.translations } := by
        rw [← hfields, ← htranslations]
    _ = { readyFor ret new with fields := ret.fields, translations := ret.translations } := hown
    _ = { ret with type := new.type } := rfl
    _ = ret := by rw [← htype]

/-- The new texts are taken over, outdated translations are deleted with the indices of
outdated choices, the rest is as before, and to merge again changes nothing. -/
theorem templateL10nmerge_merged {old new : Template} (hold : old.Listed) (hnew : new.Listed)
    (htype : old.type = new.type) : ∃ ret, templateL10nmerge old new = some ret ∧ ret.Listed ∧
      Merged old new ret := by
  have hnodup : (new.structures.map L10nFields.language).Nodup := hnew.nodup
  obtain ⟨hlisted, hown, htext, hmem, -⟩ := foldl_mergeOne hnodup (listed_readyFor hold new)
  have hown := hown old.fields old.translations
  refine ⟨_, templateL10nmerge_eq htype, hlisted, ?_⟩
  generalize new.structures.foldl mergeOne (readyFor old new) = ret at *
  have htexts : ∀ lang f, textIn ret lang f = (nonEmpty (textIn new lang f)).or
      (if lang ≠ [] ∧ outdatedIn old new f = true then none else textIn old lang f) := by
    intro lang f
    rw [← textIn_readyFor hold new]
    exact htext lang f
  have hsame : { ret with fields := old.fields, translations := old.translations } = old := by
    rw [hown]
    show { old with type := new.type } = old
    rw [← htype]
  refine ⟨hsame, fun lang f v hne hv => ?_, fun lang f hlang hout hno => ?_,
    fun lang f hkept hno => ?_, ?_⟩
  · rw [htexts, hv, nonEmpty_some hne]
    rfl
  · rw [htexts, nonEmpty_eq_none hno, if_pos ⟨hlang, hout⟩]
    rfl
  · rw [htexts, nonEmpty_eq_none hno, if_neg]
    · rfl
    · rintro ⟨hlang, hout⟩
      rcases hkept with h | h
      · exact hlang h
      · rw [hout] at h
        cases h
  · have hret : ret.type = old.type := by
      have h := congrArg Template.type hsame
      exact h
    refine templateL10nmerge_same hlisted hnew (hret.trans htype)
      (fun lang hl => hmem lang (.inr hl)) fun lang f => ?_
    have hout : outdatedIn ret new f = true → outdatedIn old new f = true := by
      refine outdatedIn_of_merged fun g => ?_
      have hg := htexts [] g
      rwa [textIn_nil hlisted, textIn_nil hnew, textIn_nil hold, if_neg (by simp)] at hg
    rw [htexts lang f]
    cases nonEmpty (textIn new lang f) with
    | some v => rfl
    | none =>
        rw [Option.none_or, Option.none_or]
        split
        · next h => rw [if_pos ⟨h.1, hout h.2⟩]
        · rfl

/-- A template with a choice and its index in German. -/
def choicesIn (choices : Text) (translations : List L10nFields) : Template where
  tag := "debconf/priority"
  type := some "select"
  fields := { language := [], text := fun f => if f = .choices then some choices else none }
  translations := translations

def germanChoices : L10nFields where
  language := "de"
  text := fun f =>
    if f = .choices then some "hoch" else if f = .indices then some "1" else none

def frenchChoices : L10nFields where
  language := "fr"
  text := fun f => if f = .choices then some "critique" else none

/-- The German texts are outdated, and the new template has French ones. -/
theorem templateL10nmerge_german : ∃ ret,
    templateL10nmerge (choicesIn "high" [germanChoices])
        (choicesIn "critical" [frenchChoices]) = some ret ∧ ret.Listed ∧
      Merged (choicesIn "high" [germanChoices]) (choicesIn "critical" [frenchChoices]) ret :=
  templateL10nmerge_merged ⟨rfl, by decide⟩ ⟨rfl, by decide⟩ rfl

/-- With the outdated choices the indices are deleted, which the new template says nothing
about. -/
theorem templateL10nmerge_indices :
    (templateL10nmerge (choicesIn "high" [germanChoices])
        (choicesIn "critical" [])).map (fun ret => textIn ret "de" .indices) =
      some none ∧
    textIn (choicesIn "critical" []) "de" .indices = none ∧
    textIn (choicesIn "high" [germanChoices]) "de" .indices = some "1".toList := by
  decide

end DebianInstaller.Debconf
