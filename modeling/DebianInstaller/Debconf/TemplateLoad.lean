import DebianInstaller.Debconf.TemplateFile

/-!
# Template files

`template_load` reads the files that packages bring: a template a stanza, with the
texts of a language behind the name of the field, and an extended description on the
lines that begin with a blank. It reads through a buffer of 4096 bytes. A line that
fills it is joined with the next piece; where there is none, the loop does not end.

The templates it makes have a structure only for languages that have a name and a
text. Of such templates the database keeps all strings if these are plain, as long as
the names of the languages survive.
-/

namespace DebianInstaller.Debconf

open Text Lib

variable {env : Env} {name p : Text} {t t' : Template} {tdb : TemplateDb}

variable {file : Text} {lang : Option (Option Text)} {ps : List L10nFields} {ts : List Template}

/-! ## Lines -/

/-- What `fgets` takes into `buf`. -/
def bufRoom : Nat := 4095

/-- `fgets` from a file, with room for some characters: the piece, and what is left. -/
def fgetsFile : Nat → Text → Text × Text
  | 0, t => ([], t)
  | _, [] => ([], [])
  | n + 1, c :: t => if c = '\n' then ([c], t) else (c :: (fgetsFile n t).1, (fgetsFile n t).2)

/-- What stands in a buffer, up to the end of the string. -/
def cString (t : Text) : Text := t.takeWhile (· != '\x00')

/-- The loop over the pieces of a line, for a number of rounds. Without a next piece the
buffer stays full and the loop goes on. -/
def joinPieces : Nat → Text → Text → Text → Option (Text × Text)
  | 0, _, _, _ => none
  | n + 1, buf, line, rest =>
      if buf.length = bufRoom then
        if rest = [] then none
        else joinPieces n (cString (fgetsFile bufRoom rest).1)
          (line ++ cString (fgetsFile bufRoom rest).1) (fgetsFile bufRoom rest).2
      else some (line, rest)

/-- A line and what is left. -/
def readLine (file : Text) : Option (Text × Text) :=
  joinPieces (file.length + 1) (cString (fgetsFile bufRoom file).1)
    (cString (fgetsFile bufRoom file).1) (fgetsFile bufRoom file).2

/-- `CHOMP`. -/
def chomp (t : Text) : Text := if t.getLast? = some '\n' then t.dropLast else t

/-! ## Extended descriptions -/

/-- `strvacat` of one string. -/
def strvacat (buf : Text) (maxlen : Nat) (str : Text) : Text :=
  if buf.length + str.length > maxlen then buf else buf ++ str

/-- The lines that begin with a blank, for a number of rounds. -/
def readExtdesc : Nat → Text → Text → Text × Text
  | n + 1, extdesc, ' ' :: rest =>
      readExtdesc n
        (strvacat extdesc 8192 (cString (fgetsFile bufRoom (' ' :: rest)).1).tail)
        (fgetsFile bufRoom (' ' :: rest)).2
  | _, extdesc, rest => (extdesc, rest)

/-- What `remove_newlines` has written when it comes to the end, and whether it has cut
the string there. -/
def newlinesRemoved : Bool → Text → Text × Bool
  | _, [] => ([], false)
  | _, '\n' :: '.' :: '\n' :: t =>
      ('\n' :: '\n' :: (newlinesRemoved false t).1, (newlinesRemoved false t).2)
  | _, ['\n'] => ([], true)
  | _, '\n' :: ' ' :: t =>
      ('\n' :: (newlinesRemoved true (' ' :: t)).1, (newlinesRemoved true (' ' :: t)).2)
  | asis, '\n' :: c :: t =>
      ((if asis then '\n' else ' ') :: (newlinesRemoved false (c :: t)).1,
        (newlinesRemoved false (c :: t)).2)
  | asis, c :: t => (c :: (newlinesRemoved asis t).1, (newlinesRemoved asis t).2)

/-- `remove_newlines`. Where it does not cut the string, the old end stays behind what
it has written. -/
def removeNewlines (text : Text) : Text :=
  let r := newlinesRemoved false text
  if r.2 then r.1 else r.1 ++ text.drop r.1.length

/-- The extended description is set if there is one, and if there is a place for it. -/
def setExtdesc (env : Env) (t : Template) (lang : Option (Option Text)) (extdesc : Text) :
    Template :=
  match lang with
  | some lang =>
      if extdesc = [] then t
      else templateLset env t lang "extended_description" (removeNewlines extdesc)
  | none => t

/-- The extended description behind a description. -/
def readExtendedDescription (env : Env) (t : Template) (lang : Option (Option Text))
    (rest : Text) : Template × Text :=
  (setExtdesc env t lang (readExtdesc rest.length [] rest).1,
    (readExtdesc rest.length [] rest).2)

/-! ## Templates -/

/-- The language and the text of a line `Name-xx.UTF-8: `, or `Name-C: `. -/
def localizedLine (name p : Text) : Option (Text × Text) :=
  if strcasestr (name ++ "-C: ") p = some 0 then
    some ("C", p.drop (name.length + 4))
  else
    match strcasestr ".UTF-8: " p with
    | some cp =>
        if cp = name.length + 1 then none
        else some ((p.take cp).drop (name.length + 1), p.drop (cp + 8))
    | none => none

/-- A field in a language; a line without one is left out. -/
def setLocalized (env : Env) (t : Template) (name field p : Text) : Template :=
  match localizedLine name p with
  | some (lang, value) => templateLset env t (some lang) field value
  | none => t

/-- `strstr` finds the key at the beginning of the line. -/
def begins (p : Text) (key : String) : Bool := key.toList.isPrefixOf p

/-- A line of a template that has begun, and the lines that it takes with it. -/
def fieldLine (env : Env) (t : Template) (p rest : Text) : Template × Text :=
  if begins p "Type: " then (templateLset env t none "type" (p.drop 6), rest)
  else if begins p "Help: " then (templateLset env t none "help" (p.drop 6), rest)
  else if begins p "Default: " then (templateLset env t none "default" (p.drop 9), rest)
  else if !env.noI18n && begins p "Default-" then
    (setLocalized env t "Default" "default" p, rest)
  else if begins p "Choices: " then (templateLset env t none "choices" (p.drop 9), rest)
  else if !env.noI18n && begins p "Choices-" then
    (setLocalized env t "Choices" "choices" p, rest)
  else if begins p "Indices: " then (templateLset env t none "indices" (p.drop 9), rest)
  else if !env.noI18n && begins p "Indices-" then
    (setLocalized env t "Indices" "indices" p, rest)
  else if begins p "Description: " then
    readExtendedDescription env (templateLset env t none "description" (p.drop 13))
      (some none) rest
  else if !env.noI18n && begins p "Description-" then
    readExtendedDescription env (setLocalized env t "Description" "description" p)
      ((localizedLine "Description" p).map fun l => some l.1) rest
  else (t, rest)

/-- A line of `template_load`. -/
def templateLine (env : Env) (t : Option Template) (p rest : Text) : Option Template × Text :=
  if begins p "Template: " then (some (templateNew (p.drop 10)), rest)
  else
    match t with
    | none => (none, rest)
    | some t => (some (fieldLine env t p rest).1, (fieldLine env t p rest).2)

/-- The loop of `template_load`, for a number of rounds. -/
def templateLoadFrom (env : Env) : Nat → Option Template → List Template → Text →
    Option (List Template)
  | 0, _, _, _ => none
  | _, t, tlist, [] => some (t.toList ++ tlist)
  | n + 1, t, tlist, c :: file =>
      (readLine (c :: file)).bind fun r =>
        let p := chomp r.1
        let line := templateLine env (if p = [] then none else t) p r.2
        templateLoadFrom env n line.1 (if p = [] then t.toList ++ tlist else tlist) line.2

/-- `template_load`, where it returns. -/
def templateLoad (env : Env) (file : Text) : Option (List Template) :=
  templateLoadFrom env (file.length + 1) none [] file

/-! ## The rounds are enough -/

theorem fgetsFile_length_le (n : Nat) (t : Text) : (fgetsFile n t).2.length ≤ t.length := by
  induction n generalizing t with
  | zero => cases t <;> exact Nat.le_refl _
  | succ n ih =>
      cases t with
      | nil => exact Nat.le_refl _
      | cons c t =>
          rw [fgetsFile]
          split
          · exact Nat.le_succ _
          · exact Nat.le_succ_of_le (ih t)

theorem readExtdesc_length_le (n : Nat) (extdesc rest : Text) :
    (readExtdesc n extdesc rest).2.length ≤ rest.length := by
  induction n generalizing extdesc rest with
  | zero => exact Nat.le_refl _
  | succ n ih =>
      match rest with
      | [] => exact Nat.le_refl _
      | c :: rest =>
          by_cases hc : c = ' '
          · subst hc
            exact (ih _ _).trans (fgetsFile_length_le _ _)
          · rw [readExtdesc.eq_2 _ _ _ fun _ _ _ he => hc (List.cons.inj he).1]

/-! ## What a line does -/

/-- The calls of `template_lset` in `template_load`. -/
inductive TextSet (env : Env) (t : Template) : Template → Prop where
  | type (v : Text) : TextSet env t (templateLset env t none "type" v)
  | help (v : Text) : TextSet env t (templateLset env t none "help" v)
  | own (f : Field) (v : Text) : TextSet env t (templateLset env t none f.name v)
  | localized (f : Field) {lang : Text} (h : lang ≠ []) (v : Text) :
      TextSet env t (templateLset env t (some lang) f.name v)

theorem templateLset_some (c : Char) (l : Text) (f : Field) (v : Text) :
    templateLset env t (some (c :: l)) f.name v =
      if env.wants (c :: l) then
        if t.fields.language = c :: l then { t with fields := templateFieldSet t.fields f.name v }
        else { t with translations := setLanguage (c :: l) f.name v t.translations }
      else t := by
  cases f <;> rfl

theorem strcasestr_some {needle t : Text} {i : Nat} (h : strcasestr needle t = some i) :
    sameIgnoringCase ((t.drop i).take needle.length) needle = true := by
  induction t generalizing i with
  | nil =>
      rw [strcasestr] at h
      split at h
      · next he =>
          rw [List.isEmpty_iff.mp he]
          rfl
      · cases h
  | cons c t ih =>
      rw [strcasestr] at h
      split at h
      · next he =>
          obtain rfl := Option.some.inj h
          exact he
      · obtain ⟨j, hj, rfl⟩ := Option.map_eq_some_iff.mp h
        exact ih hj

theorem length_lt_of_strcasestr (hname : (name ++ ['-']).all (fun c => c.toLower != '.') = true)
    (hp : (name ++ ['-']).isPrefixOf p = true) {cp : Nat}
    (h : strcasestr ".UTF-8: " p = some cp) : name.length < cp ∧ cp < p.length := by
  have hsame := strcasestr_some h
  cases hdrop : p.drop cp with
  | nil =>
      rw [hdrop] at hsame
      cases hsame
  | cons c r =>
      rw [hdrop, sameIgnoringCase, beq_iff_eq] at hsame
      have hc : c.toLower = '.' := congrArg (fun l => l.headD 'x') hsame
      have hlt : cp < p.length := by
        by_contra hge
        rw [List.drop_eq_nil_of_le (Nat.le_of_not_lt hge)] at hdrop
        cases hdrop
      refine ⟨Nat.lt_of_not_le fun hle => ?_, hlt⟩
      obtain ⟨q, rfl⟩ := List.isPrefixOf_iff_prefix.mp hp
      rw [List.drop_append_of_le_length (by rw [List.length_append, List.length_singleton]; omega)] at hdrop
      cases hname' : (name ++ ['-']).drop cp with
      | nil =>
          have := congrArg List.length hname'
          simp at this
          omega
      | cons d l =>
          rw [hname'] at hdrop
          obtain rfl : d = c := (List.cons.inj hdrop).1
          have hmem : d ∈ name ++ ['-'] := by
            refine List.mem_of_mem_drop (i := cp) ?_
            rw [hname']
            exact List.mem_cons_self
          simpa [hc] using List.all_eq_true.mp hname d hmem

theorem localizedLine_ne_nil (hname : (name ++ ['-']).all (fun c => c.toLower != '.') = true)
    (hp : (name ++ ['-']).isPrefixOf p = true) {l : Text × Text}
    (h : localizedLine name p = some l) : l.1 ≠ [] := by
  unfold localizedLine at h
  split at h
  · obtain rfl := Option.some.inj h
    exact List.cons_ne_nil _ _
  · split at h
    · next cp hcp =>
        obtain ⟨hlt, hle⟩ := length_lt_of_strcasestr hname hp hcp
        split at h
        · cases h
        · next hne =>
            obtain rfl := Option.some.inj h
            intro hnil
            have := congrArg List.length hnil
            simp at this
            omega
    · cases h

theorem setLocalized_textSets (env : Env) (t : Template) (f : Field)
    (hname : (name ++ ['-']).all (fun c => c.toLower != '.') = true)
    (hp : (name ++ ['-']).isPrefixOf p = true) :
    Relation.ReflTransGen (TextSet env) t (setLocalized env t name f.name p) := by
  unfold setLocalized
  split
  · next lang value hl => exact .single (.localized f (localizedLine_ne_nil hname hp hl) value)
  · exact .refl

theorem setExtdesc_textSets (env : Env) (t : Template) (hlang : lang ≠ some (some []))
    (extdesc : Text) : Relation.ReflTransGen (TextSet env) t (setExtdesc env t lang extdesc) := by
  unfold setExtdesc
  split
  · split
    · exact .refl
    · next lang' _ =>
        cases lang' with
        | none => exact .single (.own .extendedDescription _)
        | some l =>
            exact .single (.localized .extendedDescription (fun h => hlang (by rw [h])) _)
  · exact .refl

theorem readExtendedDescription_textSets (ht : Relation.ReflTransGen (TextSet env) t t')
    (hlang : lang ≠ some (some [])) (rest : Text) :
    Relation.ReflTransGen (TextSet env) t (readExtendedDescription env t' lang rest).1 ∧
      (readExtendedDescription env t' lang rest).2.length ≤ rest.length :=
  ⟨ht.trans (setExtdesc_textSets env t' hlang _), readExtdesc_length_le _ _ _⟩

theorem fieldLine_textSets (env : Env) (t : Template) (p rest : Text) :
    Relation.ReflTransGen (TextSet env) t (fieldLine env t p rest).1 ∧
      (fieldLine env t p rest).2.length ≤ rest.length := by
  have hite : ∀ {c : Prop} [Decidable c] {a b : Template × Text},
      (c → Relation.ReflTransGen (TextSet env) t a.1 ∧ a.2.length ≤ rest.length) →
      (Relation.ReflTransGen (TextSet env) t b.1 ∧ b.2.length ≤ rest.length) →
      Relation.ReflTransGen (TextSet env) t (if c then a else b).1 ∧
        (if c then a else b).2.length ≤ rest.length := by
    intro c _ a b ha hb
    split
    · next h => exact ha h
    · exact hb
  have hbegins : ∀ {key : String} {i : Bool}, (i && begins p key) = true →
      key.toList.isPrefixOf p = true := fun h => (Bool.and_eq_true_iff.mp h).2
  unfold fieldLine
  refine hite (fun _ => ⟨.single (.type _), le_refl _⟩) ?_
  refine hite (fun _ => ⟨.single (.help _), le_refl _⟩) ?_
  refine hite (fun _ => ⟨.single (.own .default _), le_refl _⟩) ?_
  refine hite (fun h => ⟨setLocalized_textSets env t .default (by decide) (hbegins h),
    le_refl _⟩) ?_
  refine hite (fun _ => ⟨.single (.own .choices _), le_refl _⟩) ?_
  refine hite (fun h => ⟨setLocalized_textSets env t .choices (by decide) (hbegins h),
    le_refl _⟩) ?_
  refine hite (fun _ => ⟨.single (.own .indices _), le_refl _⟩) ?_
  refine hite (fun h => ⟨setLocalized_textSets env t .indices (by decide) (hbegins h),
    le_refl _⟩) ?_
  refine hite (fun _ => readExtendedDescription_textSets (.single (.own .description _))
    (by simp) rest) ?_
  refine hite (fun h => readExtendedDescription_textSets
    (setLocalized_textSets env t .description (by decide) (hbegins h)) ?_ rest) ⟨.refl, le_refl _⟩
  intro he
  obtain ⟨l, hl, hnil⟩ := Option.map_eq_some_iff.mp he
  exact localizedLine_ne_nil (by decide) (hbegins h) hl (Option.some.inj hnil)

/-! ## What `template_load` builds -/

theorem templateFieldSet_name (p : L10nFields) (f : Field) (v : Text) :
    templateFieldSet p f.name v = p.set f v := by
  unfold templateFieldSet
  rw [ofName_name]
  rfl

theorem set_filled (p : L10nFields) (f : Field) (v : Text) :
    ∃ g, (p.set f v).text g ≠ none := by
  refine ⟨f, ?_⟩
  show Function.update p.text f (some v) f ≠ none
  rw [Function.update_self]
  exact Option.some_ne_none v

theorem mem_setLanguage {lang v : Text} {f : Field} {p : L10nFields}
    (h : p ∈ setLanguage lang f.name v ps) : p ∈ ps ∨ p.language = lang ∧ ∃ g, p.text g ≠ none := by
  induction ps with
  | nil =>
      rw [setLanguage, templateFieldSet_name, List.mem_singleton] at h
      subst h
      exact .inr ⟨rfl, set_filled _ f v⟩
  | cons q ps ih =>
      rw [setLanguage] at h
      split at h
      · next hq =>
          rcases List.mem_cons.mp h with rfl | h
          · rw [templateFieldSet_name]
            exact .inr ⟨hq, set_filled _ f v⟩
          · exact .inl (List.mem_cons_of_mem _ h)
      · rcases List.mem_cons.mp h with rfl | h
        · exact .inl List.mem_cons_self
        · exact (ih h).imp_left (List.mem_cons_of_mem _)

theorem setLanguage_nodup (h : (ps.map L10nFields.language).Nodup) (lang : Text) (f : Field)
    (v : Text) : ((setLanguage lang f.name v ps).map L10nFields.language).Nodup := by
  induction ps with
  | nil =>
      rw [setLanguage]
      exact List.nodup_singleton _
  | cons q ps ih =>
      rw [List.map_cons, List.nodup_cons] at h
      rw [setLanguage]
      split
      · rw [templateFieldSet_name]
        exact List.nodup_cons.mpr h
      · next hq =>
          refine List.nodup_cons.mpr ⟨fun hmem => ?_, ih h.2⟩
          obtain ⟨p, hp, he⟩ := List.mem_map.mp hmem
          rcases mem_setLanguage hp with hp | ⟨hp, -⟩
          · exact h.1 (List.mem_map.mpr ⟨p, hp, he⟩)
          · exact hq (he.symm.trans hp)

theorem templateNew_wellBuilt (tag : Text) : (templateNew tag).WellBuilt :=
  ⟨rfl, List.nodup_nil, by simp [templateNew], by simp [templateNew]⟩

theorem Template.WellBuilt.textSet (ht : t.WellBuilt) (h : TextSet env t t') : t'.WellBuilt := by
  cases h with
  | type v => exact ⟨ht.language, ht.nodup, ht.named, ht.filled⟩
  | help v => exact ⟨ht.language, ht.nodup, ht.named, ht.filled⟩
  | own f v =>
      have hset : templateLset env t none f.name v =
          { t with fields := templateFieldSet t.fields f.name v } := by
        cases f <;> rfl
      rw [hset, templateFieldSet_name]
      exact ⟨ht.language, ht.nodup, ht.named, ht.filled⟩
  | @localized f lang hlang v =>
      obtain ⟨c, l, rfl⟩ := List.exists_cons_of_ne_nil hlang
      have hfields : t.fields.language ≠ c :: l := by simp [ht.language]
      rw [templateLset_some, if_neg hfields]
      split
      · refine ⟨ht.language, setLanguage_nodup ht.nodup _ f v, fun p hp => ?_, fun p hp => ?_⟩
        · rcases mem_setLanguage hp with hp | ⟨hp, -⟩
          · exact ht.named p hp
          · rw [hp]
            exact hlang
        · rcases mem_setLanguage hp with hp | ⟨-, hp⟩
          · exact ht.filled p hp
          · exact hp
      · exact ht

theorem Template.WellBuilt.textSets (ht : t.WellBuilt)
    (h : Relation.ReflTransGen (TextSet env) t t') : t'.WellBuilt := by
  induction h with
  | refl => exact ht
  | tail _ hstep ih => exact ih.textSet hstep

theorem templateLine_wellBuilt {t : Option Template} (ht : ∀ s ∈ t, s.WellBuilt) (p rest : Text) :
    ∀ s ∈ (templateLine env t p rest).1, s.WellBuilt := by
  intro s hs
  unfold templateLine at hs
  split at hs
  · obtain rfl := Option.some.inj hs
    exact templateNew_wellBuilt _
  · cases t with
    | none => cases hs
    | some t =>
        obtain rfl := Option.some.inj hs
        exact (ht t rfl).textSets (fieldLine_textSets env t p rest).1

theorem templateLoadFrom_wellBuilt {n : Nat} {t : Option Template} {tlist : List Template}
    (hall : ∀ s ∈ t.toList ++ tlist, s.WellBuilt)
    (h : templateLoadFrom env n t tlist file = some ts) : ∀ s ∈ ts, s.WellBuilt := by
  induction n generalizing t tlist file with
  | zero => cases h
  | succ n ih =>
      cases file with
      | nil =>
          obtain rfl := Option.some.inj h
          exact hall
      | cons c file =>
          rw [templateLoadFrom] at h
          obtain ⟨r, -, hr⟩ := Option.bind_eq_some_iff.mp h
          refine ih (fun s hs => ?_) hr
          rcases List.mem_append.mp hs with hs | hs
          · refine templateLine_wellBuilt (fun s' hs' => ?_) _ _ s (Option.mem_toList.mp hs)
            split at hs'
            · cases hs'
            · exact hall s' (List.mem_append_left _ (Option.mem_toList.mpr hs'))
          · split at hs
            · exact hall s hs
            · exact hall s (List.mem_append_right _ hs)

theorem templateLoad_wellBuilt (h : templateLoad env file = some ts) : ∀ t ∈ ts, t.WellBuilt :=
  templateLoadFrom_wellBuilt (by simp) h

/-! ## What a template database keeps -/

/-- The templates of a database in the order of their tags. -/
def TemplateDb.templates (tdb : TemplateDb) : List Template := tdb.root.nodes.map Prod.snd

theorem TemplateDb.Tagged.tags (htdb : tdb.Tagged) :
    tdb.templates.map Template.tag = tdb.root.keys := by
  unfold TemplateDb.templates Tree.keys
  rw [List.map_map]
  exact List.map_congr_left fun n hn => htdb n.1 n.2 (Tree.tfind_eq_some.mpr hn)

theorem TemplateDb.Tagged.get (htdb : tdb.Tagged) (ht : t ∈ tdb.templates) :
    templateDbGet tdb t.tag = some t := by
  obtain ⟨n, hn, rfl⟩ := List.mem_map.mp ht
  have hfind : templateDbGet tdb n.1 = some n.2 := Tree.tfind_eq_some.mpr hn
  rwa [htdb n.1 n.2 hfind]

theorem parseFile_templateDumpFile (hbuilt : ∀ t ∈ tdb.templates, t.WellBuilt)
    (hgood : ∀ t ∈ tdb.templates, ∀ p ∈ t.translations, GoodLanguage p.language) (env : Env) :
    parseFile (templateDumpFile env tdb) =
      tdb.templates.map fun t => t.entries.map Entry.parsed := by
  have hdump : templateDumpFile env tdb =
      unlines '\n' (stanzaLines (tdb.templates.map Template.entries)) := by
    have hfile : templateDumpFile env tdb = tdb.templates.flatMap (templateDump env) := by
      unfold templateDumpFile TemplateDb.templates
      rw [List.flatMap_map]
    have hlines : unlines '\n' (stanzaLines (tdb.templates.map Template.entries)) =
        tdb.templates.flatMap fun t => unlines '\n' (t.entries.flatMap Entry.lines ++ [[]]) := by
      unfold stanzaLines unlines
      rw [List.flatMap_assoc, List.flatMap_map]
    rw [hfile, hlines]
    exact List.flatMap_congr fun t ht => templateDump_eq (hbuilt t ht) env
  rw [hdump, parseFile_entries, List.map_map]
  · rfl
  · intro es hes
    obtain ⟨t, ht, rfl⟩ := List.mem_map.mp hes
    exact ⟨List.cons_ne_nil _ _, fun e he => (mem_templateEntries (hgood t ht) he).1⟩
  · intro es hes e he
    obtain ⟨t, ht, rfl⟩ := List.mem_map.mp hes
    exact (mem_templateEntries (hgood t ht) he).2

theorem templateDbGet_foldl (ts : List Template) (tdb : TemplateDb) (tag : Text) :
    templateDbGet (ts.foldl (fun tdb t =>
        { tdb with root := tdb.root.tsearch t.stored.tag t.stored }) tdb) tag =
      (templateDbGet tdb tag).or
        ((ts.find? fun t => storedText t.tag = tag).map Template.stored) := by
  induction ts generalizing tdb with
  | nil => exact (Option.or_none ..).symm
  | cons t ts ih =>
      rw [List.foldl_cons, ih]
      have hfirst : templateDbGet { tdb with root := tdb.root.tsearch t.stored.tag t.stored } tag =
          if storedText t.tag = tag then some ((templateDbGet tdb tag).getD t.stored)
          else templateDbGet tdb tag := by
        split
        · next h =>
            subst h
            exact Tree.tfind_tsearch_self ..
        · next h => exact Tree.tfind_tsearch_of_ne (Ne.symm h)
      rw [hfirst, List.find?_cons]
      by_cases h : storedText t.tag = tag
      · cases templateDbGet tdb tag <;> simp [h]
      · simp [h]

theorem templateDbGet_load (hall : env.dropTranslations = false) (hi18n : env.noI18n = false)
    (hbuilt : ∀ t ∈ tdb.templates, t.WellBuilt)
    (hgood : ∀ t ∈ tdb.templates, ∀ p ∈ t.translations, GoodLanguage p.language) (tag : Text) :
    templateDbGet (templateDbLoad env {} (templateDumpFile env tdb)) tag =
      (tdb.templates.find? fun t => storedText t.tag = tag).map Template.stored := by
  have hload : templateDbLoad env {} (templateDumpFile env tdb) =
      tdb.templates.foldl (fun tdb t =>
        { tdb with root := tdb.root.tsearch t.stored.tag t.stored }) {} := by
    unfold templateDbLoad
    rw [parseFile_templateDumpFile hbuilt hgood, List.foldl_map]
    refine List.foldl_ext _ _ _ fun db t ht => ?_
    rw [loadTemplate_entries hall hi18n (hbuilt t ht) (hgood t ht)]
  rw [hload, templateDbGet_foldl]
  rfl

theorem Template.WellBuilt.stored (ht : t.WellBuilt) : t.stored.WellBuilt where
  language := ht.language
  nodup := by
    show ((t.translations.map L10nFields.stored).map L10nFields.language).Nodup
    rw [List.map_map]
    exact ht.nodup
  named := by
    intro p hp
    obtain ⟨q, hq, rfl⟩ := List.mem_map.mp hp
    exact ht.named q hq
  filled := by
    intro p hp
    obtain ⟨q, hq, rfl⟩ := List.mem_map.mp hp
    obtain ⟨f, hf⟩ := ht.filled q hq
    exact ⟨f, fun h => hf (Option.map_eq_none_iff.mp h)⟩

theorem l10nFields_stored_eq {p : L10nFields} (h : ∀ f, ∀ v ∈ p.text f, Plain v) :
    p.stored = p :=
  congrArg (L10nFields.mk p.language)
    (funext fun f => (optionMap_storedText_iff _).mpr (h f))

theorem Template.AllPlain.stored_eq (h : t.AllPlain) : t.stored = t := by
  have htranslations : t.translations.map L10nFields.stored = t.translations :=
    (List.map_congr_left fun p hp => l10nFields_stored_eq (h.translations p hp)).trans
      (List.map_id _)
  unfold Template.stored
  rw [(storedText_eq_iff _).mpr h.tag, (optionMap_storedText_iff _).mpr h.type,
    (optionMap_storedText_iff _).mpr h.help, l10nFields_stored_eq h.fields, htranslations]

theorem Template.WellBuilt.allPlain (ht : t.WellBuilt) (htag : Plain t.tag)
    (h : ∀ lang field, templateLget {} t.stored lang field = templateLget {} t lang field) :
    t.AllPlain := by
  have hget : ∀ (s : Template) (f : Field), templateLget {} s none f.name = s.fields.text f := by
    intro s f
    unfold templateLget
    rw [templateLgetFrom_name, templateFind_none]
    cases s.fields.text f <;> rfl
  refine ⟨htag, ?_, ?_, fun f => ?_, fun p hp f v hv => ?_⟩
  · have htype := h none "type"
    refine (optionMap_storedText_iff _).mp ?_
    revert htype
    show ((t.type.map storedText).map fun v => ((0, v) : Found)).map Prod.snd =
      (t.type.map fun v => ((0, v) : Found)).map Prod.snd → _
    cases t.type <;> exact id
  · have hhelp := h none "help"
    refine (optionMap_storedText_iff _).mp ?_
    revert hhelp
    show ((t.help.map storedText).map fun v => ((0, v) : Found)).map Prod.snd =
      (t.help.map fun v => ((0, v) : Found)).map Prod.snd → _
    cases t.help <;> exact id
  · have hf := h none f.name
    rw [hget, hget] at hf
    exact (optionMap_storedText_iff _).mp hf
  · have hlang := h (some p.language) f.name
    obtain ⟨i, -, hi⟩ := ht.find_language hp {} f
    obtain ⟨j, -, hj⟩ := ht.stored.find_language (List.mem_map_of_mem hp) {} f
    have hj' : templateFind {} t.stored (some p.language) f.name = some (j, storedText v) := by
      refine hj.trans ?_
      show ((((p.text f).map storedText).map fun v => (j, v)).or _) = _
      rw [Option.mem_def.mp hv]
      rfl
    unfold templateLget at hlang
    rw [templateLgetFrom_name, templateLgetFrom_name, hj', hi, Option.mem_def.mp hv] at hlang
    exact (storedText_eq_iff v).mp (Option.some.inj hlang)

/-- The templates come from files. -/
def TemplateDb.FromFiles (tdb : TemplateDb) : Prop :=
  ∀ t ∈ tdb.templates, ∃ env file ts, templateLoad env file = some ts ∧ t ∈ ts

/-- A database that is saved, and loaded into an empty one, answers as before. -/
def TemplatesKept (env : Env) (tdb : TemplateDb) (file : Option Text) : Prop :=
  ∃ contents, templateSave env tdb file .written = (.ok, some contents) ∧
    ∀ env' tag lang field,
      (templateDbGet (templateDbLoad env {} contents) tag).map
          (fun t => templateLget env' t lang field) =
        (templateDbGet tdb tag).map fun t => templateLget env' t lang field

theorem templatesKept_iff {file : Option Text} (hdirty : tdb.dirty = true ∨ file = none) :
    TemplatesKept env tdb file ↔ ∀ env' tag lang field,
      (templateDbGet (templateDbLoad env {} (templateDumpFile env tdb)) tag).map
          (fun t => templateLget env' t lang field) =
        (templateDbGet tdb tag).map fun t => templateLget env' t lang field := by
  have hsave : templateSave env tdb file .written =
      (.ok, some (templateDumpFile env tdb)) := by
    unfold templateSave
    rcases hdirty with h | rfl
    · rw [h]
      rfl
    · simp [rfc822dbSave]
  unfold TemplatesKept
  rw [hsave]
  constructor
  · rintro ⟨contents, hcontents, hkept⟩
    obtain rfl : templateDumpFile env tdb = contents := by simpa using hcontents
    exact hkept
  · exact fun hkept => ⟨_, rfl, hkept⟩

/-- A database of templates from files keeps all strings if they are plain and the
languages are found again; and where these are found, only plain strings are kept. -/
theorem templates_kept (env : Env) (hall : env.dropTranslations = false)
    (hi18n : env.noI18n = false) (tdb : TemplateDb) (htdb : tdb.Tagged) (hfiles : tdb.FromFiles)
    (file : Option Text) (hdirty : tdb.dirty = true ∨ file = none) :
    ((∀ t ∈ tdb.templates, t.AllPlain ∧ ∀ p ∈ t.translations, GoodLanguage p.language) →
      TemplatesKept env tdb file) ∧
    ((∀ t ∈ tdb.templates, ∀ p ∈ t.translations, GoodLanguage p.language) →
      TemplatesKept env tdb file → ∀ t ∈ tdb.templates, t.AllPlain) := by
  have hbuilt : ∀ t ∈ tdb.templates, t.WellBuilt := by
    intro t ht
    obtain ⟨env₀, f, ts, hload, hmem⟩ := hfiles t ht
    exact templateLoad_wellBuilt hload t hmem
  have htags : (tdb.templates.map Template.tag).Nodup := htdb.tags ▸ keys_nodup tdb.root
  rw [templatesKept_iff hdirty]
  refine ⟨fun h env' tag lang field => ?_, fun hgood hkept => ?_⟩
  · rw [templateDbGet_load hall hi18n hbuilt fun t ht => (h t ht).2]
    have hstored : ∀ t ∈ tdb.templates, storedText t.tag = t.tag := fun t ht =>
      (storedText_eq_iff _).mpr (h t ht).1.tag
    cases hfind : tdb.templates.find? fun t => storedText t.tag = tag with
    | some t =>
        have ht := List.mem_of_find?_eq_some hfind
        have htag : storedText t.tag = tag := by simpa using List.find?_some hfind
        rw [hstored t ht] at htag
        subst htag
        rw [htdb.get ht, Option.map_some, (h t ht).1.stored_eq]
    | none =>
        have hnone : templateDbGet tdb tag = none := by
          refine Tree.tfind_eq_none.mpr fun hmem => ?_
          rw [← htdb.tags] at hmem
          obtain ⟨t, ht, rfl⟩ := List.mem_map.mp hmem
          exact List.find?_eq_none.mp hfind t ht (by simpa using hstored t ht)
        rw [hnone]
        rfl
  · have hfound : ∀ t ∈ tdb.templates, ∃ s ∈ tdb.templates, storedText s.tag = t.tag ∧
        ∀ env' lang field, templateLget env' s.stored lang field = templateLget env' t lang field := by
      intro t ht
      have hget := fun env' => hkept env' t.tag
      rw [templateDbGet_load hall hi18n hbuilt hgood, htdb.get ht] at hget
      cases hfind : tdb.templates.find? fun s => storedText s.tag = t.tag with
      | none =>
          rw [hfind] at hget
          cases hget {} none []
      | some s =>
          rw [hfind] at hget
          exact ⟨s, List.mem_of_find?_eq_some hfind, by simpa using List.find?_some hfind,
            fun env' lang field => Option.some.inj (hget env' lang field)⟩
    have hplain : ∀ tag ∈ tdb.templates.map Template.tag, Plain tag := by
      refine plain_of_subset htags fun tag htag => ?_
      obtain ⟨t, ht, rfl⟩ := List.mem_map.mp htag
      obtain ⟨s, hs, hst, -⟩ := hfound t ht
      exact List.mem_map.mpr ⟨s.tag, List.mem_map_of_mem hs, hst⟩
    intro t ht
    obtain ⟨s, hs, hst, hlget⟩ := hfound t ht
    rw [(storedText_eq_iff _).mpr (hplain _ (List.mem_map_of_mem hs))] at hst
    obtain rfl : s = t := List.inj_on_of_nodup_map htags hs ht hst
    exact (hbuilt s ht).allPlain (hplain _ (List.mem_map_of_mem ht)) (hlget {})

instance (lang : Text) : Decidable (GoodLanguage lang) := inferInstanceAs (Decidable (_ ∨ _))

instance (t : Template) : Decidable t.AllPlain :=
  have hmem : ∀ f, f ∈ Field.all := fun f => by cases f <;> decide
  decidable_of_iff
    (Plain t.tag ∧ (∀ v ∈ t.type, Plain v) ∧ (∀ v ∈ t.help, Plain v) ∧
      (∀ f ∈ Field.all, ∀ v ∈ t.fields.text f, Plain v) ∧
      ∀ p ∈ t.translations, ∀ f ∈ Field.all, ∀ v ∈ p.text f, Plain v)
    ⟨fun ⟨htag, htype, hhelp, hfields, htranslations⟩ =>
      ⟨htag, htype, hhelp, fun f => hfields f (hmem f),
        fun p hp f => htranslations p hp f (hmem f)⟩,
    fun h => ⟨h.tag, h.type, h.help, fun f _ => h.fields f, fun p hp f _ => h.translations p hp f⟩⟩

/-- A new database with the templates of a file. -/
def templatesOf (file : Text) : TemplateDb :=
  ((templateLoad {} file).getD []).foldl templateDbSet {}

theorem foldl_templateDbSet (ts : List Template) (htdb : tdb.Tagged) :
    (ts.foldl templateDbSet tdb).Tagged ∧
      ∀ t ∈ (ts.foldl templateDbSet tdb).templates, t ∈ tdb.templates ∨ t ∈ ts := by
  induction ts generalizing tdb with
  | nil => exact ⟨htdb, fun t ht => .inl ht⟩
  | cons s ts ih =>
      obtain ⟨htagged, hmem⟩ := ih (htdb.set s)
      refine ⟨htagged, fun t ht => ?_⟩
      rcases hmem t ht with ht | ht
      · have hget := (htdb.set s).get ht
        by_cases he : t.tag = s.tag
        · rw [he, templateDbGet_set_self] at hget
          exact .inr (Option.some.inj hget ▸ List.mem_cons_self)
        · rw [templateDbGet_set_of_ne he] at hget
          exact .inl (List.mem_map.mpr ⟨_, Tree.tfind_eq_some.mp hget, rfl⟩)
      · exact .inr (List.mem_cons_of_mem _ ht)

theorem templatesOf_fromFiles (file : Text) :
    (templatesOf file).Tagged ∧ (templatesOf file).FromFiles := by
  have hnew : TemplateDb.Tagged {} := fun _ _ h => by cases h
  obtain ⟨htagged, hmem⟩ := foldl_templateDbSet ((templateLoad {} file).getD []) hnew
  refine ⟨htagged, fun t ht => ?_⟩
  rcases hmem t ht with h | h
  · cases h
  · cases hload : templateLoad {} file with
    | none =>
        rw [hload] at h
        cases h
    | some ts =>
        rw [hload] at h
        exact ⟨{}, file, ts, hload, h⟩

/-- Two templates, one of them with a translation of some fields. -/
def translatedFile : Text :=
  "Template: d-i/name\nType: string\nDefault: \nDescription: Name:\n The name of\n the host.\n"
    ++ "Description-pt_BR.UTF-8: Nome:\nDefault-C: none\n\nTemplate: d-i/go\nType: boolean\n"

theorem templates_kept_translated : TemplatesKept {} (templatesOf translatedFile) none :=
  (templates_kept {} rfl rfl _ (templatesOf_fromFiles _).1 (templatesOf_fromFiles _).2 none
    (.inr rfl)).1 (by decide +kernel)

/-- A default with a backslash before an `n`. -/
def backslashFile : Text :=
  "Template: d-i/path\nType: string\nDefault: C:\\new\nDescription: Path:\n"

/-- It is read back with a newline. -/
theorem templates_kept_backslash :
    (templatesOf backslashFile).Tagged ∧ (templatesOf backslashFile).FromFiles ∧
      ¬ TemplatesKept {} (templatesOf backslashFile) none := by
  refine ⟨(templatesOf_fromFiles _).1, (templatesOf_fromFiles _).2, fun h => ?_⟩
  have hdefault := (templatesKept_iff (.inr rfl)).mp h {} "d-i/path" none "default"
  revert hdefault
  decide +kernel

end DebianInstaller.Debconf
