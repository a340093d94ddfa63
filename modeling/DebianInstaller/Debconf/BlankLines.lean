import DebianInstaller.Debconf.TemplateFile

/-!
# Blank lines between stanzas

`rfc822_parse_stanza` answers `NULL` at the end of the file, and it answers `NULL` for a
stanza without fields. The loops of `rfc822db_question_load` and `rfc822db_template_load`
end at the first `NULL`, so one empty line too many, before a stanza or between two, is
taken for the end of the file. What stands behind it is not read.

The lines between the empty lines are the parts of a file. A loop reads the parts up to the
first empty one, and all names of the file are among the tags exactly if each name behind
that part stands before it, too.
-/

namespace DebianInstaller.Debconf

open Text Lib

/-! ## The parts of a file -/

/-- The lines between the empty lines. -/
def fileParts (file : Text) : List (List Text) := (fileLines file).splitOn []

/-- The fields that a part is read as. -/
def partFields (b : List Text) : List Header := (stanzaFrom none b).1

/-- All stanzas of a file, however many empty lines stand around them. -/
def fileStanzas (file : Text) : List (List Header) :=
  ((fileParts file).filter (· ≠ [])).map partFields

/-- The stanzas with no empty line too many before them. -/
def firstStanzas (file : Text) : List (List Header) :=
  ((fileParts file).takeWhile (· ≠ [])).map partFields

/-- The stanzas with an empty line too many somewhere before them. -/
def laterStanzas (file : Text) : List (List Header) :=
  (((fileParts file).dropWhile (· ≠ [])).filter (· ≠ [])).map partFields

/-- A line with the name of a field. -/
def IsHeaderLine (l : Text) : Prop := l.head?.any isSpace = false ∧ ':' ∈ l

instance (l : Text) : Decidable (IsHeaderLine l) := inferInstanceAs (Decidable (_ ∧ _))

/-- Each line is empty, has the name of a field, or goes on with the line before it. -/
structure MadeOfStanzas (file : Text) : Prop where
  noNul : '\x00' ∉ file
  lines : ∀ l ∈ fileLines file, l = [] ∨ IsHeaderLine l ∨ l.head?.any isSpace = true
  starts : ∀ b ∈ fileParts file, ∀ l ∈ b.head?, IsHeaderLine l

theorem fileStanzas_eq (file : Text) :
    fileStanzas file = firstStanzas file ++ laterStanzas file := by
  have hfirst : ((fileParts file).takeWhile (· ≠ [])).filter (· ≠ []) =
      (fileParts file).takeWhile (· ≠ []) :=
    List.filter_eq_self.mpr fun _ hb => List.mem_takeWhile_imp (p := fun b => decide (b ≠ [])) hb
  unfold fileStanzas firstStanzas laterStanzas
  rw [← List.map_append, ← hfirst, ← List.filter_append, List.takeWhile_append_dropWhile]

/-! ## One part is one stanza -/

/-- A part ends at the empty line behind it or with the file, if a field stands before the
lines that go on. -/
theorem stanzaFrom_part {b : List Text} (hb : [] ∉ b) {cur : Option Header}
    (hcur : cur.isNone → ∀ l ∈ b.head?, IsHeaderLine l) {rest : List Text}
    (hrest : ∀ l ∈ rest.head?, l = []) :
    stanzaFrom cur (b ++ rest) = ((stanzaFrom cur b).1, rest.tail) := by
  induction b generalizing cur with
  | nil =>
      cases rest with
      | nil => rfl
      | cons l rest =>
          obtain rfl := hrest l rfl
          rfl
  | cons l b ih =>
      rw [List.mem_cons, not_or] at hb
      obtain ⟨c, l, rfl⟩ := List.exists_cons_of_ne_nil (Ne.symm hb.1)
      cases hc : isSpace c with
      | true =>
          cases cur with
          | none =>
              cases hc.symm.trans (hcur rfl _ rfl).1
          | some h =>
              rw [List.cons_append, stanzaFrom, if_pos hc, stanzaFrom, if_pos hc]
              exact ih hb.2 fun h => (by cases h)
      | false =>
          have hmore : stanzaFrom (some (parseHeader (c :: l))) (b ++ rest) = _ :=
            ih hb.2 fun h => (by cases h)
          rw [List.cons_append, stanzaFrom_header hc, stanzaFrom_header hc, hmore]

theorem stanzaFrom_some_ne_nil (h : Header) (ls : List Text) :
    (stanzaFrom (some h) ls).1 ≠ [] := by
  induction ls generalizing h with
  | nil => exact List.cons_ne_nil _ _
  | cons l ls ih =>
      match l with
      | [] => exact List.cons_ne_nil _ _
      | c :: l =>
          cases hc : isSpace c with
          | true =>
              rw [stanzaFrom, if_pos hc]
              exact ih _
          | false =>
              rw [stanzaFrom_header hc]
              exact List.cons_ne_nil _ _

theorem partFields_ne_nil {b : List Text} (hne : b ≠ []) (hb : [] ∉ b)
    (hstart : ∀ l ∈ b.head?, IsHeaderLine l) : partFields b ≠ [] := by
  obtain ⟨l, b, rfl⟩ := List.exists_cons_of_ne_nil hne
  rw [List.mem_cons, not_or] at hb
  obtain ⟨c, l, rfl⟩ := List.exists_cons_of_ne_nil (Ne.symm hb.1)
  unfold partFields
  rw [stanzaFrom_header (c := c) (hstart _ rfl).1]
  exact stanzaFrom_some_ne_nil _ _

theorem exists_part (ls : List Text) :
    ∃ b rest, [] ∉ b ∧ (∀ l ∈ rest.head?, l = []) ∧ ls = b ++ rest ∧
      ls.splitOn [] = b :: if rest = [] then [] else rest.tail.splitOn [] := by
  by_cases hblank : [] ∈ ls
  · obtain ⟨b, rest, hls, hb⟩ := List.eq_append_cons_of_mem hblank
    refine ⟨b, [] :: rest, hb, fun l hl => (Option.some.inj hl).symm, hls, ?_⟩
    rw [hls, List.splitOn_append_cons_self_of_not_mem hb, if_neg (List.cons_ne_nil _ _),
      List.tail_cons]
  · refine ⟨ls, [], hblank, nofun, (List.append_nil _).symm, ?_⟩
    rw [List.splitOn_eq_singleton hblank, if_pos rfl]

theorem stanzas_parts {ls : List Text}
    (hstarts : ∀ b ∈ ls.splitOn [], ∀ l ∈ b.head?, IsHeaderLine l) {n : Nat}
    (hn : ls.length < n) :
    stanzas n ls = ((ls.splitOn []).takeWhile (· ≠ [])).map partFields := by
  induction n generalizing ls with
  | zero => exact absurd hn (Nat.not_lt_zero _)
  | succ n ih =>
      obtain ⟨b, rest, hb, hrest, hls, hsplit⟩ := exists_part ls
      have hstart : ∀ l ∈ b.head?, IsHeaderLine l := by
        refine hstarts b ?_
        rw [hsplit]
        split <;> exact List.mem_cons_self
      have hfrom : stanzaFrom none ls = (partFields b, rest.tail) := by
        rw [hls]
        exact stanzaFrom_part hb (fun _ => hstart) hrest
      by_cases hbne : b = []
      · subst hbne
        rw [stanzas, hfrom, hsplit]
        rfl
      · have hfields := partFields_ne_nil hbne hb hstart
        have hhere : decide (b ≠ []) = true := decide_eq_true hbne
        have hrounds : stanzas (n + 1) ls = partFields b :: stanzas n rest.tail := by
          rw [stanzas, hfrom]
          cases hp : partFields b with
          | nil => exact absurd hp hfields
          | cons h hs => rfl
        rw [hrounds, hsplit, List.takeWhile_cons, if_pos hhere, List.map_cons]
        split
        · next hnil =>
            subst hnil
            cases n <;> rfl
        · next hne =>
            rw [if_neg hne] at hsplit
            refine congrArg _ (ih (fun b' hb' => hstarts b' ?_) ?_)
            · rw [hsplit]
              exact List.mem_cons_of_mem _ hb'
            · have hlen := congrArg List.length hls
              have hpos := List.length_pos_of_ne_nil hne
              rw [List.length_append] at hlen
              rw [List.length_tail]
              omega

theorem parseFile_eq {file : Text} (hfile : MadeOfStanzas file) :
    parseFile file = firstStanzas file := stanzas_parts hfile.starts (Nat.lt_succ_self _)

/-! ## The tags of the questions -/

/-- The name of a question; a stanza with an empty one is left out. -/
def questionName (hs : List Header) : Option Text :=
  (headerLookup hs "name").filter (· ≠ [])

/-- A question that names no template. -/
def NoTemplate (hs : List Header) : Prop :=
  questionName hs ≠ none ∧ headerLookup hs "template" = none

instance (hs : List Header) : Decidable (NoTemplate hs) := inferInstanceAs (Decidable (_ ∧ _))

/-- A database of templates without a node. -/
def TemplateDb.Bare (tdb : TemplateDb) : Prop := tdb.root.nodes = []

instance (tdb : TemplateDb) : Decidable tdb.Bare := inferInstanceAs (Decidable (_ = _))

/-- The loop of `rfc822db_question_load`. A question that names no template has the database
look for `NULL`, which `strcmp` does not bear as soon as there is a node to compare with. -/
def loadQuestions : Loading → List (List Header) → Option Loading
  | s, [] => some s
  | s, hs :: rest =>
      if NoTemplate hs ∧ ¬ s.tdb.Bare then none else loadQuestions (loadQuestion s hs) rest

/-- `rfc822db_question_load`, where the loop gets to its end. -/
def questionDbLoad (s : Loading) (file : Text) : Option Loading :=
  loadQuestions s (parseFile file)

theorem foldl_tag {α : Type} {f : Question → α → Question} (hf : ∀ q a, (f q a).tag = q.tag)
    (as : List α) (q : Question) : (as.foldl f q).tag = q.tag := by
  induction as generalizing q with
  | nil => rfl
  | cons a as ih => rw [List.foldl_cons, ih, hf]

theorem parseFlags_tag (q : Question) (t : Option Text) : (parseFlags q t).tag = q.tag := by
  cases t with
  | none => rfl
  | some t => exact foldl_tag (f := questionSetFlag) (fun _ _ => rfl) _ q

theorem parseOwners_tag (q : Question) (t : Option Text) : (parseOwners q t).tag = q.tag := by
  cases t with
  | none => rfl
  | some t => exact foldl_tag (f := questionOwnerAdd) (fun _ _ => rfl) _ q

theorem parseVariables_tag (q : Question) (t : Option Text) :
    (parseVariables q t).tag = q.tag := by
  cases t with
  | none => rfl
  | some t =>
      exact foldl_tag (f := fun q (p : Text × Text) => questionVariableAdd q p.1 p.2)
        (fun _ _ => rfl) _ q

/-- The question of a stanza has its name, and the database of the templates is not bare when
it is there. -/
theorem loadStanza_cases (tdb : TemplateDb) (hs : List Header) :
    questionName hs = none ∧ loadStanza tdb hs = none ∨
      ∃ name q tdb', questionName hs = some name ∧ loadStanza tdb hs = some (q, tdb') ∧
        q.tag = name ∧ ¬ tdb'.Bare := by
  unfold loadStanza questionName
  cases headerLookup hs "name" with
  | none => exact .inl ⟨rfl, rfl⟩
  | some name =>
      cases name with
      | nil => exact .inl ⟨rfl, rfl⟩
      | cons c name =>
          have hbare : ∀ (db : TemplateDb) (tag : Text) (t : Template),
              db.root.tfind tag = some t → ¬ db.Bare := by
            intro db tag t hfind hnodes
            unfold Tree.tfind at hfind
            rw [hnodes] at hfind
            cases hfind
          have htag : (parseVariables (parseOwners (parseFlags
              (questionSetvalue (questionNew (c :: name)) (headerLookup hs "value"))
              (headerLookup hs "flags")) (headerLookup hs "owners"))
              (headerLookup hs "variables")).tag = c :: name := by
            rw [parseVariables_tag, parseOwners_tag, parseFlags_tag]
            rfl
          refine .inr ⟨c :: name, ?_⟩
          dsimp only
          split
          · next t ht => exact ⟨_, _, rfl, rfl, htag, hbare _ _ t ht⟩
          · exact ⟨_, _, rfl, rfl, htag, hbare _ (c :: name) _ (Tree.tfind_tsearch_self _ _ _)⟩

theorem bare_loadQuestion (s : Loading) (hs : List Header) :
    (loadQuestion s hs).tdb.Bare ↔ questionName hs = none ∧ s.tdb.Bare := by
  unfold loadQuestion
  rcases loadStanza_cases s.tdb hs with ⟨hname, hload⟩ | ⟨name, q, tdb', hname, hload, -, hbare⟩
  · rw [hload]
    exact ⟨fun h => ⟨hname, h⟩, And.right⟩
  · rw [hload, hname]
    exact iff_of_false hbare fun h => nomatch h.1

theorem keys_loadQuestion (s : Loading) (hs : List Header) (tag : Text) :
    tag ∈ (loadQuestion s hs).db.root.keys ↔
      questionName hs = some tag ∨ tag ∈ s.db.root.keys := by
  unfold loadQuestion
  rcases loadStanza_cases s.tdb hs with ⟨hname, hload⟩ | ⟨name, q, tdb', hname, hload, hq, -⟩
  · rw [hload, hname]
    exact ⟨.inr, fun h => h.resolve_left nofun⟩
  · rw [hload, hname]
    dsimp only
    rw [Tree.mem_keys_tsearch, hq, Option.some.injEq, eq_comm]

theorem keys_loadQuestions {s s' : Loading} {hss : List (List Header)}
    (h : loadQuestions s hss = some s') (tag : Text) :
    tag ∈ s'.db.root.keys ↔
      (∃ hs ∈ hss, questionName hs = some tag) ∨ tag ∈ s.db.root.keys := by
  induction hss generalizing s with
  | nil =>
      obtain rfl := Option.some.inj h
      simp
  | cons hs hss ih =>
      unfold loadQuestions at h
      split at h
      · cases h
      · rw [ih h, keys_loadQuestion, List.exists_mem_cons_iff, or_left_comm, or_assoc]

/-- The loop gets to its end exactly if a question that names no template is the first
question, and the database of the templates has been bare. -/
theorem loadQuestions_end_iff (s : Loading) (hss : List (List Header)) :
    (∃ s', loadQuestions s hss = some s') ↔
      ∀ pre hs post, hss = pre ++ hs :: post → NoTemplate hs →
        (∀ hs' ∈ pre, questionName hs' = none) ∧ s.tdb.Bare := by
  induction hss generalizing s with
  | nil =>
      refine iff_of_true ⟨s, rfl⟩ fun pre hs post hsplit => ?_
      exact absurd hsplit (List.append_ne_nil_of_right_ne_nil _ (List.cons_ne_nil _ _)).symm
  | cons hs hss ih =>
      unfold loadQuestions
      constructor
      · rintro ⟨s', h⟩ pre hs' post hsplit hno
        split at h
        · cases h
        · next hnull =>
            cases pre with
            | nil =>
                obtain ⟨rfl, rfl⟩ := List.cons.inj hsplit
                exact ⟨nofun, not_not.mp fun hb => hnull ⟨hno, hb⟩⟩
            | cons p pre =>
                obtain ⟨rfl, rfl⟩ := List.cons.inj hsplit
                obtain ⟨hpre, hbare⟩ := (ih _).mp ⟨s', h⟩ pre hs' post rfl hno
                obtain ⟨hname, hbare⟩ := (bare_loadQuestion s hs).mp hbare
                exact ⟨List.forall_mem_cons.mpr ⟨hname, hpre⟩, hbare⟩
      · intro h
        have hnull : ¬ (NoTemplate hs ∧ ¬ s.tdb.Bare) :=
          fun hn => hn.2 (h [] hs hss rfl hn.1).2
        rw [if_neg hnull]
        refine (ih _).mpr fun pre hs' post hsplit hno => ?_
        obtain ⟨hpre, hbare⟩ := h (hs :: pre) hs' post (by rw [hsplit]; rfl) hno
        obtain ⟨hname, hpre⟩ := List.forall_mem_cons.mp hpre
        exact ⟨hpre, (bare_loadQuestion s hs).mpr ⟨hname, hbare⟩⟩

/-! ## The tags of the templates -/

/-- The name of a template, which may be empty. -/
def templateName (hs : List Header) : Option Text := headerLookup hs "name"

/-- Whether `template_lset` takes the value under the name of a field for the tag: the name
is `Tag`, with or without a language that is not refused. -/
def setsTag (env : Env) (field : Text) : Bool :=
  if '-' ∈ field then
    let altlang := (field.dropWhile (· != '-')).tail
    sameIgnoringCase (field.takeWhile (· != '-')) "tag" &&
      (sameIgnoringCase altlang "C" ||
        !env.noI18n && ((beforeUtf8 altlang).isSome || '.' ∉ altlang))
  else sameIgnoringCase field "tag"

/-- The tag of a stanza: the last one that is set, or else the name. -/
def stanzaTag (env : Env) (hs : List Header) : Option Text :=
  (templateName hs).map fun name =>
    (((hs.filter fun h => h.header ≠ "Name".toList).filter fun h => setsTag env h.header).map
      Header.value).getLast?.getD name

theorem templateSet_tag (env : Env) (t : Template) (lang : Option Text) (field value : Text) :
    (templateSet env t lang field value).tag =
      if sameIgnoringCase field "tag" then value else t.tag := by
  unfold templateSet
  dsimp only
  split
  · rfl
  · repeat' split
    all_goals rfl

theorem templateLset_tag (env : Env) (t : Template) (field value : Text) :
    (templateLset env t none field value).tag =
      if setsTag env field then value else t.tag := by
  unfold templateLset setsTag
  dsimp only
  generalize (field.dropWhile (· != '-')).tail = altlang
  by_cases hdash : '-' ∈ field
  · rw [if_pos hdash, if_pos hdash]
    cases hC : sameIgnoringCase altlang "C" with
    | true =>
        rw [if_pos rfl, templateSet_tag, Bool.true_or, Bool.and_true]
    | false =>
        rw [if_neg Bool.false_ne_true, Bool.false_or]
        cases hi18n : env.noI18n with
        | true => simp
        | false =>
            rw [if_neg Bool.false_ne_true]
            cases hutf8 : beforeUtf8 altlang with
            | some l => simp [templateSet_tag]
            | none =>
                by_cases hdot : '.' ∈ altlang
                · simp [hdot]
                · simp [hdot, templateSet_tag]
  · rw [if_neg hdash, if_neg hdash]
    exact templateSet_tag env t none field value

theorem foldl_lset_tag (env : Env) (hs : List Header) (t : Template) :
    (hs.foldl (fun t h => templateLset env t none h.header h.value) t).tag =
      ((hs.filter fun h => setsTag env h.header).map Header.value).getLast?.getD t.tag := by
  induction hs generalizing t with
  | nil => rfl
  | cons h hs ih =>
      rw [List.foldl_cons, ih, templateLset_tag, List.filter_cons]
      split
      · rw [List.map_cons, List.getLast?_cons, Option.getD_some]
      · rfl

theorem loadTemplate_tag (env : Env) (hs : List Header) :
    (loadTemplate env hs).map Template.tag = stanzaTag env hs := by
  unfold loadTemplate stanzaTag
  rw [Option.map_map]
  refine congrArg (Option.map · _) (funext fun name => ?_)
  exact foldl_lset_tag env _ _

theorem keys_loadTemplates (env : Env) (tdb : TemplateDb) (hss : List (List Header)) (tag : Text) :
    tag ∈ (hss.foldl (fun tdb hs =>
        match loadTemplate env hs with
        | none => tdb
        | some t => { tdb with root := tdb.root.tsearch t.tag t }) tdb).root.keys ↔
      (∃ hs ∈ hss, stanzaTag env hs = some tag) ∨ tag ∈ tdb.root.keys := by
  induction hss generalizing tdb with
  | nil => simp
  | cons hs hss ih =>
      have htag := loadTemplate_tag env hs
      rw [List.foldl_cons, ih, List.exists_mem_cons_iff, or_assoc, or_left_comm]
      refine or_congr_right ?_
      cases hload : loadTemplate env hs with
      | none =>
          rw [hload] at htag
          rw [← htag]
          simp
      | some t =>
          rw [hload] at htag
          rw [← htag, Tree.mem_keys_tsearch, Option.map_some, Option.some.injEq, eq_comm]

/-! ## The names of a file and the tags -/

/-- What the questions of a file need: each name behind an empty line too many stands before
it, too, and a question that names no template is the first one, with no template there. -/
structure QuestionsReached (tdb : TemplateDb) (file : Text) : Prop where
  names : ∀ hs ∈ laterStanzas file, ∀ name, questionName hs = some name →
    ∃ hs' ∈ firstStanzas file, questionName hs' = some name
  templates : ∀ pre hs post, firstStanzas file = pre ++ hs :: post → NoTemplate hs →
    (∀ hs' ∈ pre, questionName hs' = none) ∧ tdb.Bare

/-- What the templates of a file need: each name behind an empty line too many is a tag before
it. A template whose tag is set to another name takes a name of the file, and leaves its own
to another template. -/
structure TemplatesReached (env : Env) (file : Text) : Prop where
  names : ∀ hs ∈ laterStanzas file, ∀ name, templateName hs = some name →
    ∃ hs' ∈ firstStanzas file, stanzaTag env hs' = some name
  tags : ∀ hs ∈ firstStanzas file, stanzaTag env hs ≠ templateName hs →
    (∃ hs' ∈ fileStanzas file, templateName hs' = stanzaTag env hs) ∧
      ∃ hs' ∈ firstStanzas file, stanzaTag env hs' = templateName hs

theorem questionDbLoad_iff {s : Loading} (hs : s.db.root = ∅) {file : Text}
    (hfile : MadeOfStanzas file) :
    (∃ s', questionDbLoad s file = some s' ∧
        ∀ tag, tag ∈ s'.db.root.keys ↔ ∃ hs ∈ fileStanzas file, questionName hs = some tag) ↔
      QuestionsReached s.tdb file := by
  have hkeys : ∀ s', questionDbLoad s file = some s' → ∀ tag, tag ∈ s'.db.root.keys ↔
      ∃ hs ∈ firstStanzas file, questionName hs = some tag := by
    intro s' h tag
    have hkey := keys_loadQuestions h tag
    rw [parseFile_eq hfile, hs] at hkey
    exact hkey.trans (or_iff_left List.not_mem_nil)
  have hend := loadQuestions_end_iff s (parseFile file)
  rw [parseFile_eq hfile] at hend
  constructor
  · rintro ⟨s', h, hall⟩
    refine ⟨fun hs hhs name hname => ?_, hend.mp ⟨s', parseFile_eq hfile ▸ h⟩⟩
    refine (hkeys s' h name).mp ((hall name).mpr ⟨hs, ?_, hname⟩)
    rw [fileStanzas_eq]
    exact List.mem_append_right _ hhs
  · rintro ⟨hnames, htemplates⟩
    obtain ⟨s', h⟩ := hend.mpr htemplates
    have hload : questionDbLoad s file = some s' := by
      unfold questionDbLoad
      rw [parseFile_eq hfile, h]
    refine ⟨s', hload, fun tag => (hkeys s' hload tag).trans ?_⟩
    rw [fileStanzas_eq]
    constructor
    · rintro ⟨hs, hhs, hname⟩
      exact ⟨hs, List.mem_append_left _ hhs, hname⟩
    · rintro ⟨hs, hhs, hname⟩
      rcases List.mem_append.mp hhs with hhs | hhs
      · exact ⟨hs, hhs, hname⟩
      · exact hnames hs hhs tag hname

theorem templateDbLoad_iff (env : Env) {tdb : TemplateDb} (htdb : tdb.root = ∅) {file : Text}
    (hfile : MadeOfStanzas file) :
    (∀ tag, tag ∈ (templateDbLoad env tdb file).root.keys ↔
        ∃ hs ∈ fileStanzas file, templateName hs = some tag) ↔ TemplatesReached env file := by
  have hkeys : ∀ tag, tag ∈ (templateDbLoad env tdb file).root.keys ↔
      ∃ hs ∈ firstStanzas file, stanzaTag env hs = some tag := by
    intro tag
    have hkey := keys_loadTemplates env tdb (firstStanzas file) tag
    rw [htdb] at hkey
    unfold templateDbLoad
    rw [parseFile_eq hfile]
    exact hkey.trans (or_iff_left List.not_mem_nil)
  constructor
  · intro hall
    have hmp : ∀ tag, (∃ hs ∈ fileStanzas file, templateName hs = some tag) →
        ∃ hs ∈ firstStanzas file, stanzaTag env hs = some tag :=
      fun tag h => (hkeys tag).mp ((hall tag).mpr h)
    refine ⟨fun hs hhs name hname => hmp name ⟨hs, ?_, hname⟩, fun hs hhs hne => ?_⟩
    · rw [fileStanzas_eq]
      exact List.mem_append_right _ hhs
    · have hmem : hs ∈ fileStanzas file := by
        rw [fileStanzas_eq]
        exact List.mem_append_left _ hhs
      cases hname : templateName hs with
      | none =>
          unfold stanzaTag at hne
          rw [hname] at hne
          exact absurd rfl hne
      | some name =>
          obtain ⟨tag, htag⟩ : ∃ tag, stanzaTag env hs = some tag := by
            unfold stanzaTag
            rw [hname]
            exact ⟨_, rfl⟩
          refine ⟨?_, hmp name ⟨hs, hmem, hname⟩⟩
          rw [htag]
          exact (hall tag).mp ((hkeys tag).mpr ⟨hs, hhs, htag⟩)
  · rintro ⟨hnames, htags⟩ tag
    refine (hkeys tag).trans ?_
    constructor
    · rintro ⟨hs, hhs, htag⟩
      by_cases hsame : stanzaTag env hs = templateName hs
      · refine ⟨hs, ?_, hsame ▸ htag⟩
        rw [fileStanzas_eq]
        exact List.mem_append_left _ hhs
      · rw [← htag]
        exact (htags hs hhs hsame).1
    · rintro ⟨hs, hhs, hname⟩
      rw [fileStanzas_eq] at hhs
      rcases List.mem_append.mp hhs with hhs | hhs
      · by_cases hsame : stanzaTag env hs = templateName hs
        · exact ⟨hs, hhs, hsame.trans hname⟩
        · rw [← hname]
          exact (htags hs hhs hsame).2
      · exact hnames hs hhs tag hname

/-- All names of a file are its tags afterwards exactly if the loops reach them. -/
theorem load_everyName_iff (env : Env) {s : Loading} (hs : s.db.root = ∅) {tdb : TemplateDb}
    (htdb : tdb.root = ∅) {file : Text} (hfile : MadeOfStanzas file) :
    ((∃ s', questionDbLoad s file = some s' ∧
        ∀ tag, tag ∈ s'.db.root.keys ↔ ∃ hs ∈ fileStanzas file, questionName hs = some tag) ↔
      QuestionsReached s.tdb file) ∧
    ((∀ tag, tag ∈ (templateDbLoad env tdb file).root.keys ↔
        ∃ hs ∈ fileStanzas file, templateName hs = some tag) ↔
      TemplatesReached env file) :=
  ⟨questionDbLoad_iff hs hfile, templateDbLoad_iff env htdb hfile⟩

/-- Two stanzas with an empty line between them, and a second one if `twice`. -/
def twoStanzas (twice : Bool) : Text :=
  "Name: a\nTemplate: a\n".toList ++ (if twice then "\n\n".toList else ['\n']) ++
    "Name: b\nTemplate: a\n"

theorem madeOfStanzas_twoStanzas (twice : Bool) : MadeOfStanzas (twoStanzas twice) := by
  cases twice
  · exact ⟨by decide, by decide, by decide⟩
  · exact ⟨by decide, by decide, by decide⟩

/-- The loading of questions into a database without any. -/
def emptyLoading : Loading where
  heap := ⟨fun _ => questionNew [], 0⟩
  db := {}
  tdb := {}

theorem load_everyName_once :
    (∃ s', questionDbLoad emptyLoading (twoStanzas false) = some s' ∧
      ∀ tag, tag ∈ s'.db.root.keys ↔
        ∃ hs ∈ fileStanzas (twoStanzas false), questionName hs = some tag) ∧
    ∀ tag, tag ∈ (templateDbLoad {} {} (twoStanzas false)).root.keys ↔
      ∃ hs ∈ fileStanzas (twoStanzas false), templateName hs = some tag := by
  have hlater : laterStanzas (twoStanzas false) = [] := by decide
  have hknown : ∀ hs ∈ firstStanzas (twoStanzas false), ¬ NoTemplate hs := by decide
  have htags : ∀ hs ∈ firstStanzas (twoStanzas false), stanzaTag {} hs = templateName hs := by
    decide
  obtain ⟨hquestions, htemplates⟩ := load_everyName_iff {} (s := emptyLoading) rfl
    (show ({} : TemplateDb).root = ∅ from rfl) (madeOfStanzas_twoStanzas false)
  refine ⟨hquestions.mpr ⟨?_, fun pre hs post hsplit hno => ?_⟩, htemplates.mpr ⟨?_, ?_⟩⟩
  · rw [hlater]
    nofun
  · refine absurd hno (hknown hs ?_)
    rw [hsplit]
    exact List.mem_append_right _ List.mem_cons_self
  · rw [hlater]
    nofun
  · exact fun hs hhs hne => absurd (htags hs hhs) hne

/-- Behind a second empty line nothing is read. -/
theorem load_everyName_twice : MadeOfStanzas (twoStanzas true) ∧
    (¬ ∃ s', questionDbLoad emptyLoading (twoStanzas true) = some s' ∧
      ∀ tag, tag ∈ s'.db.root.keys ↔
        ∃ hs ∈ fileStanzas (twoStanzas true), questionName hs = some tag) ∧
    ¬ ∀ tag, tag ∈ (templateDbLoad {} {} (twoStanzas true)).root.keys ↔
      ∃ hs ∈ fileStanzas (twoStanzas true), templateName hs = some tag := by
  have hfile := madeOfStanzas_twoStanzas true
  obtain ⟨hs, hhs, hname⟩ : ∃ hs ∈ laterStanzas (twoStanzas true),
      questionName hs = some "b".toList ∧ templateName hs = some "b".toList := by decide
  refine ⟨hfile, fun h => ?_, fun h => ?_⟩
  · have hreached := (questionDbLoad_iff (s := emptyLoading) rfl hfile).mp h
    have hnot : ¬ ∃ hs' ∈ firstStanzas (twoStanzas true), questionName hs' = some "b".toList := by
      decide
    exact hnot (hreached.names hs hhs _ hname.1)
  · have hreached := (templateDbLoad_iff {} (show ({} : TemplateDb).root = ∅ from rfl) hfile).mp h
    have hnot : ¬ ∃ hs' ∈ firstStanzas (twoStanzas true),
        stanzaTag {} hs' = some "b".toList := by decide
    exact hnot (hreached.names hs hhs _ hname.2)

end DebianInstaller.Debconf
