import DebianInstaller.Debconf.Rfc822db

/-!
# The fields of a question

How each field of a question is written and read again by `rfc822db.c`. `strescape`
leaves backslashes alone, so that a backslash before an `n` is read as a newline,
blanks before a value are skipped, owners are cut at commas, and the lines of the
variables are not unescaped when they are read.

None of the fields comes back longer than it was, and this is what makes the
conditions exact.
-/

namespace DebianInstaller.Debconf

open Text Lib

variable {a t : Text} {c : Char} {items os : List Text} {n : Nat}

/-! ## Commas and newlines in what is written -/

theorem newline_not_mem_escapestr (t : Text) : '\n' ∉ escapestr t := by
  rw [escapestr_eq]
  intro h
  obtain ⟨c, -, hc⟩ := List.mem_flatMap.mp h
  split at hc
  · next he =>
      have hn : c = '\n' := by simpa [EscapeMode.escapes] using he
      subst hn
      revert hc
      decide
  · next he =>
      rw [← List.mem_singleton.mp hc] at he
      exact he rfl

theorem escapestr_of_not_mem (h : '\n' ∉ t) : escapestr t = t := by
  rw [escapestr_eq]
  induction t with
  | nil => rfl
  | cons c t ih =>
      rw [List.mem_cons, not_or] at h
      have hne : EscapeMode.escapes .rfc822 c = false := by
        simp [EscapeMode.escapes, Ne.symm h.1]
      rw [escaped_cons, hne, ih h.2]
      rfl

theorem mem_escapestr (hn : c ≠ 'n') (hb : c ≠ '\\') (hl : c ≠ '\n') (t : Text) :
    c ∈ escapestr t ↔ c ∈ t := by
  rw [escapestr_eq]
  induction t with
  | nil => rfl
  | cons d t ih =>
      rw [escaped_cons, List.mem_append, List.mem_cons, ih]
      split
      · next hd =>
          have hd : d = '\n' := by simpa [EscapeMode.escapes] using hd
          subst hd
          simp [hn, hb, hl, escapedChar]
      · simp

theorem unescaped_append (hc : c ≠ 'n') (a b : Text) :
    unescaped .rfc822 (a ++ c :: b) = unescaped .rfc822 a ++ unescaped .rfc822 (c :: b) := by
  induction h : a.length using Nat.strongRecOn generalizing a with
  | ind n ih =>
      subst h
      match a with
      | [] => rfl
      | d :: a =>
          have htail := ih a.length (by simp) a rfl
          by_cases hd : d = '\\'
          · subst hd
            match a with
            | [] =>
                rw [List.cons_append, List.nil_append,
                  unescaped_backslash (t := c :: b) (by simpa using hc)]
                rfl
            | e :: a =>
                by_cases he : e = 'n'
                · subst he
                  have := ih a.length (by simp only [List.length_cons]; omega) a rfl
                  rw [List.cons_append, List.cons_append, unescaped_newline, unescaped_newline,
                    this]
                  rfl
                · rw [List.cons_append, unescaped_backslash (by simpa using he), htail,
                    unescaped_backslash (t := e :: a) (by simpa using he)]
                  rfl
          · rw [List.cons_append, unescaped_cons hd, unescaped_cons hd, htail]
            rfl

/-! ## The fields of a stanza -/

/-- The fields that `rfc822db_question_dump` writes. -/
def Question.entries (q : Question) : List Entry :=
  [⟨"Name", ' ' :: escapestr q.tag, []⟩,
    ⟨"Template", ' ' :: escapestr q.templateTag, []⟩] ++
  (q.value.map fun v => (⟨"Value", ' ' :: escapestr v, []⟩ : Entry)).toList ++
  (if q.owners = [] then [] else [⟨"Owners", ' ' :: dumpOwners q.owners, []⟩]) ++
  (if q.seen then [⟨"Flags", " seen", []⟩] else []) ++
  (if q.vars = [] then [] else [⟨"Variables", [], q.vars.map dumpVariable⟩])

theorem unlines_field (name rest : Text) :
    unlines '\n' (([⟨name, ' ' :: rest, []⟩] : List Entry).flatMap Entry.lines) =
      name ++ ": " ++ rest ++ ['\n'] := by
  simp [unlines, Entry.lines]

theorem questionDump_eq (q : Question) :
    questionDump q = unlines '\n' (q.entries.flatMap Entry.lines ++ [[]]) := by
  have hflag : questionGetFlag q "seen" = q.seen := by
    simp [questionGetFlag, flagValue]
  have hname : unlines '\n' (([⟨"Name", ' ' :: escapestr q.tag, []⟩,
        ⟨"Template", ' ' :: escapestr q.templateTag, []⟩] : List Entry).flatMap
          Entry.lines) =
      "Name: " ++ escapestr q.tag ++ ['\n'] ++
        "Template: " ++ escapestr q.templateTag ++ ['\n'] := by
    rw [← List.singleton_append, List.flatMap_append, unlines_append, unlines_field,
      unlines_field]
    simp only [List.append_assoc]
    rfl
  have hvalue : unlines '\n' ((q.value.map fun v =>
        (⟨"Value", ' ' :: escapestr v, []⟩ : Entry)).toList.flatMap Entry.lines) =
      q.value.elim [] fun v => "Value: ".toList ++ escapestr v ++ ['\n'] := by
    cases q.value with
    | none => rfl
    | some v => exact unlines_field _ _
  have howners : unlines '\n' ((if q.owners = [] then []
        else [⟨"Owners", ' ' :: dumpOwners q.owners, []⟩] : List Entry).flatMap
          Entry.lines) =
      if q.owners = [] then [] else "Owners: ".toList ++ dumpOwners q.owners ++ ['\n'] := by
    split
    · rfl
    · exact unlines_field _ _
  have hseen : unlines '\n' ((if q.seen then [⟨"Flags", " seen", []⟩] else [] :
        List Entry).flatMap Entry.lines) = if q.seen then "Flags: seen\n".toList else [] := by
    cases q.seen <;> rfl
  have hvars : unlines '\n' ((if q.vars = [] then []
        else [⟨"Variables", [], q.vars.map dumpVariable⟩] : List Entry).flatMap
          Entry.lines) =
      if q.vars = [] then []
        else "Variables:\n".toList ++ q.vars.flatMap fun p => dumpVariable p ++ ['\n'] := by
    split
    · rfl
    · rw [List.flatMap_cons, List.flatMap_nil, List.append_nil]
      show "Variables:\n".toList ++ (q.vars.map dumpVariable).flatMap _ = _
      rw [List.flatMap_map]
  unfold questionDump Question.entries
  simp only [List.flatMap_append, unlines_append]
  rw [hflag, hname, hvalue, howners, hseen, hvars]
  cases q.value <;> rfl

theorem dumpFile_eq (h : Heap) (db : QuestionDb) :
    dumpFile h db = unlines '\n' (stanzaLines ((db.questions h).map Question.entries)) := by
  unfold dumpFile stanzaLines
  induction db.questions h with
  | nil => rfl
  | cons q qs ih =>
      rw [List.flatMap_cons, ih, questionDump_eq, List.map_cons, List.flatMap_cons,
        unlines_append '\n' (_ ++ [[]])]

theorem dumpOwners_cons (o : Text) (os : List Text) :
    dumpOwners (o :: os) = escapestr o ++ os.flatMap fun p => ", ".toList ++ escapestr p := by
  induction os generalizing o with
  | nil => simp [dumpOwners]
  | cons p os ih =>
      rw [dumpOwners, ih, List.flatMap_cons]
      · simp only [List.append_assoc]
      · simp

theorem newline_not_mem_dumpOwners (os : List Text) : '\n' ∉ dumpOwners os := by
  cases os with
  | nil => simp [dumpOwners]
  | cons o os =>
      rw [dumpOwners_cons, List.mem_append, not_or]
      refine ⟨newline_not_mem_escapestr o, fun h => ?_⟩
      obtain ⟨p, -, hp⟩ := List.mem_flatMap.mp h
      rcases List.mem_append.mp hp with hp | hp
      · exact absurd hp (by decide)
      · exact newline_not_mem_escapestr p hp

theorem newline_not_mem_dumpVariable (p : Text × Text) : '\n' ∉ dumpVariable p := by
  unfold dumpVariable
  rw [List.mem_append, List.mem_append, List.mem_cons, not_or, not_or, not_or]
  exact ⟨⟨⟨by decide, newline_not_mem_escapestr _⟩, by decide⟩, newline_not_mem_escapestr _⟩

theorem line_wellFormed {name rest : Text}
    (hname : ∃ c n, name = c :: n ∧ isSpace c = false) (hcolon : ':' ∉ name)
    (hn : '\n' ∉ name) (hrest : '\n' ∉ rest) {more : List Text}
    (hmore : ∀ l ∈ more, (∃ c r, l = c :: r ∧ isSpace c = true) ∧ '\n' ∉ l) :
    Entry.WellFormed ⟨name, rest, more⟩ ∧ ∀ l ∈ Entry.lines ⟨name, rest, more⟩, '\n' ∉ l := by
  refine ⟨⟨hname, hcolon, fun l hl => (hmore l hl).1⟩, fun l hl => ?_⟩
  rcases List.mem_cons.mp hl with rfl | hl
  · rw [List.mem_append, List.mem_cons, not_or, not_or]
    exact ⟨hn, by decide, hrest⟩
  · exact (hmore l hl).2

theorem mem_entries {q : Question} {e : Entry} (he : e ∈ q.entries) :
    e.WellFormed ∧ ∀ l ∈ e.lines, '\n' ∉ l := by
  have hescaped : ∀ t : Text, '\n' ∉ ' ' :: escapestr t := by
    intro t
    rw [List.mem_cons, not_or]
    exact ⟨by decide, newline_not_mem_escapestr t⟩
  unfold Question.entries at he
  simp only [List.mem_append, List.mem_cons, List.not_mem_nil, or_false, Option.mem_toList,
    Option.map_eq_some_iff, List.mem_ite_nil_left, List.mem_ite_nil_right] at he
  rcases he with ((((rfl | rfl) | ⟨v, -, rfl⟩) | ⟨-, rfl⟩) | ⟨-, rfl⟩) | ⟨-, rfl⟩
  · exact line_wellFormed ⟨_, _, rfl, rfl⟩ (by decide) (by decide) (hescaped _) (by simp)
  · exact line_wellFormed ⟨_, _, rfl, rfl⟩ (by decide) (by decide) (hescaped _) (by simp)
  · exact line_wellFormed ⟨_, _, rfl, rfl⟩ (by decide) (by decide) (hescaped _) (by simp)
  · refine line_wellFormed ⟨_, _, rfl, rfl⟩ (by decide) (by decide) ?_ (by simp)
    rw [List.mem_cons, not_or]
    exact ⟨by decide, newline_not_mem_dumpOwners _⟩
  · exact line_wellFormed ⟨_, _, rfl, rfl⟩ (by decide) (by decide) (by decide) (by simp)
  · refine line_wellFormed ⟨_, _, rfl, rfl⟩ (by decide) (by decide) (by simp) fun l hl => ?_
    obtain ⟨p, -, rfl⟩ := List.mem_map.mp hl
    exact ⟨⟨_, _, rfl, rfl⟩, newline_not_mem_dumpVariable p⟩

theorem entries_ne_nil (q : Question) : q.entries ≠ [] := by
  intro h
  have hl := congrArg List.length h
  simp only [Question.entries, List.length_append, List.length_cons, List.length_nil] at hl
  omega

theorem parseFile_dumpFile (h : Heap) (db : QuestionDb) :
    parseFile (dumpFile h db) =
      (db.questions h).map fun q => q.entries.map Entry.parsed := by
  rw [dumpFile_eq, parseFile_entries, List.map_map]
  · rfl
  · intro es hes
    obtain ⟨q, -, rfl⟩ := List.mem_map.mp hes
    exact ⟨entries_ne_nil q, fun e he => (mem_entries he).1⟩
  · intro es hes e he
    obtain ⟨q, -, rfl⟩ := List.mem_map.mp hes
    exact (mem_entries he).2

/-- The owners as they are read, before they are cut. -/
def storedOwners (os : List Text) : Text := unescapestr ((dumpOwners os).dropWhile isSpace)

/-- The variables as they are read. -/
def storedVariables (ps : List (Text × Text)) : Text :=
  (ps.map dumpVariable).foldl (fun v l => v ++ '\n' :: l) []

theorem headerLookup_entries (q : Question) :
    headerLookup (q.entries.map Entry.parsed) "name" = some (storedText q.tag) ∧
    headerLookup (q.entries.map Entry.parsed) "template" =
      some (storedText q.templateTag) ∧
    headerLookup (q.entries.map Entry.parsed) "value" = q.value.map storedText ∧
    headerLookup (q.entries.map Entry.parsed) "flags" =
      (if q.seen then some "seen".toList else none) ∧
    headerLookup (q.entries.map Entry.parsed) "owners" =
      (if q.owners = [] then none else some (storedOwners q.owners)) ∧
    headerLookup (q.entries.map Entry.parsed) "variables" =
      (if q.vars = [] then none else some (storedVariables q.vars)) := by
  unfold Question.entries
  cases q.value <;> by_cases ho : q.owners = [] <;> cases q.seen <;> by_cases hv : q.vars = [] <;>
    simp only [ho, hv, if_true, if_false] <;> exact ⟨rfl, rfl, rfl, rfl, rfl, rfl⟩

/-! ## Lists that are added to -/

theorem foldl_append_of_length {α : Type} {f : List α → α → List α}
    (hf : ∀ l a, (f l a).length ≤ l.length + 1)
    (happ : ∀ l a, (f l a).length = l.length + 1 → f l a = l ++ [a]) (as l : List α) :
    (as.foldl f l).length ≤ l.length + as.length ∧
      ((as.foldl f l).length = l.length + as.length → as.foldl f l = l ++ as) := by
  induction as generalizing l with
  | nil => simp
  | cons a as ih =>
      obtain ⟨hle, heq⟩ := ih (f l a)
      have hstep := hf l a
      rw [List.foldl_cons, List.length_cons]
      refine ⟨by omega, fun h => ?_⟩
      have hgrown : (f l a).length = l.length + 1 := by omega
      rw [heq (by omega), happ l a hgrown, List.append_assoc]
      rfl

theorem owners_foldl (os : List Text) (q : Question) :
    (os.foldl questionOwnerAdd q).owners = os.foldl addOwner q.owners := by
  induction os generalizing q with
  | nil => rfl
  | cons o os ih => exact ih _

theorem foldl_addOwner_eq (h : items.foldl addOwner [] = os) (hlen : items.length = os.length) :
    items = os := by
  have hstep := foldl_append_of_length (f := addOwner)
    (fun l a => by unfold addOwner; split <;> simp)
    (fun l a h => by
      unfold addOwner at h ⊢
      split
      · next hm => simp [hm] at h
      · rfl) items []
  rw [← h]
  exact (hstep.2 (by simp [h, hlen])).symm

theorem mem_foldl_addOwner {o : Text} (h : o ∈ items.foldl addOwner os) : o ∈ os ∨ o ∈ items := by
  induction items generalizing os with
  | nil => exact .inl h
  | cons i items ih =>
      rcases ih h with h | h
      · unfold addOwner at h
        split at h
        · exact .inl h
        · rcases List.mem_append.mp h with h | h
          · exact .inl h
          · exact .inr (List.mem_cons.mpr (.inl (List.mem_singleton.mp h)))
      · exact .inr (List.mem_cons_of_mem _ h)

theorem vars_foldl (ps : List (Text × Text)) (q : Question) :
    (ps.foldl (fun q p => questionVariableAdd q p.1 p.2) q).vars =
      ps.foldl (fun l p => addVariable p.1 p.2 l) q.vars := by
  induction ps generalizing q with
  | nil => rfl
  | cons p ps ih => exact ih _

theorem foldl_addVariable_eq {items ps : List (Text × Text)}
    (h : items.foldl (fun l p => addVariable p.1 p.2 l) [] = ps)
    (hlen : items.length = ps.length) : items = ps := by
  have hlength : ∀ l (p : Text × Text), (addVariable p.1 p.2 l).length =
      if p.1 ∈ l.map Prod.fst then l.length else l.length + 1 := by
    intro l p
    have := congrArg List.length (map_fst_addVariable p.1 p.2 l)
    rw [List.length_map] at this
    rw [this]
    split <;> simp
  have hstep := foldl_append_of_length
    (f := fun (l : List (Text × Text)) (p : Text × Text) => addVariable p.1 p.2 l)
    (fun l p => by rw [hlength]; split <;> omega)
    (fun l p h => by
      rw [hlength] at h
      split at h
      · omega
      · next hm => exact addVariable_append hm) items []
  rw [← h]
  exact (hstep.2 (by simp [h, hlen])).symm

/-! ## Owners -/

/-- Owners that are read back: without commas and escapes, and without blanks where
the list is cut. -/
def OwnersStorable : List Text → Prop
  | [] => True
  | o :: os =>
      (',' ∉ o ∧ Plain o) ∧
        ∀ p ∈ os, ',' ∉ p ∧ hasEscape p = false ∧ ∀ c ∈ p.head?, isBlank c = false

theorem dropWhile_append_cons {p : Char → Bool} (hc : p c = false) (a b : Text) :
    (a ++ c :: b).dropWhile p = a.dropWhile p ++ c :: b := by
  induction a with
  | nil => simp [hc]
  | cons d a ih =>
      rw [List.cons_append, List.dropWhile_cons, List.dropWhile_cons]
      split
      · exact ih
      · rfl

theorem unescaped_items (a : Text) (os : List Text) :
    unescaped .rfc822 (a ++ os.flatMap fun p => ", ".toList ++ escapestr p) =
      unescaped .rfc822 a ++ os.flatMap fun p => ", ".toList ++ reread p := by
  induction os generalizing a with
  | nil => simp
  | cons p os ih =>
      rw [List.flatMap_cons, List.flatMap_cons, List.append_assoc, List.append_assoc]
      show unescaped .rfc822 (a ++ ',' :: ' ' :: (escapestr p ++ _)) = _
      rw [unescaped_append (by decide), unescaped_cons (by decide), unescaped_cons (by decide), ih]
      rfl

theorem storedOwners_cons (o : Text) (os : List Text) :
    storedOwners (o :: os) = storedText o ++ os.flatMap fun p => ", ".toList ++ reread p := by
  have hdrop : (escapestr o ++ os.flatMap fun p => ", ".toList ++ escapestr p).dropWhile isSpace =
      (escapestr o).dropWhile isSpace ++ os.flatMap fun p => ", ".toList ++ escapestr p := by
    cases os with
    | nil => simp
    | cons p os =>
        rw [List.flatMap_cons, List.append_assoc]
        exact dropWhile_append_cons (by decide) _ _
  unfold storedOwners
  rw [dumpOwners_cons, hdrop]
  exact unescaped_items _ os

theorem mem_reread (hn : c ≠ 'n') (hb : c ≠ '\\') (hl : c ≠ '\n') (t : Text) :
    c ∈ reread t ↔ c ∈ t := by
  induction h : t.length using Nat.strongRecOn generalizing t with
  | ind n ih =>
      subst h
      cases t with
      | nil => rfl
      | cons d t =>
          rw [reread_cons]
          split
          · next h =>
              cases t with
              | nil => cases h.2
              | cons e t =>
                  have he : e = 'n' := by simpa using h.2
                  rw [List.tail_cons, List.mem_cons,
                    ih t.length (by simp only [List.length_cons]; omega) t rfl]
                  simp [h.1, he, hn, hb, hl]
          · rw [List.mem_cons, List.mem_cons, ih t.length (by simp) t rfl]

theorem splitItems_join {r : Text} {rs : List Text} (hr : ',' ∉ r) (hrs : ∀ p ∈ rs, ',' ∉ p)
    (hn : rs.length < n) :
    splitItems n (r ++ rs.flatMap fun p => ", ".toList ++ p) =
      r :: rs.map fun p => p.dropWhile isBlank := by
  have hne : ∀ {t : Text}, ',' ∉ t → ∀ c ∈ t, (c != ',') = true := by
    intro t ht c hc
    rw [bne_iff_ne]
    exact fun e => ht (e ▸ hc)
  induction rs generalizing r n with
  | nil =>
      obtain ⟨n, rfl⟩ := Nat.exists_eq_succ_of_ne_zero (Nat.ne_of_gt hn)
      have htake : r.takeWhile (· != ',') = r := List.takeWhile_eq_self_iff.mpr (hne hr)
      have hdrop : r.dropWhile (· != ',') = [] := List.dropWhile_eq_nil_iff.mpr (hne hr)
      simp [splitItems, htake, hdrop]
  | cons p rs ih =>
      obtain ⟨n, rfl⟩ := Nat.exists_eq_succ_of_ne_zero (Nat.ne_of_gt (Nat.zero_lt_of_lt hn))
      have hcons : (r ++ (p :: rs).flatMap fun p => ", ".toList ++ p) =
          r ++ ',' :: ' ' :: (p ++ rs.flatMap fun p => ", ".toList ++ p) := by
        rw [List.flatMap_cons, List.append_assoc]
        rfl
      have hdrop : (p ++ rs.flatMap fun p => ", ".toList ++ p).dropWhile isBlank =
          p.dropWhile isBlank ++ rs.flatMap fun p => ", ".toList ++ p := by
        cases rs with
        | nil => simp
        | cons p' rs =>
            rw [List.flatMap_cons, List.append_assoc]
            exact dropWhile_append_cons (by decide) _ _
      have hp : ',' ∉ p.dropWhile isBlank := fun h =>
        hrs p List.mem_cons_self ((List.dropWhile_suffix isBlank).subset h)
      rw [hcons, splitItems, List.takeWhile_append_of_pos (hne hr),
        List.dropWhile_append_of_pos (hne hr)]
      show (r ++ []) :: splitItems n ((p ++ _).dropWhile isBlank) = _
      rw [hdrop, ih hp (fun p' h => hrs p' (List.mem_cons_of_mem _ h))
        (Nat.lt_of_succ_lt_succ hn), List.append_nil]
      rfl

theorem comma_not_mem_splitItems {i : Text} (h : i ∈ splitItems n t) : ',' ∉ i := by
  induction n generalizing t with
  | zero => cases h
  | succ n ih =>
      have htake : ',' ∉ t.takeWhile (· != ',') := fun hm => by
        simpa using List.mem_takeWhile_imp hm
      unfold splitItems at h
      dsimp only at h
      split at h
      · rw [List.mem_singleton.mp h]
        exact htake
      · rcases List.mem_cons.mp h with rfl | h
        · exact htake
        · exact ih h

theorem dropWhile_reread_eq_iff (p : Text) :
    (reread p).dropWhile isBlank = p ↔
      hasEscape p = false ∧ ∀ c ∈ p.head?, isBlank c = false := by
  have hhead : ∀ t : Text, t.dropWhile isBlank = t ↔ ∀ c ∈ t.head?, isBlank c = false := by
    intro t
    cases t with
    | nil => simp
    | cons c t =>
        rw [List.dropWhile_cons]
        split
        · next hc =>
            have hne : t.dropWhile isBlank ≠ c :: t := fun he => by
              have := (List.dropWhile_suffix isBlank (l := t)).length_le
              rw [he, List.length_cons] at this
              omega
            simpa [hne] using hc
        · next hc => simpa using hc
  constructor
  · intro h
    have hsuf := (List.dropWhile_suffix isBlank (l := reread p)).length_le
    have hle := length_reread_le p
    rw [h] at hsuf
    have hesc : hasEscape p = false := (length_reread_eq p).mp (by omega)
    rw [reread_eq hesc] at h
    exact ⟨hesc, (hhead p).mp h⟩
  · rintro ⟨hesc, hb⟩
    rw [reread_eq hesc]
    exact (hhead p).mpr hb

theorem owners_read_iff (os : List Text) (hnd : os.Nodup) (hne : os ≠ []) :
    (splitItems ((storedOwners os).length + 1) (storedOwners os)).foldl addOwner [] = os ↔
      OwnersStorable os := by
  obtain ⟨o, os, rfl⟩ := List.exists_cons_of_ne_nil hne
  have hitems : (∀ p ∈ o :: os, ',' ∉ p) →
      splitItems ((storedOwners (o :: os)).length + 1) (storedOwners (o :: os)) =
        storedText o :: os.map fun p => (reread p).dropWhile isBlank := by
    intro hcomma
    have hmem : ∀ p, ',' ∉ p → ',' ∉ reread p := fun p hp h =>
      hp ((mem_reread (by decide) (by decide) (by decide) p).mp h)
    have hfirst : ',' ∉ storedText o := by
      rw [storedText_eq_reread]
      exact hmem _ fun h =>
        hcomma o List.mem_cons_self ((List.dropWhile_suffix isLead).subset h)
    have hmap : (os.flatMap fun p => ", ".toList ++ reread p) =
        (os.map reread).flatMap fun p => ", ".toList ++ p := by
      rw [List.flatMap_map]
    have hlen : (os.map reread).length < (storedOwners (o :: os)).length + 1 := by
      rw [storedOwners_cons, List.length_append, List.length_flatMap, List.length_map]
      have : os.length ≤ (os.map fun p => (", " ++ reread p).length).sum := by
        clear hnd hne hcomma hmap hfirst
        induction os with
        | nil => simp
        | cons p os ih =>
            rw [List.map_cons, List.sum_cons, List.length_cons, List.length_append]
            have : (", ".toList).length = 2 := rfl
            omega
      omega
    rw [storedOwners_cons] at hlen ⊢
    rw [hmap] at hlen ⊢
    rw [splitItems_join hfirst (fun p hp => ?_) hlen, List.map_map]
    · rfl
    · obtain ⟨p', hp', rfl⟩ := List.mem_map.mp hp
      exact hmem _ (hcomma p' (List.mem_cons_of_mem _ hp'))
  constructor
  · intro h
    have hcomma : ∀ p ∈ o :: os, ',' ∉ p := by
      intro p hp
      rw [← h] at hp
      rcases mem_foldl_addOwner hp with hp | hp
      · cases hp
      · exact comma_not_mem_splitItems hp
    rw [hitems hcomma] at h
    obtain ⟨hfirst, hrest⟩ := List.cons.inj (foldl_addOwner_eq h (by simp))
    refine ⟨⟨hcomma o List.mem_cons_self, (storedText_eq_iff o).mp hfirst⟩, fun p hp => ?_⟩
    have hp' : (reread p).dropWhile isBlank = p :=
      List.map_inj_left.mp (hrest.trans (List.map_id os).symm) p hp
    exact ⟨hcomma p (List.mem_cons_of_mem _ hp), (dropWhile_reread_eq_iff p).mp hp'⟩
  · rintro ⟨⟨hcomma, hplain⟩, hrest⟩
    have hall : ∀ p ∈ o :: os, ',' ∉ p := by
      intro p hp
      rcases List.mem_cons.mp hp with rfl | hp
      · exact hcomma
      · exact (hrest p hp).1
    have hmap : (os.map fun p => (reread p).dropWhile isBlank) = os := by
      rw [List.map_congr_left (g := id) fun p hp =>
        (dropWhile_reread_eq_iff p).mpr (hrest p hp).2, List.map_id]
    have hadd := (foldl_ownerAdd (o :: os) (questionNew []) (by simpa [questionNew] using hnd)).1
    rw [hitems hall, (storedText_eq_iff o).mpr hplain, hmap]
    rw [owners_foldl] at hadd
    exact hadd

/-! ## Variables -/

/-- Variables that are read back: their lines are cut at equals signs and stripped, and
the newlines of their values are not read again. -/
def VariableStorable (p : Text × Text) : Prop :=
  '=' ∉ p.1 ∧ ('\n' ∉ p.1 ∧ strstrip p.1 = p.1) ∧ '\n' ∉ p.2 ∧ strstrip p.2 = p.2

/-- The pair on a line. -/
def pairOf (l : Text) : Text × Text :=
  (strstrip (l.takeWhile (· != '=')), strstrip (l.dropWhile (· != '=')).tail)

theorem strstrip_cons (hc : isSpace c = true) (t : Text) : strstrip (c :: t) = strstrip t := by
  unfold strstrip
  rw [List.dropWhile_cons, if_pos hc]

theorem strstrip_append (hc : isSpace c = true) (t : Text) : strstrip (t ++ [c]) = strstrip t := by
  unfold strstrip
  rw [List.dropWhile_append]
  split
  · next h =>
      rw [List.isEmpty_iff.mp h, List.dropWhile_cons, if_pos hc]
      rfl
  · exact List.rdropWhile_concat_pos _ _ _ hc

theorem strstrip_subset (t : Text) : strstrip t ⊆ t :=
  fun _ h => (List.dropWhile_suffix isSpace).subset ((List.rdropWhile_prefix isSpace _).subset h)

theorem strstrip_escapestr_iff (t : Text) :
    strstrip (escapestr t) = t ↔ '\n' ∉ t ∧ strstrip t = t := by
  constructor
  · intro h
    have hn : '\n' ∉ t := by
      intro hm
      rw [← h] at hm
      exact newline_not_mem_escapestr t (strstrip_subset _ hm)
    rw [escapestr_of_not_mem hn] at h
    exact ⟨hn, h⟩
  · rintro ⟨hn, h⟩
    rw [escapestr_of_not_mem hn, h]

theorem pairOf_dumpVariable_iff (p : Text × Text) :
    pairOf (dumpVariable p) = p ↔ VariableStorable p := by
  have hne : '=' ∉ p.1 → ∀ c ∈ ' ' :: escapestr p.1 ++ [' '], (c != '=') = true := by
    intro hp c hc
    rw [bne_iff_ne]
    rintro rfl
    simp only [List.cons_append, List.mem_cons, List.mem_append, List.not_mem_nil, or_false] at hc
    rcases hc with hc | hc | hc
    · exact absurd hc (by decide)
    · exact hp ((mem_escapestr (by decide) (by decide) (by decide) p.1).mp hc)
    · exact absurd hc (by decide)
  have hline : dumpVariable p = (' ' :: escapestr p.1 ++ [' ']) ++ '=' :: ' ' :: escapestr p.2 := by
    simp [dumpVariable]
  have hpair : '=' ∉ p.1 →
      pairOf (dumpVariable p) = (strstrip (escapestr p.1), strstrip (escapestr p.2)) := by
    intro hp
    unfold pairOf
    rw [hline, List.takeWhile_append_of_pos (hne hp), List.dropWhile_append_of_pos (hne hp)]
    refine Prod.ext ?_ (strstrip_cons rfl _)
    show strstrip ((' ' :: escapestr p.1 ++ [' ']) ++ []) = _
    rw [List.append_nil, strstrip_append rfl, strstrip_cons rfl]
  constructor
  · intro h
    have hp : '=' ∉ p.1 := by
      intro hm
      rw [← h] at hm
      have := List.mem_takeWhile_imp (strstrip_subset _ hm)
      simp at this
    rw [hpair hp] at h
    exact ⟨hp, (strstrip_escapestr_iff _).mp (congrArg Prod.fst h),
      (strstrip_escapestr_iff _).mp (congrArg Prod.snd h)⟩
  · rintro ⟨hp, hname, hvalue⟩
    rw [hpair hp, (strstrip_escapestr_iff _).mpr hname, (strstrip_escapestr_iff _).mpr hvalue]

theorem pairOf_dropWhile (l : Text) : pairOf (l.dropWhile isBlank) = pairOf l := by
  induction l with
  | nil => rfl
  | cons c l ih =>
      rw [List.dropWhile_cons]
      split
      · next hc =>
          have hs : isSpace c = true := by
            unfold isBlank at hc
            unfold isSpace
            simp only [Bool.or_eq_true] at hc ⊢
            rcases hc with hc | hc <;> simp [hc]
          have he : (c != '=') = true := by
            rw [bne_iff_ne]
            rintro rfl
            exact absurd hc (by decide)
          rw [ih]
          unfold pairOf
          rw [List.takeWhile_cons, if_pos he, List.dropWhile_cons, if_pos he, strstrip_cons hs]
      · rfl

theorem takeWhile_of_not_mem (h : c ∉ a) (b : Text) :
    (a ++ c :: b).takeWhile (· != c) = a ∧ (a ++ c :: b).dropWhile (· != c) = c :: b := by
  have hne : ∀ d ∈ a, (d != c) = true := by
    intro d hd
    rw [bne_iff_ne]
    exact fun e => h (e ▸ hd)
  rw [List.takeWhile_append_of_pos hne, List.dropWhile_append_of_pos hne]
  simp

theorem pairOf_eq (ha : '=' ∉ a) (b : Text) :
    pairOf (a ++ '=' :: b) = (strstrip a, strstrip b) := by
  unfold pairOf
  rw [(takeWhile_of_not_mem ha b).1, (takeWhile_of_not_mem ha b).2]
  rfl

theorem splitVariables_lines {b : Text} {ls : List Text} (ha : '=' ∉ a) (hb : '\n' ∉ b)
    (hls : ∀ l ∈ ls, '=' ∈ l ∧ '\n' ∉ l) (hn : ls.length < n) :
    splitVariables n (a ++ '=' :: b ++ ls.flatMap ('\n' :: ·)) =
      pairOf (a ++ '=' :: b) :: ls.map pairOf := by
  induction ls generalizing a b n with
  | nil =>
      obtain ⟨n, rfl⟩ := Nat.exists_eq_succ_of_ne_zero (Nat.ne_of_gt hn)
      have hne : ∀ c ∈ b, (c != '\n') = true := by
        intro c hc
        rw [bne_iff_ne]
        exact fun e => hb (e ▸ hc)
      rw [List.flatMap_nil, List.append_nil, pairOf_eq ha, splitVariables]
      · rw [(takeWhile_of_not_mem ha b).1, (takeWhile_of_not_mem ha b).2]
        dsimp only [List.tail_cons]
        rw [List.takeWhile_eq_self_iff.mpr hne, List.dropWhile_eq_nil_iff.mpr hne]
        rfl
      · simp
  | cons l ls ih =>
      obtain ⟨n, rfl⟩ := Nat.exists_eq_succ_of_ne_zero (Nat.ne_of_gt (Nat.zero_lt_of_lt hn))
      obtain ⟨heq, hnl⟩ := hls l List.mem_cons_self
      have hcons : a ++ '=' :: b ++ (l :: ls).flatMap ('\n' :: ·) =
          a ++ '=' :: (b ++ '\n' :: (l ++ ls.flatMap ('\n' :: ·))) := by
        simp
      have hdrop : (l ++ ls.flatMap ('\n' :: ·)).dropWhile isBlank =
          l.dropWhile isBlank ++ ls.flatMap ('\n' :: ·) := by
        obtain ⟨c, d, rfl, -⟩ := List.eq_append_cons_of_mem heq
        rw [List.append_assoc, List.cons_append, dropWhile_append_cons (by decide),
          dropWhile_append_cons (by decide), List.append_assoc, List.cons_append]
      have heq' : '=' ∈ l.dropWhile isBlank := by
        obtain ⟨c, d, rfl, -⟩ := List.eq_append_cons_of_mem heq
        rw [dropWhile_append_cons (by decide)]
        simp
      obtain ⟨c, d, hcd, hc⟩ := List.eq_append_cons_of_mem heq'
      have hd : '\n' ∉ d := fun h => hnl ((List.dropWhile_suffix isBlank).subset
        (hcd ▸ List.mem_append_right _ (List.mem_cons_of_mem _ h)))
      rw [hcons, splitVariables]
      · rw [(takeWhile_of_not_mem ha _).1, (takeWhile_of_not_mem ha _).2]
        dsimp only [List.tail_cons]
        rw [(takeWhile_of_not_mem hb _).1, (takeWhile_of_not_mem hb _).2]
        dsimp only
        rw [hdrop, hcd, ih hc hd (fun l' h => hls l' (List.mem_cons_of_mem _ h))
          (Nat.lt_of_succ_lt_succ hn), ← hcd, pairOf_dropWhile, pairOf_eq ha]
        rfl
      · simp

theorem storedVariables_eq (ps : List (Text × Text)) :
    storedVariables ps = (ps.map dumpVariable).flatMap ('\n' :: ·) := by
  have hfold : ∀ (ls : List Text) (v : Text),
      ls.foldl (fun v l => v ++ '\n' :: l) v = v ++ ls.flatMap ('\n' :: ·) := by
    intro ls
    induction ls with
    | nil => simp
    | cons l ls ih => simp [ih]
  exact hfold _ []

theorem variables_read_iff (ps : List (Text × Text)) (hnd : (ps.map Prod.fst).Nodup)
    (hne : ps ≠ []) :
    (splitVariables (storedVariables ps).length (storedVariables ps)).foldl
        (fun l p => addVariable p.1 p.2 l) [] = ps ↔
      ∀ p ∈ ps, VariableStorable p := by
  have hline : ∀ p : Text × Text, '=' ∈ dumpVariable p := fun p => by simp [dumpVariable]
  have hitems : splitVariables (storedVariables ps).length (storedVariables ps) =
      ps.map fun p => pairOf (dumpVariable p) := by
    obtain ⟨p, ps, rfl⟩ := List.exists_cons_of_ne_nil hne
    obtain ⟨a, b, hab, ha⟩ := List.eq_append_cons_of_mem (hline p)
    have hb : '\n' ∉ b := fun h => newline_not_mem_dumpVariable p
      (hab ▸ List.mem_append_right _ (List.mem_cons_of_mem _ h))
    have hcons : storedVariables (p :: ps) =
        ('\n' :: a) ++ '=' :: b ++ (ps.map dumpVariable).flatMap ('\n' :: ·) := by
      rw [storedVariables_eq, List.map_cons, List.flatMap_cons, hab]
      rfl
    have hlen : (ps.map dumpVariable).length < (storedVariables (p :: ps)).length := by
      rw [storedVariables_eq, List.length_flatMap, List.map_map, List.length_map]
      clear hnd hne hcons hab
      induction ps generalizing p with
      | nil => simp [dumpVariable]
      | cons p' ps ih =>
          have := ih p'
          simp only [List.map_cons, List.sum_cons, List.length_cons, Function.comp] at this ⊢
          omega
    have ha' : '=' ∉ '\n' :: a := by simp [ha]
    rw [hcons] at hlen ⊢
    rw [splitVariables_lines ha' hb ?_ hlen, List.map_map, pairOf_eq ha']
    · rw [strstrip_cons rfl, ← pairOf_eq ha, ← hab]
      rfl
    · intro l hl
      obtain ⟨p', -, rfl⟩ := List.mem_map.mp hl
      exact ⟨hline p', newline_not_mem_dumpVariable p'⟩
  rw [hitems]
  constructor
  · intro h p hp
    have hmap := foldl_addVariable_eq h (List.length_map _)
    exact (pairOf_dumpVariable_iff p).mp
      (List.map_inj_left.mp (hmap.trans (List.map_id ps).symm) p hp)
  · intro h
    have hmap : (ps.map fun p => pairOf (dumpVariable p)) = ps := by
      rw [List.map_congr_left (g := id) fun p hp => (pairOf_dumpVariable_iff p).mpr (h p hp),
        List.map_id]
    have hadd := (foldl_variableAdd ps (questionNew []) (by simpa [questionNew] using hnd)).1
    rw [vars_foldl] at hadd
    rw [hmap]
    exact hadd

end DebianInstaller.Debconf
