import DebianInstaller.Debconf.Strutl
import DebianInstaller.Lib.Lines

/-!
# Stanzas

`rfc822_parse_stanza` reads the databases of cdebconf: lines with a field name, a
colon and a value, lines that go on with the value before them, and an empty line
at the end. Only the value on the line with the name is unescaped, after the blanks
before it.

A file of stanzas is read back field by field.
-/

namespace DebianInstaller.Debconf

open Text Lib

/-- The lines of a file, without their newlines. -/
def fileLines : Text → List Text
  | [] => []
  | c :: t =>
      if c = '\n' then [] :: fileLines t
      else
        match fileLines t with
        | [] => [[c]]
        | l :: ls => (c :: l) :: ls

/-- `struct rfc822_header`. -/
structure Header where
  header : Text
  value : Text
  deriving DecidableEq

/-- A line with a field name. What stands behind a line without a colon is nothing, if a newline
ends it. Without one, at the end of a file, it would be what an earlier line has left in the
buffer; that is not here, and the results about files are about lines with a colon. -/
def parseHeader (line : Text) : Header where
  header := line.takeWhile (· != ':')
  value := unescapestr ((line.dropWhile (· != ':')).tail.dropWhile isSpace)

/-- `rfc822_parse_stanza` from the field `cur` on: the fields, and the lines that are
left. A line that goes on with nothing ends the stanza. -/
def stanzaFrom : Option Header → List Text → List Header × List Text
  | cur, [] => (cur.toList, [])
  | cur, [] :: ls => (cur.toList, ls)
  | cur, (c :: l) :: ls =>
      if isSpace c then
        match cur with
        | none => ([], ls)
        | some h => stanzaFrom (some { h with value := h.value ++ '\n' :: c :: l }) ls
      else
        let r := stanzaFrom (some (parseHeader (c :: l))) ls
        (cur.toList ++ r.1, r.2)

/-- The loop over the stanzas, which ends at one without fields, for a number of rounds. -/
def stanzas : Nat → List Text → List (List Header)
  | 0, _ => []
  | n + 1, ls =>
      match stanzaFrom none ls with
      | ([], _) => []
      | (h :: hs, rest) => (h :: hs) :: stanzas n rest

/-- All stanzas of a file: each but the last empty one takes a line. -/
def parseFile (t : Text) : List (List Header) :=
  stanzas ((fileLines t).length + 1) (fileLines t)

/-- `rfc822_header_lookup`. -/
def headerLookup (list : List Header) (key : Text) : Option Text :=
  (list.find? fun h => sameIgnoringCase key h.header).map Header.value

/-! ## Writing and reading -/

theorem fileLines_append {l : Text} (h : '\n' ∉ l) (t : Text) :
    fileLines (l ++ '\n' :: t) = l :: fileLines t := by
  induction l with
  | nil => simp [fileLines]
  | cons c l ih =>
      have hc : c ≠ '\n' := fun e => h (e ▸ List.mem_cons_self)
      rw [List.cons_append, fileLines, if_neg hc, ih fun hm => h (List.mem_cons_of_mem _ hm)]

theorem fileLines_unlines {ls : List Text} (h : ∀ l ∈ ls, '\n' ∉ l) :
    fileLines (unlines '\n' ls) = ls := by
  induction ls with
  | nil => rfl
  | cons l ls ih =>
      have : unlines '\n' (l :: ls) = l ++ '\n' :: unlines '\n' ls := by simp [unlines]
      rw [this, fileLines_append (h l List.mem_cons_self),
        ih fun l' hl' => h l' (List.mem_cons_of_mem _ hl')]

/-- A value that is written behind a colon, as it is read again. -/
def storedText (t : Text) : Text := unescapestr ((escapestr t).dropWhile isSpace)

/-- A value without an escape of its own and without blanks before it. A newline is
written as an escape and stays. -/
def Plain (t : Text) : Prop :=
  hasEscape t = false ∧ ∀ c ∈ t.head?, isSpace c = true → c = '\n'

instance (t : Text) : Decidable (Plain t) :=
  @instDecidableAnd _ _ inferInstance (Option.decidableForallMem _)

/-- What is lost before a value. -/
def isLead (c : Char) : Bool := isSpace c && c != '\n'

theorem dropWhile_escaped (t : Text) :
    (escaped .rfc822 t).dropWhile isSpace = escaped .rfc822 (t.dropWhile isLead) := by
  induction t with
  | nil => rfl
  | cons c t ih =>
      by_cases hn : c = '\n'
      · subst hn
        rfl
      · have hne : EscapeMode.escapes .rfc822 c = false := by simp [EscapeMode.escapes, hn]
        have hlead : isLead c = isSpace c := by simp [isLead, hn]
        cases hs : isSpace c <;> simp [escaped_cons, hne, hlead, hs, ih]

theorem storedText_eq_reread (t : Text) : storedText t = reread (t.dropWhile isLead) := by
  unfold storedText reread
  rw [escapestr_eq, escapestr_eq, dropWhile_escaped]

theorem length_storedText_le (t : Text) : (storedText t).length ≤ t.length := by
  rw [storedText_eq_reread]
  exact (length_reread_le _).trans (List.dropWhile_suffix isLead).length_le

theorem dropWhile_isLead_iff (t : Text) :
    t.dropWhile isLead = t ↔ ∀ c ∈ t.head?, isSpace c = true → c = '\n' := by
  cases t with
  | nil => simp
  | cons c t =>
      rw [List.dropWhile_cons]
      split
      · next h =>
          have hlen : (t.dropWhile isLead).length ≤ t.length :=
            (List.dropWhile_suffix isLead).length_le
          have hne : t.dropWhile isLead ≠ c :: t := by
            intro he
            rw [he, List.length_cons] at hlen
            omega
          simpa [hne, isLead] using h
      · next h => simpa [isLead] using h

theorem plain_of_length {t : Text} (h : (storedText t).length = t.length) : Plain t := by
  rw [storedText_eq_reread] at h
  have hsuf := List.dropWhile_suffix isLead (l := t)
  have hle := length_reread_le (t.dropWhile isLead)
  have hdrop : t.dropWhile isLead = t := hsuf.eq_of_length (by have := hsuf.length_le; omega)
  rw [hdrop] at h
  exact ⟨(length_reread_eq t).mp h, (dropWhile_isLead_iff t).mp hdrop⟩

theorem storedText_eq_iff (t : Text) : storedText t = t ↔ Plain t := by
  constructor
  · exact fun h => plain_of_length (congrArg List.length h)
  · rintro ⟨hesc, hlead⟩
    rw [storedText_eq_reread, (dropWhile_isLead_iff t).mpr hlead, reread_eq hesc]

theorem plain_storedText (t : Text) : Plain (storedText t) := by
  rw [storedText_eq_reread]
  refine ⟨hasEscape_reread _, fun c hc hs => ?_⟩
  cases ht : t.dropWhile isLead with
  | nil =>
      rw [ht] at hc
      cases hc
  | cons d r =>
      rw [ht, reread_cons] at hc
      split at hc
      · exact (Option.some.inj hc).symm
      · obtain rfl : d = c := Option.some.inj hc
        have hnot := List.head?_dropWhile_not isLead t
        rw [ht] at hnot
        simpa [isLead, hs] using hnot

/-- A field as it is written: its name, what stands behind the colon, and the lines that
go on with it. -/
structure Entry where
  name : Text
  rest : Text
  more : List Text := []

def Entry.lines (e : Entry) : List Text := (e.name ++ ':' :: e.rest) :: e.more

/-- The field that is read back. -/
def Entry.parsed (e : Entry) : Header where
  header := e.name
  value := e.more.foldl (fun v l => v ++ '\n' :: l) (unescapestr (e.rest.dropWhile isSpace))

/-- What a name and the lines that go on look like. -/
structure Entry.WellFormed (e : Entry) : Prop where
  name : ∃ c n, e.name = c :: n ∧ isSpace c = false
  colon : ':' ∉ e.name
  more : ∀ l ∈ e.more, ∃ c r, l = c :: r ∧ isSpace c = true

theorem parseHeader_entry {e : Entry} (h : ':' ∉ e.name) :
    parseHeader (e.name ++ ':' :: e.rest) =
      ⟨e.name, unescapestr (e.rest.dropWhile isSpace)⟩ := by
  have hne : ∀ c ∈ e.name, (c != ':') = true := by
    intro c hc
    rw [bne_iff_ne]
    exact fun e' => h (e' ▸ hc)
  unfold parseHeader
  rw [List.takeWhile_append_of_pos hne, List.dropWhile_append_of_pos hne]
  simp

theorem stanzaFrom_header {c : Char} (hc : isSpace c = false) (cur : Option Header) (l : Text)
    (ls : List Text) :
    stanzaFrom cur ((c :: l) :: ls) =
      (cur.toList ++ (stanzaFrom (some (parseHeader (c :: l))) ls).1,
        (stanzaFrom (some (parseHeader (c :: l))) ls).2) := by
  cases cur <;> simp [stanzaFrom, hc]

theorem stanzaFrom_more {h : Header} {ls : List Text}
    (hls : ∀ l ∈ ls, ∃ c r, l = c :: r ∧ isSpace c = true) (rest : List Text) :
    stanzaFrom (some h) (ls ++ rest) =
      stanzaFrom (some ⟨h.header, ls.foldl (fun v l => v ++ '\n' :: l) h.value⟩) rest := by
  induction ls generalizing h with
  | nil => rfl
  | cons l ls ih =>
      obtain ⟨c, r, rfl, hc⟩ := hls l List.mem_cons_self
      rw [List.cons_append, stanzaFrom, if_pos hc]
      exact ih fun l' hl' => hls l' (List.mem_cons_of_mem _ hl')

theorem stanzaFrom_entries {es : List Entry} (hes : ∀ e ∈ es, e.WellFormed) (cur : Option Header)
    (rest : List Text) :
    stanzaFrom cur (es.flatMap Entry.lines ++ [] :: rest) =
      (cur.toList ++ es.map Entry.parsed, rest) := by
  induction es generalizing cur with
  | nil => simp [stanzaFrom]
  | cons e es ih =>
      obtain ⟨⟨c, n, hname, hc⟩, hcolon, hmore⟩ := hes e List.mem_cons_self
      have hline : (e :: es).flatMap Entry.lines ++ [] :: rest =
          (e.name ++ ':' :: e.rest) :: (e.more ++ (es.flatMap Entry.lines ++ [] :: rest)) := by
        simp [Entry.lines]
      have hfrom : stanzaFrom cur ((e.name ++ ':' :: e.rest) ::
            (e.more ++ (es.flatMap Entry.lines ++ [] :: rest))) =
          (cur.toList ++ (stanzaFrom (some (parseHeader (e.name ++ ':' :: e.rest)))
            (e.more ++ (es.flatMap Entry.lines ++ [] :: rest))).1,
            (stanzaFrom (some (parseHeader (e.name ++ ':' :: e.rest)))
            (e.more ++ (es.flatMap Entry.lines ++ [] :: rest))).2) := by
        rw [hname]
        exact stanzaFrom_header hc cur _ _
      rw [hline, hfrom, parseHeader_entry hcolon, stanzaFrom_more hmore,
        ih (fun e' he' => hes e' (List.mem_cons_of_mem _ he'))]
      simp [Entry.parsed]

/-- A file of stanzas, each with its empty line. -/
def stanzaLines (ss : List (List Entry)) : List Text :=
  ss.flatMap fun es => es.flatMap Entry.lines ++ [[]]

theorem stanzas_entries {ss : List (List Entry)}
    (hss : ∀ es ∈ ss, es ≠ [] ∧ ∀ e ∈ es, e.WellFormed) {n : Nat} (hn : ss.length < n) :
    stanzas n (stanzaLines ss) = ss.map (List.map Entry.parsed) := by
  induction ss generalizing n with
  | nil =>
      obtain ⟨n, rfl⟩ := Nat.exists_eq_succ_of_ne_zero (Nat.ne_of_gt hn)
      rfl
  | cons es ss ih =>
      obtain ⟨n, rfl⟩ := Nat.exists_eq_succ_of_ne_zero (Nat.ne_of_gt (Nat.zero_lt_of_lt hn))
      obtain ⟨hne, hwf⟩ := hss es List.mem_cons_self
      have hlines : stanzaLines (es :: ss) = es.flatMap Entry.lines ++ [] :: stanzaLines ss := by
        simp [stanzaLines]
      obtain ⟨e, es', rfl⟩ := List.exists_cons_of_ne_nil hne
      rw [hlines, stanzas, stanzaFrom_entries hwf]
      show _ :: stanzas n (stanzaLines ss) = _
      rw [ih (fun es' h => hss es' (List.mem_cons_of_mem _ h)) (Nat.lt_of_succ_lt_succ hn)]
      rfl

theorem parseFile_entries {ss : List (List Entry)}
    (hss : ∀ es ∈ ss, es ≠ [] ∧ ∀ e ∈ es, e.WellFormed)
    (hl : ∀ es ∈ ss, ∀ e ∈ es, ∀ l ∈ e.lines, '\n' ∉ l) :
    parseFile (unlines '\n' (stanzaLines ss)) = ss.map (List.map Entry.parsed) := by
  have hlines : ∀ l ∈ stanzaLines ss, '\n' ∉ l := by
    intro l hmem
    obtain ⟨es, hes, hmem⟩ := List.mem_flatMap.mp hmem
    rcases List.mem_append.mp hmem with hmem | hmem
    · obtain ⟨e, he, hmem⟩ := List.mem_flatMap.mp hmem
      exact hl es hes e he l hmem
    · rw [List.mem_singleton.mp hmem]
      simp
  unfold parseFile
  rw [fileLines_unlines hlines]
  refine stanzas_entries hss ?_
  have : ss.length ≤ (stanzaLines ss).length := by
    unfold stanzaLines
    rw [List.length_flatMap]
    clear hss hl hlines
    induction ss with
    | nil => exact Nat.le_refl _
    | cons es ss ih =>
        rw [List.map_cons, List.sum_cons, List.length_append, List.length_cons]
        exact Nat.add_comm _ 1 ▸ Nat.add_le_add (Nat.le_add_left _ _) ih
  omega

end DebianInstaller.Debconf
