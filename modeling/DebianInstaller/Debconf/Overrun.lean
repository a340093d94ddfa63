import DebianInstaller.Debconf.PhysicalLines
import DebianInstaller.Lib.Spans

/-!
# Past the end of a string

`rfc822_parse_stanza` writes a `NUL` over the colon of a line and goes on behind it, and it
does so, too, where there is no colon and the loop has stopped at the end of the line.
`parse_variables` does the same at the equals sign. So both are run here with pointers that
know the end of their string, and a run is broken off where it reads or writes behind it.

What the end of a line is can be said in two ways. `CHOMP` has put a `NUL` over the newline,
and that is the end of the string; the `NUL` that `fgets` has put behind the newline is
still there. A line without a colon leaves the string, but it leaves what `fgets` has
stored only if it has no newline either, as the last line of a file.
-/

namespace DebianInstaller.Debconf

open Text Lib

variable {a file l s t : Text} {d : Char} {n : Nat} {α : Type}

variable {b rest : Text} {g grown : Nat} {β : Type}

/-- Why a run does not come to its end. -/
inductive Fault where
  /-- An access behind the end of the string. -/
  | beyond
  | unfinished
  deriving DecidableEq

variable {x : Except Fault α}

/-- An access that has to be within the string. -/
def within {α : Type} : Option α → Except Fault α
  | none => .error .beyond
  | some a => .ok a

/-! ## Lines in the buffer -/

/-- `buflen`, after the buffer has grown so many times. -/
def bufLen (grown : Nat) : Nat := 8192 * (grown + 1)

/-- The loop that reads on behind what is in the buffer, as long as no newline ends it, for
a number of rounds. Of a string without a character it would read the last one. -/
def growLine : Nat → Nat → Text → Text → Text × Text × Nat
  | 0, grown, buf, rest => (buf, rest, grown)
  | n + 1, grown, buf, rest =>
      if cString buf = [] ∨ (cString buf).getLast? = some '\n' then (buf, rest, grown)
      else if rest = [] then (buf, [], grown + 1)
      else
        let r := fgetsFile (bufLen (grown + 1) - (cString buf).length - 1) rest
        growLine n (grown + 1) (cString buf ++ r.1) r.2

/-- What has been stored of a line, what is left of the file, and how often the buffer has
grown. -/
def readBuffer (grown : Nat) (file : Text) : Text × Text × Nat :=
  growLine file.length grown (fgetsFile (bufLen grown - 1) file).1
    (fgetsFile (bufLen grown - 1) file).2

/-- The buffer after `CHOMP`, up to the `NUL` that `fgets` has stored. -/
def lineMemory (buf : Text) : Text :=
  if (cString buf).getLast? = some '\n' then
    (buf ++ ['\x00']).set ((cString buf).length - 1) '\x00'
  else buf ++ ['\x00']

/-- Which `NUL` is the end of a line: the first one, or the one that `fgets` has stored. -/
inductive Terminator where
  | ofString
  | ofFgets
  deriving DecidableEq

/-- What stands up to that end. -/
def Terminator.span : Terminator → Text → Text
  | .ofString, mem => cString mem ++ ['\x00']
  | .ofFgets, mem => mem

/-! ## The parser -/

/-- A delimiter is looked for up to the end of the string. -/
def stopsAt (d c : Char) : Bool := c == '\x00' || c == d

/-- The branch of a line with the name of a field. -/
def headerWithin (tmp : Text) : Option Header :=
  (scan (stopsAt ':') tmp).bind fun colon =>
    ((scan (fun c => !isSpace c) colon.tail).bind (readString '\x00')).map fun value =>
      { header := tmp.takeWhile (!stopsAt ':' ·), value := unescapestr value }

/-- `rfc822_parse_stanza` from the field `cur` on, for a number of lines: the fields, what is
left of the file and how often the buffer has grown. The newline that is looked for at the
end of a string without characters stands at the index `SIZE_MAX`. -/
def stanzaWithin (t : Terminator) :
    Nat → Nat → Option Header → Text → Except Fault (List Header × Text × Nat)
  | 0, _, _, _ => .error .unfinished
  | n + 1, grown, cur, file =>
      if file = [] then .ok (cur.toList, [], grown)
      else
        let g := readBuffer grown file
        if g.1.head? = some '\n' then .ok (cur.toList, g.2)
        else if cString g.1 = [] then .error .beyond
        else
          let tmp := t.span (lineMemory g.1)
          if tmp.head?.any isSpace then
            match cur with
            | none => .ok ([], g.2)
            | some h => do
                let more ← within (readString '\x00' tmp)
                stanzaWithin t n g.2.2 (some { h with value := h.value ++ '\n' :: more }) g.2.1
          else do
            let h ← within (headerWithin tmp)
            let r ← stanzaWithin t n g.2.2 (some h) g.2.1
            .ok (cur.toList ++ r.1, r.2)

/-- The loop of `parse_variables`, for a number of rounds. -/
def variablesWithin : Nat → Text → Except Fault (List (Text × Text))
  | 0, _ => .error .unfinished
  | n + 1, wc => do
      let c ← within wc.head?
      if c = '\x00' then .ok []
      else do
        let eq ← within (scan (stopsAt '=') wc)
        let nl ← within (scan (stopsAt '\n') eq.tail)
        let pair := (strstrip (wc.takeWhile (!stopsAt '=' ·)),
          strstrip (eq.tail.takeWhile (!stopsAt '\n' ·)))
        if eq.head? = some '\x00' ∨ nl.head? = some '\x00' then .ok [pair]
        else do
          let wc ← within (scan (fun c => !isBlank c) nl.tail)
          let rest ← variablesWithin n wc
          .ok (pair :: rest)

/-- `parse_variables` with the copy that `strdup` makes of its string. -/
def parseVariablesWithin (n : Nat) (string : Text) : Except Fault (List (Text × Text)) :=
  variablesWithin n (cString string ++ ['\x00'])

/-! ## What has to stand in a file and in a value -/

/-- The lines of a file as they are stored one after the other, for a number of lines. -/
def storedLines : Nat → Nat → Text → List Text
  | 0, _, _ => []
  | n + 1, grown, file =>
      if file = [] then []
      else
        let g := readBuffer grown file
        g.1 :: storedLines n g.2.2 g.2.1

/-- The lines of the first stanza: none if the first one goes on with nothing. -/
def stanzaLinesStored (file : Text) (grown : Nat) : List Text :=
  let lines := storedLines (file.length + 1) grown file
  if lines.head?.any fun l => l.head?.any isSpace then []
  else lines.takeWhile fun l => l.head? ≠ some '\n'

/-- A line does not begin with a `NUL`, and it goes on with the line before it or has a colon.
Without one it leaves the string, and what is stored if there is no other `NUL` behind. -/
def LineStays (t : Terminator) (l : Text) : Prop :=
  l.head? ≠ some '\x00' ∧
    (l.head?.any isSpace = true ∨ ':' ∈ cString l ∨
      t = .ofFgets ∧ ((cString l).getLast? = some '\n' ∨ '\x00' ∈ l))

/-- A block of variables without a character, or one where only blanks stand on the lines
behind that of the last equals sign. -/
def VariablesStay (v : Text) : Prop :=
  v = [] ∨ '=' ∈ v ∧
    ∀ c ∈ ((v.rtakeWhile (· ≠ '=')).dropWhile (· ≠ '\n')).tail, isBlank c = true

/-! ## Reading lines -/

theorem map_ok_iff (f : α → β) (x : Except Fault α) : (∃ b, x.map f = .ok b) ↔ ∃ a, x = .ok a := by
  cases x with
  | error e => exact iff_of_false (fun ⟨_, h⟩ => nomatch h) fun ⟨_, h⟩ => nomatch h
  | ok a => exact iff_of_true ⟨f a, rfl⟩ ⟨a, rfl⟩

theorem cString_eq_nil_iff (hl : l ≠ []) : cString l = [] ↔ l.head? = some '\x00' := by
  obtain ⟨c, l, rfl⟩ := List.exists_cons_of_ne_nil hl
  unfold cString
  rw [List.takeWhile_cons, List.head?_cons, Option.some.injEq]
  by_cases hc : c = '\x00' <;> simp [hc]

theorem head?_cString (h : cString l ≠ []) : (cString l).head? = l.head? := by
  unfold cString at h ⊢
  cases l with
  | nil => rfl
  | cons c l =>
      rw [List.takeWhile_cons] at h ⊢
      split
      · rfl
      · next hc =>
          rw [if_neg hc] at h
          exact absurd rfl h

theorem growLine_head (n grown : Nat) (buf rest : Text) :
    (growLine n grown buf rest).1.head? = buf.head? := by
  induction n generalizing grown buf rest with
  | zero => rfl
  | succ n ih =>
      unfold growLine
      split
      · rfl
      · next h =>
          rw [not_or] at h
          split
          · rfl
          · dsimp only
            rw [ih, List.head?_append_of_ne_nil _ h.1, head?_cString h.1]

theorem length_fgetsFile_lt (hn : 0 < n) (ht : t ≠ []) : (fgetsFile n t).2.length < t.length := by
  rw [fgetsFile_eq_piece]
  exact length_rest_lt '\n' hn ht

theorem growLine_rest_le (n grown : Nat) (buf rest : Text) :
    (growLine n grown buf rest).2.1.length ≤ rest.length := by
  induction n generalizing grown buf rest with
  | zero => exact Nat.le_refl _
  | succ n ih =>
      unfold growLine
      split
      · exact Nat.le_refl _
      · split
        · exact Nat.zero_le _
        · exact (ih _ _ _).trans (fgetsFile_length_le _ _)

theorem bufLen_pos (grown : Nat) : 0 < bufLen grown - 1 := by
  unfold bufLen
  omega

theorem fgetsFile_head (hn : 0 < n) : (fgetsFile n t).1.head? = t.head? := by
  obtain ⟨n, rfl⟩ := Nat.exists_eq_succ_of_ne_zero (Nat.ne_of_gt hn)
  cases t with
  | nil => rfl
  | cons c t =>
      rw [fgetsFile]
      split <;> rfl

theorem readBuffer_spec (grown : Nat) (hfile : file ≠ []) :
    (readBuffer grown file).1.head? = file.head? ∧
      (readBuffer grown file).2.1.length < file.length :=
  ⟨(growLine_head _ _ _ _).trans (fgetsFile_head (bufLen_pos grown)),
    (growLine_rest_le _ _ _ _).trans_lt (length_fgetsFile_lt (bufLen_pos grown) hfile)⟩

theorem readBuffer_ne_nil (grown : Nat) (hfile : file ≠ []) : (readBuffer grown file).1 ≠ [] := by
  intro hnil
  have hhead := (readBuffer_spec grown hfile).1
  rw [hnil] at hhead
  exact hfile (List.head?_eq_none_iff.mp hhead.symm)

/-! ## The memory of a line -/

theorem cString_append (hs : '\x00' ∉ s) (x : Text) : cString (s ++ '\x00' :: x) = s := by
  have hne : ∀ c ∈ s, (c != '\x00') = true := by
    intro c hc
    rw [bne_iff_ne]
    rintro rfl
    exact hs hc
  unfold cString
  rw [List.takeWhile_append_of_pos hne]
  exact List.append_nil s

theorem stored_cases (buf : Text) : '\x00' ∉ buf ∧ cString buf = buf ∨
    ∃ s x, buf = s ++ '\x00' :: x ∧ '\x00' ∉ s ∧ cString buf = s := by
  by_cases h : '\x00' ∈ buf
  · obtain ⟨s, x, rfl, hs⟩ := List.eq_append_cons_of_mem h
    exact .inr ⟨s, x, rfl, hs, cString_append hs x⟩
  · exact .inl ⟨h, cString_eq h⟩

theorem set_newline (b x : Text) :
    (b ++ '\n' :: x).set ((b ++ ['\n']).length - 1) '\x00' = b ++ '\x00' :: x := by
  rw [List.length_append, List.length_singleton, Nat.add_sub_cancel,
    List.set_append_right _ _ le_rfl, Nat.sub_self, List.set_cons_zero]

theorem lineMemory_shape (buf : Text) : ∃ more, '\x00' ∉ chomp (cString buf) ∧
    lineMemory buf = chomp (cString buf) ++ '\x00' :: more ∧
    ('\x00' ∈ more ↔ (cString buf).getLast? = some '\n' ∨ '\x00' ∈ buf) ∧
    ('\x00' ∉ buf → more = [] ∨ more = ['\x00']) := by
  have hnul := nul_not_mem_cString buf
  unfold lineMemory chomp
  by_cases hlast : (cString buf).getLast? = some '\n'
  · obtain ⟨b, hb⟩ := List.getLast?_eq_some_iff.mp hlast
    obtain ⟨x, hx⟩ : ∃ x, buf = cString buf ++ x := ⟨_, List.takeWhile_append_dropWhile.symm⟩
    have hmem : buf ++ ['\x00'] = b ++ '\n' :: (x ++ ['\x00']) := by
      rw [hx, hb]
      simp
    rw [if_pos hlast, if_pos hlast]
    refine ⟨x ++ ['\x00'], fun h => hnul (List.dropLast_subset _ h), ?_,
      iff_of_true (by simp) (.inl hlast), fun hno => ?_⟩
    · rw [hmem, hb, set_newline, List.dropLast_concat]
    · rw [cString_eq hno, List.self_eq_append_right] at hx
      rw [hx]
      exact .inr rfl
  · rw [if_neg hlast, if_neg hlast]
    rcases stored_cases buf with ⟨hno, hs⟩ | ⟨s, x, hbuf, -, hs⟩
    · refine ⟨[], hnul, by rw [hs], iff_of_false List.not_mem_nil ?_, fun _ => .inl rfl⟩
      exact not_or.mpr ⟨hlast, hno⟩
    · have hmem : '\x00' ∈ buf := by
        rw [hbuf]
        simp
      refine ⟨x ++ ['\x00'], hnul, ?_, iff_of_true (by simp) (.inr hmem), absurd hmem⟩
      rw [hs, hbuf]
      simp

theorem chomp_eq_nil_iff (s : Text) : chomp s = [] ↔ s = [] ∨ s = ['\n'] := by
  unfold chomp
  split
  · next h =>
      obtain ⟨b, rfl⟩ := List.getLast?_eq_some_iff.mp h
      rw [List.dropLast_concat]
      simp
  · next h =>
      refine ⟨.inl, fun hs => hs.resolve_right fun he => h ?_⟩
      rw [he]
      rfl

theorem span_shape (t : Terminator) (buf : Text) : ∃ more, '\x00' ∉ chomp (cString buf) ∧
    t.span (lineMemory buf) = chomp (cString buf) ++ '\x00' :: more ∧
    ('\x00' ∈ more ↔ t = .ofFgets ∧ ((cString buf).getLast? = some '\n' ∨ '\x00' ∈ buf)) ∧
    ('\x00' ∉ buf → more = [] ∨ more = ['\x00']) := by
  obtain ⟨more, hnul, hmem, hmore, htail⟩ := lineMemory_shape buf
  cases t with
  | ofString =>
      refine ⟨[], hnul, ?_, iff_of_false List.not_mem_nil (fun h => nomatch h.1), fun _ => .inl rfl⟩
      show cString (lineMemory buf) ++ ['\x00'] = _
      rw [hmem, cString_append hnul]
  | ofFgets => exact ⟨more, hnul, hmem, hmore.trans (and_iff_right rfl).symm, htail⟩

/-! ## One line -/

theorem colon_mem_chomp (s : Text) : ':' ∈ chomp s ↔ ':' ∈ s := by
  unfold chomp
  split
  · next h =>
      obtain ⟨b, rfl⟩ := List.getLast?_eq_some_iff.mp h
      rw [List.dropLast_concat]
      simp
  · exact Iff.rfl

theorem stopsAt_eq_false (hnul : '\x00' ∉ s) (hd : d ∉ s) : ∀ c ∈ s, stopsAt d c = false := by
  intro c hc
  unfold stopsAt
  rw [Bool.or_eq_false_iff, beq_eq_false_iff_ne, beq_eq_false_iff_ne]
  exact ⟨fun he => hnul (he ▸ hc), fun he => hd (he ▸ hc)⟩

theorem stopsAt_self (d : Char) : stopsAt d d = true := by
  unfold stopsAt
  rw [beq_self_eq_true, Bool.or_true]

theorem scan_delimiter (hnul : '\x00' ∉ a) (hd : d ∉ a) (m : Text) :
    scan (stopsAt d) (a ++ d :: m) = some (d :: m) := by
  rw [scan_append (stopsAt_eq_false hnul hd), scan_stop (stopsAt_self d)]

theorem scan_end (hnul : '\x00' ∉ s) (hd : d ∉ s) (m : Text) :
    scan (stopsAt d) (s ++ '\x00' :: m) = some ('\x00' :: m) := by
  rw [scan_append (stopsAt_eq_false hnul hd), scan_stop rfl]

theorem takeWhile_delimiter {c : Char} (hnul : '\x00' ∉ a) (hd : d ∉ a) (hc : stopsAt d c = true)
    (m : Text) : (a ++ c :: m).takeWhile (!stopsAt d ·) = a := by
  have hgo : ∀ e ∈ a, (!stopsAt d e) = true := by
    intro e he
    rw [stopsAt_eq_false hnul hd e he]
    rfl
  rw [List.takeWhile_append_of_pos hgo, List.takeWhile_cons, hc]
  exact List.append_nil a

theorem headerWithin_isSome {tmp colon : Text} (h : scan (stopsAt ':') tmp = some colon) :
    (headerWithin tmp).isSome ↔ '\x00' ∈ colon.tail := by
  unfold headerWithin
  rw [h, Option.bind_some, Option.isSome_map]
  exact scan_readString_isSome_iff (by rfl) _

/-- The branch of a header stays inside if there is a colon, or else another `NUL` behind the
one where the loop has stopped. -/
theorem headerWithin_isSome_iff (hs : '\x00' ∉ s) (more : Text) :
    (headerWithin (s ++ '\x00' :: more)).isSome ↔ ':' ∈ s ∨ '\x00' ∈ more := by
  by_cases hcolon : ':' ∈ s
  · obtain ⟨name, value, rfl, hname⟩ := List.eq_append_cons_of_mem hcolon
    have hfound : scan (stopsAt ':') (name ++ ':' :: value ++ '\x00' :: more) =
        some (':' :: (value ++ '\x00' :: more)) := by
      rw [List.append_assoc, List.cons_append]
      exact scan_delimiter (fun h => hs (List.mem_append_left _ h)) hname _
    refine iff_of_true ((headerWithin_isSome hfound).mpr ?_) (.inl hcolon)
    exact List.mem_append_right _ List.mem_cons_self
  · rw [headerWithin_isSome (scan_end hs hcolon more)]
    exact (or_iff_right hcolon).symm

theorem headerWithin_span_iff (t : Terminator) (buf : Text) :
    (headerWithin (t.span (lineMemory buf))).isSome ↔ ':' ∈ cString buf ∨
      t = .ofFgets ∧ ((cString buf).getLast? = some '\n' ∨ '\x00' ∈ buf) := by
  obtain ⟨more, hnul, hspan, hmore, -⟩ := span_shape t buf
  rw [hspan, headerWithin_isSome_iff hnul, colon_mem_chomp, hmore]

theorem readString_span (t : Terminator) (buf : Text) :
    readString '\x00' (t.span (lineMemory buf)) = some (chomp (cString buf)) := by
  obtain ⟨more, hnul, hspan, -, -⟩ := span_shape t buf
  rw [hspan, readString_append hnul]

theorem span_head (t : Terminator) {buf : Text} (hne : cString buf ≠ [])
    (hnl : buf.head? ≠ some '\n') : (t.span (lineMemory buf)).head? = buf.head? := by
  obtain ⟨more, -, hspan, -, -⟩ := span_shape t buf
  have hhead := head?_cString hne
  have hchomp : chomp (cString buf) ≠ [] := by
    rw [Ne, chomp_eq_nil_iff]
    rintro (h | h)
    · exact hne h
    · rw [h] at hhead
      exact hnl hhead.symm
  rw [hspan, List.head?_append_of_ne_nil _ hchomp, ← hhead]
  unfold chomp at hchomp ⊢
  split
  · next h =>
      rw [if_pos h] at hchomp
      obtain ⟨b, hb⟩ := List.getLast?_eq_some_iff.mp h
      rw [hb, List.dropLast_concat] at hchomp ⊢
      exact (List.head?_append_of_ne_nil _ hchomp).symm
  · rfl

/-! ## A stanza -/

theorem stanzaWithin_line (t : Terminator) (n : Nat) (cur : Option Header) (hfile : file ≠ [])
    (hg : readBuffer grown file = (l, rest, g)) (hnl : l.head? ≠ some '\n') :
    stanzaWithin t (n + 1) grown cur file =
      if l.head? = some '\x00' then .error .beyond
      else if l.head?.any isSpace then
        match cur with
        | none => .ok ([], rest, g)
        | some h =>
            stanzaWithin t n g (some ⟨h.header, h.value ++ '\n' :: chomp (cString l)⟩) rest
      else
        match headerWithin (t.span (lineMemory l)) with
        | none => .error .beyond
        | some h =>
            (stanzaWithin t n g (some h) rest).map fun r => (cur.toList ++ r.1, r.2) := by
  have hl : l ≠ [] := by
    have hne := readBuffer_ne_nil grown hfile
    rw [hg] at hne
    exact hne
  have hempty := cString_eq_nil_iff hl
  rw [stanzaWithin, if_neg hfile, hg]
  dsimp only
  rw [if_neg hnl]
  by_cases hnul : l.head? = some '\x00'
  · rw [if_pos (hempty.mpr hnul), if_pos hnul]
  · have hne := mt hempty.mp hnul
    rw [if_neg hne, if_neg hnul, span_head t hne hnl, readString_span]
    split
    · cases cur <;> rfl
    · cases headerWithin (t.span (lineMemory l)) with
      | none => rfl
      | some h =>
          show Except.bind (stanzaWithin t n g (some h) rest) _ = Except.map _ _
          cases stanzaWithin t n g (some h) rest
          · rfl
          · rfl

theorem stanzaWithin_header_iff (t : Terminator) (n : Nat) (cur : Option Header) (hfile : file ≠ [])
    (hg : readBuffer grown file = (l, rest, g)) (hnl : l.head? ≠ some '\n')
    (hspace : ¬ l.head?.any isSpace = true) {P : Prop}
    (hP : ∀ h, (∃ r, stanzaWithin t n g (some h) rest = .ok r) ↔ P) :
    (∃ r, stanzaWithin t (n + 1) grown cur file = .ok r) ↔ LineStays t l ∧ P := by
  rw [stanzaWithin_line t n _ hfile hg hnl, LineStays, if_neg hspace]
  split
  · next hnul => exact iff_of_false (fun ⟨_, he⟩ => nomatch he) fun hs => hs.1.1 hnul
  · next hnul =>
      have hheader := headerWithin_span_iff t l
      cases hw : headerWithin (t.span (lineMemory l)) with
      | none =>
          rw [hw] at hheader
          refine iff_of_false (fun ⟨_, he⟩ => nomatch he) fun hs => ?_
          exact Bool.false_ne_true (hheader.mpr (hs.1.2.resolve_left hspace))
      | some h =>
          rw [hw] at hheader
          dsimp only
          rw [and_iff_right (And.intro hnul (.inr (hheader.mp rfl))), ← hP h]
          exact map_ok_iff _ _

theorem ne_nul_of_space (h : l.head?.any isSpace = true) : l.head? ≠ some '\x00' := by
  intro hnul
  rw [hnul] at h
  cases h

theorem stanzaWithin_some_iff (t : Terminator) (grown : Nat) (h : Header) (hn : file.length < n) :
    (∃ r, stanzaWithin t n grown (some h) file = .ok r) ↔
      ∀ l ∈ (storedLines n grown file).takeWhile (fun l => l.head? ≠ some '\n'),
        LineStays t l := by
  induction n generalizing grown h file with
  | zero => exact absurd hn (Nat.not_lt_zero _)
  | succ n ih =>
      by_cases hfile : file = []
      · subst hfile
        exact iff_of_true ⟨_, rfl⟩ nofun
      have hless := (readBuffer_spec grown hfile).2
      rcases hg : readBuffer grown file with ⟨l, rest, g⟩
      rw [hg] at hless
      have hrest : rest.length < n := Nat.lt_of_lt_of_le hless (Nat.le_of_lt_succ hn)
      rw [storedLines, if_neg hfile, hg]
      dsimp only
      rw [List.takeWhile_cons]
      by_cases hnl : l.head? = some '\n'
      · rw [if_neg (by simp [hnl]), stanzaWithin, if_neg hfile, hg]
        dsimp only
        rw [if_pos hnl]
        exact iff_of_true ⟨_, rfl⟩ nofun
      · rw [if_pos (decide_eq_true hnl), List.forall_mem_cons]
        by_cases hspace : l.head?.any isSpace = true
        · have hnul := ne_nul_of_space hspace
          rw [stanzaWithin_line t n _ hfile hg hnl, if_neg hnul, if_pos hspace, ih _ _ hrest]
          exact (and_iff_right ⟨hnul, .inl hspace⟩).symm
        · exact stanzaWithin_header_iff t n _ hfile hg hnl hspace fun h' => ih _ h' hrest

theorem stanzaWithin_ok_iff (t : Terminator) (grown : Nat) (file : Text) :
    (∃ r, stanzaWithin t (file.length + 1) grown none file = .ok r) ↔
      ∀ l ∈ stanzaLinesStored file grown, LineStays t l := by
  unfold stanzaLinesStored
  dsimp only
  by_cases hfile : file = []
  · subst hfile
    exact iff_of_true ⟨_, rfl⟩ nofun
  have hrest := (readBuffer_spec grown hfile).2
  rcases hg : readBuffer grown file with ⟨l, rest, g⟩
  rw [hg] at hrest
  rw [storedLines, if_neg hfile, hg]
  dsimp only
  rw [List.head?_cons, Option.any_some]
  by_cases hnl : l.head? = some '\n'
  · rw [if_pos (by rw [hnl]; rfl), stanzaWithin, if_neg hfile, hg]
    dsimp only
    rw [if_pos hnl]
    exact iff_of_true ⟨_, rfl⟩ nofun
  · by_cases hspace : l.head?.any isSpace = true
    · rw [if_pos hspace, stanzaWithin_line t _ none hfile hg hnl,
        if_neg (ne_nul_of_space hspace), if_pos hspace]
      exact iff_of_true ⟨_, rfl⟩ nofun
    · rw [if_neg hspace, List.takeWhile_cons, if_pos (decide_eq_true hnl), List.forall_mem_cons]
      exact stanzaWithin_header_iff t _ none hfile hg hnl hspace fun h =>
        stanzaWithin_some_iff t _ h hrest

theorem map_ne_unfinished (f : α → β) (h : x ≠ .error .unfinished) :
    x.map f ≠ .error .unfinished := by
  cases x with
  | error e => exact fun he => h (congrArg Except.error (Except.error.inj he))
  | ok a => exact nofun

theorem stanzaWithin_ne_unfinished (t : Terminator) (grown : Nat) (cur : Option Header)
    (hn : file.length < n) : stanzaWithin t n grown cur file ≠ .error .unfinished := by
  induction n generalizing grown cur file with
  | zero => exact absurd hn (Nat.not_lt_zero _)
  | succ n ih =>
      by_cases hfile : file = []
      · subst hfile
        exact nofun
      have hless := (readBuffer_spec grown hfile).2
      rcases hg : readBuffer grown file with ⟨l, rest, g⟩
      rw [hg] at hless
      have hrest : rest.length < n := Nat.lt_of_lt_of_le hless (Nat.le_of_lt_succ hn)
      by_cases hnl : l.head? = some '\n'
      · rw [stanzaWithin, if_neg hfile, hg]
        dsimp only
        rw [if_pos hnl]
        exact nofun
      · rw [stanzaWithin_line t n _ hfile hg hnl]
        split
        · exact nofun
        · split
          · cases cur with
            | none => exact nofun
            | some h => exact ih _ _ hrest
          · split
            · exact nofun
            · exact map_ne_unfinished _ (ih _ _ hrest)

/-! ## A block of variables -/

theorem rtakeWhile_last {p q : Text} (hq : '=' ∉ q) :
    (p ++ '=' :: q).rtakeWhile (· ≠ '=') = q := by
  have hne : ∀ c ∈ q.reverse, decide (c ≠ '=') = true := by
    intro c hc
    rw [decide_eq_true_iff]
    rintro rfl
    exact hq (List.mem_reverse.mp hc)
  unfold List.rtakeWhile
  rw [List.reverse_append, List.reverse_cons, List.append_assoc,
    List.takeWhile_append_of_pos hne, List.singleton_append, List.takeWhile_cons,
    if_neg (by simp), List.append_nil, List.reverse_reverse]

theorem exists_last_eq (h : '=' ∈ t) : ∃ p q, t = p ++ '=' :: q ∧ '=' ∉ q := by
  obtain ⟨q, p, hsplit, hq⟩ := List.eq_append_cons_of_mem (List.mem_reverse.mpr h)
  refine ⟨p.reverse, q.reverse, ?_, fun hm => hq (List.mem_reverse.mp hm)⟩
  rw [← List.reverse_reverse t, hsplit]
  simp

theorem exists_last_of_line (hb : '\n' ∉ b) :
    ∃ p q, '=' :: b = p ++ '=' :: q ∧ '=' ∉ q ∧ ∀ c ∈ q, decide (c ≠ '\n') = true := by
  obtain ⟨p, q, hsplit, hq⟩ := exists_last_eq (t := '=' :: b) List.mem_cons_self
  refine ⟨p, q, hsplit, hq, fun c hc => decide_eq_true ?_⟩
  rintro rfl
  have hmem : '\n' ∈ '=' :: b := hsplit ▸ List.mem_append_right _ (List.mem_cons_of_mem _ hc)
  rcases List.mem_cons.mp hmem with h | h
  · cases h
  · exact hb h

theorem variablesStay_last (hb : '\n' ∉ b) : VariablesStay (a ++ '=' :: b) := by
  obtain ⟨p, q, hsplit, hq, hnl⟩ := exists_last_of_line hb
  refine .inr ⟨by simp, ?_⟩
  rw [hsplit, ← List.append_assoc, rtakeWhile_last hq, List.dropWhile_eq_nil_iff.mpr hnl]
  nofun

theorem variablesStay_line {x y : Text} (hx : '\n' ∉ x) :
    VariablesStay (a ++ '=' :: (x ++ '\n' :: y)) ↔ VariablesStay (y.dropWhile isBlank) := by
  have hmem : '=' ∈ a ++ '=' :: (x ++ '\n' :: y) := by simp
  unfold VariablesStay
  rw [or_iff_right (by simp), and_iff_right hmem]
  by_cases hy : '=' ∈ y
  · obtain ⟨p, q, rfl, hq⟩ := exists_last_eq hy
    have hwhole : a ++ '=' :: (x ++ '\n' :: (p ++ '=' :: q)) =
        (a ++ '=' :: (x ++ '\n' :: p)) ++ '=' :: q := by simp
    rw [hwhole, dropWhile_append_cons rfl, rtakeWhile_last hq, rtakeWhile_last hq,
      or_iff_right (by simp), and_iff_right (by simp)]
  · obtain ⟨p, q, hsplit, hq, hnl⟩ := exists_last_of_line hx
    have hwhole : a ++ '=' :: (x ++ '\n' :: y) = (a ++ p) ++ '=' :: (q ++ '\n' :: y) := by
      rw [← List.cons_append, hsplit]
      simp
    have hlast : '=' ∉ q ++ '\n' :: y := by simp [hq, hy]
    have hno : '=' ∉ y.dropWhile isBlank := fun h => hy ((List.dropWhile_suffix _).subset h)
    rw [hwhole, rtakeWhile_last hlast, List.dropWhile_append_of_pos hnl, List.dropWhile_cons,
      if_neg (by simp), List.tail_cons, ← List.dropWhile_eq_nil_iff]
    exact ⟨.inl, fun h => h.resolve_right fun h => hno h.1⟩

theorem not_variablesStay (ht : t ≠ []) (h : '=' ∉ t) : ¬ VariablesStay t :=
  not_or.mpr ⟨ht, fun hs => h hs.1⟩

theorem variablesWithin_char (n : Nat) (ht : t ≠ []) (hnul : '\x00' ∉ t) {eq : Text}
    (heq : scan (stopsAt '=') (t ++ ['\x00']) = some eq) :
    variablesWithin (n + 1) (t ++ ['\x00']) =
      match scan (stopsAt '\n') eq.tail with
      | none => .error .beyond
      | some nl =>
          let pair := (strstrip ((t ++ ['\x00']).takeWhile (!stopsAt '=' ·)),
            strstrip (eq.tail.takeWhile (!stopsAt '\n' ·)))
          if eq.head? = some '\x00' ∨ nl.head? = some '\x00' then .ok [pair]
          else
            match scan (fun c => !isBlank c) nl.tail with
            | none => .error .beyond
            | some wc => (variablesWithin n wc).map (pair :: ·) := by
  obtain ⟨c, t, rfl⟩ := List.exists_cons_of_ne_nil ht
  have hc : c ≠ '\x00' := fun he => hnul (he ▸ List.mem_cons_self)
  rw [variablesWithin]
  show (if c = '\x00' then _ else _) = _
  rw [if_neg hc, heq]
  show (within (scan (stopsAt '\n') eq.tail)).bind _ = _
  cases scan (stopsAt '\n') eq.tail with
  | none => rfl
  | some nl =>
      show (if eq.head? = some '\x00' ∨ nl.head? = some '\x00' then _ else _) = _
      dsimp only
      split
      · rfl
      · show (within (scan (fun c => !isBlank c) nl.tail)).bind _ = _
        cases scan (fun c => !isBlank c) nl.tail with
        | none => rfl
        | some wc =>
            show Except.bind (variablesWithin n wc) _ = Except.map _ _
            cases variablesWithin n wc
            · rfl
            · rfl

/-- How a round goes on: it passes the end where there is no equals sign, it ends with the
last line, or it goes to the next one. -/
theorem variablesWithin_cases (n : Nat) (ht : t ≠ []) (hnul : '\x00' ∉ t) :
    '=' ∉ t ∧ variablesWithin (n + 1) (t ++ ['\x00']) = .error .beyond ∨
    (∃ a b, t = a ++ '=' :: b ∧ '=' ∉ a ∧ '\n' ∉ b ∧
      variablesWithin (n + 1) (t ++ ['\x00']) = .ok [(strstrip a, strstrip b)]) ∨
    ∃ a x y, t = a ++ '=' :: (x ++ '\n' :: y) ∧ '=' ∉ a ∧ '\n' ∉ x ∧
      variablesWithin (n + 1) (t ++ ['\x00']) =
        (variablesWithin n (y.dropWhile isBlank ++ ['\x00'])).map
          ((strstrip a, strstrip x) :: ·) := by
  by_cases heq : '=' ∈ t
  · obtain ⟨a, b, rfl, ha⟩ := List.eq_append_cons_of_mem heq
    have hnula : '\x00' ∉ a := fun h => hnul (List.mem_append_left _ h)
    have hnulb : '\x00' ∉ b := fun h => hnul (List.mem_append_right _ (List.mem_cons_of_mem _ h))
    have hsplit : a ++ '=' :: b ++ ['\x00'] = a ++ '=' :: (b ++ ['\x00']) := by simp
    have hfound : scan (stopsAt '=') (a ++ '=' :: b ++ ['\x00']) =
        some ('=' :: (b ++ ['\x00'])) := by
      rw [hsplit]
      exact scan_delimiter hnula ha _
    refine .inr ?_
    rw [variablesWithin_char n ht hnul hfound, List.tail_cons, hsplit,
      takeWhile_delimiter hnula ha (stopsAt_self '=')]
    by_cases hnl : '\n' ∈ b
    · obtain ⟨x, y, rfl, hx⟩ := List.eq_append_cons_of_mem hnl
      have hnulx : '\x00' ∉ x := fun h => hnulb (List.mem_append_left _ h)
      have hskip : scan (fun c => !isBlank c) (y ++ ['\x00']) =
          some (y.dropWhile isBlank ++ ['\x00']) := by
        rw [scan_eq ⟨'\x00', by simp, rfl⟩]
        simp only [Bool.not_not]
        exact congrArg some (dropWhile_append_cons rfl y [])
      have hline : x ++ '\n' :: y ++ ['\x00'] = x ++ '\n' :: (y ++ ['\x00']) := by simp
      refine .inr ⟨a, x, y, rfl, ha, hx, ?_⟩
      rw [hline, scan_delimiter hnulx hx, takeWhile_delimiter hnulx hx (stopsAt_self '\n')]
      dsimp only
      rw [List.tail_cons, hskip, if_neg (by simp)]
    · refine .inl ⟨a, b, rfl, ha, hnl, ?_⟩
      rw [scan_end hnulb hnl, takeWhile_delimiter hnulb hnl rfl]
      exact if_pos (.inr rfl)
  · refine .inl ⟨heq, ?_⟩
    rw [variablesWithin_char n ht hnul (scan_end hnul heq [])]
    rfl

/-- The loop passes the end of the string exactly if the block is not well-formed, whatever it
finds, and it comes to its end. -/
theorem variablesWithin_spec (hnul : '\x00' ∉ t) (hn : t.length < n) :
    ((∃ ps, variablesWithin n (t ++ ['\x00']) = .ok ps) ↔ VariablesStay t) ∧
      variablesWithin n (t ++ ['\x00']) ≠ .error .unfinished := by
  induction n generalizing t with
  | zero => exact absurd hn (Nat.not_lt_zero _)
  | succ n ih =>
      by_cases ht : t = []
      · subst ht
        exact ⟨iff_of_true ⟨_, rfl⟩ (.inl rfl), nofun⟩
      rcases variablesWithin_cases n ht hnul with ⟨heq, hrun⟩ | ⟨a, b, rfl, ha, hb, hrun⟩ |
          ⟨a, x, y, rfl, ha, hx, hrun⟩
      · rw [hrun]
        exact ⟨iff_of_false (fun ⟨_, h⟩ => nomatch h) (not_variablesStay ht heq), nofun⟩
      · rw [hrun]
        exact ⟨iff_of_true ⟨_, rfl⟩ (variablesStay_last hb), nofun⟩
      · have hsuf := List.dropWhile_suffix isBlank (l := y)
        have hnuly : '\x00' ∉ y.dropWhile isBlank := fun h => hnul (by
          have hmem := hsuf.subset h
          simp [hmem])
        have hlen := hsuf.length_le
        simp only [List.length_append, List.length_cons] at hn
        obtain ⟨hok, hend⟩ := ih hnuly (by omega)
        rw [hrun, variablesStay_line hx, ← hok]
        exact ⟨map_ok_iff _ _, map_ne_unfinished _ hend⟩

/-! ## Staying within the strings -/

theorem ne_beyond_iff (hx : x ≠ .error .unfinished) : x ≠ .error .beyond ↔ ∃ a, x = .ok a := by
  cases x with
  | error e =>
      cases e with
      | beyond => exact iff_of_false (fun h => h rfl) fun ⟨_, h⟩ => nomatch h
      | unfinished => exact absurd rfl hx
  | ok a => exact iff_of_true nofun ⟨a, rfl⟩

/-- Both functions stay within their strings exactly if the lines and the block do, and the
loop over the variables ends. -/
theorem parsers_stay_iff (t : Terminator) (grown : Nat) (file v : Text) :
    (stanzaWithin t (file.length + 1) grown none file ≠ .error .beyond ↔
      ∀ l ∈ stanzaLinesStored file grown, LineStays t l) ∧
    (parseVariablesWithin (v.length + 1) v ≠ .error .beyond ↔ VariablesStay (cString v)) ∧
    parseVariablesWithin (v.length + 1) v ≠ .error .unfinished := by
  obtain ⟨hok, hended⟩ := variablesWithin_spec (n := v.length + 1) (nul_not_mem_cString v)
    (Nat.lt_succ_of_le (List.takeWhile_prefix _).length_le)
  refine ⟨?_, ?_, hended⟩
  · rw [← stanzaWithin_ok_iff]
    exact ne_beyond_iff (stanzaWithin_ne_unfinished t grown none (Nat.lt_succ_self _))
  · rw [← hok]
    exact ne_beyond_iff hended

/-- The last line of a file without a colon and without a newline, and a variable of a file
without an equals sign. -/
theorem parsers_leave :
    (∀ t, stanzaWithin t 10 0 none "Name: a\nb" = .error .beyond) ∧
      headerLookup (stanzaFrom none (fileLines "Name: a\nVariables: x\n")).1
        "variables" = some "x".toList ∧
      parseVariablesWithin 2 "x" = .error .beyond := by
  refine ⟨fun t => ?_, by decide, by decide⟩
  cases t
  · decide
  · decide

end DebianInstaller.Debconf
