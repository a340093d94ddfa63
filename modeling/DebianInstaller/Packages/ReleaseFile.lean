import DebianInstaller.Packages.ParserLines
import DebianInstaller.Packages.Listed
import Mathlib.Data.List.Find

/-!
# The files of a Release file

`release.c`. `di_release_parser_read_file` goes through the lines of its value with `memchr`, but
reads each with `sscanf`, from where the line begins to the end of the memory: white space in
the format matches newlines too, so a line with too few words goes on with those of the next
one, and the last with what is behind the field. The line behind the colon is as a rule empty,
and the first file is read twice.

A name is cut at 128 bytes, a size at 32 bits, and the table does not tell upper from lower
case. So what the table has for a name is under the first of the names that are the same to it,
with the sum and the size of the last.
-/

namespace DebianInstaller.Packages

open Lib

variable {name : RString}

/-! ## The code -/

/-- `struct di_release_file`. -/
structure ReleaseFile where
  filename : RString
  size : ℕ := 0
  sum : Fin 2 → Option Text := fun _ => none

/-- What `sscanf` finds in a line. -/
structure Scanned where
  sum : Text
  size : ℕ
  filename : RString

variable {as : List (Fin 2 × Scanned)}

def nonSpace (c : Char) : Bool := !Text.isSpace c

/-- `%zu`, and what is behind it. -/
def scanSize (t : Text) : Option (ℕ × Text) :=
  let t := t.dropWhile Text.isSpace
  let negative := t.head? = some '-'
  let t := if negative ∨ t.head? = some '+' then t.tail else t
  let digits := t.takeWhile Char.isDigit
  let n := Text.number digits
  if digits = [] then none
  else if 2 ^ 64 ≤ n then some (2 ^ 64 - 1, t.dropWhile Char.isDigit)
  else if negative then some ((2 ^ 64 - n) % 2 ^ 64, t.dropWhile Char.isDigit)
  else some (n, t.dropWhile Char.isDigit)

/-- `sscanf (begin, "%ms %zu %128s", ..)`, if it finds all three. -/
def scanLine (mem : Text) : Option Scanned :=
  let t := (mem.takeWhile (· ≠ '\x00')).dropWhile Text.isSpace
  let sum := t.takeWhile nonSpace
  if sum = [] then none
  else
    match scanSize (t.dropWhile nonSpace) with
    | none => none
    | some (size, t) =>
        let filename := ((t.dropWhile Text.isSpace).takeWhile nonSpace).take 128
        if filename = [] then none else some ⟨sum, size, cstring filename⟩

/-- `struct di_release`: the files in memory, and the table of them. -/
structure Release where
  files : List ReleaseFile := []
  table : HashTable RString ℕ := diHashTableNew

namespace Release

/-- `file->size` and one of `file->sum` are set. -/
def setSum (integer : Fin 2) (s : Scanned) (file : ReleaseFile) : ReleaseFile :=
  { file with
    size := s.size % 2 ^ 32
    sum := Function.update file.sum integer (some s.sum) }

/-- The file of a name, which is there or is made. -/
def assign (integer : Fin 2) (s : Scanned) (r : Release) : Release :=
  match diHashTableLookup rstringKeys r.table s.filename with
  | some i => { r with files := r.files.modify i (setSum integer s) }
  | none =>
      { files := r.files ++ [setSum integer s { filename := s.filename }]
        table := diHashTableInsert rstringKeys r.table s.filename (some r.files.length) }

/-- What is done at the beginning of a line. -/
def readLine (integer : Fin 2) (r : Release) (mem : Text) : Release :=
  match scanLine mem with
  | some s => r.assign integer s
  | none => r

/-- The loop of `di_release_parser_read_file`, from `begin`. -/
def readFileLoop (integer : Fin 2) : ℕ → Text → ℕ → Release → Option Release
  | 0, _, _, _ => none
  | rounds + 1, mem, left, r =>
      match memchr '\n' left mem with
      | none => none
      | some next =>
          let r := r.readLine integer mem
          let next := next.getD left + 1
          if left ≤ next then some r
          else readFileLoop integer rounds (mem.drop next) (left - next) r

/-- `di_release_parser_read_file`, with the memory behind the value. -/
def parserReadFile (integer : Fin 2) (r : Release) (value behind : Text) : Option Release :=
  readFileLoop integer (value.length + 1) (value ++ behind) value.length r

/-- The file that the table has for a name. -/
def lookup (r : Release) (name : RString) : Option ReleaseFile :=
  (diHashTableLookup rstringKeys r.table name).bind fun i => r.files[i]?

end Release

/-! ## Blocks -/

instance (c : Text) : Decidable (Continues c) :=
  inferInstanceAs (Decidable (startsBlank c = true ∧ '\n' ∉ c))

/-- A value as the parser passes it on: what is behind the colon, and lines that begin with a
blank. -/
structure Block where
  first : Text
  lines : List Text
  first_line : '\n' ∉ first
  continues : ∀ l ∈ lines, Continues l
  noNul : ∀ l ∈ first :: lines, '\x00' ∉ l

/-- A line with a sum, a size and a name. -/
structure FileLine where
  sum : Text
  size : ℕ
  name : RString

variable {b : Block} {e : FileLine}

def fileLine (l : Text) : Option FileLine :=
  match Text.words l with
  | [sum, size, name] =>
      if Text.isNumber size then some ⟨sum, Text.number size, cstring name⟩ else none
  | _ => none

/-- The lines of a value, with all the memory from where they begin. -/
def places (behind : Text) : Text → List Text → List Text
  | l, [] => [l ++ behind]
  | l, c :: cs => (l ++ body (c :: cs) ++ behind) :: places behind c cs

namespace Block

def value (b : Block) : Text := b.first ++ body b.lines

/-- What `sscanf` finds. -/
def scanned (b : Block) (behind : Text) : List Scanned :=
  (places behind b.first b.lines).filterMap scanLine

def fileLines (b : Block) : List FileLine := (b.first :: b.lines).filterMap fileLine

/-- The line of a name, or the last of them. -/
def ownLine (b : Block) (name : RString) : Option FileLine :=
  b.fileLines.reverse.find? fun e => e.name.string = name.string

end Block

/-! ## The loop over the lines -/

theorem length_body_cons (c : Text) (cs : List Text) :
    (body (c :: cs)).length = 1 + (c ++ body cs).length := by
  rw [body_cons, List.length_cons]
  omega

theorem readFileLoop_eq (integer : Fin 2) {l : Text} {cs : List Text} (hl : '\n' ∉ l)
    (hcs : ∀ c ∈ cs, Continues c) (behind : Text) {rounds : ℕ} (hrounds : cs.length < rounds)
    (r : Release) :
    Release.readFileLoop integer rounds (l ++ body cs ++ behind) (l ++ body cs).length r =
      some ((places behind l cs).foldl (Release.readLine integer) r) := by
  induction cs generalizing l rounds r with
  | nil =>
      obtain ⟨k, rfl⟩ := Nat.exists_eq_succ_of_ne_zero (Nat.ne_of_gt hrounds)
      have hpast := memchr_past hl 0 behind
      rw [Nat.add_zero] at hpast
      rw [show body [] = [] from rfl, List.append_nil, Release.readFileLoop, hpast]
      show (if l.length ≤ l.length + 1 then _ else _) = _
      rw [if_pos (Nat.le_succ _)]
      rfl
  | cons c cs ih =>
      obtain ⟨k, rfl⟩ := Nat.exists_eq_succ_of_ne_zero (Nat.ne_of_gt (Nat.zero_lt_of_lt hrounds))
      obtain ⟨hc, hcs⟩ := List.forall_mem_cons.1 hcs
      have hmem : l ++ body (c :: cs) ++ behind = l ++ '\n' :: (c ++ body cs ++ behind) := by
        rw [body_cons, List.append_assoc, List.cons_append]
      have hlen : (l ++ body (c :: cs)).length = l.length + 1 + (c ++ body cs).length := by
        rw [List.length_append, length_body_cons]
        omega
      have hpos : 0 < (c ++ body cs).length := by
        obtain ⟨b, t, rfl, -⟩ := hc.cons
        simp
      have hfound := memchr_found hl (n := (l ++ body (c :: cs)).length) (by omega)
        (c ++ body cs ++ behind)
      have hdrop : (l ++ '\n' :: (c ++ body cs ++ behind)).drop (l.length + 1) =
          c ++ body cs ++ behind := by
        rw [← List.drop_drop, List.drop_left]
        rfl
      have hk : cs.length < k := by simpa using hrounds
      have hrest := ih hc.2 hcs hk
        (r.readLine integer (l ++ body (c :: cs) ++ behind))
      rw [Release.readFileLoop, hmem, hfound]
      dsimp only [Option.getD_some]
      rw [hlen, if_neg (by omega), hdrop, Nat.add_sub_cancel_left, ← hmem, hrest]
      rfl

theorem foldl_readLine (integer : Fin 2) (mems : List Text) (r : Release) :
    mems.foldl (Release.readLine integer) r =
      (mems.filterMap scanLine).foldl (fun r s => r.assign integer s) r := by
  induction mems generalizing r with
  | nil => rfl
  | cons mem mems ih =>
      rw [List.foldl_cons, ih, Release.readLine]
      cases hscan : scanLine mem with
      | none => rw [List.filterMap_cons_none hscan]
      | some s => rw [List.filterMap_cons_some hscan, List.foldl_cons]

theorem parserReadFile_eq (integer : Fin 2) (r : Release) (b : Block) (behind : Text) :
    r.parserReadFile integer b.value behind =
      some ((b.scanned behind).foldl (fun r s => r.assign integer s) r) := by
  have hlen := length_le_body b.lines
  rw [Release.parserReadFile, Block.scanned, ← foldl_readLine]
  refine readFileLoop_eq integer b.first_line b.continues behind ?_ r
  rw [Block.value, List.length_append]
  omega

/-! ## The table -/

/-- What an assignment makes of the file for a name. -/
def step (name : RString) (file : Option ReleaseFile) (a : Fin 2 × Scanned) :
    Option ReleaseFile :=
  if rstringKeys.equal a.2.filename name = true then
    some (Release.setSum a.1 a.2 (file.getD { filename := a.2.filename }))
  else file

/-- The file for a name after some assignments. -/
def final (as : List (Fin 2 × Scanned)) (name : RString) : Option ReleaseFile :=
  as.foldl (step name) none

theorem final_concat (as : List (Fin 2 × Scanned)) (a : Fin 2 × Scanned) (name : RString) :
    final (as ++ [a]) name = step name (final as name) a := by
  rw [final, List.foldl_append]
  rfl

namespace Release

/-- The table has the files that were assigned. -/
structure Has (r : Release) (as : List (Fin 2 × Scanned)) : Prop where
  valid : r.table.Valid rstringKeys
  index : ∀ name v, r.table.value rstringKeys name = some v → ∃ i file, v = some i ∧
    r.files[i]? = some file ∧ rstringKeys.equal file.filename name = true
  files : ∀ name, r.lookup name = final as name

theorem has_nil : ({} : Release).Has [] :=
  ⟨new_valid, fun _ _ h => (nomatch h), fun _ => rfl⟩

variable {r : Release}

theorem lookup_of_value {i : ℕ} (h : r.table.value rstringKeys name = some (some i)) :
    r.lookup name = r.files[i]? := by
  rw [lookup, lookup_eq, h]
  rfl

theorem lookup_of_none (h : r.table.value rstringKeys name = none) : r.lookup name = none := by
  rw [lookup, lookup_eq, h]
  rfl

theorem value_equal {a b : RString} (t : HashTable RString ℕ) (h : rstringKeys.equal a b = true) :
    t.value rstringKeys a = t.value rstringKeys b := by
  have hbucket := bucket_congr (K := rstringKeys) h t.size
  rw [HashTable.value, HashTable.value, hbucket, Entries.find, Entries.find]
  congr 2
  funext node
  rw [rstringKeys.equal_comm, rstringKeys.equal_comm node.1]
  exact rstringKeys.equal_congr h node.1

theorem lookup_equal {a b : RString} (h : rstringKeys.equal a b = true) :
    r.lookup a = r.lookup b := by
  rw [lookup, lookup, lookup_eq, lookup_eq, value_equal r.table h]

/-- A line adds its sum to the file that the table has, or a file with it. -/
theorem Has.assign (h : r.Has as) (integer : Fin 2) (s : Scanned) :
    (r.assign integer s).Has (as ++ [(integer, s)]) := by
  cases hlookup : diHashTableLookup rstringKeys r.table s.filename with
  | some i =>
      have hassign : r.assign integer s =
          { r with files := r.files.modify i (setSum integer s) } := by
        rw [Release.assign, hlookup]
      have hvalue : r.table.value rstringKeys s.filename = some (some i) := by
        rw [lookup_eq] at hlookup
        cases hv : r.table.value rstringKeys s.filename with
        | none => rw [hv] at hlookup; cases hlookup
        | some v => rw [hv] at hlookup; exact congrArg some hlookup
      obtain ⟨i', file, hi, hfile, hname⟩ := h.index _ _ hvalue
      obtain rfl := Option.some.inj hi
      have hget (j : ℕ) : (r.files.modify i (setSum integer s))[j]? =
          if i = j then r.files[j]?.map (setSum integer s) else r.files[j]? := by
        rw [List.getElem?_modify]
        split <;> simp
      rw [hassign]
      generalize r.files.modify i (setSum integer s) = files at hget ⊢
      refine ⟨h.valid, fun name v hv => ?_, fun name => ?_⟩
      · obtain ⟨j, file', hj, hfile', hname'⟩ := h.index name v hv
        by_cases hij : i = j
        · refine ⟨j, setSum integer s file', hj, ?_, hname'⟩
          dsimp only
          rw [hget, if_pos hij, hfile']
          rfl
        · refine ⟨j, file', hj, ?_, hname'⟩
          dsimp only
          rw [hget, if_neg hij, hfile']
      · rw [final_concat, ← h.files, step]
        by_cases heq : rstringKeys.equal s.filename name = true
        · have hv : r.table.value rstringKeys name = some (some i) :=
            value_equal r.table heq ▸ hvalue
          rw [if_pos heq, lookup_of_value hv, lookup_of_value (r := ⟨files, r.table⟩) hv]
          dsimp only
          rw [hget, if_pos rfl, hfile]
          rfl
        · rw [if_neg heq]
          cases hv : r.table.value rstringKeys name with
          | none => rw [lookup_of_none hv, lookup_of_none (r := ⟨files, r.table⟩) hv]
          | some v =>
              obtain ⟨j, file', rfl, hfile', hname'⟩ := h.index name v hv
              have hij : i ≠ j := by
                rintro rfl
                obtain rfl := Option.some.inj (hfile.symm.trans hfile')
                exact heq (rstringKeys.trans (rstringKeys.symm hname) hname')
              rw [lookup_of_value hv, lookup_of_value (r := ⟨files, r.table⟩) hv]
              dsimp only
              rw [hget, if_neg hij]
  | none =>
      have hassign : r.assign integer s =
          { files := r.files ++ [setSum integer s { filename := s.filename }]
            table := diHashTableInsert rstringKeys r.table s.filename (some r.files.length) } := by
        rw [Release.assign, hlookup]
      have hvalue : r.table.value rstringKeys s.filename = none := by
        rw [lookup_eq] at hlookup
        cases hv : r.table.value rstringKeys s.filename with
        | none => rfl
        | some v =>
            obtain ⟨i, file, rfl, -⟩ := h.index _ _ hv
            rw [hv] at hlookup
            cases hlookup
      obtain ⟨hvalid, hinsert⟩ := insert_spec h.valid s.filename (some r.files.length)
      rw [hassign]
      generalize diHashTableInsert rstringKeys r.table s.filename (some r.files.length) = table
        at hvalid hinsert ⊢
      refine ⟨hvalid, fun name v hv => ?_, fun name => ?_⟩
      · rw [hinsert] at hv
        split at hv
        · next heq =>
            refine ⟨_, _, (Option.some.inj hv).symm, List.getElem?_concat_length, heq⟩
        · obtain ⟨j, file', hj, hfile', hname'⟩ := h.index name v hv
          refine ⟨j, file', hj, ?_, hname'⟩
          rw [List.getElem?_append_left (List.getElem?_eq_some_iff.1 hfile').1]
          exact hfile'
      · rw [final_concat, ← h.files, step]
        have hinsert' := hinsert name
        by_cases heq : rstringKeys.equal s.filename name = true
        · rw [if_pos heq] at hinsert' ⊢
          rw [lookup_of_value (r := ⟨_, table⟩) hinsert',
            lookup_of_none (value_equal r.table heq ▸ hvalue)]
          exact List.getElem?_concat_length
        · rw [if_neg heq] at hinsert' ⊢
          cases hv : r.table.value rstringKeys name with
          | none =>
              rw [hv] at hinsert'
              rw [lookup_of_none hv, lookup_of_none (r := ⟨_, table⟩) hinsert']
          | some v =>
              obtain ⟨j, file', rfl, hfile', -⟩ := h.index name v hv
              rw [hv] at hinsert'
              rw [lookup_of_value hv, lookup_of_value (r := ⟨_, table⟩) hinsert']
              exact List.getElem?_append_left (List.getElem?_eq_some_iff.1 hfile').1

theorem Has.foldl (h : r.Has as) (integer : Fin 2) (ss : List Scanned) :
    (ss.foldl (fun r s => r.assign integer s) r).Has (as ++ ss.map fun s => (integer, s)) := by
  induction ss generalizing r as with
  | nil =>
      rw [List.map_nil, List.append_nil]
      exact h
  | cons s ss ih =>
      have hrest := ih (h.assign integer s)
      rw [List.append_assoc] at hrest
      exact hrest

end Release

/-! ## What the table has for a name -/

section Final

variable (name : RString)

theorem final_filename (as : List (Fin 2 × Scanned)) :
    (final as name).map ReleaseFile.filename =
      (as.find? fun a => rstringKeys.equal a.2.filename name).map fun a => a.2.filename := by
  induction as using List.reverseRecOn with
  | nil => rfl
  | append_singleton as a ih =>
      rw [final_concat, step, List.find?_append]
      by_cases heq : rstringKeys.equal a.2.filename name = true
      · simp only [List.find?_cons, heq, if_true]
        cases hfile : final as name with
        | none =>
            rw [hfile] at ih
            rw [Option.map_eq_none_iff.1 ih.symm]
            rfl
        | some file =>
            rw [hfile] at ih
            obtain ⟨a', ha', hname⟩ := Option.map_eq_some_iff.1 ih.symm
            rw [ha']
            exact congrArg some hname.symm
      · rw [Bool.not_eq_true] at heq
        simp only [List.find?_cons, heq, ih, List.find?_nil, Option.or_none, Bool.false_eq_true,
          if_false]

theorem final_last (as : List (Fin 2 × Scanned)) (integer : Fin 2) (ss : List Scanned) :
    match ss.reverse.find? fun s => rstringKeys.equal s.filename name with
    | some last => ∃ file, final (as ++ ss.map fun s => (integer, s)) name = some file ∧
        file.size = last.size % 2 ^ 32 ∧ file.sum integer = some last.sum
    | none => final (as ++ ss.map fun s => (integer, s)) name = final as name := by
  induction ss using List.reverseRecOn with
  | nil =>
      show final (as ++ []) name = final as name
      rw [List.append_nil]
  | append_singleton ss s ih =>
      rw [List.reverse_append, List.reverse_singleton, List.singleton_append, List.map_append,
        ← List.append_assoc, List.map_singleton, final_concat, step]
      by_cases heq : rstringKeys.equal s.filename name = true
      · simp only [List.find?_cons, heq, if_true]
        exact ⟨_, rfl, rfl, Function.update_self ..⟩
      · rw [Bool.not_eq_true] at heq
        simp only [List.find?_cons, heq, Bool.false_eq_true, if_false]
        exact ih

theorem final_sum {integer : Fin 2} (h : ∀ a ∈ as, a.1 ≠ integer) {file : ReleaseFile}
    (hfile : final as name = some file) : file.sum integer = none := by
  induction as using List.reverseRecOn generalizing file with
  | nil => cases hfile
  | append_singleton as a ih =>
      have ha : integer ≠ a.1 := (h a (by simp)).symm
      have has := @ih fun a ha => h a (by simp [ha])
      rw [final_concat, step] at hfile
      split at hfile
      · obtain rfl := Option.some.inj hfile
        rw [Release.setSum]
        dsimp only
        rw [Function.update_of_ne ha]
        cases hbefore : final as name with
        | none => rfl
        | some file => exact has hbefore
      · exact has hfile

end Final

/-! ## Lines with a file -/

section Words

variable {t w : Text} {ws : List Text}

theorem next_word (h : Text.words t = w :: ws) {x : Text}
    (hx : ∃ c y, x = c :: y ∧ Text.isSpace c = true) :
    w ≠ [] ∧ (∀ c ∈ w, Text.isSpace c = false) ∧ ∃ rest,
      (t ++ x).dropWhile Text.isSpace = w ++ (rest ++ x) ∧
      (w ++ (rest ++ x)).takeWhile nonSpace = w ∧
      (w ++ (rest ++ x)).dropWhile nonSpace = rest ++ x ∧
      (∃ c y, rest ++ x = c :: y ∧ Text.isSpace c = true) ∧ Text.words rest = ws := by
  obtain ⟨u, hu⟩ : ∃ u, t.dropWhile Text.isSpace = u := ⟨_, rfl⟩
  rw [← Text.words_dropWhile, hu] at h
  have hsplit := List.takeWhile_append_dropWhile (p := nonSpace) (l := u)
  have hword : ∀ c ∈ u.takeWhile nonSpace, Text.isSpace c = false := by
    intro c hc
    simpa [nonSpace] using List.mem_takeWhile_imp hc
  have hrest : ∀ c ∈ (u.dropWhile nonSpace).head?, Text.isSpace c = true := by
    intro c hc
    have := List.head?_dropWhile_not nonSpace u
    rw [Option.mem_def.1 hc] at this
    simpa [nonSpace] using this
  have hne : u.takeWhile nonSpace ≠ [] := by
    intro hnil
    rw [hnil, List.nil_append] at hsplit
    cases hcase : u with
    | nil => rw [hcase] at h; cases h
    | cons c u' =>
        have hspace : Text.isSpace c = true := hrest c (by rw [hsplit, hcase]; rfl)
        have hfirst := List.head?_dropWhile_not Text.isSpace t
        rw [hu, hcase] at hfirst
        exact Bool.false_ne_true (hfirst.symm.trans hspace)
  rw [← hsplit, Text.words_word hne hword hrest] at h
  obtain ⟨rfl, rfl⟩ := List.cons.inj h
  have hspace : ∃ c y, u.dropWhile nonSpace ++ x = c :: y ∧ Text.isSpace c = true := by
    cases hcase : u.dropWhile nonSpace with
    | nil => exact hx
    | cons c y => exact ⟨c, y ++ x, rfl, hrest c (by rw [hcase]; rfl)⟩
  obtain ⟨c, y, hcy, hc⟩ := hspace
  have hstop : nonSpace c = false := by rw [nonSpace, hc]; rfl
  have hall : ∀ c ∈ u.takeWhile nonSpace, nonSpace c = true := fun c hc => by
    rw [nonSpace, hword c hc]
    rfl
  refine ⟨hne, hword, u.dropWhile nonSpace, ?_, ?_, ?_, ⟨c, y, hcy, hc⟩, rfl⟩
  · rw [← List.append_assoc, hsplit, List.dropWhile_append, hu]
    refine if_neg ?_
    rw [List.isEmpty_iff]
    rintro rfl
    exact hne rfl
  · rw [List.takeWhile_append_of_pos hall, hcy, List.takeWhile_cons_of_neg (by simp [hstop]),
      List.append_nil]
  · rw [List.dropWhile_append_of_pos hall, hcy, List.dropWhile_cons_of_neg (by simp [hstop])]

theorem not_isDigit_of_space {c : Char} (hc : Text.isSpace c = true) : c.isDigit = false := by
  simp only [Text.isSpace, Bool.or_eq_true, beq_iff_eq] at hc
  rcases hc with ((((rfl | rfl) | rfl) | rfl) | rfl) | rfl <;> decide

theorem scanSize_eq {digits rest : Text} (hdigits : Text.isNumber digits = true)
    (ht : t.dropWhile Text.isSpace = digits ++ rest)
    (hrest : ∃ c y, rest = c :: y ∧ Text.isSpace c = true) :
    scanSize t = some (if 2 ^ 64 ≤ Text.number digits then 2 ^ 64 - 1 else Text.number digits,
      rest) := by
  obtain ⟨c, y, rfl, hc⟩ := hrest
  have hstop := not_isDigit_of_space hc
  rw [Text.isNumber, Bool.and_eq_true, List.all_eq_true] at hdigits
  obtain ⟨hne, hall⟩ := hdigits
  obtain ⟨d, ds, rfl⟩ := List.exists_cons_of_ne_nil (l := digits) (by
    rintro rfl
    cases hne)
  have hd := hall d List.mem_cons_self
  have hminus : d ≠ '-' := by
    rintro rfl
    cases hd
  have hplus : d ≠ '+' := by
    rintro rfl
    cases hd
  have htake : (d :: ds ++ c :: y).takeWhile Char.isDigit = d :: ds := by
    rw [List.takeWhile_append_of_pos hall, List.takeWhile_cons_of_neg (by simp [hstop]),
      List.append_nil]
  have hdrop : (d :: ds ++ c :: y).dropWhile Char.isDigit = c :: y := by
    rw [List.dropWhile_append_of_pos hall, List.dropWhile_cons_of_neg (by simp [hstop])]
  have hhead : (d :: ds ++ c :: y).head? = some d := rfl
  rw [scanSize, ht, hhead]
  simp only [Option.some.injEq, hminus, hplus, or_self, if_false, htake, hdrop,
    List.cons_ne_nil]
  split <;> rfl

/-- What `sscanf` makes of a line with a file. -/
def FileLine.scan (e : FileLine) : Scanned where
  sum := e.sum
  size := if 2 ^ 64 ≤ e.size then 2 ^ 64 - 1 else e.size
  filename := cstring (e.name.string.take 128)

theorem scanLine_eq {l : Text} (h : fileLine l = some e) (hnul : '\x00' ∉ l) (x : Text) :
    scanLine (l ++ '\n' :: x) = some e.scan := by
  have hall : ∀ c ∈ l ++ ['\n'], decide (c ≠ '\x00') = true := by
    intro c hc
    rcases List.mem_append.1 hc with hc | hc
    · exact decide_eq_true fun e => hnul (e ▸ hc)
    · rw [List.mem_singleton.1 hc]
      decide
  have hcut : (l ++ '\n' :: x).takeWhile (fun c => decide (c ≠ '\x00')) =
      l ++ '\n' :: x.takeWhile fun c => decide (c ≠ '\x00') := by
    rw [List.append_cons, List.takeWhile_append_of_pos hall, List.append_assoc]
    rfl
  have hmem : ∀ c ∈ l ++ '\n' :: x.takeWhile (fun c => decide (c ≠ '\x00')), c ≠ '\x00' := by
    intro c hc
    rw [← hcut] at hc
    simpa using List.mem_takeWhile_imp hc
  rw [fileLine] at h
  split at h
  · next sum size name hwords =>
      split at h
      · next hnumber =>
          obtain rfl := Option.some.inj h
          have hnewline : ∃ c y, '\n' :: x.takeWhile (fun c => decide (c ≠ '\x00')) = c :: y ∧
              Text.isSpace c = true := ⟨_, _, rfl, rfl⟩
          generalize '\n' :: x.takeWhile (fun c => decide (c ≠ '\x00')) = y at *
          obtain ⟨hsum, -, rest, hdrop, htake, hbehind, hspace, hwords⟩ :=
            next_word hwords hnewline
          obtain ⟨-, -, rest', hdrop', -, -, hspace', hwords'⟩ := next_word hwords hnewline
          obtain ⟨hname, -, rest'', hdrop'', htake'', -, -, -⟩ := next_word hwords' hnewline
          have hsuffix : ∀ t u v : Text, t.dropWhile Text.isSpace = u ++ v → u ⊆ t ∧ v ⊆ t := by
            intro t u v huv
            have hsub := (List.dropWhile_suffix Text.isSpace (l := t)).subset
            rw [huv] at hsub
            exact ⟨fun c hc => hsub (List.mem_append_left _ hc),
              fun c hc => hsub (List.mem_append_right _ hc)⟩
          have hnameNul : '\x00' ∉ name := fun hin => hmem '\x00' ((hsuffix _ _ _ hdrop).2
            ((hsuffix _ _ _ hdrop').2 ((hsuffix _ _ _ hdrop'').1 hin))) rfl
          have hcstring : (cstring name).string = name := by
            rw [Reader.cstring_string ⟨name, hnameNul⟩]
          have hcutName : name.take 128 ≠ [] := by
            rw [Ne, List.take_eq_nil_iff]
            simp [hname]
          rw [scanLine, hcut]
          simp only [hdrop, htake, hbehind, hsum, if_false, scanSize_eq hnumber hdrop' hspace',
            hdrop'', htake'', hcutName, FileLine.scan, hcstring]
      · cases h
  · cases h

end Words

/-! ## What is claimed of a block -/

namespace Release

/-- Blocks with the memory behind each, as the parser passes them on. -/
def readBlocks (integer : Fin 2) (blocks : List (Block × Text)) (r : Release) : Option Release :=
  blocks.foldlM (fun r c => r.parserReadFile integer c.1.value ('\n' :: c.2)) r

/-- The table has each name of a block, with the sum and the size of its line, and is otherwise
as it was. -/
structure Mapped (r₀ r : Release) (b : Block) : Prop where
  own : ∀ name e, b.ownLine name = some e → ∃ file, r.lookup name = some file ∧
    file.filename = name ∧ file.size = e.size ∧ file.sum 1 = some e.sum
  kept : ∀ name, (∀ e ∈ b.fileLines, rstringKeys.equal e.name name = false) →
    r.lookup name = r₀.lookup name

end Release

/-- What was found in the blocks so far. -/
def scannedIn (blocks : List (Block × Text)) : List Scanned :=
  blocks.flatMap fun c => c.1.scanned ('\n' :: c.2)

/-- Of the lines that give names which are the same up to case, the first gives the very name of
each line with a file among them, and the last the sum and the size of such a line. -/
structure Clear (earlier : List Scanned) (b : Block) (behind : Text) : Prop where
  short : ∀ e ∈ b.fileLines, e.name.string.length ≤ 128
  own : ∀ s ∈ b.scanned behind, ∃ first last e,
    (earlier ++ b.scanned behind).find? (fun a => rstringKeys.equal a.filename s.filename) =
      some first ∧
    (b.scanned behind).reverse.find? (fun a => rstringKeys.equal a.filename s.filename) =
      some last ∧
    b.ownLine first.filename = some e ∧ last.size % 2 ^ 32 = e.size ∧ last.sum = e.sum ∧
    ∀ e' ∈ b.fileLines, rstringKeys.equal e'.name s.filename = true → e'.name = first.filename

/-- Nothing but lines with a file, but for the line behind the colon. -/
def AllFiles (b : Block) : Prop :=
  (b.first = [] ∧ b.lines ≠ [] ∨ (fileLine b.first).isSome) ∧
    ∀ l ∈ b.lines, (fileLine l).isSome

/-- The names are short and different up to case, also from those in the blocks so far, and the
sizes have 32 bits. -/
structure Apart (earlier : List Scanned) (b : Block) : Prop where
  short : ∀ e ∈ b.fileLines, e.name.string.length ≤ 128
  small : ∀ name e, b.ownLine name = some e → e.size < 2 ^ 32
  names : ∀ e ∈ b.fileLines, ∀ e' ∈ b.fileLines,
    rstringKeys.equal e.name e'.name = true → e.name = e'.name
  known : ∀ e ∈ b.fileLines, ∀ first,
    earlier.find? (fun a => rstringKeys.equal a.filename e.name) = some first →
      first.filename = e.name

/-! ## Where a line is in memory -/

theorem places_lines (behind l : Text) (cs : List Text) :
    List.Forall₂ (fun l mem => ∃ x, mem = l ++ '\n' :: x) (l :: cs)
      (places ('\n' :: behind) l cs) := by
  induction cs generalizing l with
  | nil => exact .cons ⟨behind, rfl⟩ .nil
  | cons c cs ih =>
      refine .cons ⟨c ++ body cs ++ '\n' :: behind, ?_⟩ (ih c)
      rw [body_cons, List.append_assoc, List.cons_append]

theorem scan_mem_filterMap {ls mems : List Text}
    (h : List.Forall₂ (fun l mem => ∃ x, mem = l ++ '\n' :: x) ls mems)
    (hnul : ∀ l ∈ ls, '\x00' ∉ l) (he : e ∈ ls.filterMap fileLine) :
    e.scan ∈ mems.filterMap scanLine := by
  induction h with
  | nil => cases he
  | @cons l mem ls mems hmem _ ih =>
      obtain ⟨x, rfl⟩ := hmem
      obtain ⟨hl, hls⟩ := List.forall_mem_cons.1 hnul
      obtain ⟨l', hl', hfile⟩ := List.mem_filterMap.1 he
      rcases List.mem_cons.1 hl' with rfl | hl'
      · exact List.mem_filterMap.2 ⟨_, List.mem_cons_self, scanLine_eq hfile hl x⟩
      · obtain ⟨mem, hmem, hscan⟩ := List.mem_filterMap.1
          (ih hls (List.mem_filterMap.2 ⟨l', hl', hfile⟩))
        exact List.mem_filterMap.2 ⟨mem, List.mem_cons_of_mem _ hmem, hscan⟩

theorem Block.scan_mem (b : Block) (behind : Text) (he : e ∈ b.fileLines) :
    e.scan ∈ b.scanned ('\n' :: behind) :=
  scan_mem_filterMap (places_lines behind b.first b.lines) b.noNul he

theorem filterMap_scanLine {ls mems : List Text}
    (h : List.Forall₂ (fun l mem => ∃ x, mem = l ++ '\n' :: x) ls mems)
    (hnul : ∀ l ∈ ls, '\x00' ∉ l) (hfile : ∀ l ∈ ls, (fileLine l).isSome) :
    mems.filterMap scanLine = (ls.filterMap fileLine).map FileLine.scan := by
  induction h with
  | nil => rfl
  | @cons l mem ls mems hmem _ ih =>
      obtain ⟨x, rfl⟩ := hmem
      obtain ⟨hl, hls⟩ := List.forall_mem_cons.1 hnul
      obtain ⟨hl', hls'⟩ := List.forall_mem_cons.1 hfile
      obtain ⟨e, he⟩ := Option.isSome_iff_exists.1 hl'
      rw [List.filterMap_cons_some (scanLine_eq he hl x), List.filterMap_cons_some he,
        List.map_cons, ih hls hls']

theorem places_head (behind l : Text) (cs : List Text) :
    ∃ mems, places behind l cs = (l ++ body cs ++ behind) :: mems := by
  cases cs with
  | nil => exact ⟨[], by rw [places, show body [] = [] from rfl, List.append_nil]⟩
  | cons c cs => exact ⟨_, rfl⟩

theorem scanLine_newline (t : Text) : scanLine ('\n' :: t) = scanLine t := rfl

theorem Block.scanned_eq (h : AllFiles b) (behind : Text) :
    ∃ twice, b.scanned ('\n' :: behind) = twice ++ b.fileLines.map FileLine.scan ∧
      ∀ s ∈ twice, s ∈ b.fileLines.map FileLine.scan := by
  obtain ⟨hfirst, hlines⟩ := h
  have hplaces := places_lines behind b.first b.lines
  rcases hfirst with ⟨hnil, hne⟩ | hfirst
  · obtain ⟨c, cs, hcs⟩ := List.exists_cons_of_ne_nil hne
    have hnul := b.noNul
    have hrest : (places ('\n' :: behind) c cs).filterMap scanLine =
        b.fileLines.map FileLine.scan := by
      rw [Block.fileLines, hnil, hcs, List.filterMap_cons_none (show fileLine [] = none by rfl)]
      refine filterMap_scanLine (places_lines behind c cs) (fun l hl => ?_) fun l hl => ?_
      · exact hnul l (by rw [hcs]; exact List.mem_cons_of_mem _ hl)
      · exact hlines l (hcs ▸ hl)
    obtain ⟨mems, hmems⟩ := places_head ('\n' :: behind) c cs
    have hagain : b.scanned ('\n' :: behind) =
        ((c ++ body cs ++ '\n' :: behind) :: places ('\n' :: behind) c cs).filterMap scanLine := by
      rw [Block.scanned, hnil, hcs, places, List.nil_append, body_cons, List.cons_append,
        List.filterMap_cons, scanLine_newline, List.filterMap_cons]
    rw [hagain]
    cases hscan : scanLine (c ++ body cs ++ '\n' :: behind) with
    | none =>
        rw [List.filterMap_cons_none hscan, hrest]
        exact ⟨[], rfl, fun s hs => nomatch hs⟩
    | some s =>
        rw [List.filterMap_cons_some hscan, hrest]
        refine ⟨[s], rfl, fun s' hs' => ?_⟩
        rw [List.mem_singleton.1 hs', ← hrest, hmems]
        exact List.mem_filterMap.2 ⟨_, List.mem_cons_self, hscan⟩
  · refine ⟨[], ?_, fun s hs => nomatch hs⟩
    rw [List.nil_append]
    exact filterMap_scanLine hplaces b.noNul (List.forall_mem_cons.2 ⟨hfirst, hlines⟩)

/-! ## What the table has after a block -/

theorem length_scanned {mem : Text} {s : Scanned} (h : scanLine mem = some s) :
    s.filename.string.length ≤ 128 := by
  simp only [scanLine] at h
  split at h
  · cases h
  · split at h
    · cases h
    · split at h
      · cases h
      · obtain rfl := Option.some.inj h
        exact ((List.takeWhile_sublist _).length_le).trans (List.length_take_le _ _)

theorem Block.scanned_short (b : Block) {behind : Text} {s : Scanned} (h : s ∈ b.scanned behind) :
    s.filename.string.length ≤ 128 := by
  obtain ⟨mem, -, hscan⟩ := List.mem_filterMap.1 h
  exact length_scanned hscan

theorem FileLine.scan_filename (h : e.name.string.length ≤ 128) : e.scan.filename = e.name := by
  rw [FileLine.scan, List.take_of_length_le h, Reader.cstring_string]

namespace Release

theorem readBlocks_eq (integer : Fin 2) (blocks : List (Block × Text)) (r : Release) :
    readBlocks integer blocks r =
      some ((scannedIn blocks).foldl (fun r s => r.assign integer s) r) := by
  induction blocks generalizing r with
  | nil => rfl
  | cons c blocks ih =>
      rw [readBlocks, List.foldlM_cons, parserReadFile_eq, Option.bind_eq_bind, Option.bind_some,
        scannedIn, List.flatMap_cons, List.foldl_append]
      exact ih _

theorem lookup_after {earlier ss : List Scanned} {r₀ r : Release}
    (h₀ : r₀.Has (earlier.map fun s => (0, s)))
    (h : r.Has (earlier.map (fun s => (0, s)) ++ ss.map fun s => (1, s))) (name : RString) :
    match ss.reverse.find? fun s => rstringKeys.equal s.filename name with
    | some last => ∃ file first, r.lookup name = some file ∧
        (earlier ++ ss).find? (fun a => rstringKeys.equal a.filename name) = some first ∧
        file.filename = first.filename ∧ file.size = last.size % 2 ^ 32 ∧
        file.sum 1 = some last.sum
    | none => r.lookup name = r₀.lookup name := by
  have hlast := final_last name (earlier.map fun s => (0, s)) 1 ss
  have hname := final_filename name
    (earlier.map (fun s => (0, s)) ++ ss.map fun s => ((1 : Fin 2), s))
  rw [h.files, h₀.files]
  split
  · next last hfind =>
      rw [hfind] at hlast
      obtain ⟨file, hfile, hsize, hsum⟩ := hlast
      have hsnd : (earlier.map (fun s => ((0 : Fin 2), s)) ++ ss.map fun s => (1, s)).map Prod.snd =
          earlier ++ ss := by
        simp [List.map_map, Function.comp_def]
      have hfirst : (earlier ++ ss).find? (fun a => rstringKeys.equal a.filename name) =
          ((earlier.map (fun s => ((0 : Fin 2), s)) ++ ss.map fun s => (1, s)).find?
            fun a : Fin 2 × Scanned => rstringKeys.equal a.2.filename name).map Prod.snd := by
        rw [← hsnd, List.find?_map]
        rfl
      rw [hfile] at hname
      obtain ⟨a, ha, hfilename⟩ := Option.map_eq_some_iff.1 hname.symm
      refine ⟨file, a.2, hfile, ?_, hfilename.symm, hsize, hsum⟩
      rw [hfirst]
      exact Option.map_eq_some_iff.2 ⟨a, ha, rfl⟩
  · next hfind =>
      rw [hfind] at hlast
      exact hlast

theorem ownLine_some (h : b.ownLine name = some e) : e ∈ b.fileLines ∧ e.name = name := by
  refine ⟨List.mem_reverse.1 (List.mem_of_find?_eq_some h), Reader.rstring_ext ?_⟩
  simpa using List.find?_some h

theorem exists_ownLine (h : e ∈ b.fileLines) : ∃ e', b.ownLine e.name = some e' := by
  rw [← Option.isSome_iff_exists, Block.ownLine, List.find?_isSome]
  exact ⟨e, List.mem_reverse.2 h, by simp⟩

section After

variable {earlier : List Scanned} {b : Block} {behind : Text} {r₀ r : Release}

theorem mapped_iff (hearlier : ∀ a ∈ earlier, a.filename.string.length ≤ 128)
    (h₀ : r₀.Has (earlier.map fun s => (0, s)))
    (h : r.Has (earlier.map (fun s => (0, s)) ++
      (b.scanned ('\n' :: behind)).map fun s => (1, s))) :
    Mapped r₀ r b ↔ Clear earlier b ('\n' :: behind) := by
  have hafter := lookup_after h₀ h
  have hfound : ∀ s ∈ b.scanned ('\n' :: behind), ∃ last,
      (b.scanned ('\n' :: behind)).reverse.find?
        (fun a => rstringKeys.equal a.filename s.filename) = some last := by
    intro s hs
    rw [← Option.isSome_iff_exists, List.find?_isSome]
    exact ⟨s, List.mem_reverse.2 hs, rstringKeys.refl _⟩
  constructor
  · intro hmapped
    have hshort : ∀ e ∈ b.fileLines, e.name.string.length ≤ 128 := by
      intro e he
      obtain ⟨e', he'⟩ := exists_ownLine he
      obtain ⟨file, hfile, hname, -⟩ := hmapped.own _ _ he'
      have hfirst := final_filename e.name (earlier.map (fun s => (0, s)) ++
        (b.scanned ('\n' :: behind)).map fun s => (1, s))
      rw [← h.files, hfile] at hfirst
      obtain ⟨a, ha, hfilename⟩ := Option.map_eq_some_iff.1 hfirst.symm
      rw [← hname, ← hfilename]
      rcases List.mem_append.1 (List.mem_of_find?_eq_some ha) with ha | ha
      · obtain ⟨s, hs, rfl⟩ := List.mem_map.1 ha
        exact hearlier s hs
      · obtain ⟨s, hs, rfl⟩ := List.mem_map.1 ha
        exact b.scanned_short hs
    refine ⟨hshort, fun s hs => ?_⟩
    obtain ⟨last, hlast⟩ := hfound s hs
    have hs' := hafter s.filename
    rw [hlast] at hs'
    obtain ⟨file, first, hfile, hfirst, hname, hsize, hsum⟩ := hs'
    have hsame : ∀ e ∈ b.fileLines, rstringKeys.equal e.name s.filename = true →
        e.name = first.filename := by
      intro e he hequal
      obtain ⟨e', he'⟩ := exists_ownLine he
      obtain ⟨file', hfile', hname', -⟩ := hmapped.own _ _ he'
      rw [lookup_equal hequal, hfile] at hfile'
      obtain rfl := Option.some.inj hfile'
      rw [← hname', hname]
    have hsome : ∃ e ∈ b.fileLines, rstringKeys.equal e.name s.filename = true := by
      by_contra hnone
      push Not at hnone
      have hkept := hmapped.kept s.filename fun e he => by simpa using hnone e he
      rw [hfile, h₀.files] at hkept
      have hother : ∀ a ∈ earlier.map fun s => ((0 : Fin 2), s), a.1 ≠ 1 := by simp
      have hsum' := final_sum s.filename hother hkept.symm
      rw [hsum] at hsum'
      cases hsum'
    obtain ⟨e, he, hequal⟩ := hsome
    obtain ⟨e', he'⟩ := exists_ownLine he
    obtain ⟨file', hfile', hname', hsize', hsum'⟩ := hmapped.own _ _ he'
    rw [lookup_equal hequal, hfile] at hfile'
    obtain rfl := Option.some.inj hfile'
    refine ⟨first, last, e', hfirst, hlast, ?_, hsize ▸ hsize', ?_, hsame⟩
    · rw [← hsame e he hequal]
      exact he'
    · rw [hsum] at hsum'
      exact Option.some.inj hsum'
  · rintro ⟨hshort, hown⟩
    constructor
    · intro name e he
      obtain ⟨hmem, rfl⟩ := ownLine_some he
      have hscan := b.scan_mem behind hmem
      have hfilename := FileLine.scan_filename (hshort e hmem)
      obtain ⟨first, last, e', hfirst, hlast, he', hsize, hsum, hsame⟩ := hown _ hscan
      rw [hfilename] at hfirst hlast hsame
      have hname := hsame e hmem (rstringKeys.refl _)
      rw [← hname, he] at he'
      obtain rfl := Option.some.inj he'
      have hs' := hafter e.name
      rw [hlast] at hs'
      obtain ⟨file, first', hfile, hfirst', hname', hsize', hsum'⟩ := hs'
      rw [hfirst] at hfirst'
      obtain rfl := Option.some.inj hfirst'
      exact ⟨file, hfile, hname'.trans hname.symm, hsize'.trans hsize, by rw [hsum', hsum]⟩
    · intro name hnone
      have hs' := hafter name
      split at hs'
      · next last hlast =>
          have hmem := List.mem_reverse.1 (List.mem_of_find?_eq_some hlast)
          have hequal : rstringKeys.equal last.filename name = true := by
            simpa using List.find?_some hlast
          obtain ⟨first, _, e, hfirst, -, he, -⟩ := hown last hmem
          have hfirst' : rstringKeys.equal first.filename last.filename = true := by
            simpa using List.find?_some hfirst
          obtain ⟨hemem, hename⟩ := ownLine_some he
          have hno := hnone e hemem
          rw [hename, rstringKeys.trans hfirst' hequal] at hno
          cases hno
      · exact hs'

/-- Where every line is one of a file, only names can be in the way. -/
theorem clear_iff (hall : AllFiles b) : Clear earlier b ('\n' :: behind) ↔ Apart earlier b := by
  obtain ⟨twice, hscanned, htwice⟩ := Block.scanned_eq hall behind
  have hmem : ∀ s ∈ b.scanned ('\n' :: behind), ∃ e ∈ b.fileLines, e.scan = s := by
    intro s hs
    rw [hscanned] at hs
    rcases List.mem_append.1 hs with hs | hs
    · exact List.mem_map.1 (htwice s hs)
    · exact List.mem_map.1 hs
  constructor
  · rintro ⟨hshort, hown⟩
    have hclear : ∀ e ∈ b.fileLines, ∃ first last e',
        (earlier ++ b.scanned ('\n' :: behind)).find?
          (fun a => rstringKeys.equal a.filename e.name) = some first ∧
        (b.scanned ('\n' :: behind)).reverse.find?
          (fun a => rstringKeys.equal a.filename e.name) = some last ∧
        b.ownLine first.filename = some e' ∧ last.size % 2 ^ 32 = e'.size ∧ last.sum = e'.sum ∧
        ∀ e' ∈ b.fileLines, rstringKeys.equal e'.name e.name = true → e'.name = first.filename := by
      intro e he
      have h := hown _ (b.scan_mem behind he)
      rwa [FileLine.scan_filename (hshort e he)] at h
    refine ⟨hshort, fun name e he => ?_, fun e he e' he' hequal => ?_, fun e he first hfirst => ?_⟩
    · obtain ⟨hmem, rfl⟩ := ownLine_some he
      obtain ⟨first, last, e', -, -, he', hsize, -, hsame⟩ := hclear e hmem
      rw [← hsame e hmem (rstringKeys.refl _), he] at he'
      obtain rfl := Option.some.inj he'
      rw [← hsize]
      exact Nat.mod_lt _ (by decide)
    · obtain ⟨first, last, -, -, -, -, -, -, hsame⟩ := hclear e he
      rw [hsame e he (rstringKeys.refl _), hsame e' he' (rstringKeys.symm hequal)]
    · obtain ⟨first', last, -, hfirst', -, -, -, -, hsame⟩ := hclear e he
      rw [List.find?_append, hfirst, Option.some_or] at hfirst'
      rw [hsame e he (rstringKeys.refl _), Option.some.inj hfirst']
  · rintro ⟨hshort, hsmall, hnames, hknown⟩
    refine ⟨hshort, fun s hs => ?_⟩
    obtain ⟨e, he, rfl⟩ := hmem s hs
    rw [FileLine.scan_filename (hshort e he)]
    have hequal : ∀ e' ∈ b.fileLines, rstringKeys.equal e'.scan.filename e.name = true →
        e'.name = e.name := by
      intro e' he' h
      rw [FileLine.scan_filename (hshort e' he')] at h
      exact hnames e' he' e he h
    obtain ⟨first, hfirst, hname⟩ : ∃ first, (earlier ++ b.scanned ('\n' :: behind)).find?
        (fun a => rstringKeys.equal a.filename e.name) = some first ∧ first.filename = e.name := by
      rw [List.find?_append]
      cases hfind : earlier.find? fun a => rstringKeys.equal a.filename e.name with
      | some first => exact ⟨first, rfl, hknown e he first hfind⟩
      | none =>
          obtain ⟨first, hfirst⟩ : ∃ first, (b.scanned ('\n' :: behind)).find?
              (fun a => rstringKeys.equal a.filename e.name) = some first := by
            rw [← Option.isSome_iff_exists, List.find?_isSome]
            refine ⟨e.scan, hs, ?_⟩
            rw [FileLine.scan_filename (hshort e he)]
            exact rstringKeys.refl _
          obtain ⟨e', he', rfl⟩ := hmem first (List.mem_of_find?_eq_some hfirst)
          have hname := hequal e' he' (by simpa using List.find?_some hfirst)
          exact ⟨_, hfirst, (FileLine.scan_filename (hshort e' he')).trans hname⟩
    -- the own line of the name is the last of those that scan to it
    obtain ⟨own, hown⟩ := exists_ownLine he
    obtain ⟨hownMem, hownName⟩ := ownLine_some hown
    have hlast : (b.scanned ('\n' :: behind)).reverse.find?
        (fun a => rstringKeys.equal a.filename e.name) = some own.scan := by
      have hsame : b.fileLines.reverse.find? (fun e' => rstringKeys.equal e'.scan.filename e.name) =
          b.ownLine e.name := by
        refine List.find?_congr fun e' he' => Bool.eq_iff_iff.2 ?_
        have hmem' := List.mem_reverse.1 he'
        rw [decide_eq_true_eq]
        refine ⟨fun h => by rw [hequal e' hmem' h], fun h => ?_⟩
        rw [FileLine.scan_filename (hshort e' hmem'), Reader.rstring_ext h]
        exact rstringKeys.refl _
      rw [hscanned, List.reverse_append, ← List.map_reverse, List.find?_append, List.find?_map]
      show ((b.fileLines.reverse.find?
        (fun e' => rstringKeys.equal e'.scan.filename e.name)).map _).or _ = _
      rw [hsame, hown]
      rfl
    have hlt := hsmall _ _ hown
    refine ⟨first, own.scan, own, hfirst, hlast, by rw [hname]; exact hown, ?_, rfl,
      fun e' he' h => ?_⟩
    · rw [FileLine.scan]
      dsimp only
      rw [if_neg (by omega), Nat.mod_eq_of_lt hlt]
    · rw [hname]
      exact hnames e' he' e he h

end After

/-- After a block the table has every name with the sum and the size of its line, and nothing
else, exactly if the lines that scan to one name agree; and if every line has a file, exactly if
the names are short and different up to case, and the sizes have 32 bits. -/
theorem parserReadFile_iff (earlier : List (Block × Text)) (b : Block) (behind : Text) :
    ∃ r₀ r, readBlocks 0 earlier {} = some r₀ ∧
      r₀.parserReadFile 1 b.value ('\n' :: behind) = some r ∧
      (Mapped r₀ r b ↔ Clear (scannedIn earlier) b ('\n' :: behind)) ∧
      (AllFiles b → (Mapped r₀ r b ↔ Apart (scannedIn earlier) b)) := by
  have h₀ := has_nil.foldl 0 (scannedIn earlier)
  rw [List.nil_append] at h₀
  have h := h₀.foldl 1 (b.scanned ('\n' :: behind))
  have hearlier : ∀ a ∈ scannedIn earlier, a.filename.string.length ≤ 128 := by
    intro a ha
    obtain ⟨c, -, hc⟩ := List.mem_flatMap.1 ha
    exact c.1.scanned_short hc
  have hmapped := mapped_iff hearlier h₀ h
  refine ⟨_, _, readBlocks_eq 0 earlier {}, parserReadFile_eq 1 _ b _, hmapped, fun hall => ?_⟩
  rw [hmapped]
  exact clear_iff hall

/-- Two names that differ in case. -/
def twoCases : Block where
  first := []
  lines := [" s 1 a", " t 2 A"]
  first_line := by decide
  continues := by decide
  noNul := by decide

/-- A line that has no name. -/
def noName : Block where
  first := []
  lines := [" s 1", " t 2 b"]
  first_line := by decide
  continues := by decide
  noNul := by decide

/-- Two names are one in the table, and a line without a name takes the next line's sum for
it. -/
theorem parserReadFile_wrong :
    (∃ r, ({} : Release).parserReadFile 1 twoCases.value "\n" = some r ∧
      ¬ Mapped {} r twoCases) ∧
    ∃ r, ({} : Release).parserReadFile 1 noName.value "\n" = some r ∧
      ¬ Mapped {} r noName := by
  constructor
  · refine ⟨_, parserReadFile_eq 1 {} twoCases _, fun hmapped => ?_⟩
    have hline : (twoCases.ownLine (cstring "a")).map FileLine.sum = some "s".toList := by
      decide
    have hlast : (lookup (((twoCases.scanned "\n").foldl (fun r s => r.assign 1 s) {}))
        (cstring "a".toList)).map (fun file => file.sum 1) = some (some "t".toList) := by
      decide
    obtain ⟨e, he, hsum⟩ := Option.map_eq_some_iff.1 hline
    obtain ⟨file, hfile, -, -, hfileSum⟩ := hmapped.own _ e he
    rw [hfile, Option.map_some, hfileSum, hsum] at hlast
    exact absurd hlast (by decide)
  · refine ⟨_, parserReadFile_eq 1 {} noName _, fun hmapped => ?_⟩
    have hnone : ∀ e ∈ noName.fileLines, rstringKeys.equal e.name (cstring "t") = false := by
      decide
    have hmade : (lookup (((noName.scanned "\n").foldl (fun r s => r.assign 1 s) {}))
        (cstring "t")).isSome = true := by
      decide
    rw [hmapped.kept _ hnone] at hmade
    cases hmade

end Release

end DebianInstaller.Packages
