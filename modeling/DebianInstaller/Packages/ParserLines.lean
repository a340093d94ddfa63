import DebianInstaller.Lib.Lines
import DebianInstaller.Packages.Parser

/-!
# The parser and the lines of the buffer

Looking for the next colon and the next newline in all of the buffer comes to the same as
looking in the line: a colon that is found behind the newline is an error, as is none, and a
line that is not the last one ends in the buffer. So the parser follows the lines of the
buffer, one field after the other and one stanza after the other, except at its end. Behind
the newline of the last field it reads the memory behind the buffer, and goes on there if it
finds a blank.
-/

namespace DebianInstaller.Packages

open Lib Text

variable {a l : Text} {c : Char} {cs ls s : List Text} {extra left n : ℕ} {fs : List (List Text)}

/-! ## Searching in memory -/

theorem memchr_found (h : c ∉ a) (hn : a.length < n) (b : Text) :
    memchr c n (a ++ c :: b) = some (some a.length) := by
  induction a generalizing n with
  | nil =>
      obtain ⟨n, rfl⟩ : ∃ k, n = k + 1 := ⟨n - 1, by simp at hn; omega⟩
      rw [List.nil_append, memchr, if_pos rfl]
      rfl
  | cons d a ih =>
      obtain ⟨hd, ha⟩ := List.ne_and_not_mem_of_not_mem_cons h
      obtain ⟨n, rfl⟩ : ∃ k, n = k + 1 := ⟨n - 1, by simp at hn; omega⟩
      rw [List.cons_append, memchr, if_neg (Ne.symm hd), ih ha (by simpa using hn)]
      rfl

theorem memchr_past (h : c ∉ a) (n : ℕ) (b : Text) :
    memchr c (a.length + n) (a ++ b) = (memchr c n b).map (Option.map (· + a.length)) := by
  induction a with
  | nil => cases hm : memchr c n b <;> simp [hm]
  | cons d a ih =>
      obtain ⟨hd, ha⟩ := List.ne_and_not_mem_of_not_mem_cons h
      have hlen : (d :: a).length + n = a.length + n + 1 := by simp; omega
      rw [hlen, List.cons_append, memchr, if_neg (Ne.symm hd), ih ha]
      cases memchr c n b with
      | none => rfl
      | some r => cases r <;> simp [Nat.add_assoc]

theorem memchr_readable {mem : Text} (h : n ≤ mem.length) : ∃ r, memchr c n mem = some r := by
  induction n generalizing mem with
  | zero => exact ⟨none, rfl⟩
  | succ n ih =>
      cases mem with
      | nil => simp at h
      | cons a t =>
          obtain ⟨r, hr⟩ := ih (show n ≤ t.length by simpa using h)
          rw [memchr]
          split
          · exact ⟨some 0, rfl⟩
          · exact ⟨r.map (· + 1), by rw [hr]; rfl⟩

/-! ## Fields -/

/-- The lines of a field, each behind the newline of the one before. -/
def body (cs : List Text) : Text := cs.flatMap ('\n' :: ·)

theorem body_cons (c : Text) (cs : List Text) : body (c :: cs) = '\n' :: (c ++ body cs) := by
  simp [body]

theorem unlines_eq_body (l : Text) (cs : List Text) :
    unlines '\n' (l :: cs) = l ++ body cs ++ ['\n'] := by
  induction cs generalizing l with
  | nil => simp [unlines, body]
  | cons c cs ih =>
      rw [unlines_cons, ih, body_cons]
      simp

/-- A line that continues a field. -/
def Continues (c : Text) : Prop := startsBlank c = true ∧ '\n' ∉ c

theorem Continues.cons {c : Text} (h : Continues c) : ∃ b t, c = b :: t ∧ isBlank b = true := by
  cases c with
  | nil => exact absurd h.1 (by decide)
  | cons b t => exact ⟨b, t, rfl, h.1⟩

theorem largeValue_blank {c : Text} (hc : Continues c) (pre rest : Text)
    (hleft : pre.length + c.length < left) (rounds : ℕ) :
    largeValue (pre ++ '\n' :: (c ++ '\n' :: rest)) left (rounds + 1) pre.length =
      largeValue (pre ++ '\n' :: (c ++ '\n' :: rest)) left rounds (pre.length + 1 + c.length) := by
  obtain ⟨b, t, rfl, hb⟩ := hc.cons
  have hget : (pre ++ '\n' :: (b :: t ++ '\n' :: rest))[pre.length + 1]? = some b := by
    rw [List.getElem?_append_right (by omega), Nat.add_sub_cancel_left]
    rfl
  have hdrop : (pre ++ '\n' :: (b :: t ++ '\n' :: rest)).drop (pre.length + 1) =
      b :: t ++ '\n' :: rest := by
    rw [List.drop_append]
    simp
  have hlen : (b :: t).length < left + 1 - pre.length := by omega
  rw [largeValue, hget, hdrop, memchr_found hc.2 hlen]
  simp only [hb, if_true]

theorem largeValue_stop (hc : isBlank c = false) (pre rest : Text) (left rounds : ℕ) :
    largeValue (pre ++ '\n' :: c :: rest) left (rounds + 1) pre.length = some (some pre.length) := by
  have hget : (pre ++ '\n' :: c :: rest)[pre.length + 1]? = some c := by
    rw [List.getElem?_append_right (by omega), Nat.add_sub_cancel_left]
    rfl
  rw [largeValue, hget]
  simp [hc]

theorem largeValue_lines (hcs : ∀ c ∈ cs, Continues c) (pre rest : Text)
    (hleft : (pre ++ body cs).length < left) (rounds : ℕ) :
    largeValue (pre ++ body cs ++ '\n' :: rest) left (cs.length + rounds) pre.length =
      largeValue (pre ++ body cs ++ '\n' :: rest) left rounds (pre ++ body cs).length := by
  induction cs generalizing pre with
  | nil => simp [body]
  | cons c cs ih =>
      obtain ⟨hc, hcs⟩ := List.forall_mem_cons.1 hcs
      obtain ⟨r, hr⟩ : ∃ r, body cs ++ '\n' :: rest = '\n' :: r := by
        cases cs with
        | nil => exact ⟨rest, rfl⟩
        | cons c' cs => exact ⟨_, by rw [body_cons, List.cons_append]⟩
      have hmem : pre ++ body (c :: cs) ++ '\n' :: rest = pre ++ '\n' :: (c ++ '\n' :: r) := by
        rw [body_cons, List.append_assoc, List.cons_append, List.append_assoc, hr]
      have hmem' : pre ++ body (c :: cs) ++ '\n' :: rest =
          (pre ++ '\n' :: c) ++ body cs ++ '\n' :: rest := by
        simp [body_cons]
      have hpre : pre ++ body (c :: cs) = pre ++ '\n' :: c ++ body cs := by
        simp [body_cons]
      have hround : (c :: cs).length + rounds = cs.length + rounds + 1 := by
        rw [List.length_cons]
        omega
      have hlen : pre.length + 1 + c.length = (pre ++ '\n' :: c).length := by
        rw [List.length_append, List.length_cons]
        omega
      rw [hpre] at hleft
      have hshort : pre.length + c.length < left := by
        rw [List.length_append, ← hlen] at hleft
        omega
      rw [hround, hmem, largeValue_blank hc pre r hshort, ← hmem, hmem', hlen,
        ih hcs (pre ++ '\n' :: c) hleft, hpre]

theorem length_le_body (cs : List Text) : cs.length ≤ (body cs).length := by
  induction cs with
  | nil => exact Nat.zero_le _
  | cons c cs ih =>
      rw [body_cons, List.length_cons, List.length_cons, List.length_append]
      omega

theorem takeWhile_blanks (tail rest : Text) (hn : tail.length < n) :
    ((tail ++ '\n' :: rest).take n).takeWhile isBlank = tail.takeWhile isBlank := by
  induction tail generalizing n with
  | nil =>
      obtain ⟨n, rfl⟩ : ∃ k, n = k + 1 := ⟨n - 1, by simp at hn; omega⟩
      rfl
  | cons c tail ih =>
      obtain ⟨n, rfl⟩ : ∃ k, n = k + 1 := ⟨n - 1, by simp at hn; omega⟩
      rw [List.cons_append, List.take_succ_cons, List.takeWhile_cons, List.takeWhile_cons,
        ih (by simpa using hn)]

/-- A field line, and the lines that continue it. -/
structure IsField (l : Text) (cs : List Text) : Prop where
  nonempty : l ≠ []
  line : '\n' ∉ l
  continued : ∀ c ∈ cs, Continues c

section Colon

variable {name tail : Text} {cs : List Text}

theorem field_colon (hname : ':' ∉ name) :
    fieldName ((name ++ ':' :: tail) :: cs) = name ∧
      fieldValue ((name ++ ':' :: tail) :: cs) = tail.dropWhile isBlank ++ body cs := by
  have hall : ∀ a ∈ name, decide (a ≠ ':') = true := by
    intro a ha
    have hne : a ≠ ':' := fun e => hname (e ▸ ha)
    simpa using hne
  constructor
  · show (name ++ ':' :: tail).takeWhile (· ≠ ':') = name
    rw [List.takeWhile_append_of_pos hall]
    simp
  · show ((name ++ ':' :: tail).dropWhile (· ≠ ':')).tail.dropWhile isBlank ++ _ = _
    rw [List.dropWhile_append_of_pos hall]
    simp [body]

theorem drop_value : (name ++ ':' :: tail ++ body cs).drop
    (name.length + 1 + (tail.takeWhile isBlank).length) = tail.dropWhile isBlank ++ body cs := by
  have htail : name ++ ':' :: tail ++ body cs =
      (name ++ ':' :: tail.takeWhile isBlank) ++ (tail.dropWhile isBlank ++ body cs) := by
    rw [List.append_assoc, List.append_assoc, List.cons_append, List.cons_append,
      ← List.append_assoc (tail.takeWhile isBlank), List.takeWhile_append_dropWhile]
  rw [htail, List.drop_left' (by simp; omega)]

theorem readField_colon (hname : ':' ∉ name) (h : IsField (name ++ ':' :: tail) cs) (rest : Text)
    (hleft : (name ++ ':' :: tail ++ body cs).length < left) :
    readField (name ++ ':' :: tail ++ body cs ++ '\n' :: rest) left =
      (largeValue (name ++ ':' :: tail ++ body cs ++ '\n' :: rest) left (left + 2 - cs.length)
        (name ++ ':' :: tail ++ body cs).length).map (Option.map fun valueEnd =>
      { name := name
        value := ((name ++ ':' :: tail ++ body cs ++ '\n' :: rest).take valueEnd).drop
          (name.length + 1 + (tail.takeWhile isBlank).length)
        valueEnd := valueEnd }) := by
  obtain ⟨x, hx⟩ : ∃ x, body cs ++ '\n' :: rest = '\n' :: x := by
    cases cs with
    | nil => exact ⟨rest, rfl⟩
    | cons c cs => exact ⟨_, by rw [body_cons, List.cons_append]⟩
  have hmem : name ++ ':' :: tail ++ body cs ++ '\n' :: rest =
      name ++ ':' :: (tail ++ '\n' :: x) := by
    rw [List.append_assoc, hx]
    simp
  have hlen : name.length + 1 + tail.length + (body cs).length < left := by
    simp only [List.length_append, List.length_cons] at hleft
    omega
  have hcs := length_le_body cs
  have hcolon : memchr ':' left (name ++ ':' :: (tail ++ '\n' :: x)) = some (some name.length) :=
    memchr_found hname (by omega) _
  have hnewline : memchr '\n' left (name ++ ':' :: (tail ++ '\n' :: x)) =
      some (some (name ++ ':' :: tail).length) := by
    have hm := memchr_found h.line (n := left) (by simp; omega) x
    simpa using hm
  have hblanks : (((name ++ ':' :: (tail ++ '\n' :: x)).take left).drop
      (name.length + 1)).takeWhile isBlank = tail.takeWhile isBlank := by
    have hsplit : name ++ ':' :: (tail ++ '\n' :: x) = name ++ [':'] ++ (tail ++ '\n' :: x) := by
      simp
    rw [List.drop_take, hsplit, List.drop_left' (by simp)]
    exact takeWhile_blanks tail x (by omega)
  have hlarge := largeValue_lines h.continued (name ++ ':' :: tail) rest hleft
    (left + 2 - cs.length)
  rw [show cs.length + (left + 2 - cs.length) = left + 2 by omega] at hlarge
  rw [← hlarge, hmem, readField, hcolon]
  dsimp only
  rw [hblanks, hnewline]
  dsimp only
  rw [if_neg (by simp)]
  cases largeValue (name ++ ':' :: (tail ++ '\n' :: x)) left (left + 2)
      (name ++ ':' :: tail).length with
  | none => rfl
  | some r =>
      cases r with
      | none => rfl
      | some valueEnd => simp

theorem readField_field (hname : ':' ∉ name) (h : IsField (name ++ ':' :: tail) cs)
    (hc : isBlank c = false) (rest : Text)
    (hleft : (name ++ ':' :: tail ++ body cs).length < left) :
    readField (name ++ ':' :: tail ++ body cs ++ '\n' :: c :: rest) left = some (some
      { name := name
        value := tail.dropWhile isBlank ++ body cs
        valueEnd := (name ++ ':' :: tail ++ body cs).length }) := by
  have hcs := length_le_body cs
  obtain ⟨k, hk⟩ : ∃ k, left + 2 - cs.length = k + 1 := by
    refine ⟨left + 1 - cs.length, ?_⟩
    simp only [List.length_append] at hleft
    omega
  rw [readField_colon hname h (c :: rest) hleft, hk,
    largeValue_stop hc (name ++ ':' :: tail ++ body cs) rest left k]
  simp only [Option.map_some, List.take_left']
  rw [drop_value]

theorem largeValue_behind (pre behind : Text) (rounds : ℕ) :
    largeValue (pre ++ '\n' :: behind) (pre.length + 1) (rounds + 3) pre.length =
      match behind with
      | [] => none
      | [b] => if isBlank b then none else some (some pre.length)
      | b :: x :: m =>
          if isBlank b then
            if x = '\n' then
              match m with
              | [] => none
              | c :: _ => if isBlank c then some none else some (some (pre.length + 2))
            else some none
          else some (some pre.length) := by
  have hget : (pre ++ '\n' :: behind)[pre.length + 1]? = behind[0]? := by
    rw [List.getElem?_append_right (by omega), Nat.add_sub_cancel_left]
    rfl
  have hdrop : (pre ++ '\n' :: behind).drop (pre.length + 1) = behind := by
    rw [List.drop_append]
    simp
  rw [largeValue, hget, hdrop, show pre.length + 1 + 1 - pre.length = 2 by omega]
  rcases behind with _ | ⟨b, _ | ⟨x, m⟩⟩
  · rfl
  · cases hb : isBlank b with
    | false => simp [hb]
    | true =>
        have hne : b ≠ '\n' := by
          rintro rfl
          exact absurd hb (by decide)
        simp [hb, memchr, hne]
  · cases hb : isBlank b with
    | false => simp [hb]
    | true =>
        have hne : b ≠ '\n' := by
          rintro rfl
          exact absurd hb (by decide)
        by_cases hx : x = '\n'
        · subst hx
          have hget' : (pre ++ '\n' :: b :: '\n' :: m)[pre.length + 1 + 1 + 1]? = m[0]? := by
            rw [List.getElem?_append_right (by omega),
              show pre.length + 1 + 1 + 1 - pre.length = 3 by omega]
            rfl
          simp only [List.getElem?_cons_zero, hb, if_true, memchr, if_neg hne, Option.map_some]
          rw [largeValue, hget', show pre.length + 1 + 1 - (pre.length + 1 + 1) = 0 by omega]
          cases m with
          | nil => rfl
          | cons c m => simp [memchr]
        · simp [hb, memchr, hne, hx]

theorem readField_behind (hname : ':' ∉ name) (h : IsField (name ++ ':' :: tail) cs) (behind : Text)
    {pre value : Text} (hpre : name ++ ':' :: tail ++ body cs = pre)
    (hvalue : tail.dropWhile isBlank ++ body cs = value) :
    readField (pre ++ '\n' :: behind) (pre.length + 1) =
      match behind with
      | [] => none
      | [b] => if isBlank b then none else some (some ⟨name, value, pre.length⟩)
      | b :: x :: m =>
          if isBlank b then
            if x = '\n' then
              match m with
              | [] => none
              | c :: _ =>
                  if isBlank c then some none
                  else some (some ⟨name, value ++ ['\n', b], pre.length + 2⟩)
            else some none
          else some (some ⟨name, value, pre.length⟩) := by
  have hcs := length_le_body cs
  obtain ⟨k, hk⟩ : ∃ k, (name ++ ':' :: tail ++ body cs).length + 1 + 2 - cs.length = k + 3 := by
    refine ⟨(name ++ ':' :: tail ++ body cs).length - cs.length, ?_⟩
    rw [List.length_append]
    omega
  have hdrop : (name ++ ':' :: tail ++ body cs).drop _ = _ := drop_value
  have hfield := readField_colon hname h behind (Nat.lt_succ_self _)
  have hstart : name.length + 1 + (tail.takeWhile isBlank).length ≤
      (name ++ ':' :: tail ++ body cs).length := by
    have := (List.takeWhile_prefix isBlank (l := tail)).length_le
    simp only [List.length_append, List.length_cons]
    omega
  rw [Nat.succ_eq_add_one, hk, largeValue_behind] at hfield
  rw [hpre] at hfield hdrop hstart
  rw [hvalue] at hdrop
  have hlong (b : Char) (z : Text) : ((pre ++ '\n' :: b :: z).take (pre.length + 2)).drop
      (name.length + 1 + (tail.takeWhile isBlank).length) = value ++ ['\n', b] := by
    have hsplit : pre ++ '\n' :: b :: z = pre ++ ['\n', b] ++ z := by simp
    rw [hsplit, List.take_left' (by simp), List.drop_append_of_le_length hstart, hdrop]
  rw [hfield]
  rcases behind with _ | ⟨b, _ | ⟨x, m⟩⟩
  · rfl
  · cases hb : isBlank b <;> simp [hb, hdrop]
  · cases hb : isBlank b with
    | false => simp [hb, hdrop]
    | true =>
        by_cases hx : x = '\n'
        · subst hx
          rcases m with _ | ⟨c, m⟩
          · simp [hb]
          · cases hc : isBlank c <;> simp [hb, hc, hlong]
        · simp [hb, hx]

end Colon

theorem readField_bad (hcolon : ':' ∉ l) (hline : '\n' ∉ l) (rest : Text) (hleft : l.length < left)
    (hmem : left ≤ (l ++ '\n' :: rest).length) :
    readField (l ++ '\n' :: rest) left = some none := by
  have hpast := memchr_past (c := ':') (a := l ++ ['\n']) (by simp [hcolon])
    (left - (l ++ ['\n']).length) rest
  rw [List.append_assoc, List.singleton_append,
    show (l ++ ['\n']).length + (left - (l ++ ['\n']).length) = left by simp; omega] at hpast
  have hrest : left - (l ++ ['\n']).length ≤ rest.length := by simp at hmem ⊢; omega
  obtain ⟨r, hr⟩ := memchr_readable (c := ':') hrest
  rw [readField, hpast, hr]
  cases r with
  | none => rfl
  | some i =>
      simp only [Option.map_some]
      rw [memchr_found hline hleft]
      simp only []
      rw [if_pos (by simp; omega)]

section Fields

variable {F : Type} (lookup : Text → Option F)

theorem fieldCall_eq {name tail : Text} (hname : ':' ∉ name) :
    fieldCall lookup ((name ++ ':' :: tail) :: cs) =
      (lookup name).toList.map fun fip => Event.read fip (tail.dropWhile isBlank ++ body cs) := by
  rw [fieldCall, (field_colon hname).1, (field_colon hname).2]

theorem readFields_step (h : IsField l cs) (hcolon : ':' ∈ l) (hc : isBlank c = false) (rest : Text)
    (hextra : 0 < extra) (rounds : ℕ) :
    readFields lookup (rounds + 1) (unlines '\n' (l :: cs) ++ c :: rest)
        ((unlines '\n' (l :: cs)).length + extra) =
      if c = '\n' then some (fieldCall lookup (l :: cs), some (c :: rest, extra))
      else (readFields lookup rounds (c :: rest) extra).map fun r =>
        (fieldCall lookup (l :: cs) ++ r.1, r.2) := by
  obtain ⟨name, tail, rfl, hname⟩ := List.eq_append_cons_of_mem hcolon
  have hmem : unlines '\n' ((name ++ ':' :: tail) :: cs) ++ c :: rest =
      name ++ ':' :: tail ++ body cs ++ '\n' :: c :: rest := by
    rw [unlines_eq_body, List.append_assoc, List.singleton_append]
  have hlen : (unlines '\n' ((name ++ ':' :: tail) :: cs)).length =
      (name ++ ':' :: tail ++ body cs).length + 1 := by
    rw [unlines_eq_body, List.length_append, List.length_singleton]
  have hrest : (name ++ ':' :: tail ++ body cs ++ '\n' :: c :: rest).drop
      ((name ++ ':' :: tail ++ body cs).length + 1) = c :: rest := by
    rw [List.drop_append]
    simp
  rw [hmem, hlen, readFields, if_neg (by omega),
    readField_field hname h hc rest (by omega), fieldCall_eq lookup hname]
  dsimp only
  rw [hrest, show (name ++ ':' :: tail ++ body cs).length + 1 + extra -
    ((name ++ ':' :: tail ++ body cs).length + 1) = extra by omega]
  by_cases hnl : c = '\n'
  · rw [if_pos (.inr (by rw [hnl]; rfl)), if_pos hnl]
  · rw [if_neg (by simp [hnl]; omega), if_neg hnl]

theorem readFields_bad (h : IsField l cs) (hcolon : ':' ∉ l) (rest : Text)
    (hextra : extra ≤ rest.length) (rounds : ℕ) :
    readFields lookup (rounds + 1) (unlines '\n' (l :: cs) ++ rest)
      ((unlines '\n' (l :: cs)).length + extra) = some ([], none) := by
  have hmem : unlines '\n' (l :: cs) ++ rest = l ++ '\n' :: (unlines '\n' cs ++ rest) := by
    rw [unlines_cons, List.append_assoc, List.cons_append]
  have hlen : (unlines '\n' (l :: cs)).length = l.length + 1 + (unlines '\n' cs).length := by
    rw [unlines_cons, List.length_append, List.length_cons]
    omega
  rw [hmem, hlen, readFields, if_neg (by omega), readField_bad hcolon h.line]
  · omega
  · rw [List.length_append, List.length_cons, List.length_append]
    omega

/-- The fields of a stanza, as they stand in it. -/
structure Fields (fs : List (List Text)) : Prop where
  field : ∀ f ∈ fs, ∃ l cs, f = l :: cs ∧ IsField l cs
  chain : fs.IsChain fun _ g => startsBlank (g.headD []) = false

/-- A line that does not go on with the value of the one before. -/
def Begins (c : Char) : Prop := isBlank c = false ∧ c ≠ '\n'

theorem begins_of_field (h : IsField l cs) (hb : startsBlank l = false) (fs : List (List Text))
    (rest : Text) : ∃ c t, unlines '\n' ((l :: cs) :: fs).flatten ++ rest = c :: t ∧ Begins c := by
  obtain ⟨c, t, rfl⟩ := List.exists_cons_of_ne_nil h.nonempty
  refine ⟨c, _, by rw [List.flatten_cons, List.cons_append, unlines_cons]; rfl,
    by simpa [startsBlank] using hb, ?_⟩
  exact fun e => h.line (e ▸ List.mem_cons_self)

theorem readFields_good (hfs : Fields fs) (hcolon : ∀ f ∈ fs, hasColon f = true)
    (hc : fs = [] ∨ Begins c) (rest : Text) (hextra : 0 < extra) (rounds : ℕ) :
    readFields lookup (fs.length + rounds) (unlines '\n' fs.flatten ++ c :: rest)
        ((unlines '\n' fs.flatten).length + extra) =
      (readFields lookup rounds (c :: rest) extra).map fun r =>
        (fs.flatMap (fieldCall lookup) ++ r.1, r.2) := by
  induction fs with
  | nil => simp
  | cons f fs ih =>
      have hbegins := hc.resolve_left (by simp)
      obtain ⟨hf, hcolons⟩ := List.forall_mem_cons.1 hcolon
      obtain ⟨⟨l, cs, rfl, hfield⟩, hfields⟩ := List.forall_mem_cons.1 hfs.field
      have htail : Fields fs := ⟨hfields, hfs.chain.tail⟩
      have hnext : ∃ c' t, unlines '\n' fs.flatten ++ c :: rest = c' :: t ∧ Begins c' := by
        cases fs with
        | nil => exact ⟨c, rest, rfl, hbegins⟩
        | cons g fs =>
            obtain ⟨l', cs', rfl, hfield'⟩ := hfields g (by simp)
            exact begins_of_field hfield' (hfs.chain.rel) fs (c :: rest)
      obtain ⟨c', t, ht, hc'⟩ := hnext
      have hmem : unlines '\n' ((l :: cs) :: fs).flatten ++ c :: rest =
          unlines '\n' (l :: cs) ++ c' :: t := by
        rw [List.flatten_cons, unlines_append, List.append_assoc, ht]
      have hlen : (unlines '\n' ((l :: cs) :: fs).flatten).length + extra =
          (unlines '\n' (l :: cs)).length + ((unlines '\n' fs.flatten).length + extra) := by
        rw [List.flatten_cons, unlines_append, List.length_append]
        omega
      have hround : ((l :: cs) :: fs).length + rounds = fs.length + rounds + 1 := by
        rw [List.length_cons]
        omega
      have hl : ':' ∈ l := by simpa [hasColon] using hf
      rw [hmem, hlen, hround, readFields_step lookup hfield hl hc'.1 t (by omega), if_neg hc'.2, ← ht,
        ih htail hcolons (.inr hbegins), Option.map_map]
      congr 1
      funext r
      simp

theorem Fields.append {gs : List (List Text)} (h : Fields (fs ++ gs)) : Fields fs ∧ Fields gs :=
  ⟨⟨fun f hf => h.field f (by simp [hf]), h.chain.left_of_append⟩,
    ⟨fun f hf => h.field f (by simp [hf]), h.chain.right_of_append⟩⟩

theorem Fields.next {gs : List (List Text)} (h : Fields (fs ++ (l :: cs) :: gs)) (rest : Text) :
    ∃ c t, unlines '\n' ((l :: cs) :: gs).flatten ++ rest = c :: t ∧ (fs = [] ∨ Begins c) := by
  obtain ⟨l', cs', he, hfield⟩ := h.field (l :: cs) (by simp)
  obtain ⟨rfl, rfl⟩ := List.cons.inj he
  rcases List.eq_nil_or_concat fs with rfl | ⟨fs, f, rfl⟩
  · obtain ⟨c, t, rfl⟩ := List.exists_cons_of_ne_nil hfield.nonempty
    exact ⟨c, _, by rw [List.flatten_cons, List.cons_append, unlines_cons]; rfl, .inl rfl⟩
  · have hrel : startsBlank l = false := by
      have hchain := h.chain
      simp only [List.concat_eq_append, List.append_assoc, List.singleton_append] at hchain
      exact hchain.right_of_append.rel
    obtain ⟨c, t, ht, hc⟩ := begins_of_field hfield hrel gs rest
    exact ⟨c, t, ht, .inr hc⟩

theorem exists_bad (hbad : ¬ ∀ f ∈ fs, hasColon f = true) :
    ∃ good f gs, fs = good ++ f :: gs ∧ (∀ g ∈ good, hasColon g = true) ∧ hasColon f = false ∧
      fs.takeWhile hasColon = good := by
  obtain ⟨f, gs, hdrop⟩ : ∃ f gs, fs.dropWhile hasColon = f :: gs :=
    List.exists_cons_of_ne_nil fun hnil => hbad (List.dropWhile_eq_nil_iff.1 hnil)
  refine ⟨fs.takeWhile hasColon, f, gs, ?_, fun g hg => List.mem_takeWhile_imp hg, ?_, rfl⟩
  · rw [← hdrop, List.takeWhile_append_dropWhile]
  · have hhead := List.head?_dropWhile_not hasColon fs
    rw [hdrop] at hhead
    simpa using hhead

theorem readFields_fail (hfs : Fields fs) (hbad : ¬ ∀ f ∈ fs, hasColon f = true) (rest : Text)
    (hextra : extra ≤ rest.length) {rounds : ℕ} (hrounds : fs.length ≤ rounds) :
    readFields lookup rounds (unlines '\n' fs.flatten ++ rest)
        ((unlines '\n' fs.flatten).length + extra) =
      some ((fs.takeWhile hasColon).flatMap (fieldCall lookup), none) := by
  obtain ⟨good, f, gs, rfl, hgood, hf, htake⟩ := exists_bad hbad
  obtain ⟨l, cs, rfl, hfield⟩ := hfs.field f (by simp)
  obtain ⟨c, t, ht, hc⟩ := hfs.next rest
  have hl : ':' ∉ l := by simpa [hasColon] using hf
  have hmem : unlines '\n' (good ++ (l :: cs) :: gs).flatten ++ rest =
      unlines '\n' good.flatten ++ c :: t := by
    rw [List.flatten_append, unlines_append, List.append_assoc, ht]
  have hlen : (unlines '\n' (good ++ (l :: cs) :: gs).flatten).length + extra =
      (unlines '\n' good.flatten).length +
        ((unlines '\n' (l :: cs)).length + ((unlines '\n' gs.flatten).length + extra)) := by
    rw [List.flatten_append, unlines_append, List.length_append, List.flatten_cons, unlines_append,
      List.length_append]
    omega
  have hfirst : 0 < (unlines '\n' (l :: cs)).length := by
    rw [unlines_cons, List.length_append, List.length_cons]
    omega
  obtain ⟨k, rfl⟩ : ∃ k, rounds = good.length + (k + 1) := by
    refine ⟨rounds - good.length - 1, ?_⟩
    rw [List.length_append, List.length_cons] at hrounds
    omega
  rw [htake, hmem, hlen, readFields_good lookup hfs.append.1 hgood hc t (by omega), ← ht,
    List.flatten_cons, unlines_append, List.append_assoc, readFields_bad lookup hfield hl]
  · simp
  · rw [List.length_append]
    omega

theorem readFields_last (hfs : Fields (fs ++ [l :: cs])) (hgood : ∀ f ∈ fs, hasColon f = true)
    (rest : Text) (extra : ℕ) (rounds : ℕ) :
    readFields lookup (fs.length + rounds) (unlines '\n' (fs ++ [l :: cs]).flatten ++ rest)
        ((unlines '\n' (fs ++ [l :: cs]).flatten).length + extra) =
      (readFields lookup rounds (unlines '\n' (l :: cs) ++ rest)
        ((unlines '\n' (l :: cs)).length + extra)).map fun r =>
          (fs.flatMap (fieldCall lookup) ++ r.1, r.2) := by
  obtain ⟨c, t, ht, hc⟩ := hfs.next rest
  rw [List.flatten_singleton] at ht
  have hfirst : 0 < (unlines '\n' (l :: cs)).length := by
    rw [unlines_cons, List.length_append, List.length_cons]
    omega
  rw [List.flatten_append, List.flatten_singleton, unlines_append, List.append_assoc, ht,
    List.length_append, Nat.add_assoc, readFields_good lookup hfs.append.1 hgood hc t (by omega)]

theorem readFields_stanza (hfs : Fields fs) (hne : fs ≠ []) (hgood : ∀ f ∈ fs, hasColon f = true)
    (rest : Text) (extra : ℕ) {rounds : ℕ} (hrounds : fs.length ≤ rounds) :
    readFields lookup rounds (unlines '\n' fs.flatten ++ '\n' :: rest)
        ((unlines '\n' fs.flatten).length + (extra + 1)) =
      some (fs.flatMap (fieldCall lookup), some ('\n' :: rest, extra + 1)) := by
  obtain ⟨init, f, rfl⟩ := (List.eq_nil_or_concat' fs).resolve_left hne
  obtain ⟨l, cs, rfl, hfield⟩ := hfs.field f (by simp)
  have hl : ':' ∈ l := by simpa [hasColon] using hgood (l :: cs) (by simp)
  obtain ⟨k, rfl⟩ : ∃ k, rounds = init.length + (k + 1) := by
    refine ⟨rounds - init.length - 1, ?_⟩
    rw [List.length_append, List.length_singleton] at hrounds
    omega
  rw [readFields_last lookup hfs fun f hf => hgood f (by simp [hf])]
  rw [readFields_step lookup hfield hl (by decide) rest (by omega), if_pos rfl]
  simp

/-- A field that ends the buffer does no harm if the memory behind it does not start with a
blank; or, when nobody reads the field, if there is just one blank in a line of its own. -/
def Harmless (f : List Text) (behind : Text) : Prop :=
  (∃ c m, behind = c :: m ∧ isBlank c = false) ∨
    lookup (fieldName f) = none ∧ ∃ b c m, behind = b :: '\n' :: c :: m ∧ isBlank b = true ∧
      isBlank c = false

theorem readFields_leave {mem : Text} (hleft : left ≠ 0)
    (hend : ∀ f, readField mem left = some (some f) → left ≤ f.valueEnd + 1) (rounds : ℕ) :
    readFields lookup (rounds + 1) mem left = (readField mem left).map fun r =>
      match r with
      | none => ([], none)
      | some f => ((lookup f.name).toList.map fun fip => Event.read fip f.value,
          some (mem.drop (f.valueEnd + 1), 0)) := by
  rw [readFields, if_neg hleft]
  rcases hr : readField mem left with _ | _ | f
  · rfl
  · rfl
  · have hzero : left - (f.valueEnd + 1) = 0 := by
      have := hend f hr
      omega
    simp only [hzero, true_or, if_true]
    rfl

theorem readFields_end (h : IsField l cs) (hcolon : ':' ∈ l) (behind : Text) (rounds : ℕ) :
    ((∃ mem, readFields lookup (rounds + 1) (unlines '\n' (l :: cs) ++ behind)
      (unlines '\n' (l :: cs)).length = some (fieldCall lookup (l :: cs), some (mem, 0))) ↔
      Harmless lookup (l :: cs) behind) ∧
    ∀ calls r, readFields lookup (rounds + 1) (unlines '\n' (l :: cs) ++ behind)
      (unlines '\n' (l :: cs)).length = some (calls, r) → r = none ∨ ∃ mem, r = some (mem, 0) := by
  obtain ⟨name, tail, rfl, hname⟩ := List.eq_append_cons_of_mem hcolon
  obtain ⟨pre, hpre⟩ : ∃ pre, name ++ ':' :: tail ++ body cs = pre := ⟨_, rfl⟩
  obtain ⟨value, hvalue⟩ : ∃ value, tail.dropWhile isBlank ++ body cs = value := ⟨_, rfl⟩
  have hfield := readField_behind hname h behind hpre hvalue
  have hend : ∀ f, readField (pre ++ '\n' :: behind) (pre.length + 1) = some (some f) →
      pre.length + 1 ≤ f.valueEnd + 1 := by
    intro f hf
    rw [hfield] at hf
    split at hf
    · simp at hf
    · split at hf
      · simp at hf
      · obtain rfl := by simpa using hf
        exact le_rfl
    · split at hf
      · split at hf
        · split at hf
          · simp at hf
          · split at hf
            · simp at hf
            · obtain rfl := by simpa using hf
              exact Nat.le_add_right _ 2
        · simp at hf
      · obtain rfl := by simpa using hf
        exact le_rfl
  rw [unlines_eq_body, hpre, List.append_assoc, List.singleton_append, List.length_append,
    List.length_singleton, readFields_leave lookup (Nat.succ_ne_zero _) hend,
    fieldCall_eq lookup hname, hvalue]
  constructor
  · rw [Harmless, (field_colon hname).1, hfield]
    rcases behind with _ | ⟨b, _ | ⟨x, m⟩⟩
    · simp
    · cases hb : isBlank b <;> simp [hb]
    · cases hb : isBlank b with
      | false => simp [hb]
      | true =>
          by_cases hx : x = '\n'
          swap
          · simp [hb, hx]
          subst hx
          rcases m with _ | ⟨c, m⟩
          · simp [hb]
          -- the value has the newline and the blank behind it
          cases hc : isBlank c with
          | true => simp [hb, hc]
          | false => cases hlook : lookup name <;> simp [hb, hc, hlook]
  · intro calls r hr
    rcases hread : readField (pre ++ '\n' :: behind) (pre.length + 1) with _ | _ | f
    · simp [hread] at hr
    · simp only [hread, Option.map_some, Option.some.injEq, Prod.mk.injEq] at hr
      exact .inl hr.2.symm
    · simp only [hread, Option.map_some, Option.some.injEq, Prod.mk.injEq] at hr
      exact .inr ⟨_, hr.2.symm⟩

end Fields

/-! ## Stanzas -/

theorem forall_of_isChain {p : Text → Bool} {l : List Text}
    (h : (a :: l).IsChain fun _ y => p y = true) : ∀ c ∈ l, p c = true := by
  induction l generalizing a with
  | nil => simp
  | cons b l ih => exact List.forall_mem_cons.2 ⟨h.rel, ih h.tail⟩

/-- A line that is not empty. -/
def Line (l : Text) : Prop := l ≠ [] ∧ '\n' ∉ l

theorem flatten_fieldsOf (s : List Text) : (fieldsOf s).flatten = s := List.flatten_splitBy _ s

theorem fields_fieldsOf (hs : ∀ l ∈ s, Line l) : Fields (fieldsOf s) := by
  constructor
  · intro f hf
    obtain ⟨l, cs, rfl⟩ := List.exists_cons_of_ne_nil (List.ne_nil_of_mem_splitBy hf)
    have hmem : ∀ c ∈ l :: cs, Line c := by
      intro c hc
      refine hs c ?_
      rw [← flatten_fieldsOf s]
      exact List.mem_flatten.2 ⟨_, hf, hc⟩
    have hchain := List.isChain_of_mem_splitBy hf
    refine ⟨l, cs, rfl, (hmem l (by simp)).1, (hmem l (by simp)).2, fun c hc => ⟨?_, ?_⟩⟩
    · exact forall_of_isChain (p := startsBlank) hchain c hc
    · exact (hmem c (by simp [hc])).2
  · have hchain := List.isChain_getLast_head_splitBy (fun _ l : Text => startsBlank l) s
    refine hchain.imp fun f g hfg => ?_
    obtain ⟨-, hg, hrel⟩ := hfg
    obtain ⟨l, cs, rfl⟩ := List.exists_cons_of_ne_nil hg
    exact hrel

theorem stanzasOf_nil : stanzasOf [] = [] := rfl

theorem stanzasOf_empty (ls : List Text) : stanzasOf ([] :: ls) = stanzasOf ls := by
  have h := List.splitOn_append_cons_self (a := ([] : Text)) [] ls
  rw [List.nil_append] at h
  rw [stanzasOf, h]
  simp [stanzasOf]

theorem stanzasOf_stanza (hne : s ≠ []) (hs : [] ∉ s) : stanzasOf s = [s] := by
  rw [stanzasOf, List.splitOn_eq_singleton hs]
  simp [hne]

theorem stanzasOf_cons (hne : s ≠ []) (hs : [] ∉ s) (ls : List Text) :
    stanzasOf (s ++ [] :: ls) = s :: stanzasOf ls := by
  rw [stanzasOf, List.splitOn_append_cons_self, List.splitOn_eq_singleton hs]
  simp [stanzasOf, hne]

/-- The lines up to an empty one, or none. -/
def Complete (ls : List Text) : Prop := ls = [] ∨ ls.getLast? = some []

theorem Complete.tail (h : Complete (l :: ls)) : Complete ls := by
  cases ls with
  | nil => exact .inl rfl
  | cons l' ls =>
      rw [Complete, List.getLast?_cons_cons] at h
      exact .inr (h.resolve_left (by simp))

theorem Complete.split (h : Complete ls) :
    [] ∉ ls ∧ ls = [] ∨ ∃ s rest, ls = s ++ [] :: rest ∧ [] ∉ s ∧ Complete rest := by
  induction ls with
  | nil => exact .inl ⟨by simp, rfl⟩
  | cons l ls ih =>
      by_cases hl : l = []
      · subst hl
        exact .inr ⟨[], ls, rfl, by simp, h.tail⟩
      rcases ih h.tail with ⟨-, rfl⟩ | ⟨s, rest, rfl, hs, hrest⟩
      · exact absurd (by simpa [Complete] using h) hl
      · exact .inr ⟨l :: s, rest, rfl, by simp [Ne.symm hl, hs], hrest⟩

section Entries

variable {F : Type} (lookup : Text → Option F)

theorem bmod_succ (nr : Int) (n : ℕ) :
    ((nr + 1).bmod (2 ^ 32) + n).bmod (2 ^ 32) = (nr + (n + 1 : ℕ)).bmod (2 ^ 32) := by
  rw [Int.bmod_add_bmod]
  congr 1
  push_cast
  omega

theorem readEntries_empty (rounds : ℕ) (nr : Int) (rest : Text) (left : ℕ) :
    readEntries lookup (rounds + 1) nr ('\n' :: rest) (left + 1) =
      readEntries lookup rounds nr rest left := by
  rw [readEntries, if_neg (Nat.succ_ne_zero _), if_pos List.head?_cons]
  rfl

theorem readEntries_line (hl : Line l) (rest : Text) (hleft : left ≠ 0) (rounds : ℕ) (nr : Int) :
    readEntries lookup (rounds + 1) nr (l ++ rest) left =
      match readFields lookup left (l ++ rest) left with
      | none => none
      | some (events, none) => some (.entryNew :: events, -1)
      | some (events, some (mem, left)) =>
          (readEntries lookup rounds ((nr + 1).bmod (2 ^ 32)) mem left).map fun r =>
            (.entryNew :: events ++ r.1, r.2) := by
  have hhead : (l ++ rest).head? ≠ some '\n' := by
    obtain ⟨c, t, rfl⟩ := List.exists_cons_of_ne_nil hl.1
    rintro e
    obtain rfl : c = '\n' := by simpa using e
    exact hl.2 List.mem_cons_self
  rw [readEntries, if_neg hleft]
  exact if_neg hhead

theorem takeWhile_good (h : GoodStanza s) : (fieldsOf s).takeWhile hasColon = fieldsOf s := by
  rw [List.takeWhile_eq_self_iff]
  exact h

theorem length_le_unlines (ls : List Text) : ls.length ≤ (unlines '\n' ls).length := by
  induction ls with
  | nil => exact le_rfl
  | cons l ls ih =>
      rw [unlines_cons, List.length_append, List.length_cons, List.length_cons]
      omega

theorem length_fieldsOf_le (s : List Text) : (fieldsOf s).length ≤ (unlines '\n' s).length := by
  have hne : ∀ f ∈ fieldsOf s, f ≠ [] := fun f hf => List.ne_nil_of_mem_splitBy hf
  refine le_trans ?_ (length_le_unlines s)
  rw [← congrArg List.length (flatten_fieldsOf s)]
  generalize fieldsOf s = fs at hne
  induction fs with
  | nil => exact le_rfl
  | cons f fs ih =>
      obtain ⟨hf, hfs⟩ := List.forall_mem_cons.1 hne
      have := List.length_pos_of_ne_nil hf
      have := ih hfs
      rw [List.flatten_cons, List.length_append, List.length_cons]
      omega

theorem readEntries_stanza (hne : s ≠ []) (hs : ∀ l ∈ s, Line l) (rounds : ℕ) (nr : Int)
    (rest : Text) (hextra : extra ≤ rest.length) :
    readEntries lookup (rounds + 2) nr (unlines '\n' s ++ '\n' :: rest)
        ((unlines '\n' s).length + (extra + 1)) =
      if GoodStanza s then
        (readEntries lookup rounds ((nr + 1).bmod (2 ^ 32)) rest extra).map fun r =>
          (stanzaCalls lookup s ++ r.1, r.2)
      else some (stanzaCalls lookup s, -1) := by
  have hfields := fields_fieldsOf hs
  have hlen := length_fieldsOf_le s
  obtain ⟨l, ls, rfl⟩ := List.exists_cons_of_ne_nil hne
  have hmem : unlines '\n' (l :: ls) ++ '\n' :: rest =
      l ++ ('\n' :: (unlines '\n' ls ++ '\n' :: rest)) := by
    rw [unlines_cons, List.append_assoc, List.cons_append]
  rw [hmem, readEntries_line lookup (hs l (by simp)) _ (by omega), ← hmem]
  have hrounds : (fieldsOf (l :: ls)).length ≤
      (unlines '\n' (l :: ls)).length + (extra + 1) := by omega
  have hextra' : extra + 1 ≤ ('\n' :: rest).length := by simpa using hextra
  by_cases hgood : GoodStanza (l :: ls)
  · have hread := readFields_stanza lookup hfields (by simp [fieldsOf]) hgood rest extra hrounds
    rw [flatten_fieldsOf] at hread
    rw [hread, if_pos hgood, stanzaCalls, takeWhile_good hgood]
    dsimp only
    rw [readEntries_empty]
  · have hread := readFields_fail lookup hfields hgood ('\n' :: rest) hextra' hrounds
    rw [flatten_fieldsOf] at hread
    rw [hread, if_neg hgood, stanzaCalls]

theorem readEntries_complete (hn : ls.length ≤ n) (hls : ∀ l ∈ ls, '\n' ∉ l) (hc : Complete ls) :
    ∃ k ≤ ls.length, ∀ (rounds : ℕ) (nr : Int) (rest : Text) (extra : ℕ), extra ≤ rest.length →
      nr.bmod (2 ^ 32) = nr →
      readEntries lookup (k + rounds) nr (unlines '\n' ls ++ rest)
          ((unlines '\n' ls).length + extra) =
        if ∀ s ∈ stanzasOf ls, GoodStanza s then
          (readEntries lookup rounds ((nr + (stanzasOf ls).length).bmod (2 ^ 32)) rest extra).map
            fun r => (allCalls lookup (stanzasOf ls) ++ r.1, r.2)
        else some (allCalls lookup (stanzasOf ls), -1) := by
  induction n generalizing ls with
  | zero =>
      obtain rfl : ls = [] := by simpa using hn
      refine ⟨0, le_rfl, fun rounds nr rest extra hextra hnr => ?_⟩
      rw [stanzasOf_nil, List.length_nil, Int.natCast_zero, Int.add_zero, hnr]
      simp [allCalls]
  | succ n ih =>
      rcases hc.split with ⟨-, rfl⟩ | ⟨s, ls, rfl, hs, hrest⟩
      · refine ⟨0, le_rfl, fun rounds nr rest extra hextra hnr => ?_⟩
        rw [stanzasOf_nil, List.length_nil, Int.natCast_zero, Int.add_zero, hnr]
        simp [allCalls]
      rw [List.length_append, List.length_cons] at hn
      obtain ⟨k, hk, hread⟩ := ih (by omega) (fun l hl => hls l (by simp [hl])) hrest
      have hmem (rest : Text) : unlines '\n' (s ++ [] :: ls) ++ rest =
          unlines '\n' s ++ '\n' :: (unlines '\n' ls ++ rest) := by
        rw [unlines_append, unlines_cons, List.append_assoc]
        rfl
      have hlen (extra : ℕ) : (unlines '\n' (s ++ [] :: ls)).length + extra =
          (unlines '\n' s).length + ((unlines '\n' ls).length + extra + 1) := by
        rw [unlines_append, unlines_cons]
        simp
        omega
      by_cases hne : s = []
      · subst hne
        refine ⟨k + 1, by simpa using hk, fun rounds nr rest extra hextra hnr => ?_⟩
        rw [hmem, hlen, unlines_nil, List.nil_append, List.length_nil, Nat.zero_add,
          show k + 1 + rounds = k + rounds + 1 by omega, readEntries_empty,
          hread rounds nr rest extra hextra hnr, List.nil_append, stanzasOf_empty]
      · have hlines : ∀ l ∈ s, Line l := fun l hl =>
          ⟨fun e => hs (e ▸ hl), hls l (by simp [hl])⟩
        have hpos : 0 < s.length := List.length_pos_of_ne_nil hne
        refine ⟨k + 2, by rw [List.length_append, List.length_cons]; omega,
          fun rounds nr rest extra hextra hnr => ?_⟩
        rw [hmem, hlen, show k + 2 + rounds = k + rounds + 2 by omega,
          readEntries_stanza lookup hne hlines, stanzasOf_cons hne hs,
          hread rounds _ rest extra hextra Int.bmod_bmod, bmod_succ]
        · simp only [List.forall_mem_cons, List.length_cons, allCalls]
          by_cases hgood : GoodStanza s
          · simp only [hgood, true_and, if_true]
            split
            · rw [Option.map_map]
              congr 1
              funext r
              simp
            · rfl
          · simp [hgood]
        · rw [List.length_append]
          omega

/-- A buffer is read as its complete stanzas, and then as what is left of it. -/
theorem diParserRfc822Read_complete (hls : ∀ l ∈ ls, '\n' ∉ l) (hc : Complete ls)
    (t behind : Text) :
    ∃ rounds, t.length ≤ rounds ∧ diParserRfc822Read lookup (unlines '\n' ls ++ t) behind =
      if ∀ s ∈ stanzasOf ls, GoodStanza s then
        (readEntries lookup (rounds + 1) (((stanzasOf ls).length : Int).bmod (2 ^ 32)) (t ++ behind)
          t.length).map fun r => (allCalls lookup (stanzasOf ls) ++ r.1, r.2)
      else some (allCalls lookup (stanzasOf ls), -1) := by
  obtain ⟨k, hk, hread⟩ := readEntries_complete lookup le_rfl hls hc
  have hk' : k ≤ (unlines '\n' ls).length := hk.trans (length_le_unlines ls)
  obtain ⟨rounds, hrounds⟩ : ∃ rounds, (unlines '\n' ls).length + t.length + 1 = k + (rounds + 1) :=
    ⟨(unlines '\n' ls).length + t.length - k, by omega⟩
  have hcall := hread (rounds + 1) 0 (t ++ behind) t.length (by simp) (by decide)
  rw [← hrounds, ← List.append_assoc, Int.zero_add] at hcall
  refine ⟨rounds, by omega, ?_⟩
  rw [diParserRfc822Read, List.length_append, hcall]

theorem exists_complete (ls : List Text) :
    ∃ ls₀ s, ls = ls₀ ++ s ∧ Complete ls₀ ∧ [] ∉ s := by
  induction ls using List.reverseRecOn with
  | nil => exact ⟨[], [], rfl, .inl rfl, by simp⟩
  | append_singleton ls l ih =>
      obtain ⟨ls₀, s, rfl, hc, hs⟩ := ih
      by_cases hl : l = []
      · exact ⟨ls₀ ++ s ++ [l], [], by simp, .inr (by simp [hl]), by simp⟩
      · exact ⟨ls₀, s ++ [l], by simp, hc, by simp [hs, Ne.symm hl]⟩

theorem stanzasOf_append {ls₀ : List Text} (hc : Complete ls₀) :
    stanzasOf (ls₀ ++ s) = stanzasOf ls₀ ++ stanzasOf s := by
  rcases hc with rfl | hlast
  · rfl
  · obtain ⟨ls, rfl⟩ : ∃ ls, ls₀ = ls ++ [[]] := by
      obtain ⟨ls, l, rfl⟩ := (List.eq_nil_or_concat' ls₀).resolve_left (by rintro rfl; simp at hlast)
      exact ⟨ls, by rw [List.getLast?_concat, Option.some.injEq] at hlast; rw [hlast]⟩
    rw [List.append_assoc, List.singleton_append, stanzasOf, stanzasOf,
      List.splitOn_append_cons_self, List.splitOn_append_cons_self]
    simp [stanzasOf]

theorem allCalls_append (a b : List (List Text)) : allCalls lookup (a ++ b) =
    allCalls lookup a ++ if ∀ s ∈ a, GoodStanza s then allCalls lookup b else [] := by
  induction a with
  | nil => simp [allCalls]
  | cons s a ih =>
      rw [List.cons_append, allCalls, allCalls, ih]
      by_cases hs : GoodStanza s <;> simp [hs]

theorem bmod_eq_iff (n : ℕ) : (n : Int).bmod (2 ^ 32) = n ↔ n < 2 ^ 31 := by
  rw [Int.bmod_def]
  split <;> omega

/-- The last field of a buffer. -/
def lastField (buf : Text) : List Text :=
  (fieldsOf ((stanzasOf (linesOf buf)).getLastD [])).getLastD []

/-- The memory behind the buffer does no harm: the last line is empty, or the last field ends. -/
def EndsHere (buf behind : Text) : Prop :=
  (linesOf buf).getLast? = some [] ∨ Harmless lookup (lastField buf) behind

/-- Behind the last stanza it matters what the memory goes on with. -/
theorem readEntries_last (hne : s ≠ []) (hs : ∀ l ∈ s, Line l) (behind : Text) (rounds : ℕ)
    (nr : Int) {r : Option (List (Event F) × Int)}
    (hr : readEntries lookup (rounds + 2) nr (unlines '\n' s ++ behind) (unlines '\n' s).length = r) :
    if GoodStanza s then
      (Harmless lookup ((fieldsOf s).getLastD []) behind →
        r = some (stanzaCalls lookup s, (nr + 1).bmod (2 ^ 32))) ∧
      (¬ Harmless lookup ((fieldsOf s).getLastD []) behind →
        ∀ n : Int, 0 ≤ n → r ≠ some (stanzaCalls lookup s, n))
    else r = some (stanzaCalls lookup s, -1) := by
  have hfields := fields_fieldsOf hs
  have hlen := length_fieldsOf_le s
  have hne' : fieldsOf s ≠ [] := List.splitBy_ne_nil.2 hne
  have hpos : 0 < (fieldsOf s).length := List.length_pos_of_ne_nil hne'
  obtain ⟨l, rest, hl, hrest⟩ : ∃ l rest, Line l ∧ unlines '\n' s ++ behind = l ++ rest := by
    obtain ⟨l, ls, rfl⟩ := List.exists_cons_of_ne_nil hne
    exact ⟨l, _, hs l (by simp), by rw [unlines_cons, List.append_assoc, List.cons_append]⟩
  have hleft : (unlines '\n' s).length ≠ 0 := by omega
  have hentry := readEntries_line lookup hl rest hleft (rounds + 1) nr
  rw [← hrest, show rounds + 1 + 1 = rounds + 2 by rfl, hr] at hentry
  subst hentry
  split
  · next hgood =>
      obtain ⟨init, f, hsplit⟩ := (List.eq_nil_or_concat' (fieldsOf s)).resolve_left hne'
      rw [hsplit] at hfields hlen
      obtain ⟨l, cs, rfl, hfield⟩ := hfields.field f (by simp)
      have hcolon : ':' ∈ l := by
        simpa [hasColon] using hgood (l :: cs) (by rw [hsplit]; simp)
      obtain ⟨k, hk⟩ : ∃ k, (unlines '\n' s).length = init.length + (k + 1) := by
        refine ⟨(unlines '\n' s).length - init.length - 1, ?_⟩
        rw [List.length_append, List.length_singleton] at hlen
        omega
      have hread := readFields_last lookup hfields (fun f hf => hgood f (by rw [hsplit]; simp [hf]))
        behind 0 (k + 1)
      simp only [← hsplit, flatten_fieldsOf, ← hk, Nat.add_zero] at hread
      obtain ⟨hiff, hother⟩ := readFields_end lookup hfield hcolon behind k
      have hcalls : stanzaCalls lookup s =
          .entryNew :: (init.flatMap (fieldCall lookup) ++ fieldCall lookup (l :: cs)) := by
        rw [stanzaCalls, takeWhile_good hgood, hsplit]
        simp
      have hlast : (fieldsOf s).getLastD [] = l :: cs := by
        rw [hsplit]
        simp
      rw [hlast, hread, hcalls]
      refine ⟨fun hharm => ?_, fun hharm n hn => ?_⟩
      · obtain ⟨mem, hmem⟩ := hiff.2 hharm
        rw [hmem]
        simp [readEntries]
      · rcases hend : readFields lookup (k + 1) (unlines '\n' (l :: cs) ++ behind)
            (unlines '\n' (l :: cs)).length with _ | ⟨calls, r⟩
        · simp
        rcases hother calls r hend with rfl | ⟨mem, rfl⟩
        · simp
          omega
        · have hne : calls ≠ fieldCall lookup (l :: cs) := by
            rintro rfl
            exact hharm (hiff.1 ⟨mem, hend⟩)
          simp [readEntries, hne]
  · next hbad =>
      have hread := readFields_fail lookup hfields hbad behind (Nat.zero_le behind.length) hlen
      rw [flatten_fieldsOf, Nat.add_zero] at hread
      rw [hread, stanzaCalls]

/-- The parser does what the grammar says, exactly if the buffer has a line that is no field, or
the memory behind it does no harm and the counter does not run over. -/
theorem diParserRfc822Read_iff {buf : Text} (h : buf.getLast? = some '\n') (behind : Text) :
    diParserRfc822Read lookup buf behind = some (grammar lookup buf) ↔
      (∃ s ∈ stanzasOf (linesOf buf), ¬ GoodStanza s) ∨
        EndsHere lookup buf behind ∧ (stanzasOf (linesOf buf)).length < 2 ^ 31 := by
  obtain ⟨ls, hls, rfl⟩ := exists_unlines '\n' (.inr h)
  have hlines : linesOf (unlines '\n' ls) = ls := by
    have hsplit := splitOn_unlines '\n' hls []
    rw [List.append_nil] at hsplit
    rw [linesOf, hsplit]
    simp
  have hne : ls ≠ [] := by
    rintro rfl
    simp at h
  obtain ⟨ls₀, s, rfl, hc, hs⟩ := exists_complete ls
  have hline : ∀ l ∈ s, Line l := fun l hl => ⟨fun e => hs (e ▸ hl), hls l (by simp [hl])⟩
  obtain ⟨rounds, hrounds, hcall⟩ := diParserRfc822Read_complete lookup
    (fun l hl => hls l (by simp [hl])) hc (unlines '\n' s) behind
  rw [← unlines_append] at hcall
  rw [hcall, grammar, EndsHere, lastField, hlines, stanzasOf_append hc, allCalls_append]
  by_cases hgood : ∀ t ∈ stanzasOf ls₀, GoodStanza t
  swap
  · have hbad : ∃ t ∈ stanzasOf ls₀ ++ stanzasOf s, ¬ GoodStanza t := by
      push Not at hgood
      obtain ⟨t, ht, hbad⟩ := hgood
      exact ⟨t, by simp [ht], hbad⟩
    have hret : returned (stanzasOf ls₀ ++ stanzasOf s) = -1 := by
      obtain ⟨t, ht, hbad⟩ := hbad
      exact if_neg fun hall => hbad (hall t ht)
    rw [if_neg hgood, if_neg hgood, hret, List.append_nil]
    exact ⟨fun _ => .inl hbad, fun _ => rfl⟩
  rw [if_pos hgood, if_pos hgood]
  by_cases hsne : s = []
  · subst hsne
    have hlast : ls₀.getLast? = some [] := hc.resolve_left (by simpa using hne)
    have hno : ¬ ∃ t ∈ stanzasOf ls₀, ¬ GoodStanza t := by
      rintro ⟨t, ht, hbad⟩
      exact hbad (hgood t ht)
    rw [stanzasOf_nil, List.append_nil, List.append_nil, readEntries, returned, if_pos hgood]
    simp only [unlines_nil, List.length_nil, if_true, Option.map_some, List.append_nil, allCalls,
      Option.some.injEq, Prod.mk.injEq, true_and, bmod_eq_iff, hno, false_or, hlast, true_or]
  · rw [stanzasOf_stanza hsne hs]
    have hpos : 0 < (unlines '\n' s).length :=
      (List.length_pos_of_ne_nil hsne).trans_le (length_le_unlines s)
    obtain ⟨n, hn⟩ : ∃ n, rounds + 1 = n + 2 := ⟨rounds - 1, by omega⟩
    have hlast := readEntries_last lookup hsne hline behind n
      (((stanzasOf ls₀).length : Int).bmod (2 ^ 32)) rfl
    rw [← hn] at hlast
    have hnotempty : (ls₀ ++ s).getLast? ≠ some [] := by
      obtain ⟨init, l, rfl⟩ := (List.eq_nil_or_concat' s).resolve_left hsne
      rw [← List.append_assoc, List.getLast?_concat]
      simpa using (hline l (by simp)).1
    have hstanzas : (stanzasOf ls₀ ++ [s]).getLastD [] = s := by simp
    have hcount : ((stanzasOf ls₀ ++ [s]).length : Int) = ((stanzasOf ls₀).length + 1 : ℕ) := by
      simp
    have hnr : ((((stanzasOf ls₀).length : Int).bmod (2 ^ 32)) + 1).bmod (2 ^ 32) =
        (((stanzasOf ls₀).length + 1 : ℕ) : Int).bmod (2 ^ 32) := by
      rw [Int.bmod_add_bmod]
      push_cast
      rfl
    simp only [hnotempty, hstanzas, false_or, allCalls]
    by_cases hsgood : GoodStanza s
    · have hall : ∀ t ∈ stanzasOf ls₀ ++ [s], GoodStanza t := by
        simpa [or_imp, forall_and] using ⟨hgood, hsgood⟩
      have hno : ¬ ∃ t ∈ stanzasOf ls₀ ++ [s], ¬ GoodStanza t := by
        rintro ⟨t, ht, hbad⟩
        exact hbad (hall t ht)
      rw [if_pos hsgood] at hlast ⊢
      simp only [hno, false_or, List.append_nil, returned, if_pos hall]
      by_cases hharm : Harmless lookup ((fieldsOf s).getLastD []) behind
      · rw [hlast.1 hharm, hnr, hcount]
        simp only [Option.map_some, Option.some.injEq, Prod.mk.injEq, true_and, bmod_eq_iff, hharm,
          List.length_append, List.length_singleton]
      · refine iff_of_false (fun hsome => ?_) fun hand => hharm hand.1
        obtain ⟨⟨calls, n⟩, hr, heq⟩ := Option.map_eq_some_iff.1 hsome
        obtain ⟨hcalls, hn⟩ := Prod.mk.inj heq
        obtain rfl : calls = stanzaCalls lookup s := List.append_cancel_left hcalls
        exact hlast.2 hharm n (by simp only at hn; omega) hr
    · rw [if_neg hsgood] at hlast ⊢
      have hbad : ∃ t ∈ stanzasOf ls₀ ++ [s], ¬ GoodStanza t := ⟨s, by simp, hsgood⟩
      have hret : returned (stanzasOf ls₀ ++ [s]) = -1 :=
        if_neg fun hall => hsgood (hall s (by simp))
      rw [hlast, hret]
      exact iff_of_true (by simp) (.inl hbad)

end Entries

/-- A table with one field. -/
def packageOnly (name : Text) : Option Unit := if name = "Package" then some () else none

/-- A buffer whose last line is empty is read as its lines. -/
theorem diParserRfc822Read_emptyLine :
    diParserRfc822Read packageOnly "Package: a\n b\n\n" [] =
      some (grammar packageOnly "Package: a\n b\n\n") :=
  (diParserRfc822Read_iff packageOnly (by decide +kernel) []).2
    (.inr ⟨.inl (by decide +kernel), by decide +kernel⟩)

/-- A buffer of one field, with no memory behind it and with a blank. -/
theorem diParserRfc822Read_behind :
    diParserRfc822Read packageOnly "Package: a\n" [] = none ∧
      diParserRfc822Read packageOnly "Package: a\n" " \n\x00" =
        some ([.entryNew, .read () "a\n "], 1) ∧
      grammar packageOnly "Package: a\n" = ([.entryNew, .read () "a"], 1) := by
  decide +kernel

end DebianInstaller.Packages
