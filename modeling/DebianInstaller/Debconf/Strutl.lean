import DebianInstaller.Text

/-!
# Strings in cdebconf

The functions of `strutl.c` that the protocol and the databases are written
with: stripping and splitting of lines, escapes, lists of choices and variables.
A C string is the text before its end. Where a function is given a buffer, the
model has the room that is left in it; the callers' buffers are large enough,
and the lemmas here say what the functions give then.
-/

namespace DebianInstaller.Debconf

open Text

variable {c : Char} {room : Nat} {t : Text}

/-- `INT_MAX`. -/
def intMax : Nat := 2147483647

/-! ## Stripping and splitting -/

/-- `strstrip`. -/
def strstrip (t : Text) : Text := (t.dropWhile isSpace).rdropWhile isSpace

/-- `strcmdsplit`: at most `maxnarg` words, where the last one is all of the rest. -/
def strcmdsplit : Nat → Text → List Text
  | 0, _ => []
  | maxnarg + 1, t =>
      match t.dropWhile isSpace with
      | [] => []
      | c :: t =>
          if maxnarg = 0 then [c :: t]
          else
            (c :: t).takeWhile (fun c => !isSpace c) ::
              strcmdsplit maxnarg ((c :: t).dropWhile fun c => !isSpace c)

/-! ## Escapes -/

/-- `STRESCAPE_822`, `STRESCAPE_QUOTE` and `STRESCAPE_CAPB`. -/
inductive EscapeMode where
  | rfc822
  | quote
  | capb
  deriving DecidableEq

/-- `strunescape`, with room for a number of characters. A backslash that ends the
string ends what `STRESCAPE_CAPB` gives too. -/
def strunescape (mode : EscapeMode) : Nat → Text → Text
  | 0, _ => []
  | _, [] => []
  | room + 1, c :: t =>
      if c = '\\' then
        match t with
        | [] => if mode = .capb then [] else [c]
        | d :: t =>
            if d = 'n' then '\n' :: strunescape mode room t
            else if mode = .quote ∧ d = '"' ∨ mode = .capb then d :: strunescape mode room t
            else c :: strunescape mode room (d :: t)
      else c :: strunescape mode room t

/-- The characters that are written with a backslash. -/
def EscapeMode.escapes (mode : EscapeMode) (c : Char) : Bool :=
  c == '\n' || (mode = .quote && c == '"') || (mode = .capb && c == '\\')

/-- What stands behind the backslash. -/
def escapedChar (c : Char) : Char := if c = '\n' then 'n' else c

/-- `strescape`, with room for a number of characters. -/
def strescape (mode : EscapeMode) : Nat → Text → Text
  | 0, _ => []
  | _, [] => []
  | room + 1, c :: t =>
      if mode.escapes c then
        if room = 0 then [] else '\\' :: escapedChar c :: strescape mode (room - 1) t
      else c :: strescape mode room t

/-- The characters with their backslashes. -/
def escaped (mode : EscapeMode) (t : Text) : Text :=
  t.flatMap fun c => if mode.escapes c then ['\\', escapedChar c] else [c]

/-- `unescapestr`. -/
def unescapestr (t : Text) : Text := strunescape .rfc822 t.length t

/-- `escapestr`: each newline takes one more byte. -/
def escapestr (t : Text) : Text :=
  strescape .rfc822 (t.length + t.countP fun c => c == '\n') t

/-- `escapestr_frontend`: so does each backslash. -/
def escapestrFrontend (t : Text) : Text :=
  strescape .capb (t.length + t.countP fun c => c == '\\' || c == '\n') t

/-! ## Choices and variables -/

/-- The commas that no backslash stands before. -/
def countCommas : Text → Nat
  | [] => 0
  | '\\' :: ',' :: t => countCommas t
  | c :: t => (if c = ',' then 1 else 0) + countCommas t

/-- `strgetargc`. -/
def strgetargc (t : Text) : Nat := if t.isEmpty then 0 else 1 + countCommas t

/-- One choice up to its comma, without its escapes, and what is left. -/
def choiceEnd : Text → Text × Text
  | [] => ([], [])
  | '\\' :: ',' :: t => let (w, r) := choiceEnd t; (',' :: w, r)
  | '\\' :: ' ' :: t => let (w, r) := choiceEnd t; (' ' :: w, r)
  | c :: t => if c = ',' then ([], c :: t) else let (w, r) := choiceEnd t; (c :: w, r)

/-- The blanks at the end are cut off, but for the first character. -/
def stripChoice : Text → Text
  | [] => []
  | c :: t => c :: t.rdropWhile (· == ' ')

/-- `strchoicesplit`. -/
def strchoicesplit : Nat → Text → List Text
  | 0, _ => []
  | _, [] => []
  | maxnarg + 1, t =>
      let (w, r) := choiceEnd (t.dropWhile isSpace)
      stripChoice w :: strchoicesplit maxnarg (if r.head? = some ',' then r.tail else r)

/-- `VAR_SIZE`. -/
def varSize : Nat := 100

/-- `strexpand`: every `${name}` is looked up, and stays where nothing is found. The
first argument is the length of the text. -/
def expandFrom (lookup : Text → Option Text) : Nat → Text → Text
  | 0, t => t
  | _, [] => []
  | n + 1, '$' :: '{' :: t =>
      let var := (t.take varSize).takeWhile (· != '}')
      match t.drop var.length with
      | [] => '$' :: '{' :: t
      | _ :: r => (lookup var).getD ('$' :: '{' :: var ++ ['}']) ++ expandFrom lookup n r
  | n + 1, c :: t => c :: expandFrom lookup n t

def strexpand (lookup : Text → Option Text) (src : Text) : Text :=
  expandFrom lookup src.length src

/-! ## Large enough buffers -/

theorem length_escaped_le (mode : EscapeMode) (c : Char) (t : Text) :
    (escaped mode (c :: t)).length =
      (if mode.escapes c then 2 else 1) + (escaped mode t).length := by
  unfold escaped
  rw [List.flatMap_cons, List.length_append]
  split <;> rfl

theorem strescape_eq {mode : EscapeMode} (h : (escaped mode t).length ≤ room) :
    strescape mode room t = escaped mode t := by
  induction t generalizing room with
  | nil => cases room <;> rfl
  | cons c t ih =>
      rw [length_escaped_le] at h
      cases room with
      | zero => split at h <;> omega
      | succ room =>
          unfold strescape
          split
          · next hc =>
              rw [if_pos hc] at h
              rw [if_neg (by omega), ih (by omega)]
              simp [escaped, hc]
          · next hc =>
              rw [if_neg hc] at h
              rw [ih (by omega)]
              simp [escaped, hc]

theorem escapestr_eq (t : Text) : escapestr t = escaped .rfc822 t := by
  refine strescape_eq ?_
  induction t with
  | nil => simp [escaped]
  | cons c t ih =>
      rw [length_escaped_le, List.length_cons, List.countP_cons]
      simp only [EscapeMode.escapes, reduceCtorEq, decide_false, Bool.false_and, Bool.or_false]
      split <;> omega

theorem escapestrFrontend_eq (t : Text) : escapestrFrontend t = escaped .capb t := by
  refine strescape_eq ?_
  induction t with
  | nil => simp [escaped]
  | cons c t ih =>
      rw [length_escaped_le, List.length_cons, List.countP_cons]
      have : EscapeMode.escapes .capb c = (c == '\\' || c == '\n') := by
        simp [EscapeMode.escapes, Bool.or_comm]
      rw [this]
      split <;> omega

theorem strunescape_room (mode : EscapeMode) (h : t.length ≤ room) :
    strunescape mode room t = strunescape mode t.length t := by
  induction room using Nat.strongRecOn generalizing t with
  | ind room ih =>
      match room, t with
      | 0, t => rw [List.eq_nil_of_length_eq_zero (Nat.le_zero.mp h)]; rfl
      | room + 1, [] => rfl
      | room + 1, [c] =>
          show (if c = '\\' then _ else _) = if c = '\\' then _ else _
          split
          · rfl
          · rw [ih room (by omega) (Nat.zero_le _)]
            rfl
      | room + 1, c :: d :: t =>
          simp only [List.length_cons, Nat.add_le_add_iff_right] at h
          show (if c = '\\' then (if d = 'n' then _ else _) else _) =
            if c = '\\' then (if d = 'n' then _ else _) else _
          rw [ih room (by omega) (t := t) (by omega),
            ih (d :: t).length (by simp; omega) (t := t) (by simp),
            ih room (by omega) (t := d :: t) (by simpa using h)]

/-- The whole string is read back. -/
def unescaped (mode : EscapeMode) (t : Text) : Text := strunescape mode t.length t

theorem strunescape_eq (mode : EscapeMode) (h : t.length ≤ room) :
    strunescape mode room t = unescaped mode t := strunescape_room mode h

@[simp]
theorem unescaped_nil (mode : EscapeMode) : unescaped mode [] = [] := rfl

theorem unescaped_cons (hc : c ≠ '\\') (mode : EscapeMode) (t : Text) :
    unescaped mode (c :: t) = c :: unescaped mode t := by
  show (if c = '\\' then _ else c :: strunescape mode t.length t) = _
  rw [if_neg hc]
  rfl

theorem unescaped_newline (mode : EscapeMode) (t : Text) :
    unescaped mode ('\\' :: 'n' :: t) = '\n' :: unescaped mode t := by
  show '\n' :: strunescape mode (t.length + 1) t = _
  rw [strunescape_eq mode (by omega)]

theorem unescaped_capb (hc : c ≠ 'n') (t : Text) :
    unescaped .capb ('\\' :: c :: t) = c :: unescaped .capb t := by
  show (if c = 'n' then _ else if _ then c :: strunescape .capb (t.length + 1) t else _) = _
  rw [if_neg hc, if_pos (.inr rfl), strunescape_eq .capb (by omega)]

theorem unescaped_backslash (ht : t.head? ≠ some 'n') :
    unescaped .rfc822 ('\\' :: t) = '\\' :: unescaped .rfc822 t := by
  cases t with
  | nil => rfl
  | cons c t =>
      have hc : c ≠ 'n' := fun h => ht (h ▸ rfl)
      show (if c = 'n' then _ else if _ then _ else '\\' ::
        strunescape .rfc822 (t.length + 1) (c :: t)) = _
      rw [if_neg hc, if_neg (by simp)]
      rfl

/-! ## Escaping and back -/

theorem escaped_cons (mode : EscapeMode) (c : Char) (t : Text) :
    escaped mode (c :: t) =
      (if mode.escapes c then ['\\', escapedChar c] else [c]) ++ escaped mode t :=
  List.flatMap_cons

theorem unescaped_escaped (t : Text) : unescaped .capb (escaped .capb t) = t := by
  induction t with
  | nil => rfl
  | cons c t ih =>
      rw [escaped_cons]
      split
      · next hc =>
          by_cases hn : c = '\n'
          · subst hn
            exact (unescaped_newline .capb _).trans (congrArg _ ih)
          · have hb : c = '\\' := by simpa [EscapeMode.escapes, hn] using hc
            subst hb
            exact (unescaped_capb (by decide) _).trans (congrArg _ ih)
      · next hc =>
          have hb : c ≠ '\\' := fun h => hc (by simp [h, EscapeMode.escapes])
          exact (unescaped_cons hb _ _).trans (congrArg _ ih)

/-- A backslash and an `n`, which the databases read as a newline. -/
def hasEscape : Text → Bool
  | [] => false
  | c :: t => (c == '\\' && t.head? == some 'n') || hasEscape t

/-- What the databases write and read is a string again. -/
def reread (t : Text) : Text := unescapestr (escapestr t)

@[simp]
theorem reread_nil : reread [] = [] := rfl

theorem head_escaped (mode : EscapeMode) (t : Text) :
    (escaped mode t).head? = some 'n' ↔ t.head? = some 'n' := by
  cases t with
  | nil => rfl
  | cons c t =>
      rw [escaped_cons]
      split
      · next hc =>
          have hn : c ≠ 'n' := by rintro rfl; cases mode <;> exact absurd hc (by decide)
          simp [hn]
      · simp

theorem reread_cons (c : Char) (t : Text) :
    reread (c :: t) =
      if c = '\\' ∧ t.head? = some 'n' then '\n' :: reread t.tail else c :: reread t := by
  unfold reread unescapestr
  rw [escapestr_eq, escapestr_eq, escapestr_eq, escaped_cons]
  by_cases hn : c = '\n'
  · subst hn
    rw [if_neg fun h : '\n' = '\\' ∧ _ => absurd h.1 (by decide)]
    exact unescaped_newline .rfc822 _
  · have hne : EscapeMode.escapes .rfc822 c = false := by simp [EscapeMode.escapes, hn]
    rw [hne]
    show unescaped .rfc822 (c :: escaped .rfc822 t) = _
    by_cases hc : c = '\\'
    · subst hc
      split
      · next h =>
          cases t with
          | nil => cases h.2
          | cons d t =>
              obtain rfl : d = 'n' := by simpa using h.2
              exact unescaped_newline .rfc822 _
      · next h =>
          exact unescaped_backslash fun hh => h ⟨rfl, (head_escaped _ _).mp hh⟩
    · rw [if_neg fun h => hc h.1]
      exact unescaped_cons hc _ _

theorem length_reread_le (t : Text) : (reread t).length ≤ t.length := by
  induction h : t.length using Nat.strongRecOn generalizing t with
  | ind n ih =>
      subst h
      cases t with
      | nil => exact Nat.le_refl _
      | cons c t =>
          rw [reread_cons]
          split
          · have := ih t.tail.length
              (by simp only [List.length_tail, List.length_cons]; omega) t.tail rfl
            simp only [List.length_cons, List.length_tail] at this ⊢
            omega
          · have := ih t.length (by simp) t rfl
            simp only [List.length_cons]
            omega

theorem length_reread_eq (t : Text) : (reread t).length = t.length ↔ hasEscape t = false := by
  induction t with
  | nil => simp [hasEscape]
  | cons c t ih =>
      have hle := length_reread_le t.tail
      rw [reread_cons, hasEscape]
      split
      · next h =>
          simp only [List.length_cons, List.length_tail] at hle ⊢
          have hpos : t.length ≠ 0 := by
            intro h0
            rw [List.eq_nil_of_length_eq_zero h0] at h
            cases h.2
          simp only [h.1, h.2, beq_self_eq_true, Bool.and_self, Bool.true_or, Bool.true_eq_false,
            iff_false]
          omega
      · next h =>
          have : (c == '\\' && t.head? == some 'n') = false := by simpa using h
          rw [this, Bool.false_or, ← ih]
          simp

theorem head_reread (t : Text) : (reread t).head? = some 'n' ↔ t.head? = some 'n' := by
  cases t with
  | nil => rfl
  | cons c t =>
      rw [reread_cons]
      split
      · next h => simp [h.1]
      · simp

theorem hasEscape_reread (t : Text) : hasEscape (reread t) = false := by
  induction h : t.length using Nat.strongRecOn generalizing t with
  | ind n ih =>
      subst h
      cases t with
      | nil => rfl
      | cons c t =>
          rw [reread_cons]
          split
          · rw [hasEscape, ih t.tail.length
              (by simp only [List.length_tail, List.length_cons]; omega) t.tail rfl]
            rfl
          · next h =>
              rw [hasEscape, ih t.length (by simp) t rfl, Bool.or_false, Bool.and_eq_false_iff]
              by_cases hc : c = '\\'
              · exact .inr (beq_false_of_ne fun hh => h ⟨hc, (head_reread t).mp hh⟩)
              · exact .inl (beq_false_of_ne hc)

theorem reread_eq (h : hasEscape t = false) : reread t = t := by
  induction t with
  | nil => rfl
  | cons c t ih =>
      rw [hasEscape, Bool.or_eq_false_iff] at h
      rw [reread_cons, if_neg (by simpa using h.1), ih h.2]

end DebianInstaller.Debconf
