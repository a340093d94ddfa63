import DebianInstaller.Debconf.Strutl

/-!
# debconf-escape

`debconf-escape` does for shell scripts what `strescape` and `strunescape` do for the
frontends, but it does not have the string in one piece. It writes each character as it
comes out of a buffer of `fread`, and all that it keeps from one buffer to the next is
whether the last character was a backslash that has not been answered yet.

So the only place where the two could come apart is a backslash at the end of a buffer. The
loops are folds over the characters, a fold over buffers is the fold over what they hold
together, and what is left is one induction for each direction.
-/

namespace DebianInstaller.Debconf

open Text

/-! ## The loops over a buffer -/

/-- What `-e` writes for one character. -/
def escapeByte (stdout : Text) (c : Char) : Text :=
  if c = '\\' then stdout ++ ['\\', '\\']
  else if c = '\n' then stdout ++ ['\\', 'n']
  else stdout ++ [c]

/-- `unesc`, and what `-u` has written. -/
def unescapeByte : Bool × Text → Char → Bool × Text
  | (true, stdout), c => (false, stdout ++ [if c = 'n' then '\n' else c])
  | (false, stdout), c => if c = '\\' then (true, stdout) else (false, stdout ++ [c])

/-- The size of `buf`. -/
def freadSize : Nat := 1024

/-- What the calls of `fread` return, up to the one that meets the end of the input, for a
number of calls. -/
def freads : Nat → Text → List Text
  | 0, _ => []
  | fuel + 1, input =>
      input.take freadSize ::
        if input.length < freadSize then [] else freads fuel (input.drop freadSize)

/-- `main`, when the calls of `fread` return these buffers: what it writes to `stdout`, if
it gets exactly one of the two options. -/
def debconfEscape (escape unescape : Bool) (buffers : List Text) : Option Text :=
  if escape == unescape then none
  else if escape then some (buffers.foldl (fun stdout buf => buf.foldl escapeByte stdout) [])
  else some (buffers.foldl (fun s buf => buf.foldl unescapeByte s) (false, [])).2

/-! ## In one piece -/

theorem flatten_freads {fuel : Nat} {input : Text} (h : input.length < fuel) :
    (freads fuel input).flatten = input := by
  induction fuel generalizing input with
  | zero => exact absurd h (Nat.not_lt_zero _)
  | succ fuel ih =>
      unfold freads
      rw [List.flatten_cons]
      by_cases hlen : input.length < freadSize
      · rw [if_pos hlen, List.flatten_nil, List.append_nil, List.take_of_length_le hlen.le]
      · have hpos : 0 < freadSize := by decide
        have hdrop : (input.drop freadSize).length < fuel := by
          rw [List.length_drop]
          omega
        rw [if_neg hlen, ih hdrop, List.take_append_drop]

theorem foldl_escapeByte (stdout t : Text) :
    t.foldl escapeByte stdout = stdout ++ escaped .capb t := by
  induction t generalizing stdout with
  | nil => exact (List.append_nil stdout).symm
  | cons c t ih =>
      have hone : escapeByte stdout c =
          stdout ++ if EscapeMode.escapes .capb c then ['\\', escapedChar c] else [c] := by
        unfold escapeByte
        by_cases hb : c = '\\'
        · subst hb
          rfl
        · by_cases hn : c = '\n'
          · subst hn
            rfl
          · have hc : EscapeMode.escapes .capb c = false := by simp [EscapeMode.escapes, hb, hn]
            rw [if_neg hb, if_neg hn, hc]
            rfl
      rw [List.foldl_cons, ih, hone, List.append_assoc, escaped_cons]

/-- A backslash is pending, or it is not: both are needed for the induction. A backslash
that is pending at the end is not written, as in a string that ends in one. -/
theorem foldl_unescapeByte (stdout t : Text) :
    (t.foldl unescapeByte (false, stdout)).2 = stdout ++ unescaped .capb t ∧
      (t.foldl unescapeByte (true, stdout)).2 = stdout ++ unescaped .capb ('\\' :: t) := by
  induction t generalizing stdout with
  | nil => exact ⟨(List.append_nil stdout).symm, (List.append_nil stdout).symm⟩
  | cons c t ih =>
      rw [List.foldl_cons, List.foldl_cons]
      constructor
      · by_cases hc : c = '\\'
        · subst hc
          exact (ih stdout).2
        · have hstep : unescapeByte (false, stdout) c = (false, stdout ++ [c]) := if_neg hc
          rw [hstep, (ih _).1, unescaped_cons hc, List.append_assoc, List.singleton_append]
      · have hstep : unescapeByte (true, stdout) c =
            (false, stdout ++ [if c = 'n' then '\n' else c]) := rfl
        rw [hstep, (ih _).1, List.append_assoc, List.singleton_append]
        by_cases hn : c = 'n'
        · subst hn
          rw [if_pos rfl, unescaped_newline]
        · rw [if_neg hn, unescaped_capb hn]

theorem debconfEscape_escape (buffers : List Text) :
    debconfEscape true false buffers = some (escaped .capb buffers.flatten) := by
  have h := foldl_escapeByte [] buffers.flatten
  rw [List.foldl_flatten] at h
  exact congrArg some h

theorem debconfEscape_unescape (buffers : List Text) :
    debconfEscape false true buffers = some (unescaped .capb buffers.flatten) := by
  have h := (foldl_unescapeByte [] buffers.flatten).1
  rw [List.foldl_flatten] at h
  exact congrArg some h

/-- A string that is escaped is read back as it was, by the functions and by the program,
and the program writes what the functions do, wherever its reads cut the string. -/
theorem escape_read_back (s : Text) {room back : Nat} {buffers pieces : List Text}
    (hroom : (escapestrFrontend s).length ≤ room) (hback : s.length ≤ back)
    (hbuffers : buffers.flatten = s) (hpieces : pieces.flatten = escapestrFrontend s) :
    strescape .capb room s = escapestrFrontend s ∧
      strunescape .capb room (escapestrFrontend s) = s ∧
      debconfEscape true false buffers = some (strescape .capb room s) ∧
      debconfEscape false true buffers = some (strunescape .capb back s) ∧
      debconfEscape false true pieces = some s := by
  rw [escapestrFrontend_eq] at hroom hpieces ⊢
  have hunescape : strunescape .capb room (escaped .capb s) = s := by
    rw [strunescape_eq .capb hroom, unescaped_escaped]
  have hescape : strescape .capb room s = escaped .capb s := strescape_eq hroom
  refine ⟨hescape, hunescape, ?_, ?_, ?_⟩
  · rw [debconfEscape_escape, hbuffers, hescape]
  · rw [debconfEscape_unescape, hbuffers, strunescape_eq .capb hback]
  · rw [debconfEscape_unescape, hpieces, unescaped_escaped]

/-- The escape of the newline is cut in two here. -/
theorem escape_read_back_cut :
    strescape .capb 5 ['a', '\\', '\n'] = escapestrFrontend ['a', '\\', '\n'] ∧
      strunescape .capb 5 (escapestrFrontend ['a', '\\', '\n']) = ['a', '\\', '\n'] ∧
      debconfEscape true false [['a', '\\'], ['\n']] =
        some (strescape .capb 5 ['a', '\\', '\n']) ∧
      debconfEscape false true [['a', '\\'], ['\n']] =
        some (strunescape .capb 3 ['a', '\\', '\n']) ∧
      debconfEscape false true [['a', '\\', '\\', '\\'], ['n']] = some ['a', '\\', '\n'] :=
  escape_read_back ['a', '\\', '\n'] (by decide) (by decide) rfl rfl

theorem debconfEscape_freads (s : Text) :
    debconfEscape true false (freads (s.length + 1) s) = some (escapestrFrontend s) ∧
      debconfEscape false true (freads (s.length + 1) s) = some (unescaped .capb s) := by
  have h := flatten_freads (Nat.lt_succ_self s.length)
  rw [debconfEscape_escape, debconfEscape_unescape, h, escapestrFrontend_eq]
  exact ⟨rfl, rfl⟩

end DebianInstaller.Debconf
