import Mathlib.Algebra.Group.Int.Defs
import Mathlib.Algebra.GroupWithZero.Nat
import Mathlib.Data.List.DropRight
import Mathlib.Data.List.Infix

/-!
# Text

The programs modelled here read and write files of bytes and split them into
words and numbers. A text is the list of its characters.
-/

namespace DebianInstaller

/-- The bytes of a file, of a shell word or of a C string. -/
abbrev Text := List Char

instance : LawfulBEq Text := inferInstance

/-- A literal of the source is a text. -/
instance : Coe String Text := ⟨String.toList⟩

-- The sizes of the arrays that are indexed below by numerals.

instance neZero_one : NeZero 1 := ⟨by decide⟩

instance neZero_three : NeZero 3 := ⟨by decide⟩

instance neZero_four : NeZero 4 := ⟨by decide⟩

instance neZero_five : NeZero 5 := ⟨by decide⟩

namespace Text

/-- `isspace` in the C locale. -/
def isSpace (c : Char) : Bool :=
  c == ' ' || c == '\t' || c == '\n' || c == '\x0b' || c == '\x0c' || c == '\r'

/-- `strcasecmp` finds no difference. -/
def sameIgnoringCase (a b : Text) : Bool := a.map Char.toLower == b.map Char.toLower

/-- `%i` and its like in a format. -/
def ofInt (n : Int) : Text := (toString n).toList

/-- `[0-9][0-9]*`, and nothing else. -/
def isNumber (w : Text) : Bool := !w.isEmpty && w.all Char.isDigit

/-- A blank or a tab. -/
def isBlank (c : Char) : Bool := c == ' ' || c == '\t'

/-- Where the shell splits words. -/
def isIfs (c : Char) : Bool := c == ' ' || c == '\t' || c == '\n'

/-- The byte that ends a C string. -/
def nul : Char := '\x00'

/-- The value of a string of decimal digits. -/
def number (w : Text) : Nat :=
  w.foldl (fun n c => 10 * n + (c.toNat - '0'.toNat)) 0

/-- The words of a line: `split ' '` in Perl and `split ()` in Python. -/
def words (t : Text) : List Text := (t.splitOnP isSpace).filter (· ≠ [])

/-- The words of a line, written with one blank between them. -/
def joinWords : List Text → Text
  | [] => []
  | [w] => w
  | w :: ws => w ++ ' ' :: joinWords ws

/-- The lines of a text, without their ends. -/
def lines (t : Text) : List Text :=
  if (t.splitOn '\n').getLast? = some [] then (t.splitOn '\n').dropLast else t.splitOn '\n'

/-- A word without white space. -/
def IsWord (w : Text) : Prop := w ≠ [] ∧ ∀ c ∈ w, isSpace c = false

/-- A value of type `long long`, and one result of `$((...))`. -/
def longLong (x : Int) : Int := Int.bmod x (2 ^ 64)

/-- What `strtol` and `%lli` make of a number: one that does not fit becomes the nearest one that
does. -/
def saturate (x : Int) : Int := max (-2 ^ 63) (min x (2 ^ 63 - 1))

theorem longLong_eq {x : Int} (hlo : -2 ^ 63 ≤ x) (hhi : x < 2 ^ 63) : longLong x = x := by
  unfold longLong
  exact Int.bmod_eq_of_le (by omega) (by omega)

theorem number_append (v w : Text) : number (v ++ w) = 10 ^ w.length * number v + number w :=
  (Nat.ofDigitChars_append 0).trans Nat.ofDigitChars_eq_ofDigitChars_zero

theorem number_toDigits (n : Nat) : number (Nat.toDigits 10 n) = n :=
  Nat.ofDigitChars_ten_toDigits

theorem number_lt {w : Text} (h : ∀ c ∈ w, c.isDigit) : number w < 10 ^ w.length := by
  induction w with
  | nil => exact Nat.one_pos
  | cons c w ih =>
      obtain ⟨hc, hw⟩ := List.forall_mem_cons.mp h
      have hlt := ih hw
      have hone : number [c] ≤ 9 := by
        have hle : c.toNat ≤ '9'.toNat := by
          simp only [Char.isDigit, Bool.and_eq_true, decide_eq_true_eq] at hc
          exact hc.2
        have h0 : '0'.toNat = 48 := rfl
        have h9 : '9'.toNat = 57 := rfl
        change 10 * 0 + (c.toNat - '0'.toNat) ≤ 9
        omega
      have hmul := Nat.mul_le_mul_left (10 ^ w.length) hone
      rw [← List.singleton_append, number_append, List.length_append, Nat.pow_add,
        List.length_singleton]
      omega

theorem ofInt_eq (n : Int) :
    ofInt n = if 0 ≤ n then Nat.toDigits 10 n.toNat else '-' :: Nat.toDigits 10 (-n).toNat := by
  rw [ofInt, Int.toString_eq_repr, Int.repr_eq_if]
  split
  · exact Nat.toList_repr
  · rw [String.toList_append, Nat.toList_repr]
    rfl

theorem mem_ofInt {n : Int} {c : Char} (h : c ∈ ofInt n) : c = '-' ∨ c.isDigit = true := by
  rw [ofInt_eq] at h
  split at h
  · exact .inr (Nat.isDigit_of_mem_toDigits (by decide) (by decide) h)
  · rcases List.mem_cons.mp h with h | h
    · exact .inl h
    · exact .inr (Nat.isDigit_of_mem_toDigits (by decide) (by decide) h)

theorem newline_not_mem_ofInt (n : Int) : '\n' ∉ ofInt n := by
  intro hmem
  rcases mem_ofInt hmem with h | h
  · exact absurd h (by decide)
  · exact absurd h (by decide)

theorem words_space {c : Char} (hc : isSpace c = true) (t : Text) :
    words (c :: t) = words t := by
  rw [words, words, List.splitOnP_cons_eq_if_modifyHead, if_pos hc]
  rfl

theorem words_dropWhile (t : Text) : words (t.dropWhile isSpace) = words t := by
  induction t with
  | nil => rfl
  | cons c t ih =>
      by_cases hc : isSpace c = true
      · rw [List.dropWhile_cons_of_pos hc, words_space hc, ih]
      · rw [List.dropWhile_cons_of_neg hc]

theorem words_word {w rest : Text} (hne : w ≠ []) (hw : ∀ c ∈ w, isSpace c = false)
    (hrest : ∀ c ∈ rest.head?, isSpace c = true) :
    words (w ++ rest) = w :: words rest := by
  cases rest with
  | nil =>
      rw [List.append_nil, words, List.splitOnP_eq_singleton hw]
      simp [hne, words]
  | cons c rest =>
      have hc := hrest c rfl
      rw [words_space hc, words, List.splitOnP_append_cons_of_forall_mem hw c hc,
        List.filter_cons_of_pos (by simpa using hne)]
      rfl

theorem rdropWhile_append {p : Char → Bool} (a b : Text) :
    (a ++ b).rdropWhile p =
      if b.rdropWhile p = [] then a.rdropWhile p else a ++ b.rdropWhile p := by
  unfold List.rdropWhile
  rw [List.reverse_append, List.dropWhile_append]
  simp only [List.isEmpty_iff, List.reverse_eq_nil_iff]
  split
  · rfl
  · rw [List.reverse_append, List.reverse_reverse]

theorem isWord_of_all {w : Text} (h : (!w.isEmpty && w.all fun c => !isSpace c) = true) :
    IsWord w := by
  rw [Bool.and_eq_true, List.all_eq_true] at h
  exact ⟨by simpa using h.1, fun c hc => by simpa using h.2 c hc⟩

theorem IsWord.dropWhile {w : Text} (hw : IsWord w) (t : Text) :
    (w ++ t).dropWhile isSpace = w ++ t := by
  obtain ⟨c, w, rfl⟩ := List.exists_cons_of_ne_nil hw.1
  rw [List.cons_append, List.dropWhile_cons, if_neg (by simp [hw.2 c List.mem_cons_self])]

theorem IsWord.rdropWhile {w : Text} (hw : IsWord w) (a : Text) :
    (a ++ w).rdropWhile isSpace = a ++ w := by
  have hself : w.rdropWhile isSpace = w :=
    List.rdropWhile_eq_self_iff.mpr fun hl => by simp [hw.2 _ (List.getLast_mem hl)]
  rw [rdropWhile_append, hself, if_neg hw.1]

end Text

end DebianInstaller
