import DebianInstaller.Debootstrap.Words
import DebianInstaller.Partman.Scan

/-!
# Sizes as people write them

`valid_human` accepts a number with a unit, and `human2longint` makes bytes from it. It takes the
number in units of a ten-thousandth, which `expr` computes with 64 bits, and gets from there to
bytes by characters: it appends zeros for megabytes and more, and cuts digits off for bytes and
kilobytes. Where there are fewer digits than it wants to cut nothing is cut, and where there are
just as many nothing is left; only for bytes that is a zero then.
-/

namespace DebianInstaller.Partman

open Text Debootstrap

variable {c : Char} {p : Char → Bool} {t : Text} {x : Int}

/-! ## The code -/

/-- `${t%????}` with so many question marks. -/
def cutEnd (n : Nat) (t : Text) : Text := if n ≤ t.length then t.take (t.length - n) else t

/-- `${t%suffix}`, where the suffix is no pattern. -/
def cutSuffix (suffix t : Text) : Text :=
  if suffix.isSuffixOf t then t.take (t.length - suffix.length) else t

/-- `${t#start}`, where what it starts with is no pattern. -/
def cutPrefix (start t : Text) : Text := if start.isPrefixOf t then t.drop start.length else t

def isSeparator (c : Char) : Bool := c == '.' || c == ','

/-- `${t%[.,]*}`: the shortest end that a separator begins. -/
def cutFraction (t : Text) : Text :=
  if t.any isSeparator then (t.rdropWhile fun c => !isSeparator c).dropLast else t

/-- `${t#[.,]}` -/
def cutSeparator : Text → Text
  | c :: t => if isSeparator c then t else c :: t
  | [] => []

/-- `expr "$int" \* 10000 + "$frac"`: busybox reads and computes with 64 bits. -/
def expr (int frac : Text) : Int :=
  longLong (longLong (saturate (number int) * 10000) + saturate (number frac))

/-- What a size ends in. -/
inductive Suffix where
  | none
  | byte
  | kilo
  | mega
  | giga
  | tera
  deriving DecidableEq

/-- The letters that are units. -/
def Suffix.ofLetter : Char → Option Suffix
  | 'k' => some .kilo
  | 'K' => some .kilo
  | 'm' => some .mega
  | 'M' => some .mega
  | 'g' => some .giga
  | 'G' => some .giga
  | 't' => some .tera
  | 'T' => some .tera
  | _ => Option.none

/-- The suffix of a size without its `b`, and the size without the suffix. -/
def splitSuffix (human : Text) (gotb : Bool) : Suffix × Text :=
  let last := cutPrefix (cutEnd 1 human) human
  match last with
  | [c] =>
      match Suffix.ofLetter c with
      | some suffix => (suffix, cutSuffix [c] human)
      | Option.none => (if gotb then .byte else .none, human)
  | _ => (if gotb then .byte else .none, human)

/-- How many bytes there are in the unit. -/
def Suffix.unit : Suffix → Nat
  | .byte => 1
  | .kilo => 10 ^ 3
  | .mega => 10 ^ 6
  | .giga => 10 ^ 9
  | .tera => 10 ^ 12
  | .none => 10 ^ 6

/-- From ten-thousandths to bytes. -/
def toBytes : Suffix → Text → Text
  | .byte, longint => if cutEnd 4 longint = [] then ['0'] else cutEnd 4 longint
  | .kilo, longint => cutEnd 1 longint
  | .mega, longint => longint ++ "00"
  | .giga, longint => longint ++ "00000"
  | .tera, longint => longint ++ "00000000"
  | .none, longint => longint ++ "00"

/-- `human2longint`, and what it prints. With `set -e` a shell ends where `expr` prints a zero,
which is a failure. -/
def human2longint (errexit : Bool) (args : Text) : Option Text :=
  let orighuman := ((expand args).take 5).flatten
  let human := cutSuffix ['B'] (cutSuffix ['b'] orighuman)
  let (suffix, human) := splitSuffix human (human ≠ orighuman)
  let int := if cutFraction human = [] then ['0'] else cutFraction human
  let frac := cutSeparator (cutPrefix int human) ++ "0000"
  let frac := cutSuffix (frac.drop 4) frac
  let longint := expr int frac
  if errexit ∧ longint = 0 then Option.none else some (toBytes suffix (ofInt longint))

/-- A class of characters, with a star or without. -/
inductive Item where
  | one (p : Char → Bool)
  | star (p : Char → Bool)

variable {items : List Item}

def starMatches (p : Char → Bool) (next : Text → Bool) : Text → Bool
  | [] => next []
  | c :: t => next (c :: t) || (p c && starMatches p next t)

/-- A basic regular expression for a whole text. -/
def matchesAll : List Item → Text → Bool
  | [], t => t.isEmpty
  | .one _ :: _, [] => false
  | .one p :: items, c :: t => p c && matchesAll items t
  | .star p :: items, t => starMatches p (matchesAll items) t

def isBlank (c : Char) : Bool := c == ' '

/-- `[bB]` -/
def isByte (c : Char) : Bool := c == 'b' || c == 'B'

/-- `[kKmMgGtT]` -/
def isUnit (c : Char) : Bool := (Suffix.ofLetter c).isSome

/-- A number without a separator, and one with it. -/
def numberPatterns : List (List Item) :=
  [[.one Char.isDigit, .star Char.isDigit],
    [.star Char.isDigit, .one isSeparator, .star Char.isDigit]]

/-- What may follow a number. -/
def unitPatterns : List (List Item) :=
  [[.star isBlank], [.star isBlank, .one isByte, .star isBlank],
    [.star isBlank, .one isUnit, .star isBlank],
    [.star isBlank, .one isUnit, .one isByte, .star isBlank]]

/-- The eight patterns of `valid_human`. -/
def patterns : List (List Item) :=
  numberPatterns.flatMap fun number => unitPatterns.map fun unit => number ++ unit

/-- `valid_human`. That `expr` prints the number of characters that match, and fails if there are
none, makes no difference, since each pattern has a character without a star. -/
def validHuman (human : Text) : Bool := patterns.any fun regex => matchesAll regex human

/-! ## Sizes -/

/-- A number, and what its unit is. -/
structure Human where
  int : Text
  /-- The separator and the digits behind it. -/
  frac : Option (Char × Text)
  blanks : Text
  letter : Option Char
  byte : Option Char
  trailing : Text
  int_isDigit : ∀ c ∈ int, c.isDigit = true
  frac_spec : ∀ p, frac = some p → isSeparator p.1 = true ∧ ∀ c ∈ p.2, c.isDigit = true
  blanks_spec : ∀ c ∈ blanks, isBlank c = true
  letter_spec : ∀ c, letter = some c → isUnit c = true
  byte_spec : ∀ c, byte = some c → isByte c = true
  trailing_spec : ∀ c ∈ trailing, isBlank c = true
  int_ne : frac = none → int ≠ []

namespace Human

variable (h : Human)

/-- The number without its unit. -/
def number : Text := h.int ++ h.frac.elim [] fun p => p.1 :: p.2

def text : Text :=
  h.number ++ (h.blanks ++ (h.letter.toList ++ (h.byte.toList ++ h.trailing)))

/-- The digits behind the separator. -/
def digits : Text := h.frac.elim [] Prod.snd

def suffix : Suffix :=
  (h.letter.bind Suffix.ofLetter).getD (if h.byte.isSome then .byte else .none)

/-- How many ten-thousandths there are in the number. -/
def parts : Nat := Text.number (h.int ++ h.digits) * 10 ^ 4 / 10 ^ h.digits.length

/-- The size in bytes, rounded down. -/
def bytes : Nat := h.parts * h.suffix.unit / 10 ^ 4

end Human

/-- What is printed is a numeral of this value. -/
def Prints (out : Option Text) (value : Nat) : Prop :=
  ∃ t, out = some t ∧ isNumber t = true ∧ Text.number t = value

/-! ## What is accepted -/

theorem starMatches_iff {next : Text → Bool} :
    starMatches p next t = true ↔
      ∃ u v, t = u ++ v ∧ (∀ c ∈ u, p c = true) ∧ next v = true := by
  induction t with
  | nil =>
      constructor
      · intro h
        exact ⟨[], [], rfl, fun c hc => absurd hc List.not_mem_nil, h⟩
      · rintro ⟨u, v, heq, -, hnext⟩
        obtain ⟨rfl, rfl⟩ := List.append_eq_nil_iff.1 heq.symm
        exact hnext
  | cons c t ih =>
      rw [starMatches, Bool.or_eq_true, Bool.and_eq_true, ih]
      constructor
      · rintro (hnext | ⟨hc, u, v, rfl, hu, hnext⟩)
        · exact ⟨[], c :: t, rfl, fun c hc => absurd hc List.not_mem_nil, hnext⟩
        · exact ⟨c :: u, v, rfl, List.forall_mem_cons.2 ⟨hc, hu⟩, hnext⟩
      · rintro ⟨u, v, heq, hu, hnext⟩
        cases u with
        | nil => exact .inl (heq ▸ hnext)
        | cons d u =>
            obtain ⟨rfl, rfl⟩ := List.cons.inj heq
            obtain ⟨hd, hu⟩ := List.forall_mem_cons.1 hu
            exact .inr ⟨hd, u, v, rfl, hu, hnext⟩

theorem matchesAll_one :
    matchesAll (.one p :: items) t = true ↔
      ∃ c v, t = c :: v ∧ p c = true ∧ matchesAll items v = true := by
  cases t with
  | nil => exact iff_of_false (by simp [matchesAll]) fun ⟨c, v, heq, _⟩ => nomatch heq
  | cons c t =>
      rw [matchesAll, Bool.and_eq_true]
      constructor
      · intro h
        exact ⟨c, t, rfl, h⟩
      · rintro ⟨d, v, heq, h⟩
        obtain ⟨rfl, rfl⟩ := List.cons.inj heq
        exact h

theorem matchesAll_star :
    matchesAll (.star p :: items) t = true ↔
      ∃ u v, t = u ++ v ∧ (∀ c ∈ u, p c = true) ∧ matchesAll items v = true := starMatches_iff

theorem matchesAll_nil : matchesAll [] t = true ↔ t = [] := List.isEmpty_iff

theorem matchesAll_append {items' : List Item} :
    matchesAll (items ++ items') t = true ↔
      ∃ u v, t = u ++ v ∧ matchesAll items u = true ∧ matchesAll items' v = true := by
  induction items generalizing t with
  | nil =>
      constructor
      · intro h
        exact ⟨[], t, rfl, rfl, h⟩
      · rintro ⟨u, v, rfl, hu, hv⟩
        rw [matchesAll_nil.1 hu]
        exact hv
  | cons item items ih =>
      cases item with
      | one p =>
          rw [List.cons_append, matchesAll_one]
          constructor
          · rintro ⟨c, w, rfl, hc, hw⟩
            obtain ⟨u, v, rfl, hu, hv⟩ := ih.1 hw
            exact ⟨c :: u, v, rfl, matchesAll_one.2 ⟨c, u, rfl, hc, hu⟩, hv⟩
          · rintro ⟨u, v, rfl, hu, hv⟩
            obtain ⟨c, u, rfl, hc, hu⟩ := matchesAll_one.1 hu
            exact ⟨c, u ++ v, rfl, hc, ih.2 ⟨u, v, rfl, hu, hv⟩⟩
      | star p =>
          rw [List.cons_append, matchesAll_star]
          constructor
          · rintro ⟨s, w, rfl, hs, hw⟩
            obtain ⟨u, v, rfl, hu, hv⟩ := ih.1 hw
            exact ⟨s ++ u, v, (List.append_assoc s u v).symm,
              matchesAll_star.2 ⟨s, u, rfl, hs, hu⟩, hv⟩
          · rintro ⟨u, v, rfl, hu, hv⟩
            obtain ⟨s, u, rfl, hs, hu⟩ := matchesAll_star.1 hu
            exact ⟨s, u ++ v, List.append_assoc s u v, hs, ih.2 ⟨u, v, rfl, hu, hv⟩⟩

theorem validHuman_append_iff {s : Text} :
    validHuman s = true ↔ ∃ u v, s = u ++ v ∧
      (∃ number ∈ numberPatterns, matchesAll number u = true) ∧
      ∃ unit ∈ unitPatterns, matchesAll unit v = true := by
  simp only [validHuman, patterns, List.any_flatMap, List.any_map, List.any_eq_true,
    Function.comp_apply, matchesAll_append]
  constructor
  · rintro ⟨number, hnumber, unit, hunit, u, v, rfl, hu, hv⟩
    exact ⟨u, v, rfl, ⟨number, hnumber, hu⟩, unit, hunit, hv⟩
  · rintro ⟨u, v, rfl, ⟨number, hnumber, hu⟩, unit, hunit, hv⟩
    exact ⟨number, hnumber, unit, hunit, u, v, rfl, hu, hv⟩

theorem number_iff {u : Text} :
    (∃ number ∈ numberPatterns, matchesAll number u = true) ↔
      ∃ (int : Text) (frac : Option (Char × Text)), u = int ++ frac.elim [] (fun p => p.1 :: p.2) ∧
        (∀ c ∈ int, c.isDigit = true) ∧ (frac = none → int ≠ []) ∧
        ∀ p, frac = some p → isSeparator p.1 = true ∧ ∀ c ∈ p.2, c.isDigit = true := by
  simp only [numberPatterns, List.mem_cons, List.not_mem_nil, or_false, exists_eq_or_imp,
    exists_eq_left, matchesAll_one, matchesAll_star, matchesAll_nil]
  constructor
  · rintro (⟨c, v, rfl, hc, w, v', rfl, hw, rfl⟩ |
      ⟨int, v, rfl, hint, c, v', rfl, hc, w, v, rfl, hw, rfl⟩)
    · exact ⟨c :: w, none, by simp, List.forall_mem_cons.2 ⟨hc, hw⟩, fun _ => List.cons_ne_nil _ _,
        fun p hp => (by cases hp)⟩
    · refine ⟨int, some (c, w), by simp, hint, fun h => (by cases h), fun p hp => ?_⟩
      obtain rfl := Option.some.inj hp
      exact ⟨hc, hw⟩
  · rintro ⟨int, frac, rfl, hint, hne, hfrac⟩
    cases frac with
    | none =>
        obtain ⟨c, int, rfl⟩ := List.exists_cons_of_ne_nil (hne rfl)
        obtain ⟨hc, hint⟩ := List.forall_mem_cons.1 hint
        exact .inl ⟨c, int, by simp, hc, int, [], by simp, hint, rfl⟩
    | some p =>
        obtain ⟨hsep, hdigits⟩ := hfrac p rfl
        exact .inr ⟨int, p.1 :: p.2, rfl, hint, p.1, p.2, rfl, hsep, p.2, [], by simp, hdigits, rfl⟩

theorem unit_iff {v : Text} :
    (∃ unit ∈ unitPatterns, matchesAll unit v = true) ↔
      ∃ (blanks : Text) (letter byte : Option Char) (trailing : Text),
        v = blanks ++ (letter.toList ++ (byte.toList ++ trailing)) ∧
        (∀ c ∈ blanks, isBlank c = true) ∧ (∀ c, letter = some c → isUnit c = true) ∧
        (∀ c, byte = some c → isByte c = true) ∧ ∀ c ∈ trailing, isBlank c = true := by
  have hsome : ∀ {p : Char → Bool} {c : Char}, p c = true → ∀ d, some c = some d → p d = true :=
    fun hc d hd => Option.some.inj hd ▸ hc
  have hnone : ∀ {p : Char → Bool} (d : Char), none = some d → p d = true := fun d hd => nomatch hd
  have hnil : ∀ c ∈ ([] : Text), isBlank c = true := fun c hc => absurd hc List.not_mem_nil
  simp only [unitPatterns, List.mem_cons, List.not_mem_nil, or_false, exists_eq_or_imp,
    exists_eq_left, matchesAll_one, matchesAll_star, matchesAll_nil]
  constructor
  · rintro (⟨b, v, rfl, hb, rfl⟩ | ⟨b, v, rfl, hb, c, v', rfl, hc, w, v, rfl, hw, rfl⟩ |
      ⟨b, v, rfl, hb, c, v', rfl, hc, w, v, rfl, hw, rfl⟩ |
      ⟨b, v, rfl, hb, c, v', rfl, hc, d, u, rfl, hd, w, v, rfl, hw, rfl⟩)
    · exact ⟨b, none, none, [], by simp, hb, hnone, hnone, hnil⟩
    · exact ⟨b, none, some c, w, by simp, hb, hnone, hsome hc, hw⟩
    · exact ⟨b, some c, none, w, by simp, hb, hsome hc, hnone, hw⟩
    · exact ⟨b, some c, some d, w, by simp, hb, hsome hc, hsome hd, hw⟩
  · rintro ⟨blanks, letter, byte, trailing, rfl, hblanks, hletter, hbyte, htrailing⟩
    cases letter with
    | none =>
        cases byte with
        | none =>
            refine .inl ⟨blanks ++ trailing, [], by simp, fun c hc => ?_, rfl⟩
            exact (List.mem_append.1 hc).elim (hblanks c) (htrailing c)
        | some d =>
            exact .inr (.inl ⟨blanks, d :: trailing, by simp, hblanks, d, trailing, rfl,
              hbyte d rfl, trailing, [], by simp, htrailing, rfl⟩)
    | some c =>
        cases byte with
        | none =>
            exact .inr (.inr (.inl ⟨blanks, c :: trailing, by simp, hblanks, c, trailing, rfl,
              hletter c rfl, trailing, [], by simp, htrailing, rfl⟩))
        | some d =>
            exact .inr (.inr (.inr ⟨blanks, c :: d :: trailing, by simp, hblanks, c, d :: trailing,
              rfl, hletter c rfl, d, trailing, rfl, hbyte d rfl, trailing, [], by simp, htrailing,
              rfl⟩))

theorem validHuman_iff {s : Text} : validHuman s = true ↔ ∃ h : Human, h.text = s := by
  rw [validHuman_append_iff]
  simp only [number_iff, unit_iff]
  constructor
  · rintro ⟨u, v, rfl, ⟨int, frac, rfl, hint, hne, hfrac⟩, blanks, letter, byte, trailing, rfl,
      hblanks, hletter, hbyte, htrailing⟩
    exact ⟨⟨int, frac, blanks, letter, byte, trailing, hint, hfrac, hblanks, hletter, hbyte,
      htrailing, hne⟩, rfl⟩
  · rintro ⟨h, rfl⟩
    exact ⟨h.number, _, rfl, ⟨h.int, h.frac, rfl, h.int_isDigit, h.int_ne, h.frac_spec⟩, h.blanks,
      h.letter, h.byte, h.trailing, rfl, h.blanks_spec, h.letter_spec, h.byte_spec,
      h.trailing_spec⟩

/-! ## What is computed -/

theorem cutSuffix_append (t suffix : Text) : cutSuffix suffix (t ++ suffix) = t := by
  rw [cutSuffix, if_pos (List.isSuffixOf_iff_suffix.2 (List.suffix_append t suffix)),
    List.length_append, Nat.add_sub_cancel, List.take_left]

theorem cutSuffix_other {d : Char} (h : c ≠ d) : cutSuffix [d] (t ++ [c]) = t ++ [c] := by
  refine if_neg fun hsuffix => h ?_
  obtain ⟨u, hu⟩ := List.isSuffixOf_iff_suffix.1 hsuffix
  exact ((List.append_inj' hu rfl).2 |> List.cons.inj).1.symm

theorem cutPrefix_append (start t : Text) : cutPrefix start (start ++ t) = t := by
  rw [cutPrefix, if_pos (List.isPrefixOf_iff_prefix.2 (List.prefix_append start t)),
    List.drop_left]

theorem cutEnd_append (t : Text) (c : Char) : cutEnd 1 (t ++ [c]) = t := by
  rw [cutEnd, List.length_append, List.length_singleton, if_pos (by omega), Nat.add_sub_cancel,
    List.take_left]

theorem cutSuffix_drop (n : Nat) (t : Text) : cutSuffix (t.drop n) t = t.take n := by
  have happend := cutSuffix_append (t.take n) (t.drop n)
  rwa [List.take_append_drop] at happend

theorem isSeparator_of_isDigit (h : c.isDigit = true) : isSeparator c = false := by
  by_contra hsep
  rw [Bool.not_eq_false, isSeparator, Bool.or_eq_true, beq_iff_eq, beq_iff_eq] at hsep
  rcases hsep with rfl | rfl <;> revert h <;> decide

theorem ofLetter_eq_none (h : c.isDigit = true ∨ isSeparator c = true) :
    Suffix.ofLetter c = Option.none := by
  by_contra hsome
  unfold Suffix.ofLetter at hsome
  split at hsome <;> first | exact hsome rfl | revert h; decide

namespace Human

variable (h : Human)

theorem number_ne_nil : h.number ≠ [] := by
  unfold number
  cases hfrac : h.frac with
  | none => simpa using h.int_ne hfrac
  | some p => simp

theorem number_spec : ∀ c ∈ h.number, c.isDigit = true ∨ isSeparator c = true := by
  intro c hc
  rcases List.mem_append.1 hc with hc | hc
  · exact .inl (h.int_isDigit c hc)
  · cases hfrac : h.frac with
    | none =>
        rw [hfrac] at hc
        exact absurd hc List.not_mem_nil
    | some p =>
        rw [hfrac] at hc
        obtain ⟨hsep, hdigits⟩ := h.frac_spec p hfrac
        rcases List.mem_cons.1 hc with rfl | hc
        · exact .inr hsep
        · exact .inl (hdigits c hc)

theorem number_last : ∃ t c, h.number = t ++ [c] ∧ (c.isDigit = true ∨ isSeparator c = true) := by
  have hlast : h.number.getLast? ≠ none := fun hnone =>
    h.number_ne_nil (List.getLast?_eq_none_iff.1 hnone)
  obtain ⟨c, hc⟩ := Option.ne_none_iff_exists'.1 hlast
  obtain ⟨t, ht⟩ := List.getLast?_eq_some_iff.1 hc
  refine ⟨t, c, ht, h.number_spec c ?_⟩
  rw [ht]
  exact List.mem_append_right _ List.mem_cons_self

/-- The size without its blanks and without its `b`. -/
def bare : Text := h.number ++ h.letter.toList

theorem bare_last : ∃ t c, h.bare = t ++ [c] ∧ isByte c = false := by
  unfold bare
  cases hletter : h.letter with
  | none =>
      obtain ⟨t, c, ht, hc⟩ := h.number_last
      refine ⟨t, c, by rw [ht]; simp, ?_⟩
      by_contra hbyte
      rw [Bool.not_eq_false, isByte, Bool.or_eq_true, beq_iff_eq, beq_iff_eq] at hbyte
      rcases hbyte with rfl | rfl <;> revert hc <;> decide
  | some c =>
      refine ⟨h.number, c, rfl, ?_⟩
      have hunit := h.letter_spec c hletter
      by_contra hbyte
      rw [Bool.not_eq_false, isByte, Bool.or_eq_true, beq_iff_eq, beq_iff_eq] at hbyte
      rcases hbyte with rfl | rfl <;> revert hunit <;> decide

theorem isIfs_bare : ∀ c ∈ h.bare ++ h.byte.toList, isIfs c = false := by
  have hchar : ∀ {c : Char}, (c.isDigit = true ∨ isSeparator c = true) ∨ isUnit c = true ∨
      isByte c = true → isIfs c = false := by
    intro c hc
    by_contra hifs
    rw [Bool.not_eq_false] at hifs
    unfold isIfs at hifs
    simp only [Bool.or_eq_true, beq_iff_eq] at hifs
    rcases hifs with (rfl | rfl) | rfl <;> revert hc <;> decide
  intro c hc
  simp only [bare, List.mem_append, Option.mem_toList] at hc
  rcases hc with (hc | hc) | hc
  · exact hchar (.inl (h.number_spec c hc))
  · exact hchar (.inr (.inl (h.letter_spec c hc)))
  · exact hchar (.inr (.inr (h.byte_spec c hc)))

theorem expand_text : ((expand h.text).take 5).flatten = h.bare ++ h.byte.toList := by
  have hblank : ∀ {t : Text}, (∀ c ∈ t, isBlank c = true) → ∀ c ∈ t, isIfs c = true := by
    intro t ht c hc
    rw [beq_iff_eq.1 (ht c hc)]
    rfl
  have hword : ∀ w : Text, (∀ c ∈ w, isIfs c = false) → expand w = if w = [] then [] else [w] := by
    intro w hw
    split
    · next hnil =>
        rw [hnil]
        rfl
    · next hne => exact expand_word hw hne
  have hifs := h.isIfs_bare
  have hunit : ∀ c ∈ h.letter.toList ++ h.byte.toList, isIfs c = false := by
    intro c hc
    refine hifs c ?_
    rw [bare, List.append_assoc]
    exact List.mem_append_right _ hc
  have hnumber : ∀ c ∈ h.number, isIfs c = false := by
    intro c hc
    refine hifs c ?_
    rw [bare, List.append_assoc]
    exact List.mem_append_left _ hc
  have hbare : h.bare ++ h.byte.toList = h.number ++ (h.letter.toList ++ h.byte.toList) :=
    List.append_assoc _ _ _
  have htext : h.text
      = h.number ++ (h.blanks ++ (h.letter.toList ++ h.byte.toList)) ++ h.trailing := by
    simp [text]
  rw [htext, expand_append_ifs (hblank h.trailing_spec)]
  cases hblanks : h.blanks with
  | nil =>
      have hne : h.bare ++ h.byte.toList ≠ [] := by
        rw [hbare]
        exact List.append_ne_nil_of_left_ne_nil h.number_ne_nil _
      rw [List.nil_append, ← hbare, expand_word hifs hne]
      exact List.append_nil _
  | cons c blanks =>
      obtain ⟨hc, hblanks'⟩ := List.forall_mem_cons.1 (hblank (hblanks ▸ h.blanks_spec))
      rw [List.cons_append, expand_append_cons _ _ hc, expand_word hnumber h.number_ne_nil,
        expand_ifs_append hblanks', hword _ hunit, hbare]
      split
      · next hnil =>
          rw [hnil]
          rfl
      · simp

theorem cutSuffix_byte :
    cutSuffix ['B'] (cutSuffix ['b'] (h.bare ++ h.byte.toList)) = h.bare := by
  obtain ⟨t, c, ht, hc⟩ := h.bare_last
  have hB : c ≠ 'B' := by
    rintro rfl
    nomatch hc
  have hb : c ≠ 'b' := by
    rintro rfl
    nomatch hc
  cases hbyte : h.byte with
  | none =>
      rw [Option.toList_none, List.append_nil, ht, cutSuffix_other hb, cutSuffix_other hB]
  | some d =>
      have hd := h.byte_spec d hbyte
      rw [isByte, Bool.or_eq_true, beq_iff_eq, beq_iff_eq] at hd
      rcases hd with rfl | rfl
      · rw [Option.toList_some, cutSuffix_append, ht, cutSuffix_other hB]
      · rw [Option.toList_some, cutSuffix_other (by decide), cutSuffix_append]

theorem splitSuffix_bare :
    splitSuffix h.bare h.byte.isSome = (h.suffix, h.number) := by
  unfold bare suffix
  cases hletter : h.letter with
  | none =>
      obtain ⟨t, c, ht, hc⟩ := h.number_last
      rw [Option.toList_none, List.append_nil, splitSuffix, ht, cutEnd_append, cutPrefix_append]
      simp only [ofLetter_eq_none hc]
      rfl
  | some c =>
      have hunit := h.letter_spec c hletter
      obtain ⟨suffix, hsuffix⟩ := Option.isSome_iff_exists.1 hunit
      rw [Option.toList_some, splitSuffix, cutEnd_append, cutPrefix_append]
      simp only [hsuffix, cutSuffix_append]
      simp [hsuffix]

theorem cutFraction_number : cutFraction h.number = h.int := by
  unfold number cutFraction
  cases hfrac : h.frac with
  | none =>
      refine (if_neg fun hany => ?_).trans (List.append_nil _)
      obtain ⟨c, hc, hsep⟩ := List.any_eq_true.1 hany
      rw [Option.elim_none, List.append_nil] at hc
      rw [isSeparator_of_isDigit (h.int_isDigit c hc)] at hsep
      nomatch hsep
  | some p =>
      obtain ⟨hsep, hdigits⟩ := h.frac_spec p hfrac
      have hany : (h.int ++ p.1 :: p.2).any isSeparator = true :=
        List.any_eq_true.2 ⟨p.1, List.mem_append_right _ List.mem_cons_self, hsep⟩
      have hnil : p.2.rdropWhile (fun c => !isSeparator c) = [] := by
        refine List.rdropWhile_eq_nil_iff.2 fun c hc => ?_
        rw [isSeparator_of_isDigit (hdigits c hc)]
        rfl
      rw [Option.elim_some, if_pos hany, ← List.singleton_append, ← List.append_assoc,
        Text.rdropWhile_append, if_pos hnil, List.rdropWhile_concat_neg _ _ _ (by simp [hsep]),
        List.dropLast_concat]

theorem cutSeparator_number :
    cutSeparator (cutPrefix (if h.int = [] then ['0'] else h.int) h.number) = h.digits := by
  unfold number digits
  cases hfrac : h.frac with
  | none =>
      rw [if_neg (h.int_ne hfrac), cutPrefix_append]
      rfl
  | some p =>
      obtain ⟨hsep, -⟩ := h.frac_spec p hfrac
      have hdrop : cutSeparator (p.1 :: p.2) = p.2 := if_pos hsep
      split
      · next hnil =>
          have hother : ¬ ['0'].isPrefixOf (p.1 :: p.2) = true := by
            intro hprefix
            obtain ⟨t, ht⟩ := List.isPrefixOf_iff_prefix.1 hprefix
            rw [← (List.cons.inj ht).1] at hsep
            nomatch hsep
          rw [hnil, List.nil_append, Option.elim_some, cutPrefix, if_neg hother, hdrop]
          rfl
      · rw [cutPrefix_append, Option.elim_some, hdrop]
        rfl

theorem digits_isDigit : ∀ c ∈ h.digits, c.isDigit = true := by
  unfold digits
  cases hfrac : h.frac with
  | none => exact fun c hc => absurd hc List.not_mem_nil
  | some p => exact (h.frac_spec p hfrac).2

end Human

theorem number_take {w : Text} (hw : ∀ c ∈ w, c.isDigit = true) {n : Nat} (hn : n ≤ w.length) :
    Text.number (w.take (w.length - n)) = Text.number w / 10 ^ n := by
  have hlt : Text.number (w.drop (w.length - n)) < 10 ^ n := by
    have hdigits := Text.number_lt (w := w.drop (w.length - n)) fun c hc =>
      hw c (List.mem_of_mem_drop hc)
    rwa [List.length_drop, Nat.sub_sub_self hn] at hdigits
  have hsplit := Text.number_append (w.take (w.length - n)) (w.drop (w.length - n))
  rw [List.take_append_drop, List.length_drop, Nat.sub_sub_self hn] at hsplit
  rw [hsplit, Nat.mul_add_div (Nat.pow_pos (by omega)), Nat.div_eq_of_lt hlt, Nat.add_zero]

theorem Human.parts_eq (h : Human) : Text.number h.int * 10000
    + Text.number ((h.digits ++ "0000").take 4) = h.parts := by
  have hw : ∀ c ∈ h.digits ++ "0000", c.isDigit = true := by
    intro c hc
    rcases List.mem_append.1 hc with hc | hc
    · exact h.digits_isDigit c hc
    · exact List.all_eq_true.1 (by decide : "0000".toList.all Char.isDigit = true) c hc
  have hfrac := number_take hw (n := h.digits.length) (by simp)
  have hlength : (h.digits ++ "0000").length - h.digits.length = 4 := by simp
  have hzeros : Text.number "0000" = 0 := rfl
  rw [hlength, Text.number_append, hzeros, Nat.add_zero] at hfrac
  rw [hfrac, Human.parts, Text.number_append, Nat.add_mul, Nat.mul_assoc,
    Nat.mul_add_div (Nat.pow_pos (by omega)), Nat.mul_comm (Text.number h.digits)]
  rfl

theorem expr_eq (int frac : Text) (h : Text.number int < 2 ^ 63)
    (hfrac : Text.number frac < 2 ^ 63) :
    expr int frac = longLong ((Text.number int * 10000 + Text.number frac : Nat) : Int) := by
  have hint : saturate (Text.number int) = Text.number int := by
    unfold saturate
    omega
  have hfrac' : saturate (Text.number frac) = Text.number frac := by
    unfold saturate
    omega
  rw [expr, hint, hfrac', longLong, longLong, longLong, Int.bmod_add_bmod]
  rfl

/-! ## What is printed -/

theorem number_cutEnd (h : ∀ c ∈ t, c.isDigit = true) {n : Nat} (hn : n ≤ t.length) :
    Text.number (cutEnd n t) = Text.number t / 10 ^ n := by
  rw [cutEnd, if_pos hn, number_take h hn]

theorem isDigit_cutEnd (h : ∀ c ∈ t, c.isDigit = true) (n : Nat) :
    ∀ c ∈ cutEnd n t, c.isDigit = true := by
  intro c hc
  unfold cutEnd at hc
  split at hc
  · exact h c (List.mem_of_mem_take hc)
  · exact h c hc

theorem isNumber_iff : isNumber t = true ↔ t ≠ [] ∧ ∀ c ∈ t, c.isDigit = true := by
  rw [isNumber, Bool.and_eq_true, Bool.not_eq_true', List.isEmpty_eq_false_iff, List.all_eq_true]

theorem prints_iff (h : ∀ c ∈ t, c.isDigit = true) {value : Nat} :
    Prints (some t) value ↔ t ≠ [] ∧ Text.number t = value := by
  constructor
  · rintro ⟨t', heq, hnumber, hvalue⟩
    obtain rfl := Option.some.inj heq
    refine ⟨?_, hvalue⟩
    rintro rfl
    nomatch hnumber
  · rintro ⟨hne, hvalue⟩
    exact ⟨t, rfl, isNumber_iff.2 ⟨hne, h⟩, hvalue⟩

theorem number_zeros (n : Nat) : Text.number (List.replicate n '0') = 0 := by
  induction n with
  | zero => rfl
  | succ n ih =>
      rw [List.replicate_succ, ← List.singleton_append, Text.number_append, ih]
      rfl

theorem prints_zeros (x n value : Nat) :
    Prints (some (Nat.toDigits 10 x ++ List.replicate n '0')) value ↔
      x * 10 ^ (n + 4) / 10 ^ 4 = value := by
  have hdigit : ∀ c ∈ Nat.toDigits 10 x ++ List.replicate n '0', c.isDigit = true := by
    intro c hc
    rcases List.mem_append.1 hc with hc | hc
    · exact Nat.isDigit_of_mem_toDigits (by decide) (by decide) hc
    · rw [List.eq_of_mem_replicate hc]
      rfl
  rw [prints_iff hdigit, Text.number_append, number_zeros, List.length_replicate,
    Text.number_toDigits, Nat.add_zero, Nat.pow_add, ← Nat.mul_assoc,
    Nat.mul_div_cancel _ (by decide), Nat.mul_comm]
  exact and_iff_right (List.append_ne_nil_of_left_ne_nil Nat.toDigits_ne_nil _)

theorem prints_byte (x value : Nat) : Prints (some (toBytes .byte (Nat.toDigits 10 x))) value ↔
    (if x < 1000 then x else x / 10 ^ 4) = value := by
  have hdigit : ∀ c ∈ Nat.toDigits 10 x, c.isDigit = true := fun c hc =>
    Nat.isDigit_of_mem_toDigits (by decide) (by decide) hc
  have hlength : (Nat.toDigits 10 x).length ≤ 3 ↔ x < 1000 :=
    Nat.length_toDigits_le_iff (by decide) (by decide)
  rw [toBytes]
  by_cases hx : x < 1000
  · have hshort := hlength.2 hx
    have hcut : cutEnd 4 (Nat.toDigits 10 x) = Nat.toDigits 10 x := if_neg (by omega)
    rw [hcut, if_neg Nat.toDigits_ne_nil, prints_iff hdigit, if_pos hx, Text.number_toDigits]
    exact and_iff_right Nat.toDigits_ne_nil
  · have hlong : 4 ≤ (Nat.toDigits 10 x).length := by
      by_contra hlong
      exact hx (hlength.1 (by omega))
    have hvalue := number_cutEnd hdigit hlong
    rw [Text.number_toDigits] at hvalue
    rw [if_neg hx]
    split
    · next hnil =>
        rw [hnil] at hvalue
        rw [prints_iff (List.all_eq_true.1 (by decide)), ← hvalue]
        exact and_iff_right (by decide)
    · next hne =>
        rw [prints_iff (isDigit_cutEnd hdigit 4), hvalue]
        exact and_iff_right hne

theorem prints_kilo (x value : Nat) : Prints (some (toBytes .kilo (Nat.toDigits 10 x))) value ↔
    10 ≤ x ∧ x / 10 = value := by
  have hdigit : ∀ c ∈ Nat.toDigits 10 x, c.isDigit = true := fun c hc =>
    Nat.isDigit_of_mem_toDigits (by decide) (by decide) hc
  have hlength : (Nat.toDigits 10 x).length ≤ 1 ↔ x < 10 :=
    Nat.length_toDigits_le_iff (by decide) (by decide)
  have hpos : 1 ≤ (Nat.toDigits 10 x).length := Nat.length_toDigits_pos
  rw [toBytes, prints_iff (isDigit_cutEnd hdigit 1), number_cutEnd hdigit hpos, Text.number_toDigits]
  refine and_congr ?_ Iff.rfl
  rw [cutEnd, if_pos hpos, Ne, List.take_eq_nil_iff]
  have hne : Nat.toDigits 10 x ≠ [] := Nat.toDigits_ne_nil
  simp only [hne, or_false]
  omega

/-- What becomes of a number of ten-thousandths. Bytes are right if there are none or at least a
tenth, and kilobytes have to be at least a thousandth. -/
theorem prints_toBytes (suffix : Suffix) (x value : Nat) :
    Prints (some (toBytes suffix (Nat.toDigits 10 x))) value ↔
      (suffix = .kilo → 10 ≤ x) ∧
      (if suffix = .byte ∧ x < 1000 then x else x * suffix.unit / 10 ^ 4) = value := by
  cases suffix with
  | byte => simpa [Suffix.unit] using prints_byte x value
  | kilo =>
      have hkilo : x * Suffix.kilo.unit / 10 ^ 4 = x / 10 := by
        rw [Suffix.unit]
        omega
      rw [prints_kilo, if_neg (fun h => nomatch h.1)]
      rw [hkilo]
      exact and_congr_left' ⟨fun h _ => h, fun h => h rfl⟩
  | mega => simpa [Suffix.unit, toBytes] using prints_zeros x 2 value
  | giga => simpa [Suffix.unit, toBytes] using prints_zeros x 5 value
  | tera => simpa [Suffix.unit, toBytes] using prints_zeros x 8 value
  | none => simpa [Suffix.unit, toBytes] using prints_zeros x 2 value

theorem toBytes_neg (suffix : Suffix) (hx : x < 0) :
    toBytes suffix (ofInt x) = [] ∨ toBytes suffix (ofInt x) = ['0'] ∨
      ∃ u, toBytes suffix (ofInt x) = '-' :: u := by
  obtain ⟨t, ht⟩ : ∃ t, ofInt x = '-' :: t := ⟨_, (ofInt_eq _).trans (if_neg (by omega))⟩
  have hcut : ∀ n, cutEnd n ('-' :: t) = [] ∨ ∃ u, cutEnd n ('-' :: t) = '-' :: u := by
    intro n
    unfold cutEnd
    split
    · cases (('-' :: t).length - n) with
      | zero => exact .inl rfl
      | succ m => exact .inr ⟨t.take m, rfl⟩
    · exact .inr ⟨t, rfl⟩
  rw [ht]
  cases suffix with
  | byte =>
      rw [toBytes]
      rcases hcut 4 with hnil | ⟨u, hu⟩
      · exact .inr (.inl (if_pos hnil))
      · rw [hu, if_neg (List.cons_ne_nil _ _)]
        exact .inr (.inr ⟨u, rfl⟩)
  | kilo =>
      rw [toBytes]
      rcases hcut 1 with hnil | ⟨u, hu⟩
      · exact .inl hnil
      · exact .inr (.inr ⟨u, hu⟩)
  | mega => exact .inr (.inr ⟨_, rfl⟩)
  | giga => exact .inr (.inr ⟨_, rfl⟩)
  | tera => exact .inr (.inr ⟨_, rfl⟩)
  | none => exact .inr (.inr ⟨_, rfl⟩)

theorem prints_neg {suffix : Suffix} (hx : x < 0) {value : Nat}
    (h : Prints (some (toBytes suffix (ofInt x))) value) : value = 0 := by
  obtain ⟨t, heq, hnumber, hvalue⟩ := h
  obtain rfl := Option.some.inj heq
  rcases toBytes_neg suffix hx with hnil | hzero | ⟨u, hu⟩
  · rw [hnil] at hnumber
    cases hnumber
  · rw [hzero] at hvalue
    exact hvalue.symm
  · rw [hu] at hnumber
    cases hnumber

namespace Human

variable (h : Human)

theorem number_frac_lt : Text.number ((h.digits ++ "0000").take 4) < 2 ^ 63 := by
  refine Nat.lt_of_lt_of_le (Text.number_lt fun c hc => ?_)
    (Nat.pow_le_pow_right (by decide) (List.length_take_le 4 _) |>.trans (by decide))
  rcases List.mem_append.1 (List.mem_of_mem_take hc) with hc | hc
  · exact h.digits_isDigit c hc
  · exact List.all_eq_true.1 (by decide : "0000".toList.all Char.isDigit = true) c hc

theorem number_int_or_zero :
    Text.number (if h.int = [] then ['0'] else h.int) = Text.number h.int := by
  split
  · next hnil =>
      rw [hnil]
      rfl
  · rfl

theorem human2longint_expr (errexit : Bool)
    (hx : expr (if h.int = [] then ['0'] else h.int) ((h.digits ++ "0000").take 4) = x) :
    human2longint errexit h.text = if errexit ∧ x = 0 then Option.none
      else some (toBytes h.suffix (ofInt x)) := by
  have hgotb : decide (h.bare ≠ h.bare ++ h.byte.toList) = h.byte.isSome := by
    cases h.byte with
    | none => simp
    | some c => simp
  have hzero : (if cutFraction h.number = [] then ['0'] else cutFraction h.number)
      = if h.int = [] then ['0'] else h.int := by
    rw [h.cutFraction_number]
  simp only [human2longint, h.expand_text, h.cutSuffix_byte, hgotb, h.splitSuffix_bare, hzero,
    h.cutSeparator_number, cutSuffix_drop, hx]

theorem human2longint_text (errexit : Bool) (hint : Text.number h.int < 2 ^ 63) :
    human2longint errexit h.text = if errexit ∧ longLong h.parts = 0 then Option.none
      else some (toBytes h.suffix (ofInt (longLong h.parts))) := by
  have hexpr := expr_eq (if h.int = [] then ['0'] else h.int) _
    (h.number_int_or_zero ▸ hint) h.number_frac_lt
  rw [h.number_int_or_zero, h.parts_eq] at hexpr
  exact h.human2longint_expr errexit hexpr

theorem prints_fits (errexit : Bool) (hparts : h.parts < 2 ^ 63)
    (hint : Text.number h.int < 2 ^ 63) :
    Prints (human2longint errexit h.text) h.bytes ↔ (errexit = true → h.parts ≠ 0) ∧
      (h.suffix = .byte → h.parts = 0 ∨ 1000 ≤ h.parts) ∧ (h.suffix = .kilo → 10 ≤ h.parts) := by
  have hlong : longLong h.parts = h.parts := longLong_eq (by omega) (by omega)
  rw [h.human2longint_text errexit hint, hlong]
  split
  · next hzero =>
      refine iff_of_false (fun ⟨t, ht, _⟩ => nomatch ht) fun ⟨hne, _⟩ => ?_
      exact hne hzero.1 (by omega)
  · next hne =>
      have hexit : errexit = true → h.parts ≠ 0 := fun herrexit hzero =>
        hne ⟨herrexit, by omega⟩
      have hdigits : ofInt (h.parts : Int) = Nat.toDigits 10 h.parts := Nat.toList_repr
      rw [hdigits, prints_toBytes, bytes, and_iff_right hexit, and_comm]
      refine and_congr ?_ Iff.rfl
      split
      · next hbyte =>
          rw [hbyte.1, Suffix.unit, Nat.mul_one, Nat.div_eq_of_lt (by omega)]
          constructor
          · intro hzero _
            exact .inl hzero
          · intro hor
            exact (hor rfl).resolve_right (by omega)
      · next hbyte =>
          refine iff_of_true rfl fun heq => .inr ?_
          by_contra hlt
          exact hbyte ⟨heq, by omega⟩

theorem not_prints_overflow (errexit : Bool) (hparts : 2 ^ 63 ≤ h.parts)
    (hint : Text.number h.int < 2 ^ 63) :
    ¬ Prints (human2longint errexit h.text) h.bytes := by
  have hunit : h.parts / 10 ^ 4 ≤ h.bytes :=
    Nat.div_le_div_right (Nat.le_mul_of_pos_right _ (by cases h.suffix <;> decide))
  intro hprints
  rw [h.human2longint_text errexit hint] at hprints
  split at hprints
  · obtain ⟨t, ht, -⟩ := hprints
    nomatch ht
  · rcases Int.lt_or_le (longLong h.parts) 0 with hneg | hpos
    · have hzero := prints_neg hneg hprints
      omega
    · obtain ⟨x, hx⟩ := Int.eq_ofNat_of_zero_le hpos
      have hless : x + 2 ^ 64 ≤ h.parts := by
        rw [longLong, Int.bmod_def] at hx
        split at hx <;> omega
      have hdigits : ofInt (x : Int) = Nat.toDigits 10 x := Nat.toList_repr
      rw [hx, hdigits, prints_toBytes] at hprints
      obtain ⟨-, hvalue⟩ := hprints
      split at hvalue
      · omega
      · have hmul : x * h.suffix.unit + 2 ^ 64 * h.suffix.unit ≤ h.parts * h.suffix.unit := by
          rw [← Nat.add_mul]
          exact Nat.mul_le_mul_right _ hless
        have hpos : 1 ≤ h.suffix.unit := by cases h.suffix <;> decide
        rw [bytes] at hvalue
        omega

end Human

/-- `human2longint` prints the size of what `valid_human` accepts exactly if its ten-thousandths
fit into 64 bits with a sign, if under `set -e` there is at least one, and if there are enough of
them to be cut: for bytes none or a thousand, and for kilobytes ten. -/
theorem human2longint_iff {s : Text} (hvalid : validHuman s = true) (errexit : Bool) :
    (∃ h : Human, h.text = s) ∧ ∀ h : Human, h.text = s → h.bytes < 2 ^ 63 →
      (Prints (human2longint errexit s) h.bytes ↔ h.parts < 2 ^ 63 ∧
        (errexit = true → h.parts ≠ 0) ∧ (h.suffix = .byte → h.parts = 0 ∨ 1000 ≤ h.parts) ∧
        (h.suffix = .kilo → 10 ≤ h.parts)) := by
  refine ⟨validHuman_iff.1 hvalid, ?_⟩
  rintro h rfl hbytes
  have hint : Text.number h.int < 2 ^ 63 := by
    have hparts : Text.number h.int * 10000 ≤ h.parts := by
      rw [← h.parts_eq]
      omega
    have hunit : h.parts / 10 ^ 4 ≤ h.bytes :=
      Nat.div_le_div_right (Nat.le_mul_of_pos_right _ (by cases h.suffix <;> decide))
    omega
  by_cases hparts : h.parts < 2 ^ 63
  · rw [h.prints_fits errexit hparts hint, and_iff_right hparts]
  · exact iff_of_false (h.not_prints_overflow errexit (by omega) hint) fun hcond => hparts hcond.1

/-- Three and a half megabytes. -/
def megabytes : Human :=
  ⟨['3'], some ('.', ['5']), [], none, none, [], List.all_eq_true.1 (by decide),
    fun p hp => by cases hp; exact ⟨by decide, List.all_eq_true.1 (by decide)⟩, nofun, nofun,
    nofun, nofun, nofun⟩

theorem human2longint_megabytes : Prints (human2longint false "3.5") 3500000 := by
  have hiff := (human2longint_iff (s := "3.5") (by decide) false).2 megabytes rfl (by decide)
  exact hiff.2 ⟨by decide, by decide, by decide, by decide⟩

/-- Five hundredths of a byte. -/
def fewBytes : Human :=
  ⟨['0'], some ('.', ['0', '5']), [], none, some 'B', [], List.all_eq_true.1 (by decide),
    fun p hp => by cases hp; exact ⟨by decide, List.all_eq_true.1 (by decide)⟩, nofun, nofun,
    fun c hc => by cases hc; decide, nofun, nofun⟩

/-- They become five hundred bytes. -/
theorem human2longint_fewBytes : ∃ h : Human, h.text = "0.05B" ∧
    validHuman "0.05B" = true ∧ h.bytes = 0 ∧
    human2longint false "0.05B" = some "500".toList ∧
    ¬ Prints (human2longint false "0.05B") h.bytes := by
  refine ⟨fewBytes, rfl, by decide, by decide, by decide, ?_⟩
  rintro ⟨t, ht, -, hvalue⟩
  have ht' : t = "500" := Option.some.inj (ht.symm.trans (by decide))
  rw [ht'] at hvalue
  revert hvalue
  decide

end DebianInstaller.Partman
