import DebianInstaller.Lib.Nearest
import DebianInstaller.Partman.Human

/-!
# Sizes as they are shown

`longint2human` writes a number of bytes with one digit behind the separator. It goes by the
number of digits: it cuts them off down to hundredths of the unit, adds five and cuts one more
off. `human2longint` makes a number of bytes from that again, which is the multiple of a tenth
of the unit nearest to the number, as long as the arithmetic of `expr` has room for it. A tenth
of the unit divides the power of ten at which the next unit begins, so the order is kept.
-/

namespace DebianInstaller.Partman

open Text Lib

variable {c : Char} {n x : Nat}

/-! ## The code -/

/-- `%i` of `printf`. What is no number counts as zero. -/
def printInt : Text → Text
  | '-' :: w => if isNumber w then ofInt (-number w) else ['0']
  | w => if isNumber w then ofInt (number w) else ['0']

/-- `printf "%i%s%i %s\n"`, without the end of the line. Words that are missing are empty. -/
def printSize (words : List Text) : Text :=
  printInt (words.getD 0 []) ++ (words.getD 1 [] ++
    (printInt (words.getD 2 []) ++ ' ' :: words.getD 3 []))

/-- `$(($longint + 5))`. The shell reads a number of 64 bits, and one that has more counts as
zero; the sum has a sign. -/
def addFive (longint : Text) : Int :=
  longLong ((if number longint < 2 ^ 64 then number longint else 0 : Nat) + 5)

/-- The `case` for the number of digits. -/
def chooseSuffix (arg : Text) : Text × Text :=
  match arg.length with
  | 1 | 2 | 3 => ("B", arg ++ "00")
  | 4 | 5 | 6 => ("kB", cutEnd 1 arg)
  | 7 | 8 | 9 => ("MB", cutEnd 4 arg)
  | 10 | 11 | 12 => ("GB", cutEnd 7 arg)
  | _ => ("TB", cutEnd 10 arg)

/-- `longint2human` for a numeral without zeros in front, where the environment has `deci`. -/
def longint2human (deci arg : Text) : Text :=
  let deci := if deci = [] then ['.'] else deci
  let (suffix, longint) := chooseSuffix arg
  let longint := cutEnd 1 (ofInt (addFive longint))
  let int := cutEnd 1 longint
  let frac := cutPrefix int longint
  printSize ([int, deci, frac, suffix].filter (· ≠ []))

/-! ## What is shown -/

/-- The unit for a number of bytes. -/
def shownSuffix (x : Nat) : Suffix :=
  if x < 10 ^ 3 then .byte
  else if x < 10 ^ 6 then .kilo
  else if x < 10 ^ 9 then .mega
  else if x < 10 ^ 12 then .giga
  else .tera

/-- The letter of a unit that has one. -/
def Suffix.letter : Suffix → Option Char
  | .none => Option.none
  | .byte => Option.none
  | .kilo => some 'k'
  | .mega => some 'M'
  | .giga => some 'G'
  | .tera => some 'T'

/-- The hundredths and the tenths of the unit. -/
def hundredths (x : Nat) : Nat := x * 100 / (shownSuffix x).unit

def tenths (x : Nat) : Nat := (hundredths x + 5) / 10

/-- The steps between the sizes that are shown. -/
def step : Suffix → Nat
  | .byte => 1
  | suffix => suffix.unit / 10

theorem isDigit_toDigits (n : Nat) : ∀ c ∈ Nat.toDigits 10 n, c.isDigit = true := fun _ hc =>
  Nat.isDigit_of_mem_toDigits (by decide) (by decide) hc

theorem byte_isByte : ∀ c, some 'B' = some c → isByte c = true := by
  intro c hc
  obtain rfl := Option.some.inj hc
  rfl

theorem nothing_isBlank : ∀ c ∈ ([] : Text), isBlank c = true := by
  intro c hc
  cases hc

/-- A number of bytes with one digit behind the separator. -/
def shown {c : Char} (hc : isSeparator c = true) (x : Nat) : Human where
  int := Nat.toDigits 10 (tenths x / 10)
  frac := some (c, Nat.toDigits 10 (tenths x % 10))
  blanks := [' ']
  letter := (shownSuffix x).letter
  byte := some 'B'
  trailing := []
  int_isDigit := isDigit_toDigits _
  frac_spec := by
    intro p hp
    obtain rfl := Option.some.inj hp
    exact ⟨hc, isDigit_toDigits _⟩
  blanks_spec := by
    intro c hc
    rw [List.mem_singleton.mp hc]
    rfl
  letter_spec := by
    intro c hc
    cases hsuffix : shownSuffix x <;> rw [hsuffix] at hc <;> cases hc <;> rfl
  byte_spec := byte_isByte
  trailing_spec := nothing_isBlank
  int_ne := nofun

/-! ## Numerals -/

theorem toDigits_split (k : Nat) (h : 10 ^ k ≤ n) :
    ∃ u, u.length = k ∧ Nat.toDigits 10 n = Nat.toDigits 10 (n / 10 ^ k) ++ u := by
  induction k with
  | zero => exact ⟨[], rfl, by rw [Nat.pow_zero, Nat.div_one, List.append_nil]⟩
  | succ k ih =>
      obtain ⟨u, hlength, hu⟩ := ih ((Nat.pow_le_pow_right (by decide) (Nat.le_succ k)).trans h)
      have hten : 10 ≤ n / 10 ^ k := by
        rw [Nat.le_div_iff_mul_le (Nat.pow_pos (by decide)), Nat.mul_comm, ← Nat.pow_succ]
        exact h
      refine ⟨Nat.digitChar (n / 10 ^ k % 10) :: u, by rw [List.length_cons, hlength], ?_⟩
      rw [hu, Nat.toDigits_of_base_le (by decide) hten, Nat.div_div_eq_div_mul, ← Nat.pow_succ,
        List.append_assoc, List.singleton_append]

theorem cutEnd_toDigits {k : Nat} (h : 10 ^ k ≤ n) :
    cutEnd k (Nat.toDigits 10 n) = Nat.toDigits 10 (n / 10 ^ k) := by
  obtain ⟨u, hlength, hu⟩ := toDigits_split k h
  rw [hu, cutEnd, List.length_append, hlength, if_pos (Nat.le_add_left _ _), Nat.add_sub_cancel,
    List.take_left]

theorem toDigits_zeros (h : 0 < n) : Nat.toDigits 10 n ++ "00" = Nat.toDigits 10 (n * 100) := by
  have hzero : "00" = Nat.toDigits 10 0 ++ Nat.toDigits 10 0 := rfl
  rw [hzero, ← List.append_assoc, Nat.toDigits_append_toDigits (by decide) h (by decide),
    Nat.toDigits_append_toDigits (by decide) (by omega) (by decide)]
  exact congrArg _ (by omega)

theorem ofInt_natCast (n : Nat) : ofInt (n : Int) = Nat.toDigits 10 n := Nat.toList_repr

theorem isNumber_toDigits (n : Nat) : isNumber (Nat.toDigits 10 n) = true :=
  isNumber_iff.mpr ⟨Nat.toDigits_ne_nil, isDigit_toDigits n⟩

theorem printInt_toDigits (n : Nat) : printInt (Nat.toDigits 10 n) = Nat.toDigits 10 n := by
  unfold printInt
  split
  · next w heq =>
      have hminus := isDigit_toDigits n '-' (heq ▸ List.mem_cons_self)
      cases hminus
  · rw [if_pos (isNumber_toDigits n), Text.number_toDigits, ofInt_natCast]

/-! ## What is printed -/

theorem length_toDigits_le {k : Nat} (hk : 0 < k) : (Nat.toDigits 10 n).length ≤ k ↔ n < 10 ^ k :=
  Nat.length_toDigits_le_iff (by decide) hk

theorem shownSuffix_cases (x : Nat) : (shownSuffix x = .byte ∧ x < 10 ^ 3) ∨
    (shownSuffix x = .kilo ∧ 10 ^ 3 ≤ x ∧ x < 10 ^ 6) ∨
    (shownSuffix x = .mega ∧ 10 ^ 6 ≤ x ∧ x < 10 ^ 9) ∨
    (shownSuffix x = .giga ∧ 10 ^ 9 ≤ x ∧ x < 10 ^ 12) ∨
    (shownSuffix x = .tera ∧ 10 ^ 12 ≤ x) := by
  unfold shownSuffix
  split_ifs <;> simp only [false_and, true_and, false_or, or_false] <;> omega

/-- The text of a suffix. -/
def Suffix.text (suffix : Suffix) : Text := suffix.letter.toList ++ ['B']

/-- The unit is chosen by the number of digits, and the digits that are left are its
hundredths. -/
theorem chooseSuffix_toDigits (hx : 0 < x) : chooseSuffix (Nat.toDigits 10 x) =
    ((shownSuffix x).text, Nat.toDigits 10 (hundredths x)) := by
  have hpos : 0 < (Nat.toDigits 10 x).length := Nat.length_toDigits_pos
  have hB := length_toDigits_le (n := x) (k := 3) (by decide)
  have hkB := length_toDigits_le (n := x) (k := 6) (by decide)
  have hMB := length_toDigits_le (n := x) (k := 9) (by decide)
  have hGB := length_toDigits_le (n := x) (k := 12) (by decide)
  unfold hundredths
  rcases shownSuffix_cases x with ⟨h, hlt⟩ | ⟨h, hge, hlt⟩ | ⟨h, hge, hlt⟩ | ⟨h, hge, hlt⟩ |
    ⟨h, hge⟩
  · have hvalue : x * 100 / Suffix.byte.unit = x * 100 := Nat.div_one _
    have hlength : (Nat.toDigits 10 x).length = 1 ∨ (Nat.toDigits 10 x).length = 2 ∨
        (Nat.toDigits 10 x).length = 3 := by omega
    rw [h, hvalue, ← toDigits_zeros hx]
    rcases hlength with h | h | h <;> rw [chooseSuffix, h] <;> rfl
  · have hvalue : x * 100 / Suffix.kilo.unit = x / 10 ^ 1 := by
      rw [Suffix.unit]
      omega
    have hlength : (Nat.toDigits 10 x).length = 4 ∨ (Nat.toDigits 10 x).length = 5 ∨
        (Nat.toDigits 10 x).length = 6 := by omega
    rw [h, hvalue, ← cutEnd_toDigits (by omega)]
    rcases hlength with h | h | h <;> rw [chooseSuffix, h] <;> rfl
  · have hvalue : x * 100 / Suffix.mega.unit = x / 10 ^ 4 := by
      rw [Suffix.unit]
      omega
    have hlength : (Nat.toDigits 10 x).length = 7 ∨ (Nat.toDigits 10 x).length = 8 ∨
        (Nat.toDigits 10 x).length = 9 := by omega
    rw [h, hvalue, ← cutEnd_toDigits (by omega)]
    rcases hlength with h | h | h <;> rw [chooseSuffix, h] <;> rfl
  · have hvalue : x * 100 / Suffix.giga.unit = x / 10 ^ 7 := by
      rw [Suffix.unit]
      omega
    have hlength : (Nat.toDigits 10 x).length = 10 ∨ (Nat.toDigits 10 x).length = 11 ∨
        (Nat.toDigits 10 x).length = 12 := by omega
    rw [h, hvalue, ← cutEnd_toDigits (by omega)]
    rcases hlength with h | h | h <;> rw [chooseSuffix, h] <;> rfl
  · have hvalue : x * 100 / Suffix.tera.unit = x / 10 ^ 10 := by
      rw [Suffix.unit]
      omega
    obtain ⟨m, hm⟩ : ∃ m, (Nat.toDigits 10 x).length = m + 13 :=
      ⟨(Nat.toDigits 10 x).length - 13, by omega⟩
    rw [h, hvalue, ← cutEnd_toDigits (by omega), chooseSuffix, hm]
    rfl

theorem addFive_toDigits (h : n + 5 < 2 ^ 63) : addFive (Nat.toDigits 10 n) = (n + 5 : Nat) := by
  rw [addFive, Text.number_toDigits, if_pos (by omega)]
  exact longLong_eq (by omega) (by omega)

theorem hundredths_ge (hx : 0 < x) : 100 ≤ hundredths x := by
  unfold hundredths
  rcases shownSuffix_cases x with ⟨h, h'⟩ | ⟨h, h'⟩ | ⟨h, h'⟩ | ⟨h, h'⟩ | ⟨h, h'⟩ <;>
    rw [h, Suffix.unit] <;> omega

theorem longint2human_shown (deci : Text) (hc : isSeparator c = true)
    (hdeci : (if deci = [] then ['.'] else deci) = [c]) (hx : 0 < x)
    (hhi : hundredths x + 5 < 2 ^ 63) :
    longint2human deci (Nat.toDigits 10 x) = (shown hc x).text := by
  have hlo := hundredths_ge hx
  have hlongint : cutEnd 1 (ofInt (addFive (Nat.toDigits 10 (hundredths x)))) =
      Nat.toDigits 10 (tenths x) := by
    rw [addFive_toDigits hhi, ofInt_natCast, cutEnd_toDigits (by omega)]
    rfl
  have hten : 10 ≤ tenths x := by
    unfold tenths
    omega
  have hint : cutEnd 1 (Nat.toDigits 10 (tenths x)) = Nat.toDigits 10 (tenths x / 10) :=
    cutEnd_toDigits hten
  have hfrac : cutPrefix (Nat.toDigits 10 (tenths x / 10)) (Nat.toDigits 10 (tenths x)) =
      Nat.toDigits 10 (tenths x % 10) := by
    rw [Nat.toDigits_of_base_le (by decide) hten, cutPrefix_append,
      Nat.toDigits_of_lt_base (Nat.mod_lt _ (by decide))]
  have hwords : [Nat.toDigits 10 (tenths x / 10), [c], Nat.toDigits 10 (tenths x % 10),
      (shownSuffix x).text].filter (· ≠ []) = [Nat.toDigits 10 (tenths x / 10), [c],
        Nat.toDigits 10 (tenths x % 10), (shownSuffix x).text] := by
    refine List.filter_eq_self.mpr ?_
    simp [Suffix.text, Nat.toDigits_ne_nil]
  simp only [longint2human, hdeci, chooseSuffix_toDigits hx, hlongint, hint, hfrac, hwords]
  simp [printSize, printInt_toDigits, Human.text, Human.number, shown, Suffix.text]

theorem hundredths_lt (hlt : x < 10 ^ 28) : hundredths x < 10 ^ 18 := by
  unfold hundredths
  rcases shownSuffix_cases x with ⟨h, h'⟩ | ⟨h, h'⟩ | ⟨h, h'⟩ | ⟨h, h'⟩ | ⟨h, h'⟩ <;>
    rw [h, Suffix.unit] <;> omega

theorem longint2human_toDigits {deci : Text} (hc : isSeparator c = true)
    (hdeci : (if deci = [] then ['.'] else deci) = [c]) (hx : 0 < x) (hlt : x < 10 ^ 28) :
    longint2human deci (Nat.toDigits 10 x) = (shown hc x).text := by
  have hhi := hundredths_lt hlt
  exact longint2human_shown deci hc hdeci hx (by omega)

/-! ## What comes back -/

section

variable {c : Char} (hc : isSeparator c = true) (x : Nat)

theorem suffix_shown : (shown hc x).suffix = shownSuffix x := by
  change ((shownSuffix x).letter.bind Suffix.ofLetter).getD .byte = shownSuffix x
  rcases shownSuffix_cases x with ⟨h, -⟩ | ⟨h, -⟩ | ⟨h, -⟩ | ⟨h, -⟩ | ⟨h, -⟩ <;> rw [h] <;> rfl

theorem length_digits_shown : (shown hc x).digits.length = 1 :=
  congrArg List.length (Nat.toDigits_of_lt_base (Nat.mod_lt (tenths x) (by decide)))

theorem parts_shown : (shown hc x).parts = tenths x * 1000 := by
  have hlength := length_digits_shown hc x
  have hint : Text.number (shown hc x).int = tenths x / 10 := Text.number_toDigits _
  have hdigits : Text.number (shown hc x).digits = tenths x % 10 := Text.number_toDigits _
  rw [Human.parts, Text.number_append, hlength, hint, hdigits]
  omega

theorem bytes_shown : (shown hc x).bytes = nearest (step (shownSuffix x)) x := by
  rw [Human.bytes, parts_shown, suffix_shown, tenths, hundredths]
  rcases shownSuffix_cases x with ⟨h, -⟩ | ⟨h, -⟩ | ⟨h, -⟩ | ⟨h, -⟩ | ⟨h, -⟩
  · rw [h, step, nearest_of_dvd (one_dvd x), Suffix.unit]
    omega
  · have hstep : step .kilo = 10 * 10 ^ 1 := rfl
    rw [h, hstep, ← nearest_of_cut _ (by decide) (by decide), Suffix.unit]
    omega
  · have hstep : step .mega = 10 * 10 ^ 4 := rfl
    rw [h, hstep, ← nearest_of_cut _ (by decide) (by decide), Suffix.unit]
    omega
  · have hstep : step .giga = 10 * 10 ^ 7 := rfl
    rw [h, hstep, ← nearest_of_cut _ (by decide) (by decide), Suffix.unit]
    omega
  · have hstep : step .tera = 10 * 10 ^ 10 := rfl
    rw [h, hstep, ← nearest_of_cut _ (by decide) (by decide), Suffix.unit]
    omega

end

theorem expr_lt (int frac : Text) : expr int frac < 2 ^ 63 :=
  Int.bmod_lt (m := 2 ^ 64) (by decide)

theorem human2longint_eq (errexit : Bool) (t : Text) : ∃ suffix int frac,
    human2longint errexit t = if errexit ∧ expr int frac = 0 then none
      else some (toBytes suffix (ofInt (expr int frac))) :=
  ⟨_, _, _, rfl⟩

theorem human2longint_lt {errexit : Bool} {t : Text} {value : Nat}
    (h : Prints (human2longint errexit t) value) : value < 2 ^ 63 * 10 ^ 8 := by
  obtain ⟨suffix, int, frac, heq⟩ := human2longint_eq errexit t
  have hx := expr_lt int frac
  generalize expr int frac = x at heq hx
  rw [heq] at h
  split at h
  · obtain ⟨t, ht, -⟩ := h
    nomatch ht
  · rcases Int.lt_or_le x 0 with hneg | hpos
    · rw [prints_neg hneg h]
      decide
    · obtain ⟨n, rfl⟩ := Int.eq_ofNat_of_zero_le hpos
      have hunit : suffix.unit ≤ 10 ^ 12 := by cases suffix <;> decide
      have hmul := Nat.mul_le_mul_left n hunit
      rw [ofInt_natCast, prints_toBytes] at h
      rw [← h.2]
      split <;> omega

theorem Prints.unique {out : Option Text} {v w : Nat} (hv : Prints out v) (hw : Prints out w) :
    v = w := by
  obtain ⟨t, rfl, -, rfl⟩ := hv
  obtain ⟨u, hu, -, rfl⟩ := hw
  rw [Option.some.inj hu]

theorem Human.eq_of_text_eq {h h' : Human} (heq : h.text = h'.text) :
    h.suffix = h'.suffix ∧ h.digits = h'.digits := by
  have hwhole : h.bare ++ h.byte.toList = h'.bare ++ h'.byte.toList := by
    rw [← h.expand_text, ← h'.expand_text, heq]
  have hbare : h.bare = h'.bare := by
    rw [← h.cutSuffix_byte, ← h'.cutSuffix_byte, hwhole]
  have hbyte : h.byte = h'.byte := by
    rw [hbare] at hwhole
    have hhead := congrArg List.head? (List.append_cancel_left hwhole)
    rwa [Option.head?_toList, Option.head?_toList] at hhead
  have hsplit : (h.suffix, h.number) = (h'.suffix, h'.number) := by
    rw [← h.splitSuffix_bare, ← h'.splitSuffix_bare, hbare, hbyte]
  obtain ⟨hsuffix, hnumber⟩ := Prod.mk.inj hsplit
  have hint : h.int = h'.int := by
    rw [← h.cutFraction_number, ← h'.cutFraction_number, hnumber]
  refine ⟨hsuffix, ?_⟩
  rw [← h.cutSeparator_number, ← h'.cutSeparator_number, hnumber, hint]

theorem ten_mul_step {s : Suffix} (h : s ≠ .byte) : 10 * step s = s.unit := by
  cases s <;> first | exact absurd rfl h | rfl

theorem step_dvd_unit {s s' : Suffix} (h : s.unit ≤ s'.unit) : step s ∣ s'.unit := by
  cases s <;> cases s' <;> revert h <;> decide

theorem shownSuffix_le {y : Nat} (h : x ≤ y) : shownSuffix x = shownSuffix y ∨
    ((shownSuffix x).unit ≤ (shownSuffix y).unit ∧ x ≤ (shownSuffix y).unit ∧
      (shownSuffix y).unit ≤ y) := by
  rcases shownSuffix_cases x with ⟨hx, hx'⟩ | ⟨hx, hx'⟩ | ⟨hx, hx'⟩ | ⟨hx, hx'⟩ | ⟨hx, hx'⟩ <;>
    rcases shownSuffix_cases y with ⟨hy, hy'⟩ | ⟨hy, hy'⟩ | ⟨hy, hy'⟩ | ⟨hy, hy'⟩ | ⟨hy, hy'⟩ <;>
    rw [hx, hy] <;>
    first
    | exact .inl rfl
    | refine .inr ?_
      simp only [Suffix.unit]
      omega

theorem monotone_shown : Monotone fun x => nearest (step (shownSuffix x)) x := by
  refine monotone_nearest fun x y h => ?_
  rcases shownSuffix_le h with heq | ⟨hunit, hx, hy⟩
  · exact .inl (congrArg step heq)
  · exact .inr ⟨(shownSuffix y).unit, hx, hy, step_dvd_unit hunit, step_dvd_unit le_rfl⟩

/-! ## There and back -/

/-- A size is accepted, and what `human2longint` makes of it is not further from `x` than half
of its last digit. -/
def ComesBack (errexit : Bool) (s : Text) (x : Nat) : Prop :=
  validHuman s = true ∧ ∃ value, Prints (human2longint errexit s) value ∧
    ∀ h : Human, h.text = s →
      2 * 10 ^ h.digits.length * ((value : Int) - x).natAbs ≤ h.suffix.unit

/-- From here on the ten-thousandths of a size need more than 64 bits. -/
def sizeLimit : Nat := 92233720368547755 * 10 ^ 10

theorem tenths_lt_iff : tenths x * 1000 < 2 ^ 63 ↔ x < sizeLimit := by
  unfold tenths hundredths sizeLimit
  rcases shownSuffix_cases x with ⟨h, h'⟩ | ⟨h, h'⟩ | ⟨h, h'⟩ | ⟨h, h'⟩ | ⟨h, h'⟩ <;>
    rw [h, Suffix.unit] <;> omega

section

variable {c : Char} (hc : isSeparator c = true) (errexit : Bool) {x : Nat}

theorem prints_shown (hx : 0 < x) (hlt : x < sizeLimit) : Prints
    (human2longint errexit (shown hc x).text) (nearest (step (shownSuffix x)) x) := by
  have hlo := hundredths_ge hx
  have hten : 10 ≤ tenths x := by
    unfold tenths
    omega
  have hfits := tenths_lt_iff.mpr hlt
  have hparts := parts_shown hc x
  have hint : Text.number (shown hc x).int = tenths x / 10 := Text.number_toDigits _
  rw [← bytes_shown hc x]
  refine ((shown hc x).prints_fits errexit (by omega) (by omega)).mpr ⟨fun _ => by omega,
    fun _ => .inr (by omega), fun _ => by omega⟩

theorem comesBack_shown (hx : 0 < x) (hlt : x < sizeLimit) :
    ComesBack errexit (shown hc x).text x := by
  refine ⟨validHuman_iff.mpr ⟨_, rfl⟩, _, prints_shown hc errexit hx hlt, fun h heq => ?_⟩
  obtain ⟨hsuffix, hdigits⟩ := Human.eq_of_text_eq heq
  have hpos : 0 < step (shownSuffix x) := by cases shownSuffix x <;> decide
  have hdist := two_mul_dist_nearest_le hpos x
  rw [hsuffix, hdigits, length_digits_shown, suffix_shown]
  by_cases hbyte : shownSuffix x = .byte
  · rw [hbyte, step, nearest_of_dvd (one_dvd x), Int.sub_self]
    exact Nat.zero_le _
  · have hten := ten_mul_step hbyte
    omega

end

theorem not_comesBack {deci : Text} (hc : isSeparator c = true)
    (hdeci : (if deci = [] then ['.'] else deci) = [c]) (errexit : Bool) (hx : sizeLimit ≤ x) :
    ¬ ComesBack errexit (longint2human deci (Nat.toDigits 10 x)) x := by
  have hlimit : sizeLimit = 92233720368547755 * 10 ^ 10 := rfl
  rintro ⟨hvalid, value, hprints, hhalf⟩
  obtain ⟨h, htext⟩ := validHuman_iff.mp hvalid
  have hunit : h.suffix.unit ≤ 10 ^ 12 := by cases h.suffix <;> decide
  have hnear : 2 * ((value : Int) - x).natAbs ≤ 10 ^ 12 :=
    (Nat.mul_le_mul_right _ (Nat.le_mul_of_pos_right 2 (Nat.pow_pos (by decide)))).trans
      ((hhalf h htext).trans hunit)
  rcases Nat.lt_or_ge x (10 ^ 27) with hlt | hge
  · have hparts := parts_shown hc x
    have hint : Text.number (shown hc x).int = tenths x / 10 := Text.number_toDigits _
    have hfits := (not_congr tenths_lt_iff).mpr (Nat.not_lt.mpr hx)
    have hmost : tenths x ≤ 10 ^ 16 := by
      unfold tenths hundredths
      rcases shownSuffix_cases x with ⟨h, h'⟩ | ⟨h, h'⟩ | ⟨h, h'⟩ | ⟨h, h'⟩ | ⟨h, h'⟩ <;>
        rw [h, Suffix.unit] <;> omega
    have hneg : longLong (shown hc x).parts < 0 := by
      rw [longLong, Int.bmod_def, Int.emod_eq_of_lt (by omega) (by omega), if_neg (by omega)]
      omega
    rw [longint2human_toDigits hc hdeci (by omega) (by omega),
      Human.human2longint_text _ errexit (by omega), if_neg fun h => by omega] at hprints
    have hzero := prints_neg hneg hprints
    omega
  · have hvalue := human2longint_lt hprints
    omega

/-- A size that is shown comes back, to half of its last digit and in the same order, as long
as its ten-thousandths fit into 64 bits, and no other does. -/
theorem longint2human_iff {deci : Text}
    (hdeci : deci = [] ∨ ∃ c, deci = [c] ∧ isSeparator c = true) (errexit : Bool) :
    (∀ x, 0 < x → (ComesBack errexit (longint2human deci (Nat.toDigits 10 x)) x ↔
      x < sizeLimit)) ∧
    ∀ x y v w, 0 < x → x ≤ y → y < sizeLimit →
      Prints (human2longint errexit (longint2human deci (Nat.toDigits 10 x))) v →
      Prints (human2longint errexit (longint2human deci (Nat.toDigits 10 y))) w → v ≤ w := by
  obtain ⟨c, hc, hdeci'⟩ : ∃ c, isSeparator c = true ∧
      (if deci = [] then ['.'] else deci) = [c] := by
    rcases hdeci with rfl | ⟨c, rfl, hc⟩
    · exact ⟨'.', rfl, rfl⟩
    · exact ⟨c, hc, rfl⟩
  have hbound : sizeLimit < 10 ^ 28 := by decide
  have htext : ∀ {x}, 0 < x → x < sizeLimit →
      longint2human deci (Nat.toDigits 10 x) = (shown hc x).text := fun hx hlt =>
    longint2human_toDigits hc hdeci' hx (hlt.trans hbound)
  refine ⟨fun x hx => ⟨fun h => ?_, fun hlt => ?_⟩, fun x y v w hx hxy hy hv hw => ?_⟩
  · by_contra hge
    exact not_comesBack hc hdeci' errexit (Nat.not_lt.mp hge) h
  · rw [htext hx hlt]
    exact comesBack_shown hc errexit hx hlt
  · rw [htext hx (hxy.trans_lt hy)] at hv
    rw [htext (hx.trans_le hxy) hy] at hw
    rw [hv.unique (prints_shown hc errexit hx (hxy.trans_lt hy)),
      hw.unique (prints_shown hc errexit (hx.trans_le hxy) hy)]
    exact monotone_shown hxy

/-- The last number of bytes before the first million. -/
theorem longint2human_kilobytes :
    ComesBack false (longint2human [] (Nat.toDigits 10 999999)) 999999 :=
  ((longint2human_iff (.inl rfl) false).1 999999 (by decide)).mpr (by decide)

/-- The first number of bytes that does not come back. -/
theorem longint2human_overflow :
    longint2human [] "922337203685477550000000000" = "922337203685477.6 TB" ∧
    human2longint false "922337203685477.6 TB" =
      some "-922337203685477561600000000".toList ∧
    ¬ ComesBack false (longint2human [] (Nat.toDigits 10 922337203685477550000000000))
      922337203685477550000000000 :=
  ⟨by decide, by decide, not_comesBack (c := '.') rfl rfl false (by decide)⟩

end DebianInstaller.Partman
