import DebianInstaller.Text
import DebianInstaller.Lib.Sequences

/-!
# The order of versions

`di_package_version_parse` cuts a version into its epoch, upstream version and revision,
and `verrevcmp` compares two strings part by part: a stretch without digits, character
by character, then a number. A string is a sequence of such parts, and the comparison
looks at the first place where two sequences differ, each of them going on with empty
parts behind its end. That makes it the lexicographic order of the sequences, with
`'~'` before the end of a stretch, the end before the letters and the letters before
everything else.

A pointer into a string is what is left of the string; to go on from the end is to leave
the string, and then there is no answer.
-/

namespace DebianInstaller.Packages

open Text Lib

variable {c : Char} {ref t val : Text}

/-! ## The code -/

/-- `*p`. -/
def deref (p : Text) : Char := p.headD '\x00'

/-- A byte as a `char`, which is signed. -/
def signedChar (c : Char) : Int :=
  if 128 ≤ c.toNat ∧ c.toNat < 256 then c.toNat - 256 else c.toNat

/-- The macro `order`. -/
def order (c : Char) : Int :=
  if c = '~' then -1
  else if c.isDigit then 0
  else if c = '\x00' then 0
  else if c.isAlpha then c.toNat
  else signedChar c + 256

/-- `*p && !isdigit (*p)`. -/
def atNondigit (p : Text) : Bool := deref p != '\x00' && !(deref p).isDigit

/-- The first loop of `verrevcmp`: the answer, or where the numbers begin. -/
def compareNondigits (val ref : Text) : Option (Int ⊕ Text × Text) :=
  if atNondigit val || atNondigit ref then
    if order (deref val) ≠ order (deref ref) then
      some (.inl (order (deref val) - order (deref ref)))
    else
      match val, ref with
      | _ :: val, _ :: ref => compareNondigits val ref
      | _, _ => none
  else some (.inr (val, ref))

/-- The loop over two numbers, with `first_diff`. -/
def compareDigits (firstDiff : Int) : Text → Text → Int × Text × Text
  | v :: val, r :: ref =>
      if v.isDigit && r.isDigit then
        compareDigits (if firstDiff = 0 then v.toNat - r.toNat else firstDiff) val ref
      else (firstDiff, v :: val, r :: ref)
  | val, ref => (firstDiff, val, ref)

/-- The outer loop of `verrevcmp`, at most so many times. -/
def verrevcmpLoop : Nat → Text → Text → Option Int
  | 0, _, _ => none
  | n + 1, val, ref =>
      if val.isEmpty && ref.isEmpty then some 0
      else
        match compareNondigits val ref with
        | none => none
        | some (.inl r) => some r
        | some (.inr (val, ref)) =>
            let (firstDiff, val, ref) :=
              compareDigits 0 (val.dropWhile (· == '0')) (ref.dropWhile (· == '0'))
            if (deref val).isDigit then some 1
            else if (deref ref).isDigit then some (-1)
            else if firstDiff ≠ 0 then some firstDiff
            else verrevcmpLoop n val ref

/-- `verrevcmp`. The loop ends, as each round shortens the strings. -/
def verrevcmp (val ref : Option Text) : Option Int :=
  let val := val.getD []
  let ref := ref.getD []
  verrevcmpLoop (val.length + ref.length + 1) val ref

/-- `struct di_package_version`. -/
structure PackageVersion where
  epoch : Nat
  upstream : Option Text
  debianRevision : Option Text
  deriving DecidableEq

variable {v : PackageVersion}

/-- `di_package_version_compare`. -/
def diPackageVersionCompare (a b : PackageVersion) : Option Int :=
  if a.epoch > b.epoch then some 1
  else if a.epoch < b.epoch then some (-1)
  else
    match verrevcmp a.upstream b.upstream with
    | none => none
    | some r => if r ≠ 0 then some r else verrevcmp a.debianRevision b.debianRevision

/-- `strtoul` to base 10: the value, and where the number ends. -/
def strtoul (t : Text) : Nat × Text :=
  let s := t.dropWhile isSpace
  let negative := s.head? = some '-'
  let s := if s.head? = some '-' ∨ s.head? = some '+' then s.tail else s
  let digits := s.takeWhile Char.isDigit
  if digits.isEmpty then (0, t)
  else
    let n := number digits
    (if 2 ^ 64 ≤ n then 2 ^ 64 - 1 else if negative then (2 ^ 64 - n) % 2 ^ 64 else n,
      s.dropWhile Char.isDigit)

/-- The last hyphen, and what stands on both sides of it. -/
def splitHyphen (t : Text) : Text × Option Text :=
  if '-' ∈ t then
    (((t.reverse.dropWhile (· != '-')).tail).reverse,
      some (t.reverse.takeWhile (· != '-')).reverse)
  else (t, none)

/-- The upstream version and the revision. -/
def parseParts (epoch : Nat) (string : Text) : PackageVersion :=
  { epoch := epoch, upstream := some (splitHyphen string).1
    debianRevision := (splitHyphen string).2 }

/-- `di_package_version_parse`. -/
def diPackageVersionParse (version : Option Text) : Option PackageVersion :=
  match version with
  | none => none
  | some string =>
      match string.dropWhile (· != ':') with
      | [] => some (parseParts 0 string)
      | colon :: rest =>
          let (epoch, eepochcolon) := strtoul string
          if colon :: rest ≠ eepochcolon then none
          else if rest.isEmpty then none
          else some (parseParts epoch rest)

/-! ## Versions as sequences -/

/-- A stretch without digits. -/
def nondigits (t : Text) : Text := t.takeWhile (!·.isDigit)

/-- The digits behind it, and what follows them. -/
def digits (t : Text) : Text := (t.dropWhile (!·.isDigit)).takeWhile Char.isDigit

def behind (t : Text) : Text := (t.dropWhile (!·.isDigit)).dropWhile Char.isDigit

theorem length_behind_lt (h : t ≠ []) : (behind t).length < t.length := by
  cases t with
  | nil => exact absurd rfl h
  | cons c t =>
      by_cases hc : c.isDigit
      · rw [behind, List.dropWhile_cons_of_neg (by simp [hc]), List.dropWhile_cons_of_pos hc]
        exact Nat.lt_succ_of_le (List.dropWhile_suffix _).length_le
      · rw [behind, List.dropWhile_cons_of_pos (by simp [hc])]
        refine Nat.lt_succ_of_le (List.IsSuffix.length_le ?_)
        exact (List.dropWhile_suffix _).trans (List.dropWhile_suffix _)

/-- The parts of a string: a stretch without digits and a number, which is 0 where there
are no digits, one after the other. -/
def parts (t : Text) : List (Text × Nat) :=
  (nondigits t, number (digits t)) :: if behind t = [] then [] else parts (behind t)
termination_by t.length
decreasing_by
  refine length_behind_lt fun h => ?_
  subst h
  contradiction

/-- The rank of a character among those without digits, or of the end. -/
def rank : Option Char → Int
  | none => 0
  | some c => if c = '~' then -1 else if c.isAlpha then c.toNat else signedChar c + 256

/-- A stretch as the sequence of its ranks. -/
def stretchKey (w : Text) : Lex (ℕ → Int) := toLex fun i => rank w[i]?

/-- A part: its stretch first, its number then. -/
noncomputable def partKey (p : Text × Nat) : Lex (Lex (ℕ → Int) × ℕ) :=
  toLex (stretchKey p.1, p.2)

/-- A string as the sequence of its parts, followed by empty ones. -/
noncomputable def textKey (t : Text) : Lex (ℕ → Lex (Lex (ℕ → Int) × ℕ)) :=
  toLex fun i => partKey ((parts t).getD i ([], 0))

/-- A version: its epoch, its upstream version and its revision. -/
noncomputable def versionKey (v : PackageVersion) :
    Lex (ℕ × Lex (Lex (ℕ → Lex (Lex (ℕ → Int) × ℕ)) × Lex (ℕ → Lex (Lex (ℕ → Int) × ℕ)))) :=
  toLex (v.epoch, toLex (textKey (v.upstream.getD []), textKey (v.debianRevision.getD [])))

/-! ## Stretches without digits -/

theorem rank_ne_zero (c : Char) : rank (some c) ≠ 0 := by
  rw [rank]
  split
  · decide
  · split
    · next halpha =>
        intro h
        have hzero : c = '\x00' := Char.toNat_inj.mp (by simpa using h)
        rw [hzero] at halpha
        exact absurd halpha (by decide)
    · unfold signedChar
      split <;> omega

theorem order_eq_rank (hdigit : ¬ c.isDigit) (hnul : c ≠ '\x00') : order c = rank (some c) := by
  rw [order, rank, if_neg hdigit, if_neg hnul]

theorem nondigits_cons_digit (hc : c.isDigit) (t : Text) : nondigits (c :: t) = [] :=
  List.takeWhile_cons_of_neg (by simp [hc])

theorem nondigits_cons (hc : ¬ c.isDigit) (t : Text) : nondigits (c :: t) = c :: nondigits t :=
  List.takeWhile_cons_of_pos (by simp [hc])

theorem order_deref (h : '\x00' ∉ t) : order (deref t) = rank (nondigits t)[0]? := by
  cases t with
  | nil => rfl
  | cons c t =>
      have hnul : c ≠ '\x00' := fun e => h (e ▸ List.mem_cons_self)
      by_cases hc : c.isDigit
      · rw [nondigits_cons_digit hc]
        have htilde : c ≠ '~' := fun e => absurd (e ▸ hc) (by decide)
        simp [deref, order, hc, htilde, rank]
      · rw [nondigits_cons hc]
        exact order_eq_rank hc hnul

theorem atNondigit_iff (h : '\x00' ∉ t) : atNondigit t = true ↔ nondigits t ≠ [] := by
  cases t with
  | nil => simp [atNondigit, deref, nondigits]
  | cons c t =>
      have hnul : c ≠ '\x00' := fun e => h (e ▸ List.mem_cons_self)
      by_cases hc : c.isDigit
      · simp [atNondigit, deref, nondigits_cons_digit hc, hc]
      · simp [atNondigit, deref, nondigits_cons hc, hc, hnul]

theorem compareNondigits_stop (hval : atNondigit val = false) (href : atNondigit ref = false) :
    compareNondigits val ref = some (.inr (val, ref)) := by
  unfold compareNondigits
  simp [hval, href]

theorem compareNondigits_differ (h : atNondigit val = true ∨ atNondigit ref = true)
    (hne : order (deref val) ≠ order (deref ref)) :
    compareNondigits val ref = some (.inl (order (deref val) - order (deref ref))) := by
  unfold compareNondigits
  rw [if_pos (by simpa using h), if_pos hne]

theorem compareNondigits_same {d : Char}
    (h : atNondigit (c :: val) = true ∨ atNondigit (d :: ref) = true)
    (heq : order (deref (c :: val)) = order (deref (d :: ref))) :
    compareNondigits (c :: val) (d :: ref) = compareNondigits val ref := by
  rw [compareNondigits, if_pos (by simpa using h), if_neg (by simpa using heq)]

/-- Either the parts without digits decide, or they are equal and both are passed. -/
theorem compareNondigits_spec (hval : '\x00' ∉ val) (href : '\x00' ∉ ref) :
    (∃ r, compareNondigits val ref = some (.inl r) ∧ r ≠ 0 ∧
        Decides r (stretchKey (nondigits val)) (stretchKey (nondigits ref))) ∨
      (compareNondigits val ref =
          some (.inr (val.dropWhile (!·.isDigit), ref.dropWhile (!·.isDigit))) ∧
        stretchKey (nondigits val) = stretchKey (nondigits ref)) := by
  have hstop : ∀ t : Text, nondigits t = [] → t.dropWhile (!·.isDigit) = t := by
    intro t ht
    have happ := List.takeWhile_append_dropWhile (p := (!·.isDigit)) (l := t)
    rwa [← nondigits, ht, List.nil_append] at happ
  have hhead : ∀ w w' : Text, rank w[0]? = rank w'[0]? → (w = [] ↔ w' = []) := by
    intro w w' h
    cases w with
    | nil =>
        cases w' with
        | nil => simp
        | cons d w' => exact absurd h.symm (rank_ne_zero d)
    | cons c w =>
        cases w' with
        | nil => exact absurd h (rank_ne_zero c)
        | cons d w' => simp
  induction val generalizing ref with
  | nil =>
      by_cases hempty : nondigits ref = []
      · have hat : atNondigit ref = false := by
          simpa [hempty] using not_congr (atNondigit_iff href)
        refine .inr ⟨?_, by rw [hempty]; rfl⟩
        rw [compareNondigits_stop rfl hat, hstop ref hempty]
        rfl
      · have hne : order (deref []) ≠ order (deref ref) := by
          rw [order_deref hval, order_deref href]
          exact fun h => hempty ((hhead _ _ h).mp rfl)
        refine .inl ⟨_, compareNondigits_differ (.inr ((atNondigit_iff href).mpr hempty)) hne,
          by omega, ?_⟩
        rw [order_deref hval, order_deref href] at hne ⊢
        exact decides_head (by omega) (decides_sub _ _)
  | cons c val ih =>
      by_cases hempty : nondigits (c :: val) = [] ∧ nondigits ref = []
      · have hat : atNondigit (c :: val) = false := by
          simpa [hempty.1] using not_congr (atNondigit_iff hval)
        have hat' : atNondigit ref = false := by
          simpa [hempty.2] using not_congr (atNondigit_iff href)
        refine .inr ⟨?_, by rw [hempty.1, hempty.2]⟩
        rw [compareNondigits_stop hat hat', hstop _ hempty.1, hstop _ hempty.2]
      · have hat : atNondigit (c :: val) = true ∨ atNondigit ref = true := by
          rw [atNondigit_iff hval, atNondigit_iff href]
          tauto
        by_cases hne : order (deref (c :: val)) ≠ order (deref ref)
        · refine .inl ⟨_, compareNondigits_differ hat hne, by omega, ?_⟩
          rw [order_deref hval, order_deref href] at hne ⊢
          exact decides_head (by omega) (decides_sub _ _)
        · rw [not_not] at hne
          have hranks := hne
          rw [order_deref hval, order_deref href] at hranks
          have hboth := hhead _ _ hranks
          have hc : ¬ c.isDigit := by
            intro hc
            have := nondigits_cons_digit hc val
            tauto
          cases ref with
          | nil => exact absurd ⟨hboth.mpr rfl, rfl⟩ hempty
          | cons d ref =>
              have hd : ¬ d.isDigit := by
                intro hd
                have := nondigits_cons_digit hd ref
                tauto
              rw [compareNondigits_same hat hne, nondigits_cons hc, nondigits_cons hd,
                List.dropWhile_cons_of_pos (by simp [hc]), List.dropWhile_cons_of_pos (by simp [hd])]
              rw [nondigits_cons hc, nondigits_cons hd] at hranks
              rcases ih (fun h => hval (List.mem_cons_of_mem _ h))
                (fun h => href (List.mem_cons_of_mem _ h)) with ⟨r, h₁, h₂, h₃⟩ | ⟨h₁, h₂⟩
              · exact .inl ⟨r, h₁, h₂, decides_shift hranks h₃⟩
              · exact .inr ⟨h₁, eq_of_shift hranks h₂⟩

/-! ## Numbers -/

/-- The value of a digit. -/
def digitValue (c : Char) : Nat := c.toNat - '0'.toNat

theorem toNat_digit (hc : c.isDigit) : c.toNat = digitValue c + 48 := by
  have hge : '0'.toNat ≤ c.toNat := by
    simp only [Char.isDigit, Bool.and_eq_true, decide_eq_true_eq] at hc
    exact hc.1
  have h0 : '0'.toNat = 48 := rfl
  rw [digitValue]
  omega

theorem number_cons (c : Char) (w : Text) :
    number (c :: w) = digitValue c * 10 ^ w.length + number w := by
  have hone : number [c] = digitValue c := Nat.zero_add _
  rw [← List.singleton_append, number_append, hone, Nat.mul_comm]

theorem pow_le_number {w : Text} (hc : c.isDigit) (h0 : c ≠ '0') :
    10 ^ w.length ≤ number (c :: w) := by
  have hpos : 1 ≤ digitValue c := by
    by_contra hzero
    refine h0 (Char.toNat_inj.mp ?_)
    have h48 : '0'.toNat = 48 := rfl
    rw [toNat_digit hc, h48]
    omega
  have hmul := Nat.mul_le_mul_right (10 ^ w.length) hpos
  rw [number_cons]
  omega

theorem number_dropWhile_zeros (w : Text) : number (w.dropWhile (· == '0')) = number w := by
  induction w with
  | nil => rfl
  | cons c w ih =>
      by_cases hc : c = '0'
      · subst hc
        rw [List.dropWhile_cons_of_pos (by simp), ih, number_cons]
        simp [digitValue]
      · rw [List.dropWhile_cons_of_neg (by simpa using hc)]

theorem number_lt_of_length {p q : Text} (hp : ∀ c ∈ p, c.isDigit) (hq : ∀ c ∈ q, c.isDigit)
    (h0 : q.head? ≠ some '0') (hlen : p.length < q.length) : number p < number q := by
  cases q with
  | nil => simp at hlen
  | cons c q =>
      have h₁ := pow_le_number (w := q) (hq c List.mem_cons_self) (fun e => h0 (by rw [e]; rfl))
      have h₂ := number_lt hp
      have h₃ : 10 ^ p.length ≤ 10 ^ q.length :=
        Nat.pow_le_pow_right (by omega) (Nat.lt_succ_iff.mp hlen)
      omega

/-- The digits at the beginning of a string. -/
def leading (t : Text) : Text := t.takeWhile Char.isDigit

theorem leading_isDigit (h : c ∈ leading t) : c.isDigit :=
  List.mem_takeWhile_imp h

theorem leading_cons (hc : c.isDigit) (t : Text) : leading (c :: t) = c :: leading t :=
  List.takeWhile_cons_of_pos hc

theorem leading_cons_nondigit (hc : ¬ c.isDigit) (t : Text) : leading (c :: t) = [] :=
  List.takeWhile_cons_of_neg hc

theorem deref_isDigit (t : Text) : (deref t).isDigit = true ↔ leading t ≠ [] := by
  cases t with
  | nil => simp [deref, leading]
  | cons c t => by_cases hc : c.isDigit <;> simp [deref, leading, hc]

theorem decides_digit {v r : Char} {p q : Text} (hv : v.isDigit) (hr : r.isDigit)
    (hp : ∀ c ∈ p, c.isDigit) (hq : ∀ c ∈ q, c.isDigit) (hlen : p.length = q.length)
    (hvr : v.toNat ≠ r.toNat) :
    Decides (v.toNat - r.toNat : Int) (digitValue v * 10 ^ q.length + number p)
      (digitValue r * 10 ^ q.length + number q) := by
  have hplt := number_lt hp
  have hqlt := number_lt hq
  have hvv := toNat_digit hv
  have hrr := toNat_digit hr
  rw [hlen] at hplt
  rcases Nat.lt_or_gt_of_ne hvr with hlt | hgt
  · refine decides_neg (by omega) ?_
    have hmul := Nat.mul_le_mul_right (10 ^ q.length) (show digitValue v + 1 ≤ digitValue r by omega)
    rw [Nat.add_mul] at hmul
    omega
  · refine decides_pos (by omega) ?_
    have hmul := Nat.mul_le_mul_right (10 ^ q.length) (show digitValue r + 1 ≤ digitValue v by omega)
    rw [Nat.add_mul] at hmul
    omega

/-- The loop over two numbers stops at the end of the shorter one. If they have the same
length, `first_diff` tells which is greater. -/
theorem compareDigits_spec (firstDiff : Int) (val ref : Text) :
    ((deref (compareDigits firstDiff val ref).2.1).isDigit = true ↔
        (leading ref).length < (leading val).length) ∧
      ((deref (compareDigits firstDiff val ref).2.2).isDigit = true ↔
        (leading val).length < (leading ref).length) ∧
      ((leading val).length = (leading ref).length →
        (compareDigits firstDiff val ref).2 =
            (val.dropWhile Char.isDigit, ref.dropWhile Char.isDigit) ∧
          (firstDiff ≠ 0 → (compareDigits firstDiff val ref).1 = firstDiff) ∧
          (firstDiff = 0 → Decides (compareDigits firstDiff val ref).1
            (number (leading val)) (number (leading ref)))) := by
  induction val generalizing firstDiff ref with
  | nil =>
      rw [compareDigits]
      · rw [deref_isDigit, deref_isDigit]
        refine ⟨by simp [leading], by simp [leading, List.length_pos_iff], fun hlen => ?_⟩
        have hnil : leading ref = [] := List.length_eq_zero_iff.mp hlen.symm
        refine ⟨?_, fun _ => rfl, fun h => ?_⟩
        · have happ := List.takeWhile_append_dropWhile (p := Char.isDigit) (l := ref)
          rw [← leading, hnil, List.nil_append] at happ
          rw [happ]
          rfl
        · rw [hnil, h]
          exact decides_zero _
      · simp
  | cons v val ih =>
      cases ref with
      | nil =>
          rw [compareDigits]
          · rw [deref_isDigit, deref_isDigit]
            refine ⟨by simp [leading, List.length_pos_iff], by simp [leading], fun hlen => ?_⟩
            have hnil : leading (v :: val) = [] := List.length_eq_zero_iff.mp hlen
            refine ⟨?_, fun _ => rfl, fun h => ?_⟩
            · have happ := List.takeWhile_append_dropWhile (p := Char.isDigit) (l := v :: val)
              rw [← leading, hnil, List.nil_append] at happ
              rw [happ]
              rfl
            · rw [hnil, h]
              exact decides_zero _
          · simp
      | cons r ref =>
          by_cases hboth : v.isDigit ∧ r.isDigit
          · obtain ⟨hv, hr⟩ := hboth
            rw [compareDigits, if_pos (by simp [hv, hr]), leading_cons hv, leading_cons hr,
              List.dropWhile_cons_of_pos hv, List.dropWhile_cons_of_pos hr, List.length_cons,
              List.length_cons]
            obtain ⟨h₁, h₂, h₃⟩ := ih (if firstDiff = 0 then v.toNat - r.toNat else firstDiff) ref
            refine ⟨h₁.trans (by omega), h₂.trans (by omega), fun hlen => ?_⟩
            obtain ⟨hrest, hkeep, hdecide⟩ := h₃ (by omega)
            refine ⟨hrest, fun hne => ?_, fun hzero => ?_⟩
            · rw [if_neg hne] at hkeep ⊢
              exact hkeep hne
            · rw [if_pos hzero] at hkeep hdecide ⊢
              rw [number_cons, number_cons, show (leading val).length = (leading ref).length by omega]
              by_cases hvr : v.toNat = r.toNat
              · rw [show digitValue v = digitValue r by rw [digitValue, hvr, digitValue]]
                refine (hdecide (by omega)).map fun x y hxy => ?_
                exact Nat.add_lt_add_left hxy _
              · rw [hkeep (by omega)]
                exact decides_digit hv hr (fun c hc => leading_isDigit hc)
                  (fun c hc => leading_isDigit hc) (by omega) hvr
          · have hstop : compareDigits firstDiff (v :: val) (r :: ref) =
                (firstDiff, v :: val, r :: ref) := by
              rw [compareDigits, if_neg (by simpa using hboth)]
            rw [hstop, deref_isDigit, deref_isDigit]
            by_cases hv : v.isDigit
            · have hr : ¬ r.isDigit := fun hr => hboth ⟨hv, hr⟩
              simp [leading_cons hv, leading_cons_nondigit hr]
            · by_cases hr : r.isDigit
              · simp [leading_cons hr, leading_cons_nondigit hv]
              · rw [leading_cons_nondigit hv, leading_cons_nondigit hr,
                  List.dropWhile_cons_of_neg hv, List.dropWhile_cons_of_neg hr]
                simp only [ne_eq, not_true, List.length_nil, lt_irrefl, true_and]
                exact fun _ => ⟨fun _ => trivial, fun h => h ▸ decides_zero _⟩

theorem dropWhile_zeros (t : Text) :
    leading (t.dropWhile (· == '0')) = (leading t).dropWhile (· == '0') ∧
      (t.dropWhile (· == '0')).dropWhile Char.isDigit = t.dropWhile Char.isDigit := by
  induction t with
  | nil => exact ⟨rfl, rfl⟩
  | cons c t ih =>
      by_cases hc : c = '0'
      · subst hc
        rw [List.dropWhile_cons_of_pos (by simp), leading_cons (by decide),
          List.dropWhile_cons_of_pos (by simp), List.dropWhile_cons_of_pos (by decide)]
        exact ih
      · rw [List.dropWhile_cons_of_neg (by simpa using hc)]
        refine ⟨?_, rfl⟩
        by_cases hd : c.isDigit
        · rw [leading_cons hd, List.dropWhile_cons_of_neg (by simpa using hc)]
        · rw [leading_cons_nondigit hd]
          rfl

theorem head_dropWhile_zeros (w : Text) : (w.dropWhile (· == '0')).head? ≠ some '0' := by
  intro h
  have hhead := List.head?_dropWhile_not (· == '0') w
  rw [h] at hhead
  simp at hhead

/-! ## Strings -/

theorem parts_cons (t : Text) :
    parts t = (nondigits t, number (digits t)) ::
      if behind t = [] then [] else parts (behind t) := by
  rw [parts]

theorem parts_nil : parts [] = [([], 0)] := by
  rw [parts_cons]
  rfl

/-- The sequence of a string begins with its first part and goes on with the string behind
that part. -/
theorem textKey_head (t : Text) :
    ofLex (textKey t) 0 = partKey (nondigits t, number (digits t)) := by
  show partKey ((parts t).getD 0 _) = _
  rw [parts_cons]
  rfl

theorem textKey_shift (t : Text) : toLex (shift (ofLex (textKey t))) = textKey (behind t) := by
  refine congrArg toLex (funext fun i => ?_)
  show partKey ((parts t).getD (i + 1) _) = partKey ((parts (behind t)).getD i _)
  rw [parts_cons t, List.getD_cons_succ]
  split
  · next hnil =>
      rw [hnil, parts_nil]
      cases i <;> rfl
  · rfl

theorem decides_text_head {r : Int} (hr : r ≠ 0)
    (h : Decides r (partKey (nondigits val, number (digits val)))
      (partKey (nondigits ref, number (digits ref)))) : Decides r (textKey val) (textKey ref) := by
  rw [← textKey_head, ← textKey_head] at h
  exact decides_head hr h

theorem decides_text_behind {r : Int} (h0 : partKey (nondigits val, number (digits val)) =
      partKey (nondigits ref, number (digits ref)))
    (h : Decides r (textKey (behind val)) (textKey (behind ref))) :
    Decides r (textKey val) (textKey ref) := by
  rw [← textKey_head, ← textKey_head] at h0
  rw [← textKey_shift, ← textKey_shift] at h
  exact decides_shift h0 h

theorem mem_behind (h : c ∈ behind t) : c ∈ t :=
  ((List.dropWhile_suffix _).trans (List.dropWhile_suffix _)).mem h

/-- A round takes something off one of the two texts, so there are enough of them. -/
theorem verrevcmpLoop_spec {n : Nat} (hn : val.length + ref.length < n) (hval : '\x00' ∉ val)
    (href : '\x00' ∉ ref) :
    ∃ r, verrevcmpLoop n val ref = some r ∧ Decides r (textKey val) (textKey ref) := by
  induction n generalizing val ref with
  | zero => omega
  | succ n ih =>
      rw [verrevcmpLoop]
      by_cases hempty : val = [] ∧ ref = []
      · refine ⟨0, by simp [hempty], ?_⟩
        rw [hempty.1, hempty.2]
        exact decides_zero _
      · rw [if_neg (by simpa using hempty)]
        rcases compareNondigits_spec hval href with ⟨r, heq, hr, hdec⟩ | ⟨heq, hkey⟩
        · rw [heq]
          exact ⟨r, rfl, decides_text_head hr (decides_fst hr hdec _ _)⟩
        · rw [heq]
          dsimp only
          -- the numbers, without their zeros
          obtain ⟨hval₁, hval₂⟩ := dropWhile_zeros (val.dropWhile (!·.isDigit))
          obtain ⟨href₁, href₂⟩ := dropWhile_zeros (ref.dropWhile (!·.isDigit))
          obtain ⟨h₁, h₂, h₃⟩ := compareDigits_spec 0
            ((val.dropWhile (!·.isDigit)).dropWhile (· == '0'))
            ((ref.dropWhile (!·.isDigit)).dropWhile (· == '0'))
          have hnumval := number_dropWhile_zeros (digits val)
          have hnumref := number_dropWhile_zeros (digits ref)
          rw [hval₁, href₁] at h₁ h₂ h₃
          rw [hval₂, href₂] at h₃
          have hpart : ∀ {r : Int}, Decides r (number (digits val)) (number (digits ref)) →
              Decides r (partKey (nondigits val, number (digits val)))
                (partKey (nondigits ref, number (digits ref))) :=
            fun hdec => decides_snd hkey hdec
          have hzeros : ∀ t : Text, ∀ c ∈ (leading t).dropWhile (· == '0'), c.isDigit :=
            fun t c hc => leading_isDigit ((List.dropWhile_suffix _).mem hc)
          rcases Nat.lt_trichotomy ((leading (val.dropWhile (!·.isDigit))).dropWhile (· == '0')).length
            ((leading (ref.dropWhile (!·.isDigit))).dropWhile (· == '0')).length with
            hlt | hsame | hgt
          · refine ⟨-1, ?_, decides_text_head (by decide) (hpart (decides_neg (by decide) ?_))⟩
            · rw [if_neg fun h => absurd (h₁.mp h) (by omega), if_pos (h₂.mpr hlt)]
            · rw [← hnumval, ← hnumref]
              exact number_lt_of_length (hzeros _) (hzeros _) (head_dropWhile_zeros _) hlt
          · obtain ⟨hrest, -, hdec⟩ := h₃ hsame
            have hdec := hdec rfl
            rw [show leading (val.dropWhile (!·.isDigit)) = digits val from rfl,
              show leading (ref.dropWhile (!·.isDigit)) = digits ref from rfl,
              hnumval, hnumref] at hdec
            rw [if_neg fun h => absurd (h₁.mp h) (by omega),
              if_neg fun h => absurd (h₂.mp h) (by omega)]
            by_cases hdiff : (compareDigits 0 ((val.dropWhile (!·.isDigit)).dropWhile (· == '0'))
                ((ref.dropWhile (!·.isDigit)).dropWhile (· == '0'))).1 = 0
            · rw [if_neg (by simpa using hdiff), show (compareDigits 0 _ _).2.1 = behind val from
                congrArg Prod.fst hrest, show (compareDigits 0 _ _).2.2 = behind ref from
                congrArg Prod.snd hrest]
              have hshorter : (behind val).length + (behind ref).length < n := by
                by_cases hv : val = []
                · have hr : ref ≠ [] := fun h => hempty ⟨hv, h⟩
                  have := length_behind_lt hr
                  subst hv
                  simp only [behind, List.dropWhile_nil, List.length_nil] at this hn ⊢
                  omega
                · have hlen := length_behind_lt hv
                  have hle : (behind ref).length ≤ ref.length :=
                    ((List.dropWhile_suffix _).trans (List.dropWhile_suffix _)).length_le
                  omega
              obtain ⟨r, hr, hdecr⟩ := ih hshorter (fun h => hval (mem_behind h))
                (fun h => href (mem_behind h))
              refine ⟨r, hr, decides_text_behind ?_ hdecr⟩
              exact congrArg toLex (Prod.ext hkey (hdec.eq hdiff))
            · exact ⟨_, if_pos hdiff, decides_text_head hdiff (hpart hdec)⟩
          · refine ⟨1, ?_, decides_text_head (by decide) (hpart (decides_pos (by decide) ?_))⟩
            · rw [if_pos (h₁.mpr hgt)]
            · rw [← hnumval, ← hnumref]
              exact number_lt_of_length (hzeros _) (hzeros _) (head_dropWhile_zeros _) hgt

theorem verrevcmp_spec {val ref : Option Text} (hval : '\x00' ∉ val.getD [])
    (href : '\x00' ∉ ref.getD []) :
    ∃ r, verrevcmp val ref = some r ∧ Decides r (textKey (val.getD [])) (textKey (ref.getD [])) :=
  verrevcmpLoop_spec (Nat.lt_succ_self _) hval href

/-! ## Equal sequences -/

theorem rank_injective : Function.Injective rank := by
  have hsmall : ∀ c : Char, c.isAlpha → c.toNat < 128 ∧ c ≠ '~' := by
    intro c hc
    delta Char.isAlpha Char.isUpper Char.isLower at hc
    simp only [Bool.or_eq_true, Bool.and_eq_true, decide_eq_true_eq] at hc
    refine ⟨?_, fun h => ?_⟩
    · have hz : 'z'.toNat = 122 := rfl
      have hZ : 'Z'.toNat = 90 := rfl
      rcases hc with ⟨-, h⟩ | ⟨-, h⟩
      · have hle : c.toNat ≤ 'Z'.toNat := h
        omega
      · have hle : c.toNat ≤ 'z'.toNat := h
        omega
    · subst h
      exact absurd hc (by decide)
  have hsigned : ∀ c : Char, signedChar c = c.toNat ∧ (c.toNat < 128 ∨ 256 ≤ c.toNat) ∨
      signedChar c + 256 = c.toNat ∧ 128 ≤ c.toNat ∧ c.toNat < 256 := by
    intro c
    unfold signedChar
    split <;> omega
  have hsome : ∀ c d : Char, rank (some c) = rank (some d) → c = d := by
    intro c d h
    have hsignc := hsigned c
    have hsignd := hsigned d
    rw [rank, rank] at h
    split at h
    · next hc =>
        split at h
        · next hd => rw [hc, hd]
        · split at h <;> omega
    · split at h
      · next hc =>
          have := (hsmall c hc).1
          split at h
          · omega
          · split at h
            · exact Char.toNat_inj.mp (by omega)
            · omega
      · split at h
        · omega
        · split at h
          · next hd =>
              have := (hsmall d hd).1
              omega
          · exact Char.toNat_inj.mp (by omega)
  intro x y h
  cases x with
  | none =>
      cases y with
      | none => rfl
      | some d => exact absurd h.symm (rank_ne_zero d)
  | some c =>
      cases y with
      | none => exact absurd h (rank_ne_zero c)
      | some d => rw [hsome c d h]

theorem stretchKey_injective : Function.Injective stretchKey := by
  intro w w' h
  refine List.ext_getElem? fun i => rank_injective ?_
  exact congrFun (toLex.injective h) i

theorem partKey_injective : Function.Injective partKey := by
  intro p q h
  have hpair := Prod.mk.inj (toLex.injective h)
  exact Prod.ext (stretchKey_injective hpair.1) hpair.2

theorem nondigits_behind (h : behind t ≠ []) : nondigits (behind t) ≠ [] := by
  intro hnil
  cases hb : behind t with
  | nil => exact h hb
  | cons c rest =>
      have hhead := List.head?_dropWhile_not Char.isDigit (t.dropWhile (!·.isDigit))
      rw [← behind, hb] at hhead
      have hc : ¬ c.isDigit := by simpa using hhead
      rw [hb, nondigits_cons hc] at hnil
      exact absurd hnil (List.cons_ne_nil _ _)

/-- Only the first part of a string can be empty, so a string has as many parts as its
sequence shows. -/
theorem parts_eq_of_getD {t' : Text}
    (h : ∀ i, (parts t).getD i ([], 0) = (parts t').getD i ([], 0)) : parts t = parts t' := by
  induction hn : t.length using Nat.strong_induction_on generalizing t t' with
  | _ n ih =>
      have hhead : (nondigits t, number (digits t)) = (nondigits t', number (digits t')) := by
        have := h 0
        rwa [parts_cons t, parts_cons t'] at this
      have htail : ∀ i, (if behind t = [] then [] else parts (behind t)).getD i ([], 0) =
          (if behind t' = [] then [] else parts (behind t')).getD i ([], 0) := by
        intro i
        have := h (i + 1)
        rwa [parts_cons t, parts_cons t', List.getD_cons_succ, List.getD_cons_succ] at this
      have hlater : ∀ {s : Text}, behind s ≠ [] → (parts (behind s)).getD 0 ([], 0) ≠ ([], 0) := by
        intro s hs heq
        rw [parts_cons] at heq
        exact nondigits_behind hs (congrArg Prod.fst heq)
      rw [parts_cons t, parts_cons t', hhead]
      refine congrArg _ ?_
      by_cases hb : behind t = []
      · by_cases hb' : behind t' = []
        · rw [if_pos hb, if_pos hb']
        · have h0 := htail 0
          rw [if_pos hb, if_neg hb'] at h0
          exact absurd h0.symm (hlater hb')
      · by_cases hb' : behind t' = []
        · have h0 := htail 0
          rw [if_neg hb, if_pos hb'] at h0
          exact absurd h0 (hlater hb)
        · rw [if_neg hb, if_neg hb'] at htail ⊢
          have ht : t ≠ [] := fun e => hb (by rw [e]; rfl)
          exact ih _ (hn ▸ length_behind_lt ht) htail rfl

theorem textKey_eq_iff {t' : Text} : textKey t = textKey t' ↔ parts t = parts t' := by
  refine ⟨fun h => parts_eq_of_getD fun i => partKey_injective ?_, fun h => ?_⟩
  · exact congrFun (toLex.injective h) i
  · rw [textKey, textKey, h]

/-! ## Versions -/

/-- The same epoch, and the same parts of the upstream version and of the revision. -/
def SameVersion (a b : PackageVersion) : Prop :=
  a.epoch = b.epoch ∧ parts (a.upstream.getD []) = parts (b.upstream.getD []) ∧
    parts (a.debianRevision.getD []) = parts (b.debianRevision.getD [])

theorem versionKey_eq_iff {a b : PackageVersion} :
    versionKey a = versionKey b ↔ SameVersion a b := by
  rw [SameVersion, ← textKey_eq_iff, ← textKey_eq_iff, versionKey, versionKey, toLex_inj,
    Prod.mk.injEq, toLex_inj, Prod.mk.injEq]

/-- What the comparison needs: the parts of a version are strings. -/
structure PackageVersion.Strings (v : PackageVersion) : Prop where
  upstream : '\x00' ∉ v.upstream.getD []
  debianRevision : '\x00' ∉ v.debianRevision.getD []

theorem diPackageVersionCompare_spec {a b : PackageVersion} (ha : a.Strings) (hb : b.Strings) :
    ∃ r, diPackageVersionCompare a b = some r ∧ Decides r (versionKey a) (versionKey b) := by
  rw [diPackageVersionCompare]
  by_cases hgt : a.epoch > b.epoch
  · rw [if_pos hgt]
    exact ⟨1, rfl, decides_fst (by decide) (decides_pos (by decide) hgt) _ _⟩
  · rw [if_neg hgt]
    by_cases hlt : a.epoch < b.epoch
    · rw [if_pos hlt]
      exact ⟨-1, rfl, decides_fst (by decide) (decides_neg (by decide) hlt) _ _⟩
    · rw [if_neg hlt]
      have hepoch : a.epoch = b.epoch := by omega
      obtain ⟨r, hr, hdec⟩ := verrevcmp_spec ha.upstream hb.upstream
      rw [hr]
      dsimp only
      by_cases hne : r ≠ 0
      · rw [if_pos hne]
        exact ⟨r, rfl, decides_snd hepoch (decides_fst hne hdec _ _)⟩
      · rw [if_neg hne]
        rw [not_not] at hne
        obtain ⟨r', hr', hdec'⟩ := verrevcmp_spec ha.debianRevision hb.debianRevision
        exact ⟨r', hr', decides_snd hepoch (decides_snd (hdec.eq hne) hdec')⟩

theorem splitHyphen_strings (h : '\x00' ∉ t) :
    '\x00' ∉ (splitHyphen t).1 ∧ '\x00' ∉ (splitHyphen t).2.getD [] := by
  rw [splitHyphen]
  split
  · refine ⟨fun hmem => h ?_, fun hmem => h ?_⟩
    · have hmem := List.mem_of_mem_tail (List.mem_reverse.mp hmem)
      exact List.mem_reverse.mp ((List.dropWhile_suffix _).mem hmem)
    · have hmem := List.mem_reverse.mp (show _ ∈ (List.takeWhile _ _).reverse from hmem)
      exact List.mem_reverse.mp ((List.takeWhile_prefix _).mem hmem)
  · exact ⟨h, List.not_mem_nil⟩

theorem diPackageVersionParse_strings (ht : '\x00' ∉ t)
    (h : diPackageVersionParse (some t) = some v) : v.Strings := by
  have hparts : ∀ (epoch : Nat) (s : Text), s <:+ t → (parseParts epoch s).Strings := by
    intro epoch s hs
    obtain ⟨h₁, h₂⟩ := splitHyphen_strings fun hmem => ht (hs.mem hmem)
    exact ⟨h₁, h₂⟩
  rw [diPackageVersionParse] at h
  dsimp only at h
  split at h
  · cases h
    exact hparts 0 t List.suffix_rfl
  · next colon rest hcolon =>
      split at h
      · cases h
      · split at h
        · cases h
        · cases h
          refine hparts _ rest ((List.suffix_cons colon rest).trans ?_)
          rw [← hcolon]
          exact List.dropWhile_suffix _

/-- A version that `di_package_version_parse` makes of an ASCII string. -/
def Parsed (v : PackageVersion) : Prop :=
  ∃ t : Text, (∀ c ∈ t, 0 < c.toNat ∧ c.toNat < 128) ∧ diPackageVersionParse (some t) = some v

theorem parsed_of_check (hascii : (t.all fun c => 0 < c.toNat && c.toNat < 128) = true)
    (hparse : diPackageVersionParse (some t) = some v) : Parsed v := by
  refine ⟨t, fun c hc => ?_, hparse⟩
  simpa using List.all_eq_true.mp hascii c hc

theorem Parsed.strings (h : Parsed v) : v.Strings := by
  obtain ⟨t, hascii, hparse⟩ := h
  exact diPackageVersionParse_strings (fun hmem => absurd (hascii _ hmem).1 (by decide)) hparse

/-- The comparison always has an answer, its sign is the order of the sequences, and so it
is a total preorder of the versions that can be parsed. -/
theorem diPackageVersionCompare_preorder {a b c : PackageVersion} (ha : Parsed a) (hb : Parsed b)
    (hc : Parsed c) :
    ∃ ab ba bc ac : Int, diPackageVersionCompare a b = some ab ∧
      diPackageVersionCompare b a = some ba ∧ diPackageVersionCompare b c = some bc ∧
      diPackageVersionCompare a c = some ac ∧
      ba.sign = -ab.sign ∧
      (ab ≤ 0 → bc ≤ 0 → ac ≤ 0) ∧
      (ab = 0 ↔ SameVersion a b) ∧
      (ab < 0 ↔ versionKey a < versionKey b) ∧ (0 < ab ↔ versionKey b < versionKey a) := by
  obtain ⟨ab, hab, dab⟩ := diPackageVersionCompare_spec ha.strings hb.strings
  obtain ⟨ba, hba, dba⟩ := diPackageVersionCompare_spec hb.strings ha.strings
  obtain ⟨bc, hbc, dbc⟩ := diPackageVersionCompare_spec hb.strings hc.strings
  obtain ⟨ac, hac, dac⟩ := diPackageVersionCompare_spec ha.strings hc.strings
  refine ⟨ab, ba, bc, ac, hab, hba, hbc, hac, ?_, ?_, ?_, dab.neg_iff, dab.pos_iff⟩
  · rcases lt_trichotomy (versionKey a) (versionKey b) with hlt | heq | hgt
    · rw [Int.sign_eq_neg_one_of_neg (dab.neg_iff.mpr hlt),
        Int.sign_eq_one_of_pos (dba.pos_iff.mpr hlt)]
      rfl
    · rw [dab.zero_iff.mpr heq, dba.zero_iff.mpr heq.symm]
      rfl
    · rw [Int.sign_eq_one_of_pos (dab.pos_iff.mpr hgt),
        Int.sign_eq_neg_one_of_neg (dba.neg_iff.mpr hgt)]
  · intro h₁ h₂
    exact dac.nonpos_iff.mpr ((dab.nonpos_iff.mp h₁).trans (dbc.nonpos_iff.mp h₂))
  · rw [dab.zero_iff, versionKey_eq_iff]

/-- Three versions around a release: `1:2.0~rc1`, `1:2.0` and `1:2.00-1`. -/
def rcVersion : PackageVersion := ⟨1, some "2.0~rc1", none⟩

def plainVersion : PackageVersion := ⟨1, some "2.0", none⟩

def revisedVersion : PackageVersion := ⟨1, some "2.00", some "1"⟩

theorem diPackageVersionCompare_preorder_release :
    ∃ ab ba bc ac : Int, diPackageVersionCompare rcVersion plainVersion = some ab ∧
      diPackageVersionCompare plainVersion rcVersion = some ba ∧
      diPackageVersionCompare plainVersion revisedVersion = some bc ∧
      diPackageVersionCompare rcVersion revisedVersion = some ac ∧
      ba.sign = -ab.sign ∧
      (ab ≤ 0 → bc ≤ 0 → ac ≤ 0) ∧
      (ab = 0 ↔ SameVersion rcVersion plainVersion) ∧
      (ab < 0 ↔ versionKey rcVersion < versionKey plainVersion) ∧
      (0 < ab ↔ versionKey plainVersion < versionKey rcVersion) :=
  diPackageVersionCompare_preorder
    (@parsed_of_check "1:2.0~rc1" _ (by decide) (by decide))
    (@parsed_of_check "1:2.0" _ (by decide) (by decide))
    (@parsed_of_check "1:2.00-1" _ (by decide) (by decide))

end DebianInstaller.Packages
