import DebianInstaller.Packages.Version
import DebianInstaller.Partman.Shown

/-!
# Asking for a new size

`ask_for_size` shows the least size a partition can have, the size it has, and the greatest one,
and reads an answer. Sizes are texts for the shell, and `longint_le` compares them as texts: it
takes the zeros off the front, and the shorter text is the smaller number. That is right for
digits. But what is computed from an answer has 64 bits and a sign, and a sign is one more
character: a negative size passes for a number between two others if it is longer than the one
and not longer than the other.

What is shown can be answered. The sizes that it stands for are rounded, but in the same order,
and the limits are rounded with them.
-/

namespace DebianInstaller.Partman

open Text Lib

variable {maxRounded minRounded t : Text} {n x : Nat}

/-! ## Comparing -/

/-- `expr "$1" : '0*\(.*\)'` -/
def withoutZeros (t : Text) : Text := t.dropWhile (· == '0')

def longintLe (a b : Text) : Bool :=
  let x := withoutZeros a
  let y := withoutZeros b
  if x.length < y.length then true
  else if y.length < x.length then false
  else if x = y then true
  else decide (x < y)

theorem isDigit_withoutZeros (h : ∀ c ∈ t, c.isDigit = true) :
    ∀ c ∈ withoutZeros t, c.isDigit = true := fun c hc =>
  h c ((List.dropWhile_sublist _).subset hc)

theorem withoutZeros_head (t : Text) : (withoutZeros t).head? ≠ some '0' := by
  intro hhead
  have hnot := List.head?_dropWhile_not (· == '0') t
  rw [withoutZeros] at hhead
  rw [hhead] at hnot
  cases hnot

theorem lt_iff_number_lt {x y : Text} (hx : ∀ c ∈ x, c.isDigit = true)
    (hy : ∀ c ∈ y, c.isDigit = true) (hlength : x.length = y.length) :
    x < y ↔ number x < number y := by
  induction x generalizing y with
  | nil =>
      obtain rfl := List.length_eq_zero_iff.mp hlength.symm
      exact iff_of_false (List.not_lt_nil _) (Nat.lt_irrefl _)
  | cons c x ih =>
      cases y with
      | nil => cases hlength
      | cons d y =>
          obtain ⟨hc, hx⟩ := List.forall_mem_cons.mp hx
          obtain ⟨hd, hy⟩ := List.forall_mem_cons.mp hy
          have hlength : x.length = y.length := Nat.succ.inj hlength
          have hxlt := number_lt hx
          have hylt := number_lt hy
          have hcd : c < d ↔ c.toNat < d.toNat := Iff.rfl
          have heq : c = d ↔ c.toNat = d.toNat := Char.toNat_inj.symm
          rw [List.cons_lt_cons_iff, ih hx hy hlength, Packages.number_cons, Packages.number_cons,
            hcd, heq, Packages.toNat_digit hc, Packages.toNat_digit hd, hlength]
          rw [hlength] at hxlt
          generalize Packages.digitValue c = v
          generalize Packages.digitValue d = w
          rcases Nat.lt_trichotomy v w with hlt | rfl | hgt
          · have hmul := Nat.mul_le_mul_right (10 ^ y.length) (Nat.succ_le_of_lt hlt)
            rw [Nat.succ_mul] at hmul
            omega
          · omega
          · have hmul := Nat.mul_le_mul_right (10 ^ y.length) (Nat.succ_le_of_lt hgt)
            rw [Nat.succ_mul] at hmul
            omega

theorem longintLe_iff {a b : Text} (ha : ∀ c ∈ a, c.isDigit = true)
    (hb : ∀ c ∈ b, c.isDigit = true) : longintLe a b = true ↔ number a ≤ number b := by
  have hx := isDigit_withoutZeros ha
  have hy := isDigit_withoutZeros hb
  have hnx : number (withoutZeros a) = number a := Packages.number_dropWhile_zeros a
  have hny : number (withoutZeros b) = number b := Packages.number_dropWhile_zeros b
  simp only [longintLe]
  split
  · next hlt =>
      have hless := Packages.number_lt_of_length hx hy (withoutZeros_head b) hlt
      exact iff_of_true rfl (by omega)
  · split
    · next hgt =>
        have hless := Packages.number_lt_of_length hy hx (withoutZeros_head a) hgt
        exact iff_of_false Bool.false_ne_true (by omega)
    · split
      · next heq =>
          rw [heq] at hnx
          exact iff_of_true rfl (by omega)
      · next hge hle hne =>
          have hlength : (withoutZeros a).length = (withoutZeros b).length := by omega
          have hlt := lt_iff_number_lt hx hy hlength
          have hgt := lt_iff_number_lt hy hx hlength.symm
          rw [decide_eq_true_eq, hlt, hnx, hny]
          refine ⟨Nat.le_of_lt, fun hle => Nat.lt_of_le_of_ne hle fun hvalue => hne ?_⟩
          refine List.le_antisymm (fun h => ?_) (fun h => ?_)
          · have hless := hgt.mp h
            omega
          · have hless := hlt.mp h
            omega

/-! ## The code -/

/-- `expr 0000000"$size" : '0*\(..*\)......$'`: the last zero is given back where there is
nothing else. -/
def convertToMegabytes (size : Text) : Text :=
  let whole := withoutZeros (cutEnd 6 ("0000000" ++ size))
  if whole = [] then ['0'] else whole

/-- `expr "$RET" : '\([1-9][0-9]*\) *%$'` -/
def percentDigits (RET : Text) : Text :=
  let digits := RET.takeWhile Char.isDigit
  if digits ≠ [] ∧ digits.head? ≠ some '0' ∧
    (RET.dropWhile Char.isDigit).dropWhile isBlank = ['%'] then digits else []

/-- A number in `$((…))`: one that has more than 64 bits counts as zero. -/
def shellNumber (t : Text) : Int := longLong (if number t < 2 ^ 64 then number t else 0 : Nat)

/-- `$(($digits * $maxmb / 100))` -/
def percentage (digits maxmb : Text) : Int :=
  (longLong (shellNumber digits * shellNumber maxmb)).tdiv 100

/-- A partition: the sizes that `GET_VIRTUAL_RESIZE_RANGE` prints. -/
structure Sizes where
  minsize : Nat
  cursize : Nat
  maxsize : Nat
  pos : 0 < minsize
  min_le : minsize ≤ cursize
  le_max : cursize ≤ maxsize

/-- A size as it is shown: `deci` is a point. -/
def human (size : Nat) : Text := longint2human ['.'] (Nat.toDigits 10 size)

namespace Sizes

variable (s : Sizes)

/-- `$minsize` and `$maxsize`. -/
def least : Text := Nat.toDigits 10 s.minsize

def greatest : Text := Nat.toDigits 10 s.maxsize

/-- The size that is asked for, before it is checked. -/
def newsize (RET : Text) : Text :=
  if RET = "max" then s.greatest
  else if RET.getLast? = some '%' then
    if percentDigits RET = [] then []
    else ofInt (percentage (percentDigits RET) (convertToMegabytes s.greatest)) ++ "000000"
  else if validHuman RET then (human2longint false RET).getD []
  else []

end Sizes

/-- What an answer leads to. -/
inductive Verdict where
  | bad
  | big
  | small
  | accepted (newsize : Text)
  deriving DecidableEq

/-- What `human2longint` prints for what is shown, for a text that is no size too, which
`unread` is for. -/
def rounded (unread : Text → Text) (human : Text) : Text :=
  if validHuman human then (human2longint false human).getD [] else unread human

/-- The tests for a size, which may put a limit in its place. -/
def checkSize (minsize maxsize minsizeRounded maxsizeRounded newsize : Text) : Verdict :=
  if newsize = [] then .bad
  else if !longintLe newsize maxsize then
    if longintLe newsize maxsizeRounded then .accepted maxsize else .big
  else if !longintLe minsize newsize then
    if longintLe minsizeRounded newsize then .accepted minsize else .small
  else .accepted newsize

namespace Sizes

variable (unread : Text → Text) (s : Sizes)

/-- One answer. -/
def ask (RET : Text) : Verdict :=
  checkSize s.least s.greatest (rounded unread (human s.minsize))
    (rounded unread (human s.maxsize)) (s.newsize RET)

/-- `ask_for_size`, with the answers one after another: the sizes handed to `perform_resizing`,
and whether one of them was made. There are no more answers where the question is not asked
again, or the user goes back. -/
def askForSize (performResizing : Text → Bool) : List Text → List Text × Bool
  | [] => ([], false)
  | RET :: answers =>
      match s.ask unread RET with
      | .accepted newsize =>
          if performResizing newsize then ([newsize], true)
          else
            let rest := askForSize performResizing answers
            (newsize :: rest.1, rest.2)
      | _ => askForSize performResizing answers

end Sizes

/-! ## A sign is one more character -/

theorem withoutZeros_toDigits (h : 0 < n) :
    withoutZeros (Nat.toDigits 10 n) = Nat.toDigits 10 n := by
  cases ht : Nat.toDigits 10 n with
  | nil => exact absurd ht Nat.toDigits_ne_nil
  | cons c t =>
      refine List.dropWhile_cons_of_neg fun hc => ?_
      obtain rfl := eq_of_beq hc
      have hdigits := isDigit_toDigits n
      have hvalue := number_toDigits n
      rw [ht] at hdigits hvalue
      have hzero : number ('0' :: t) = number t := by
        rw [Packages.number_cons]
        simp [Packages.digitValue]
      have hlt := number_lt (List.forall_mem_cons.mp hdigits).2
      rw [← hzero, hvalue] at hlt
      have hlength : t.length + 1 ≤ t.length := by
        cases t with
        | nil => exact absurd hlt (by rw [List.length_nil, Nat.pow_zero]; omega)
        | cons d t =>
            have hle := (length_toDigits_le (n := n) (k := (d :: t).length) (Nat.succ_pos _)).mpr hlt
            rwa [ht] at hle
      omega

theorem withoutZeros_neg (u : Text) : withoutZeros ('-' :: u) = '-' :: u := rfl

theorem neg_lt {u : Text} (ht : ∀ c ∈ t, c.isDigit = true)
    (hlength : ('-' :: u).length = t.length) : '-' :: u < t := by
  cases t with
  | nil => cases hlength
  | cons c t =>
      have hc := Packages.toNat_digit (ht c List.mem_cons_self)
      have hlt : '-' < c := by
        change ('-' : Char).toNat < c.toNat
        have hminus : ('-' : Char).toNat = 45 := rfl
        omega
      exact List.cons_lt_cons_iff.mpr (.inl hlt)

theorem longintLe_neg (hn : 0 < n) (u : Text) :
    longintLe ('-' :: u) (Nat.toDigits 10 n) = true ↔
      ('-' :: u).length ≤ (Nat.toDigits 10 n).length := by
  simp only [longintLe, withoutZeros_neg, withoutZeros_toDigits hn]
  split
  · next hlt => exact iff_of_true rfl hlt.le
  · split
    · next hgt => exact iff_of_false Bool.false_ne_true (by omega)
    · have hlength : ('-' :: u).length = (Nat.toDigits 10 n).length := by omega
      split
      · exact iff_of_true rfl hlength.le
      · exact iff_of_true (decide_eq_true (neg_lt (isDigit_toDigits n) hlength)) hlength.le

theorem longintLe_of_neg (hn : 0 < n) (u : Text) :
    longintLe (Nat.toDigits 10 n) ('-' :: u) = true ↔
      (Nat.toDigits 10 n).length < ('-' :: u).length := by
  simp only [longintLe, withoutZeros_neg, withoutZeros_toDigits hn]
  split
  · next hlt => exact iff_of_true rfl hlt
  · next hnot =>
      refine iff_of_false (fun h => ?_) hnot
      split at h
      · cases h
      · have hlength : ('-' :: u).length = (Nat.toDigits 10 n).length := by omega
        have hless := neg_lt (isDigit_toDigits n) hlength
        split at h
        · next heq =>
            rw [heq] at hless
            exact List.lt_irrefl _ hless
        · exact List.lt_asymm hless (of_decide_eq_true h)

/-! ## What is handed on -/

namespace Sizes

variable (unread : Text → Text) (s : Sizes)

/-- A size that is a number and within the limits. -/
def Within (newsize : Text) : Prop :=
  isNumber newsize = true ∧ s.minsize ≤ number newsize ∧ number newsize ≤ s.maxsize

/-- A text of so many characters that has a sign is not taken for a size within the limits. -/
def Outside (length : Nat) : Prop := length ≤ s.least.length ∨ s.greatest.length < length

theorem max_pos : 0 < s.maxsize := s.pos.trans_le (s.min_le.trans s.le_max)

theorem within_least : s.Within s.least := by
  rw [Within, least, number_toDigits]
  exact ⟨isNumber_toDigits _, le_rfl, s.min_le.trans s.le_max⟩

theorem within_greatest : s.Within s.greatest := by
  rw [Within, greatest, number_toDigits]
  exact ⟨isNumber_toDigits _, s.min_le.trans s.le_max, le_rfl⟩

/-- The limits may be put in the place of a size. If they are not, the size has passed both
tests. -/
theorem checkSize_cases {newsize v : Text}
    (h : checkSize s.least s.greatest minRounded maxRounded newsize = .accepted v) :
    v = s.greatest ∨ v = s.least ∨ (v = newsize ∧ newsize ≠ [] ∧
      longintLe newsize s.greatest = true ∧ longintLe s.least newsize = true) := by
  unfold checkSize at h
  split at h
  · cases h
  · next hne =>
      split at h
      · split at h
        · exact .inl (Verdict.accepted.inj h).symm
        · cases h
      · next hle =>
          split at h
          · split at h
            · exact .inr (.inl (Verdict.accepted.inj h).symm)
            · cases h
          · next hge =>
              refine .inr (.inr ⟨(Verdict.accepted.inj h).symm, hne, ?_, ?_⟩)
              · simpa using hle
              · simpa using hge

theorem checkSize_passes (minRounded maxRounded : Text) {newsize : Text} (hne : newsize ≠ [])
    (hle : longintLe newsize s.greatest = true) (hge : longintLe s.least newsize = true) :
    checkSize s.least s.greatest minRounded maxRounded newsize = .accepted newsize := by
  rw [checkSize, if_neg hne, hle, hge]
  rfl

theorem within_of_digits {newsize v : Text} (hdigits : ∀ c ∈ newsize, c.isDigit = true)
    (h : checkSize s.least s.greatest minRounded maxRounded newsize = .accepted v) :
    s.Within v := by
  rcases s.checkSize_cases h with rfl | rfl | ⟨rfl, hne, hle, hge⟩
  · exact s.within_greatest
  · exact s.within_least
  · have hle := (longintLe_iff hdigits (isDigit_toDigits s.maxsize)).mp hle
    have hge := (longintLe_iff (isDigit_toDigits s.minsize) hdigits).mp hge
    rw [number_toDigits] at hle hge
    exact ⟨isNumber_iff.mpr ⟨hne, hdigits⟩, hge, hle⟩

theorem within_neg_iff {u : Text} :
    (∀ v, checkSize s.least s.greatest minRounded maxRounded ('-' :: u) = .accepted v →
      s.Within v) ↔ s.Outside ('-' :: u).length := by
  have hle := longintLe_neg s.max_pos u
  have hge := longintLe_of_neg s.pos u
  constructor
  · intro h
    by_contra hinside
    rw [Outside, not_or, not_le, not_lt] at hinside
    have hpass := s.checkSize_passes minRounded maxRounded
      (List.cons_ne_nil '-' u) (hle.mpr hinside.2) (hge.mpr hinside.1)
    cases (h _ hpass).1
  · intro houtside v hv
    rcases s.checkSize_cases hv with rfl | rfl | ⟨rfl, hne, hle', hge'⟩
    · exact s.within_greatest
    · exact s.within_least
    · have hlong := hle.mp hle'
      have hshort := hge.mp hge'
      unfold Outside least greatest at houtside
      omega

end Sizes

theorem isDigit_ofInt {x : Int} (hx : 0 ≤ x) : ∀ c ∈ ofInt x, c.isDigit = true := by
  rw [ofInt_eq, if_pos hx]
  exact isDigit_toDigits _

theorem ofInt_neg {x : Int} (hx : x < 0) : ∃ u, ofInt x = '-' :: u :=
  ⟨_, (ofInt_eq x).trans (if_neg (by omega))⟩

/-- What `expr` computes for a size, in ten-thousandths and with 64 bits. -/
def Human.computed (h : Human) : Int :=
  longLong (saturate (Text.number h.int) * 10000
    + Text.number ((h.digits ++ "0000").take 4))

theorem Human.human2longint_computed (h : Human) :
    human2longint false h.text = some (toBytes h.suffix (ofInt h.computed)) := by
  have hfrac := h.number_frac_lt
  have hsaturate : saturate (Text.number ((h.digits ++ "0000").take 4))
      = Text.number ((h.digits ++ "0000").take 4) := by
    unfold saturate
    omega
  refine (h.human2longint_expr false (x := h.computed) ?_).trans (if_neg fun hexit => ?_)
  · rw [expr, h.number_int_or_zero, hsaturate, longLong, longLong, Int.bmod_add_bmod]
    rfl
  · cases hexit.1

theorem isDigit_toBytes (suffix : Suffix) (n : Nat) :
    ∀ c ∈ toBytes suffix (Nat.toDigits 10 n), c.isDigit = true := by
  have hdigits := isDigit_toDigits n
  have happend : ∀ t : Text, (∀ c ∈ t, c.isDigit = true) →
      ∀ c ∈ Nat.toDigits 10 n ++ t, c.isDigit = true := by
    intro t ht c hc
    rcases List.mem_append.mp hc with hc | hc
    · exact hdigits c hc
    · exact ht c hc
  cases suffix with
  | byte =>
      rw [toBytes]
      split
      · exact List.all_eq_true.mp (by decide)
      · exact isDigit_cutEnd hdigits 4
  | kilo => exact isDigit_cutEnd hdigits 1
  | mega => exact happend _ (List.all_eq_true.mp (by decide))
  | giga => exact happend _ (List.all_eq_true.mp (by decide))
  | tera => exact happend _ (List.all_eq_true.mp (by decide))
  | none => exact happend _ (List.all_eq_true.mp (by decide))

namespace Sizes

variable (unread : Text → Text) (s : Sizes)

/-- What is handed to `perform_resizing` after this answer is within the limits. -/
def HandsInRange (RET : Text) : Prop := ∀ v, s.ask unread RET = .accepted v → s.Within v

/-- What is computed with 64 bits from a percentage or a size is not negative, or has too few
characters or too many to be taken for a size within the limits. -/
def InBits (RET : Text) : Prop :=
  if RET.getLast? = some '%' then
    let x := percentage (percentDigits RET) (convertToMegabytes s.greatest)
    0 ≤ x ∨ s.Outside ((ofInt x).length + 6)
  else ∀ h : Human, h.text = RET →
    0 ≤ h.computed ∨ s.Outside (toBytes h.suffix (ofInt h.computed)).length

theorem outside_of_le (h : n ≤ 1) : s.Outside n :=
  .inl (h.trans Nat.length_toDigits_pos)

theorem within_iff {newsize : Text} {x : Int} (hpos : 0 ≤ x → ∀ c ∈ newsize, c.isDigit = true)
    (hneg : x < 0 → newsize = [] ∨ newsize = ['0'] ∨ ∃ u, newsize = '-' :: u) :
    (∀ v, checkSize s.least s.greatest minRounded maxRounded newsize = .accepted v →
      s.Within v) ↔ 0 ≤ x ∨ s.Outside newsize.length := by
  rcases Int.lt_or_le x 0 with hx | hx
  · rw [or_iff_right (by omega)]
    rcases hneg hx with rfl | rfl | ⟨u, rfl⟩
    · exact iff_of_true (fun v hv => by cases hv) (s.outside_of_le (Nat.zero_le 1))
    · refine iff_of_true (fun v hv => s.within_of_digits ?_ hv) (s.outside_of_le le_rfl)
      exact List.all_eq_true.mp (by decide)
    · exact s.within_neg_iff
  · exact iff_of_true (fun v hv => s.within_of_digits (hpos hx) hv) (.inl hx)

theorem not_validHuman_max : validHuman "max" = false := by decide

theorem handsInRange_iff (RET : Text) : s.HandsInRange unread RET ↔ s.InBits RET := by
  unfold HandsInRange ask
  by_cases hmax : RET = "max"
  · subst hmax
    have hnewsize : s.newsize "max" = s.greatest := if_pos rfl
    rw [hnewsize]
    refine iff_of_true (fun v hv => s.within_of_digits (isDigit_toDigits _) hv) ?_
    refine (if_neg (by decide)).mpr fun h htext => ?_
    have hvalid := validHuman_iff.mpr ⟨h, htext⟩
    rw [not_validHuman_max] at hvalid
    cases hvalid
  · rw [newsize, if_neg hmax]
    by_cases hpercent : RET.getLast? = some '%'
    · rw [if_pos hpercent, InBits, if_pos hpercent]
      generalize hx : percentage (percentDigits RET) (convertToMegabytes s.greatest) = x
      split
      · next hnil =>
          have hzero : x = 0 := by
            have hshell : shellNumber [] = 0 := by decide
            rw [← hx, hnil, percentage, hshell, Int.zero_mul]
            rfl
          exact iff_of_true (fun v hv => by cases hv) (.inl hzero.ge)
      · have hlength : (ofInt x ++ "000000").length = (ofInt x).length + 6 :=
          List.length_append
        simp only [← hlength]
        refine s.within_iff (fun hpos c hc => ?_) (fun hneg => .inr (.inr ?_))
        · rcases List.mem_append.mp hc with hc | hc
          · exact isDigit_ofInt hpos c hc
          · exact List.all_eq_true.mp (by decide : "000000".toList.all Char.isDigit = true) c hc
        · obtain ⟨u, hu⟩ := ofInt_neg hneg
          exact ⟨u ++ "000000", by rw [hu]; rfl⟩
    · rw [if_neg hpercent, InBits, if_neg hpercent]
      split
      · next hvalid =>
          obtain ⟨h, rfl⟩ := validHuman_iff.mp hvalid
          have hall : (∀ h' : Human, h'.text = h.text →
              0 ≤ h'.computed ∨ s.Outside (toBytes h'.suffix (ofInt h'.computed)).length) ↔
              ∀ h' : Human, h'.text = h.text →
                ∀ v, checkSize s.least s.greatest (rounded unread (human s.minsize))
                  (rounded unread (human s.maxsize)) ((human2longint false h.text).getD []) =
                    .accepted v → s.Within v := by
            refine forall₂_congr fun h' htext => ?_
            rw [← htext, h'.human2longint_computed, Option.getD_some]
            refine (s.within_iff (fun hpos => ?_) fun hneg => toBytes_neg _ hneg).symm
            obtain ⟨n, hn⟩ := Int.eq_ofNat_of_zero_le hpos
            rw [hn, ofInt_natCast]
            exact isDigit_toBytes _ n
          rw [hall]
          exact ⟨fun hv _ _ => hv, fun hv => hv h rfl⟩
      · next hinvalid =>
          refine iff_of_true (fun v hv => by cases hv) fun h htext => ?_
          exact absurd (validHuman_iff.mpr ⟨h, htext⟩) hinvalid

end Sizes

/-! ## What is shown can be answered -/

/-- The tenths that are shown for a size. The shell adds five to its hundredths with a sign: what
is too large is negative then, and a text with a sign is no size, but of two digits with a sign one
stands before the point and the other one behind it. -/
def shownTenths (x : Nat) : Option Nat :=
  if hundredths x + 5 < 2 ^ 63 then some (tenths x)
  else if hundredths x + 15 ≤ 2 ^ 64 ∧ 2 ^ 64 ≤ hundredths x + 104 then
    some ((2 ^ 64 - (hundredths x + 5)) / 10)
  else none

/-- What is made of the size that is shown, where it is taken for one. -/
def back (x : Nat) : Option Text :=
  (shownTenths x).map fun n => toBytes (shownSuffix x) (ofInt (longLong (n * 1000 : Nat)))

theorem zero_isDigit : ∀ c ∈ ['0'], c.isDigit = true := List.all_eq_true.mp (by decide)

theorem space_isBlank : ∀ c ∈ [' '], isBlank c = true := List.all_eq_true.mp (by decide)

/-- So few terabytes. -/
def fewTera (n : Nat) : Human where
  int := ['0']
  frac := some ('.', Nat.toDigits 10 n)
  blanks := [' ']
  letter := some 'T'
  byte := some 'B'
  trailing := []
  int_isDigit := zero_isDigit
  frac_spec := by
    intro p hp
    obtain rfl := Option.some.inj hp
    exact ⟨rfl, isDigit_toDigits _⟩
  blanks_spec := space_isBlank
  letter_spec := by
    intro c hc
    obtain rfl := Option.some.inj hc
    rfl
  byte_spec := byte_isByte
  trailing_spec := nothing_isBlank
  int_ne := by
    intro hnone
    cases hnone

/-- What is printed in front of the unit. -/
def sum (x : Nat) : Text := cutEnd 1 (ofInt (addFive (Nat.toDigits 10 (hundredths x))))

theorem human_eq (hx : 0 < x) : human x = printSize ([cutEnd 1 (sum x), ['.'],
    cutPrefix (cutEnd 1 (sum x)) (sum x), (shownSuffix x).text].filter (· ≠ [])) := by
  simp only [human, longint2human, chooseSuffix_toDigits hx, sum]
  rfl

theorem printSize_getLast {int frac suffix : Text} (hsuffix : suffix.getLast? = some 'B') :
    (printSize ([int, ['.'], frac, suffix].filter (· ≠ []))).getLast? = some 'B' ∨
      (printSize ([int, ['.'], frac, suffix].filter (· ≠ []))).getLast? = some ' ' := by
  have hne : suffix ≠ [] := by
    rintro rfl
    cases hsuffix
  have hlast : ∀ words : List Text, (printSize words).getLast? =
      (' ' :: words.getD 3 []).getLast? := by
    intro words
    simp only [printSize, List.getLast?_append, List.getLast?_cons, Option.some_or]
  rw [hlast]
  cases int <;> cases frac <;> simp [hne, List.getLast?_cons, hsuffix]

theorem human_getLast (hx : 0 < x) :
    (human x).getLast? = some 'B' ∨ (human x).getLast? = some ' ' := by
  rw [human_eq hx]
  exact printSize_getLast List.getLast?_concat

theorem not_validHuman_neg (u : Text) : validHuman ('-' :: u) = false := by
  rw [← Bool.not_eq_true, validHuman_iff]
  rintro ⟨h, htext⟩
  obtain ⟨c, t, hct⟩ := List.exists_cons_of_ne_nil h.number_ne_nil
  have hc := h.number_spec c (hct ▸ List.mem_cons_self)
  rw [Human.text, hct] at htext
  obtain rfl := (List.cons.inj htext).1
  rcases hc with hc | hc <;> cases hc

theorem addFive_large (hlo : 2 ^ 63 ≤ n + 5) (hhi : n < 2 ^ 64) :
    addFive (Nat.toDigits 10 n) = (n + 5 : Int) - 2 ^ 64 := by
  rw [addFive, number_toDigits, if_pos hhi, longLong, Int.bmod_def]
  split <;> omega

theorem tera_of_large (h : 2 ^ 63 ≤ hundredths x + 5) : shownSuffix x = .tera := by
  unfold hundredths at h
  rcases shownSuffix_cases x with ⟨hs, h'⟩ | ⟨hs, h'⟩ | ⟨hs, h'⟩ | ⟨hs, h'⟩ | ⟨hs, -⟩
  · rw [hs, Suffix.unit] at h
    omega
  · rw [hs, Suffix.unit] at h
    omega
  · rw [hs, Suffix.unit] at h
    omega
  · rw [hs, Suffix.unit] at h
    omega
  · exact hs

theorem cutEnd_neg {z : Nat} (hz : 10 ≤ z) :
    cutEnd 1 ('-' :: Nat.toDigits 10 z) = '-' :: Nat.toDigits 10 (z / 10) := by
  rw [Nat.toDigits_of_base_le (by decide) hz, ← List.cons_append, cutEnd_append]

theorem cutEnd_neg_digit {z : Nat} (hz : z < 10) :
    cutEnd 1 ('-' :: Nat.toDigits 10 z) = ['-'] := by
  rw [Nat.toDigits_of_lt_base hz]
  rfl

theorem ofInt_sub_neg (h : n + 5 < 2 ^ 64) :
    ofInt ((n + 5 : Int) - 2 ^ 64) = '-' :: Nat.toDigits 10 (2 ^ 64 - (n + 5)) := by
  rw [ofInt_eq, if_neg (by omega)]
  exact congrArg (fun k => '-' :: Nat.toDigits 10 k) (by omega)

theorem isSeparator_point : isSeparator '.' = true := rfl

section

variable {x : Nat}

theorem back_shown (hx : 0 < x) (h : hundredths x + 5 < 2 ^ 63) : validHuman (human x) = true ∧
    human2longint false (human x) =
      some (toBytes (shownSuffix x) (ofInt (longLong (tenths x * 1000 : Nat)))) := by
  have htext : human x = (shown isSeparator_point x).text :=
    longint2human_shown [] isSeparator_point rfl hx h
  have htenths : tenths x = (hundredths x + 5) / 10 := rfl
  have hint : number (shown isSeparator_point x).int < 2 ^ 63 := by
    have hvalue : number (shown isSeparator_point x).int = tenths x / 10 := number_toDigits _
    omega
  rw [htext, Human.human2longint_text _ false hint, if_neg fun hexit => Bool.false_ne_true hexit.1,
    parts_shown, suffix_shown]
  exact ⟨validHuman_iff.mpr ⟨_, rfl⟩, rfl⟩

theorem human2longint_fewTera (hn : n < 10) :
    human2longint false (fewTera n).text =
      some (toBytes .tera (ofInt (longLong (n * 1000 : Nat)))) := by
  have hzero : number (fewTera n).int = 0 := rfl
  have hlength : (fewTera n).digits.length = 1 :=
    congrArg List.length (Nat.toDigits_of_lt_base (b := 10) hn)
  have hnumber : number (fewTera n).digits = n := number_toDigits n
  have hparts : (fewTera n).parts = n * 1000 := by
    rw [Human.parts, number_append, hlength, hzero, hnumber]
    omega
  rw [Human.human2longint_text _ false (by rw [hzero]; decide),
    if_neg fun hexit => Bool.false_ne_true hexit.1, hparts]
  rfl

theorem human_window (hlo : hundredths x + 15 ≤ 2 ^ 64) (hhi : 2 ^ 64 ≤ hundredths x + 104) :
    human x = (fewTera ((2 ^ 64 - (hundredths x + 5)) / 10)).text := by
  have hx : 0 < x := by
    by_contra hzero
    obtain rfl : x = 0 := by omega
    have hnone : hundredths 0 = 0 := by decide
    omega
  have hn : (2 ^ 64 - (hundredths x + 5)) / 10 < 10 := by omega
  have hsum : sum x = '-' :: Nat.toDigits 10 ((2 ^ 64 - (hundredths x + 5)) / 10) := by
    rw [sum, addFive_large (by omega) (by omega), ofInt_sub_neg (by omega), cutEnd_neg (by omega)]
  have htera := tera_of_large (x := x) (by omega)
  rw [human_eq hx, hsum, cutEnd_neg_digit hn, htera]
  generalize (2 ^ 64 - (hundredths x + 5)) / 10 = n at hn
  have hfrac : cutPrefix ['-'] ('-' :: Nat.toDigits 10 n) = Nat.toDigits 10 n := by
    rw [cutPrefix, if_pos (by simp)]
    rfl
  have hwords : [['-'], ['.'], Nat.toDigits 10 n, Suffix.text .tera].filter (· ≠ []) =
      [['-'], ['.'], Nat.toDigits 10 n, Suffix.text .tera] := by
    refine List.filter_eq_self.mpr ?_
    simp [Suffix.text, Nat.toDigits_ne_nil]
  have hminus : printInt ['-'] = ['0'] := rfl
  rw [hfrac, hwords]
  simp only [printSize, List.getD_cons_zero, List.getD_cons_succ, printInt_toDigits, hminus]
  simp [Human.text, Human.number, fewTera, Suffix.text, Suffix.letter]

theorem human_neg (hlo : 2 ^ 63 ≤ hundredths x + 5) (hhi : hundredths x + 105 ≤ 2 ^ 64) :
    ∃ u, human x = '-' :: u := by
  have hx : 0 < x := by
    by_contra hzero
    obtain rfl : x = 0 := by omega
    have hnone : hundredths 0 = 0 := by decide
    omega
  have hsum : sum x = '-' :: Nat.toDigits 10 ((2 ^ 64 - (hundredths x + 5)) / 10) := by
    rw [sum, addFive_large (by omega) (by omega), ofInt_sub_neg (by omega), cutEnd_neg (by omega)]
  have hint : cutEnd 1 (sum x) =
      '-' :: Nat.toDigits 10 ((2 ^ 64 - (hundredths x + 5)) / 10 / 10) := by
    rw [hsum, cutEnd_neg (by omega)]
  have hpos : 0 < (2 ^ 64 - (hundredths x + 5)) / 10 / 10 := by omega
  rw [human_eq hx, hint]
  generalize (2 ^ 64 - (hundredths x + 5)) / 10 / 10 = k at hpos
  have hprint : printInt ('-' :: Nat.toDigits 10 k) = ofInt (-(k : Int)) := by
    rw [printInt, if_pos (isNumber_toDigits k), number_toDigits]
  obtain ⟨u, hu⟩ := ofInt_neg (x := -(k : Int)) (by omega)
  rw [List.filter_cons_of_pos (by simp), printSize, List.getD_cons_zero, hprint, hu]
  exact ⟨_, rfl⟩

theorem human_zero (hlo : 2 ^ 64 < hundredths x + 15) :
    human x = "0TB0 " ∨ human x = "0-0 " := by
  have hx : 0 < x := by
    by_contra hzero
    obtain rfl : x = 0 := by omega
    have hnone : hundredths 0 = 0 := by decide
    omega
  have htera := tera_of_large (x := x) (by omega)
  have hsum : sum x = [] ∨ sum x = ['-'] := by
    have hdigit : ∀ n, n < 10 → cutEnd 1 (ofInt (n : Nat)) = [] := by
      intro n hn
      rw [ofInt_natCast, Nat.toDigits_of_lt_base hn]
      rfl
    rw [sum]
    by_cases hfits : hundredths x < 2 ^ 64
    · rw [addFive_large (by omega) hfits]
      by_cases hneg : hundredths x + 5 < 2 ^ 64
      · rw [ofInt_sub_neg hneg, cutEnd_neg_digit (by omega)]
        exact .inr rfl
      · obtain ⟨n, hn⟩ := Int.eq_ofNat_of_zero_le
          (show 0 ≤ (hundredths x + 5 : Int) - 2 ^ 64 by omega)
        rw [hn]
        exact .inl (hdigit n (by omega))
    · refine .inl ?_
      rw [addFive, number_toDigits, if_neg hfits]
      exact hdigit 5 (by decide)
  rw [human_eq hx, htera]
  rcases hsum with h | h
  · rw [h]
    exact .inl rfl
  · rw [h]
    exact .inr rfl

theorem back_spec (hx : 0 < x) : (∀ t, back x = some t → validHuman (human x) = true ∧
    human2longint false (human x) = some t) ∧ (back x = none → validHuman (human x) = false) := by
  unfold back shownTenths
  split
  · next hfits =>
      refine ⟨fun t ht => ?_, fun hnone => absurd hnone (Option.some_ne_none _)⟩
      obtain rfl := Option.some.inj ht
      exact back_shown hx hfits
  · next hfits =>
      split
      · next hwindow =>
          refine ⟨fun t ht => ?_, fun hnone => absurd hnone (Option.some_ne_none _)⟩
          obtain rfl := Option.some.inj ht
          rw [human_window hwindow.1 hwindow.2, tera_of_large (by omega)]
          exact ⟨validHuman_iff.mpr ⟨_, rfl⟩, human2longint_fewTera (by omega)⟩
      · next hwindow =>
          refine ⟨fun t ht => (by cases ht), fun _ => ?_⟩
          by_cases hmany : hundredths x + 105 ≤ 2 ^ 64
          · obtain ⟨u, hu⟩ := human_neg (by omega) hmany
            rw [hu]
            exact not_validHuman_neg u
          · rcases human_zero (x := x) (by omega) with h | h
            · rw [h]
              decide
            · rw [h]
              decide

end

theorem back_ne_nil (hx : 0 < x) : back x ≠ some [] := by
  unfold back
  intro h
  obtain ⟨n, hn, ht⟩ := Option.map_eq_some_iff.mp h
  have hprinted : ∀ y : Int, ofInt y ≠ [] := by
    intro y
    rcases Int.lt_or_le y 0 with hy | hy
    · obtain ⟨u, hu⟩ := ofInt_neg hy
      rw [hu]
      exact List.cons_ne_nil _ _
    · rw [ofInt_eq, if_pos hy]
      exact Nat.toDigits_ne_nil
  rcases shownSuffix_cases x with ⟨hs, -⟩ | ⟨hs, hx'⟩ | ⟨hs, -⟩ | ⟨hs, -⟩ | ⟨hs, -⟩
  · rw [hs, toBytes] at ht
    split at ht
    · cases ht
    · next hne => exact hne ht
  · have hge := hundredths_ge hx
    have hfits : hundredths x + 5 < 2 ^ 63 := by
      rw [hundredths, hs, Suffix.unit]
      omega
    rw [shownTenths, if_pos hfits] at hn
    obtain rfl := Option.some.inj hn
    have htenths : tenths x = (hundredths x + 5) / 10 := rfl
    have hless : tenths x ≤ 10 ^ 6 := by
      rw [hundredths, hs, Suffix.unit] at htenths
      omega
    rw [hs, toBytes, longLong_eq (by omega) (by omega), ofInt_natCast,
      cutEnd_toDigits (by omega)] at ht
    exact Nat.toDigits_ne_nil ht
  · rw [hs, toBytes] at ht
    exact List.append_ne_nil_of_left_ne_nil (hprinted _) _ ht
  · rw [hs, toBytes] at ht
    exact List.append_ne_nil_of_left_ne_nil (hprinted _) _ ht
  · rw [hs, toBytes] at ht
    exact List.append_ne_nil_of_left_ne_nil (hprinted _) _ ht

namespace Sizes

variable (unread : Text → Text) (s : Sizes)

/-- An answer that is not rejected. -/
def Taken (RET : Text) : Prop := ∃ v, s.ask unread RET = .accepted v

/-- None of the sizes that are shown is rejected. -/
def ShownTaken : Prop :=
  s.Taken unread (human s.minsize) ∧ s.Taken unread (human s.cursize) ∧
    s.Taken unread (human s.maxsize)

/-- What is made of a size that is shown, compared with the limits and with what is made of
these. -/
def Passes (least t greatest : Text) : Prop :=
  if longintLe t s.greatest then longintLe s.least t = true ∨ longintLe least t = true
  else longintLe t greatest = true

/-- The three sizes come back, and where 64 bits are too few for them they happen to be compared
as they should. -/
def InOrder : Prop :=
  ∃ a b c, back s.minsize = some a ∧ back s.cursize = some b ∧ back s.maxsize = some c ∧
    s.Passes a a c ∧ s.Passes a b c ∧ s.Passes a c c

theorem newsize_human (hx : 0 < x) : s.newsize (human x) = (back x).getD [] := by
  obtain ⟨hback, hnone⟩ := back_spec hx
  have hlast : (human x).getLast? ≠ some 'x' ∧ (human x).getLast? ≠ some '%' := by
    rcases human_getLast hx with h | h
    · rw [h]
      decide
    · rw [h]
      decide
  have hmax : human x ≠ "max" := by
    intro h
    exact hlast.1 (h ▸ rfl)
  rw [newsize, if_neg hmax, if_neg hlast.2]
  cases h : back x with
  | none => rw [hnone h, if_neg Bool.false_ne_true, Option.getD_none]
  | some t =>
      obtain ⟨hvalid, hprints⟩ := hback t h
      rw [if_pos hvalid, hprints]

theorem checkSize_iff {newsize : Text} (hne : newsize ≠ []) :
    (∃ v, checkSize s.least s.greatest minRounded maxRounded newsize = .accepted v) ↔
      s.Passes minRounded newsize maxRounded := by
  unfold checkSize Passes
  rw [if_neg hne]
  cases longintLe newsize s.greatest with
  | false => cases longintLe newsize maxRounded <;> simp
  | true => cases longintLe s.least newsize <;> cases longintLe minRounded newsize <;> simp

theorem back_of_taken (hx : 0 < x) (h : s.Taken unread (human x)) : ∃ t, back x = some t := by
  cases hback : back x with
  | some t => exact ⟨t, rfl⟩
  | none =>
      obtain ⟨v, hv⟩ := h
      rw [ask, s.newsize_human hx, hback] at hv
      cases hv

theorem cur_pos : 0 < s.cursize := s.pos.trans_le s.min_le

theorem rounded_human (hx : 0 < x) (h : back x = some t) : rounded unread (human x) = t := by
  obtain ⟨hvalid, hprints⟩ := (back_spec hx).1 t h
  rw [rounded, if_pos hvalid, hprints, Option.getD_some]

theorem shownTaken_iff : s.ShownTaken unread ↔ s.InOrder := by
  have htaken : ∀ {a c : Text}, back s.minsize = some a → back s.maxsize = some c →
      ∀ {x t}, 0 < x → back x = some t → (s.Taken unread (human x) ↔ s.Passes a t c) := by
    intro a c ha hc x t hx ht
    have hne : t ≠ [] := by
      rintro rfl
      exact back_ne_nil hx ht
    rw [Taken, ask, s.newsize_human hx, ht, rounded_human unread s.pos ha,
      rounded_human unread s.max_pos hc]
    exact s.checkSize_iff hne
  constructor
  · rintro ⟨hmin, hcur, hmax⟩
    obtain ⟨a, ha⟩ := s.back_of_taken unread s.pos hmin
    obtain ⟨b, hb⟩ := s.back_of_taken unread s.cur_pos hcur
    obtain ⟨c, hc⟩ := s.back_of_taken unread s.max_pos hmax
    exact ⟨a, b, c, ha, hb, hc, (htaken ha hc s.pos ha).mp hmin,
      (htaken ha hc s.cur_pos hb).mp hcur, (htaken ha hc s.max_pos hc).mp hmax⟩
  · rintro ⟨a, b, c, ha, hb, hc, hmin, hcur, hmax⟩
    exact ⟨(htaken ha hc s.pos ha).mpr hmin, (htaken ha hc s.cur_pos hb).mpr hcur,
      (htaken ha hc s.max_pos hc).mpr hmax⟩

theorem back_below (hx : 0 < x) (hlt : x < sizeLimit) : ∃ t, back x = some t ∧
    (∀ c ∈ t, c.isDigit = true) ∧ number t = nearest (step (shownSuffix x)) x := by
  have hbound : sizeLimit < 10 ^ 28 := by decide
  have hhundredths := hundredths_lt (hlt.trans hbound)
  have hback : back x =
      some (toBytes (shownSuffix x) (ofInt (longLong (tenths x * 1000 : Nat)))) := by
    rw [back, shownTenths, if_pos (by omega)]
    rfl
  have hprints := (back_shown hx (by omega)).2
  have htext := longint2human_shown ['.'] isSeparator_point rfl hx (by omega)
  obtain ⟨t, ht, hnumber, hvalue⟩ := prints_shown isSeparator_point false hx hlt
  rw [← htext] at ht
  refine ⟨t, ?_, (isNumber_iff.mp hnumber).2, hvalue⟩
  rw [hback, ← hprints]
  exact ht

theorem inOrder_of_lt (h : s.maxsize < sizeLimit) : s.InOrder := by
  have hcur := s.cur_pos
  have hmin_le := s.min_le
  have hle_max := s.le_max
  obtain ⟨a, ha, hda, hna⟩ := back_below s.pos (by omega)
  obtain ⟨b, hb, hdb, hnb⟩ := back_below hcur (by omega)
  obtain ⟨c, hc, hdc, hnc⟩ := back_below s.max_pos h
  have hab : number a ≤ number b := by
    rw [hna, hnb]
    exact monotone_shown hmin_le
  have hbc : number b ≤ number c := by
    rw [hnb, hnc]
    exact monotone_shown hle_max
  have hpasses : ∀ {t}, (∀ c ∈ t, c.isDigit = true) → number a ≤ number t →
      number t ≤ number c → s.Passes a t c := by
    intro t ht hat htc
    unfold Passes
    split
    · exact .inr ((longintLe_iff hda ht).mpr hat)
    · exact (longintLe_iff ht hdc).mpr htc
  exact ⟨a, b, c, ha, hb, hc, hpasses hda le_rfl (hab.trans hbc), hpasses hdb hab hbc,
    hpasses hdc (hab.trans hbc) le_rfl⟩

end Sizes

namespace Sizes

theorem askForSize_within (unread : Text → Text) (s : Sizes) (performResizing : Text → Bool)
    {answers : List Text} (h : ∀ RET ∈ answers, s.HandsInRange unread RET) :
    ∀ v ∈ (s.askForSize unread performResizing answers).1, s.Within v := by
  induction answers with
  | nil => exact fun v hv => absurd hv List.not_mem_nil
  | cons RET answers ih =>
      obtain ⟨hRET, hanswers⟩ := List.forall_mem_cons.mp h
      intro v hv
      rw [askForSize] at hv
      split at hv
      · next newsize haccepted =>
          have hnewsize := hRET newsize haccepted
          split at hv
          · rw [List.mem_singleton.mp hv]
            exact hnewsize
          · rcases List.mem_cons.mp hv with rfl | hv
            · exact hnewsize
            · exact ih hanswers v hv
      · exact ih hanswers v hv

/-- What is handed on after an answer is within the limits exactly if what is computed from the
answer stays within its bits, and none of the sizes that are shown is rejected exactly if they
come back in order, as they do as far as `human2longint` goes. In a run whose answers are computed
within their bits all that is handed on is within the limits. -/
theorem askForSize_iff (unread : Text → Text) (s : Sizes) :
    (∀ RET, s.HandsInRange unread RET ↔ s.InBits RET) ∧
    (s.ShownTaken unread ↔ s.InOrder) ∧ (s.maxsize < sizeLimit → s.InOrder) ∧
    ∀ performResizing answers, (∀ RET ∈ answers, s.InBits RET) →
      ∀ v ∈ (s.askForSize unread performResizing answers).1, s.Within v :=
  ⟨s.handsInRange_iff unread, s.shownTaken_iff unread, s.inOrder_of_lt,
    fun performResizing _ h => s.askForSize_within unread performResizing
      fun RET hRET => (s.handsInRange_iff unread RET).mpr (h RET hRET)⟩

/-- A partition of a gigabyte and a half that can be resized to two. -/
def partition : Sizes := ⟨1048576, 1500000000, 2000000000, by decide, by decide, by decide⟩

theorem partition_half : ∀ v ∈ (partition.askForSize id (fun _ => true) ["50%"]).1,
    partition.Within v := by
  refine (askForSize_iff id partition).2.2.2 _ _ fun RET hRET => ?_
  rw [List.mem_singleton.mp hRET]
  exact (if_pos (by decide)).mpr (.inl (by decide))

/-- The product of a percentage and two thousand megabytes is negative. -/
theorem partition_overflow :
    (partition.askForSize id (fun _ => true) ["9223372036854775807%"]).1 =
      ["-20000000".toList] ∧ ¬ partition.Within "-20000000" :=
  ⟨by decide, fun h => absurd h.1 (by decide)⟩

end Sizes

end DebianInstaller.Partman
