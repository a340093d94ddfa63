import DebianInstaller.Partman.AskForSize

/-!
# Numbers that `expr` takes apart

A size may have more digits than the shell can compute with, so `longint_le` and
`convert_to_megabytes` work on the digits. Both let `expr` match a number with a basic regular
expression and print what its group has matched: of all matches the longest, and among those
the one in which what stands first is longest.

For both expressions that comes to the zeros being taken off the front. The second one has to
leave something for its group, which is the last zero if there is nothing else.
-/

namespace DebianInstaller.Partman

open Text Lib

/-! ## Groups -/

/-- A text in two parts, with the longest first part first. -/
def cuts (t : Text) : List (Text × Text) :=
  ((List.range (t.length + 1)).map fun n => (t.take n, t.drop n)).reverse

/-- A regular expression with one group. -/
structure Grouped where
  before : List Item
  group : List Item
  after : List Item
  /-- `$` -/
  anchored : Bool

/-- What the group matches, if all of a text is matched. -/
def Grouped.inWhole (regex : Grouped) (t : Text) : Option Text :=
  (cuts t).findSome? fun a =>
    if matchesAll regex.before a.1 then
      (cuts a.2).findSome? fun b =>
        if matchesAll regex.group b.1 && matchesAll regex.after b.2 then some b.1 else none
    else none

/-- `expr "$t" : 'regex'` -/
def Grouped.expr (regex : Grouped) (t : Text) : Option Text :=
  if regex.anchored then regex.inWhole t
  else (cuts t).findSome? fun m => regex.inWhole m.1

def isZero (c : Char) : Bool := c == '0'

/-- `.` -/
def isAny (_ : Char) : Bool := true

/-- `0*\(.*\)` -/
def stripZeros : Grouped := ⟨[.star isZero], [.star isAny], [], false⟩

/-- `0*\(..*\)......$` -/
def stripUnits : Grouped :=
  ⟨[.star isZero], [.one isAny, .star isAny], List.replicate 6 (.one isAny), true⟩

theorem matchesAll_only {p : Char → Bool} {t : Text} :
    matchesAll [.star p] t = true ↔ ∀ c ∈ t, p c = true := by
  show starMatches p (fun t => t.isEmpty) t = true ↔ _
  induction t with
  | nil => exact iff_of_true rfl fun c hc => absurd hc List.not_mem_nil
  | cons c t ih =>
      rw [starMatches, List.isEmpty_cons, Bool.false_or, Bool.and_eq_true, ih,
        List.forall_mem_cons]

theorem matchesAll_ones {p : Char → Bool} (hp : ∀ c, p c = true) (n : Nat) (t : Text) :
    matchesAll (List.replicate n (.one p)) t = decide (t.length = n) := by
  induction n generalizing t with
  | zero => cases t <;> rfl
  | succ n ih =>
      cases t with
      | nil => rfl
      | cons c t =>
          rw [List.replicate_succ, matchesAll, hp, ih, Bool.true_and, List.length_cons]
          exact decide_eq_decide.mpr Nat.succ_inj.symm

theorem findSome?_cuts {α : Type} {f : Text × Text → Option α} {t : Text} {k : Nat} {r : α}
    (hk : k ≤ t.length) (hr : f (t.take k, t.drop k) = some r)
    (hlonger : ∀ n, k < n → n ≤ t.length → f (t.take n, t.drop n) = none) :
    (cuts t).findSome? f = some r := by
  have hstep (m : Nat) (hm : m ≤ t.length) (hkm : k ≤ m) :
      (((List.range (m + 1)).map fun n => (t.take n, t.drop n)).reverse).findSome? f =
        some r := by
    induction m with
    | zero =>
        obtain rfl := Nat.le_zero.mp hkm
        show List.findSome? f [(t.take 0, t.drop 0)] = some r
        rw [List.findSome?_cons, hr]
    | succ m ih =>
        rw [List.range_succ, List.map_append, List.map_singleton, List.reverse_append,
          List.reverse_singleton, List.singleton_append, List.findSome?_cons]
        rcases Nat.lt_or_eq_of_le hkm with hlt | rfl
        · rw [hlonger _ hlt hm]
          exact ih (by omega) (by omega)
        · rw [hr]
  exact hstep t.length le_rfl hk

theorem zeros_takeWhile {t : Text} {n : Nat} (hn : n ≤ t.length)
    (h : ∀ c ∈ t.take n, isZero c = true) : n ≤ (t.takeWhile isZero).length := by
  induction t generalizing n with
  | nil => exact hn
  | cons c t ih =>
      cases n with
      | zero => exact Nat.zero_le _
      | succ n =>
          obtain ⟨hc, ht⟩ := List.forall_mem_cons.mp h
          rw [List.takeWhile_cons_of_pos hc, List.length_cons]
          exact Nat.succ_le_succ (ih (Nat.le_of_succ_le_succ hn) ht)

theorem drop_takeWhile (t : Text) : t.drop (t.takeWhile isZero).length = withoutZeros t := by
  have hdrop := @List.drop_left _ (t.takeWhile isZero) (t.dropWhile isZero)
  rw [List.takeWhile_append_dropWhile] at hdrop
  exact hdrop

theorem take_takeWhile (t : Text) : t.take (t.takeWhile isZero).length = t.takeWhile isZero := by
  have htake := @List.take_left _ (t.takeWhile isZero) (t.dropWhile isZero)
  rw [List.takeWhile_append_dropWhile] at htake
  exact htake

theorem Grouped.inWhole_zeros {regex : Grouped} (hbefore : regex.before = [.star isZero])
    {t r : Text} {k : Nat} (hk : k ≤ (t.takeWhile isZero).length)
    (hr : ((cuts (t.drop k)).findSome? fun b =>
      if matchesAll regex.group b.1 && matchesAll regex.after b.2 then some b.1 else none) = some r)
    (hnone : ∀ n, k < n → n ≤ (t.takeWhile isZero).length →
      ((cuts (t.drop n)).findSome? fun b =>
        if matchesAll regex.group b.1 && matchesAll regex.after b.2 then some b.1 else none) =
        none) :
    regex.inWhole t = some r := by
  have hlen : (t.takeWhile isZero).length ≤ t.length := (List.takeWhile_prefix _).length_le
  have hzeros : ∀ c ∈ t.take k, isZero c = true := by
    intro c hc
    have hmem : c ∈ t.take (t.takeWhile isZero).length := List.take_subset_take_left t hk hc
    rw [take_takeWhile] at hmem
    exact List.mem_takeWhile_imp hmem
  unfold Grouped.inWhole
  refine findSome?_cuts (hk.trans hlen) ?_ fun n hkn hn => ?_
  · rw [hbefore, if_pos (matchesAll_only.mpr hzeros)]
    exact hr
  · rw [hbefore]
    by_cases hall : ∀ c ∈ t.take n, isZero c = true
    · rw [if_pos (matchesAll_only.mpr hall)]
      exact hnone n hkn (zeros_takeWhile hn hall)
    · rw [if_neg (fun h => hall (matchesAll_only.mp h))]

theorem stripZeros_expr (t : Text) : stripZeros.expr t = some (withoutZeros t) := by
  have hwhole (t : Text) : stripZeros.inWhole t = some (withoutZeros t) := by
    refine Grouped.inWhole_zeros rfl le_rfl ?_ fun n hlt hle => absurd hle (Nat.not_le.mpr hlt)
    rw [drop_takeWhile]
    refine findSome?_cuts le_rfl ?_ fun n hlt hle => absurd hle (Nat.not_le.mpr hlt)
    rw [List.take_length, List.drop_length]
    have hany : matchesAll stripZeros.group (withoutZeros t) = true :=
      matchesAll_only.mpr fun c _ => rfl
    have hend : matchesAll stripZeros.after [] = true := rfl
    rw [hany, hend]
    rfl
  unfold Grouped.expr
  rw [if_neg (by decide)]
  refine findSome?_cuts le_rfl ?_ fun n hlt hle => absurd hle (Nat.not_le.mpr hlt)
  rw [List.take_length]
  exact hwhole t

theorem cuts_units (t : Text) :
    ((cuts t).findSome? fun b =>
      if matchesAll stripUnits.group b.1 && matchesAll stripUnits.after b.2 then some b.1
      else none) = if 7 ≤ t.length then some (t.take (t.length - 6)) else none := by
  have hgroup (b : Text) : matchesAll stripUnits.group b = !b.isEmpty := by
    cases b with
    | nil => rfl
    | cons c b => exact matchesAll_only.mpr fun c _ => rfl
  have hafter (b : Text) : matchesAll stripUnits.after b = decide (b.length = 6) :=
    matchesAll_ones (fun c => rfl) 6 b
  simp only [hgroup, hafter]
  split
  · next hlen =>
      have hsix : (t.drop (t.length - 6)).length = 6 := by
        rw [List.length_drop]
        omega
      have hne : (t.take (t.length - 6)).isEmpty = false := by
        rw [List.isEmpty_eq_false_iff, ← List.length_pos_iff, List.length_take]
        omega
      refine findSome?_cuts (Nat.sub_le t.length 6) ?_ fun n hlt hle => ?_
      · dsimp only
        rw [hsix, hne]
        rfl
      · have hnot : (t.drop n).length ≠ 6 := by
          rw [List.length_drop]
          omega
        dsimp only
        rw [decide_eq_false hnot, Bool.and_false]
        rfl
  · next hlen =>
      refine List.findSome?_eq_none_iff.mpr fun b hb => ?_
      obtain ⟨n, hn, rfl⟩ := List.mem_map.mp (List.mem_reverse.mp hb)
      have hle := List.mem_range.mp hn
      dsimp only
      rw [if_neg]
      intro hboth
      obtain ⟨hne, hsix⟩ := Bool.and_eq_true_iff.mp hboth
      have hsix := of_decide_eq_true hsix
      rw [Bool.not_eq_true', List.isEmpty_eq_false_iff, ← List.length_pos_iff,
        List.length_take] at hne
      rw [List.length_drop] at hsix
      omega

theorem stripUnits_expr {t : Text} (h : 7 ≤ t.length) :
    stripUnits.expr t =
      some (if withoutZeros (cutEnd 6 t) = [] then ['0'] else withoutZeros (cutEnd 6 t)) := by
  have hcut : cutEnd 6 t = t.take (t.length - 6) := if_pos (by omega)
  have hsplit := List.takeWhile_append_dropWhile (p := isZero) (l := t)
  have hzeros : ∀ c ∈ t.takeWhile isZero, isZero c = true := fun c hc =>
    List.mem_takeWhile_imp hc
  have hhead := withoutZeros_head t
  have hlength : (t.takeWhile isZero).length + (withoutZeros t).length = t.length := by
    rw [← List.length_append]
    exact congrArg List.length hsplit
  have hanchored : stripUnits.anchored = true := rfl
  unfold Grouped.expr
  rw [if_pos hanchored, hcut]
  rcases Nat.lt_or_ge (t.takeWhile isZero).length (t.length - 6) with hfew | hmany
  · -- What is left over begins with something else, so all zeros can go.
    have hrest : 7 ≤ (withoutZeros t).length := by omega
    have hwhole : withoutZeros (t.take (t.length - 6)) =
        (withoutZeros t).take ((withoutZeros t).length - 6) := by
      have htake : t.take (t.length - 6) = t.takeWhile isZero ++
          (withoutZeros t).take ((withoutZeros t).length - 6) := by
        conv_lhs => rw [← hsplit]
        rw [List.take_append, List.take_of_length_le (by rw [hsplit]; omega)]
        refine congrArg (_ ++ List.take · _) ?_
        rw [hsplit]
        omega
      have hskip := @List.dropWhile_append_of_pos _ _ _
        ((withoutZeros t).take ((withoutZeros t).length - 6)) hzeros
      rw [htake]
      refine Eq.trans hskip ?_
      obtain ⟨c, rest, hcons⟩ := List.exists_cons_of_length_pos (by omega :
        0 < (withoutZeros t).length)
      rw [hcons] at hrest hhead ⊢
      obtain ⟨m, hm⟩ : ∃ m, (c :: rest).length - 6 = m + 1 := ⟨(c :: rest).length - 7, by omega⟩
      rw [hm, List.take_succ_cons]
      refine List.dropWhile_cons_of_neg fun hc => hhead ?_
      rw [List.head?_cons, eq_of_beq hc]
    have hne : withoutZeros (t.take (t.length - 6)) ≠ [] := by
      rw [hwhole, ← List.length_pos_iff, List.length_take]
      omega
    rw [if_neg hne, hwhole]
    refine Grouped.inWhole_zeros rfl le_rfl ?_ fun n hlt hle => absurd hle (Nat.not_le.mpr hlt)
    rw [drop_takeWhile, cuts_units, if_pos hrest]
  · -- There is nothing but zeros in front of the last six characters.
    have hall : ∀ c ∈ t.take (t.length - 6), isZero c = true := by
      intro c hc
      have hmem := List.take_subset_take_left t hmany hc
      rw [take_takeWhile] at hmem
      exact hzeros c hmem
    have hnil : withoutZeros (t.take (t.length - 6)) = [] :=
      List.dropWhile_eq_nil_iff.mpr hall
    rw [if_pos hnil]
    refine Grouped.inWhole_zeros (k := t.length - 7) rfl (by omega) ?_ fun n hlt hle => ?_
    · have hdrop : (t.drop (t.length - 7)).length = 7 := by
        rw [List.length_drop]
        omega
      rw [cuts_units, hdrop, if_pos le_rfl]
      obtain ⟨c, hc⟩ : ∃ c, (t.drop (t.length - 7)).take (7 - 6) = [c] :=
        List.length_eq_one_iff.mp (by rw [List.length_take]; omega)
      have hmem : c ∈ t.take (t.length - 6) := by
        have hone : (t.take (t.length - 6)).drop (t.length - 7) = [c] := by
          rw [List.drop_take, ← hc]
          congr 1
          omega
        exact List.mem_of_mem_drop (hone ▸ List.mem_cons_self)
      rw [hc, eq_of_beq (hall c hmem)]
    · rw [cuts_units, if_neg]
      rw [List.length_drop]
      omega

/-! ## Numbers -/

/-- A decimal numeral. -/
abbrev Numeral := { t : Text // isNumber t = true }

theorem Numeral.digits (x : Numeral) : ∀ c ∈ x.1, c.isDigit = true := (isNumber_iff.mp x.2).2

theorem eq_toDigits {w : Text} (hdigit : ∀ c ∈ w, c.isDigit = true) (hhead : w.head? ≠ some '0')
    (hne : w ≠ []) : w = Nat.toDigits 10 (number w) := by
  have hpos : 0 < number w := by
    cases w with
    | nil => exact absurd rfl hne
    | cons c w =>
        have hone : number [] < number (c :: w) :=
          Packages.number_lt_of_length (fun c hc => absurd hc List.not_mem_nil) hdigit hhead
            (Nat.zero_lt_succ _)
        exact Nat.zero_lt_of_lt hone
  have hstrip : withoutZeros w = w := by
    cases w with
    | nil => exact absurd rfl hne
    | cons c w =>
        refine List.dropWhile_cons_of_neg fun hc => hhead ?_
        rw [List.head?_cons, eq_of_beq hc]
  have hvalue := number_toDigits (number w)
  have hle := longintLe_iff hdigit (isDigit_toDigits (number w))
  have hge := longintLe_iff (isDigit_toDigits (number w)) hdigit
  rw [hvalue] at hle hge
  have hxy := hle.mpr le_rfl
  have hyx := hge.mpr le_rfl
  unfold longintLe at hxy hyx
  rw [hstrip, withoutZeros_toDigits hpos] at hxy hyx
  dsimp only at hxy hyx
  rcases Nat.lt_trichotomy w.length (Nat.toDigits 10 (number w)).length with hlt | heq | hgt
  · rw [if_neg (by omega), if_pos hlt] at hyx
    exact absurd hyx Bool.false_ne_true
  · by_contra hneq
    rw [if_neg (by omega), if_neg (by omega), if_neg hneq] at hxy
    rw [if_neg (by omega), if_neg (by omega), if_neg (Ne.symm hneq)] at hyx
    exact absurd (of_decide_eq_true hyx) (List.lt_asymm (of_decide_eq_true hxy))
  · rw [if_neg (by omega), if_pos hgt] at hxy
    exact absurd hxy Bool.false_ne_true

/-- All sizes are compared as numbers, and divided as numbers. -/
theorem longint_number (x y : Numeral) :
    (longintLe x.1 y.1 = true ↔ number x.1 ≤ number y.1) ∧
      convertToMegabytes x.1 = Nat.toDigits 10 (number x.1 / 10 ^ 6) := by
  refine ⟨longintLe_iff x.digits y.digits, ?_⟩
  have hdigit : ∀ c ∈ "0000000" ++ x.1, c.isDigit = true := by
    intro c hc
    rcases List.mem_append.mp hc with hc | hc
    · exact List.all_eq_true.mp (by decide : "0000000".toList.all Char.isDigit = true) c hc
    · exact x.digits c hc
  have hlen : 6 ≤ ("0000000" ++ x.1).length := by
    rw [List.length_append]
    exact (by decide : 6 ≤ "0000000".toList.length).trans (Nat.le_add_right _ _)
  have hzeros : number ("0000000" ++ x.1) = number x.1 := by
    have hvalue : number "0000000" = 0 := by decide
    rw [number_append, hvalue, Nat.mul_zero, Nat.zero_add]
  have hwhole := number_cutEnd hdigit hlen
  rw [hzeros] at hwhole
  unfold convertToMegabytes
  generalize hcut : cutEnd 6 ("0000000" ++ x.1) = whole at hwhole ⊢
  have hwholeDigit : ∀ c ∈ whole, c.isDigit = true := by
    intro c hc
    rw [← hcut, cutEnd, if_pos hlen] at hc
    exact hdigit c (List.mem_of_mem_take hc)
  have hstrip : number (withoutZeros whole) = number whole := Packages.number_dropWhile_zeros whole
  dsimp only
  rw [← hwhole]
  split
  · next hnil =>
      rw [hnil] at hstrip
      rw [← hstrip]
      rfl
  · next hne =>
      rw [← hstrip]
      exact eq_toDigits (isDigit_withoutZeros hwholeDigit) (withoutZeros_head whole) hne

theorem longint_expr (x : Numeral) :
    stripZeros.expr x.1 = some (withoutZeros x.1) ∧
      stripUnits.expr ("0000000" ++ x.1) = some (convertToMegabytes x.1) := by
  refine ⟨stripZeros_expr x.1, stripUnits_expr ?_⟩
  rw [List.length_append]
  exact (by decide : 7 ≤ "0000000".toList.length).trans (Nat.le_add_right _ _)

end DebianInstaller.Partman
