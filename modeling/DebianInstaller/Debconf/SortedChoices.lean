import DebianInstaller.Debconf.Choices

/-!
# Choices in another order

A template may say in which order its translated choices are shown. `strchoicesplitsort`
makes the list that is shown while it still reads the order, and gives it up at the first
index that is out of range. Since the list is put in place only when all indices have been
read, what is shown on a line and where that line points to always belong together,
whatever the indices are.

Whether an index is out of range is another matter. `strtol` reads a `long`, and it has been
made an `int` before it is looked at, so that an index far out of range may come back into
it. And the length of the list is not looked at as a whole: no more indices are split off
than there are choices.
-/

namespace DebianInstaller.Debconf

open Text Lib

variable {n : Nat} {orig trans ws : List Text}

/-! ## Indices -/

/-- `strtol` to base 10. -/
def strtolDec (t : Text) : Int :=
  let s := t.dropWhile isSpace
  let negative := s.head? = some '-'
  let s := if s.head? = some '-' ∨ s.head? = some '+' then s.tail else s
  let n : Int := number (s.takeWhile Char.isDigit)
  max (-2 ^ 63) (min (2 ^ 63 - 1) (if negative then -n else n))

/-- `oindex[i] = strtol(cindex[i], NULL, 10) - 1`, which is an `int`. -/
def readIndex (cindex : Text) : Int := (strtolDec cindex - 1).bmod (2 ^ 32)

/-- The test that an index has to pass. -/
def outOfRange (maxnarg : Nat) (i : Int) : Bool := i < 0 || (maxnarg : Int) ≤ i

/-- The choices, what is shown, and where that stands in the list of translations. -/
structure SortedChoices where
  oargv : List Text
  targv : List Text
  oindex : List Int
  deriving DecidableEq

/-- The order without indices. -/
def unsorted (maxnarg : Nat) : List Int := (List.range maxnarg).map Int.ofNat

/-- The loop over the indices: `oindex` and `sorted_targv`, unless one is out of range. -/
def sortChoices (maxnarg : Nat) (targv : List Text) : List Text → Option (List Int × List Text)
  | [] => some ([], [])
  | w :: ws =>
      if outOfRange maxnarg (readIndex w) then none
      else
        (sortChoices maxnarg targv ws).map fun r =>
          (readIndex w :: r.1, targv.getD (readIndex w).toNat [] :: r.2)

/-- `strchoicesplitsort`, where it returns `maxnarg`. -/
def strchoicesplitsort (origbuf transbuf : Text) (indices : Option Text) (maxnarg : Nat) :
    Option SortedChoices :=
  let oargv := strchoicesplit maxnarg origbuf
  let targv := strchoicesplit maxnarg transbuf
  if oargv.length ≠ maxnarg then none
  else if targv.length ≠ maxnarg then none
  else if indices.getD [] = [] then some ⟨oargv, targv, unsorted maxnarg⟩
  else
    let cindex := strchoicesplit maxnarg (indices.getD [])
    if cindex.length ≠ maxnarg then some ⟨oargv, targv, unsorted maxnarg⟩
    else
      match sortChoices maxnarg targv cindex with
      | none => some ⟨oargv, targv, unsorted maxnarg⟩
      | some (oindex, sorted) => some ⟨oargv, sorted, oindex⟩

/-! ## What belongs together -/

/-- Every line points to a choice, and shows the translation that stands there. -/
structure SortedChoices.Paired (r : SortedChoices) (n : Nat) (orig trans : List Text) : Prop where
  choices : r.oargv = orig
  shown : r.targv.length = n
  indices : r.oindex.length = n
  pair : ∀ i, i < n → ∃ k : Nat, k < n ∧ r.oindex[i]? = some (k : Int) ∧
    r.targv[i]? = trans[k]? ∧ orig[k]? ≠ none ∧ trans[k]? ≠ none

/-- The translations in their order, and the indices, too. -/
def SortedChoices.InOrder (r : SortedChoices) (n : Nat) (trans : List Text) : Prop :=
  r.targv = trans ∧ r.oindex = unsorted n

/-- There are no indices, another number of them than of choices, or one that is no position
in the list. -/
def BadIndices (n : Nat) (indices : Option Text) : Prop :=
  indices.getD [] = [] ∨
    (strchoicesplit (indices.getD []).length (indices.getD [])).length ≠ n ∨
      ∃ w ∈ strchoicesplit (indices.getD []).length (indices.getD []),
        ¬ (1 ≤ strtolDec w ∧ strtolDec w ≤ n)

/-- There are no indices, they are fewer than the choices, one of the first ones is out of
range as an `int`, or these are in order. -/
def Unsorting (n : Nat) (indices : Option Text) : Prop :=
  indices.getD [] = [] ∨ (strchoicesplit n (indices.getD [])).length ≠ n ∨
    (∃ w ∈ strchoicesplit n (indices.getD []), outOfRange n (readIndex w) = true) ∨
      (strchoicesplit n (indices.getD [])).map readIndex = unsorted n

theorem outOfRange_eq_false {i : Int} : outOfRange n i = false ↔ 0 ≤ i ∧ i < n := by
  simp [outOfRange]

theorem sortChoices_eq (n : Nat) (targv ws : List Text) :
    sortChoices n targv ws =
      if ∃ w ∈ ws, outOfRange n (readIndex w) = true then none
      else some (ws.map readIndex, ws.map fun w => targv.getD (readIndex w).toNat []) := by
  induction ws with
  | nil => rfl
  | cons w ws ih =>
      rw [sortChoices, ih]
      simp only [List.exists_mem_cons_iff]
      by_cases hw : outOfRange n (readIndex w) = true
      · rw [if_pos hw, if_pos (.inl hw)]
      · rw [if_neg hw]
        by_cases hws : ∃ w ∈ ws, outOfRange n (readIndex w) = true
        · rw [if_pos hws, if_pos (.inr hws)]
          rfl
        · rw [if_neg hws, if_neg (not_or.mpr ⟨hw, hws⟩)]
          rfl

theorem getElem?_unsorted {i : Nat} (h : i < n) : (unsorted n)[i]? = some (i : Int) := by
  unfold unsorted
  rw [List.getElem?_map, List.getElem?_range h]
  rfl

theorem paired_unsorted (horig : orig.length = n) (htrans : trans.length = n) :
    SortedChoices.Paired ⟨orig, trans, unsorted n⟩ n orig trans where
  choices := rfl
  shown := htrans
  indices := by simp [unsorted]
  pair i hi := by
    refine ⟨i, hi, getElem?_unsorted hi, rfl, ?_, ?_⟩
    · rw [Ne, List.getElem?_eq_none_iff]
      omega
    · rw [Ne, List.getElem?_eq_none_iff]
      omega

theorem paired_sorted (horig : orig.length = n) (htrans : trans.length = n) (hws : ws.length = n)
    (hin : ∀ w ∈ ws, outOfRange n (readIndex w) = false) :
    SortedChoices.Paired
      ⟨orig, ws.map fun w => trans.getD (readIndex w).toNat [], ws.map readIndex⟩ n orig trans where
  choices := rfl
  shown := by rw [List.length_map, hws]
  indices := by rw [List.length_map, hws]
  pair i hi := by
    have hi' : i < ws.length := by omega
    obtain ⟨hpos, hlt⟩ := outOfRange_eq_false.mp (hin ws[i] (List.getElem_mem hi'))
    obtain ⟨k, hk⟩ := Int.eq_ofNat_of_zero_le hpos
    rw [hk] at hlt
    have hkn : k < n := by omega
    refine ⟨k, hkn, ?_, ?_, ?_, ?_⟩
    · rw [List.getElem?_map, List.getElem?_eq_getElem hi', Option.map_some, hk]
    · have hk' : k < trans.length := by omega
      show (ws.map fun w => trans.getD (readIndex w).toNat [])[i]? = trans[k]?
      rw [List.getElem?_map, List.getElem?_eq_getElem hi', Option.map_some, hk,
        Int.toNat_natCast, List.getD_eq_getElem?_getD, List.getElem?_eq_getElem hk',
        Option.getD_some]
    · rw [Ne, List.getElem?_eq_none_iff]
      omega
    · rw [Ne, List.getElem?_eq_none_iff]
      omega

theorem map_getD_unsorted (htrans : trans.length = n) (h : ws.map readIndex = unsorted n) :
    (ws.map fun w => trans.getD (readIndex w).toNat []) = trans := by
  have hcomp : (ws.map fun w => trans.getD (readIndex w).toNat []) =
      (ws.map readIndex).map fun i => trans.getD i.toNat [] := by
    rw [List.map_map]
    rfl
  rw [hcomp, h, unsorted, List.map_map]
  refine List.ext_getElem ?_ fun i hi hi' => ?_
  · rw [List.length_map, List.length_range, htrans]
  · rw [List.getElem_map, List.getElem_range]
    show trans.getD i [] = trans[i]
    rw [List.getD_eq_getElem?_getD, List.getElem?_eq_getElem hi', Option.getD_some]

/-- The lines that `strchoicesplitsort` gives belong together, and bad indices give the
original order exactly if the indices that are looked at do. -/
theorem strchoicesplitsort_spec {origbuf transbuf : Text} {indices : Option Text}
    {r : SortedChoices} (h : strchoicesplitsort origbuf transbuf indices n = some r) :
    r.Paired n (strchoicesplit n origbuf) (strchoicesplit n transbuf) ∧
      (r.InOrder n (strchoicesplit n transbuf) ↔ Unsorting n indices) := by
  unfold strchoicesplitsort at h
  simp only [ne_eq, ite_not] at h
  split at h
  case isFalse => cases h
  case isTrue horig =>
    split at h
    case isFalse => cases h
    case isTrue htrans =>
      have hunsorted := paired_unsorted horig htrans
      split at h
      case isTrue hnone =>
        cases h
        exact ⟨hunsorted, iff_of_true ⟨rfl, rfl⟩ (.inl hnone)⟩
      case isFalse hsome =>
        split at h
        case isFalse hlen =>
          cases h
          exact ⟨hunsorted, iff_of_true ⟨rfl, rfl⟩ (.inr (.inl hlen))⟩
        case isTrue hlen =>
          rw [sortChoices_eq] at h
          by_cases hbad : ∃ w ∈ strchoicesplit n (indices.getD []),
              outOfRange n (readIndex w) = true
          · rw [if_pos hbad] at h
            cases h
            exact ⟨hunsorted, iff_of_true ⟨rfl, rfl⟩ (.inr (.inr (.inl hbad)))⟩
          · rw [if_neg hbad] at h
            cases h
            have hin : ∀ w ∈ strchoicesplit n (indices.getD []),
                outOfRange n (readIndex w) = false := by
              intro w hw
              exact Bool.eq_false_iff.mpr fun hw' => hbad ⟨w, hw, hw'⟩
            refine ⟨paired_sorted horig htrans hlen hin, ?_⟩
            constructor
            · exact fun hord => .inr (.inr (.inr hord.2))
            · rintro (hno | hno | hno | hord)
              · exact absurd hno hsome
              · exact absurd hlen hno
              · exact absurd hno hbad
              · exact ⟨map_getD_unsorted htrans hord, hord⟩

/-- Whenever `strchoicesplitsort` returns `n`, each line shows the translation of the choice
it points to; and with bad or missing indices the order is the original one exactly if
these do not come to look like good ones. -/
theorem strchoicesplitsort_iff {origbuf transbuf : Text} {indices : Option Text} {n : Nat}
    {r : SortedChoices} (h : strchoicesplitsort origbuf transbuf indices n = some r) :
    r.Paired n (strchoicesplit n origbuf) (strchoicesplit n transbuf) ∧
      ((BadIndices n indices → r.InOrder n (strchoicesplit n transbuf)) ↔
        (BadIndices n indices → Unsorting n indices)) := by
  obtain ⟨hpair, hiff⟩ := strchoicesplitsort_spec h
  exact ⟨hpair, imp_congr_right fun _ => hiff⟩

theorem strchoicesplitsort_iff_swapped :
    SortedChoices.Paired ⟨[['a'], ['b']], [['z'], ['y']], [1, 0]⟩ 2
        (strchoicesplit 2 "a, b") (strchoicesplit 2 "y, z") ∧
      ((BadIndices 2 (some "2, 1") →
          SortedChoices.InOrder ⟨[['a'], ['b']], [['z'], ['y']], [1, 0]⟩ 2
            (strchoicesplit 2 "y, z")) ↔
        (BadIndices 2 (some "2, 1") → Unsorting 2 (some "2, 1"))) :=
  @strchoicesplitsort_iff "a, b" "y, z" (some "2, 1") 2 _ (by decide)

/-- Two indices that are out of range, and come back as `int`. -/
theorem strchoicesplitsort_truncated :
    BadIndices 2 (some "4294967298, 4294967297") ∧
      strchoicesplitsort "a, b" "y, z" (some "4294967298, 4294967297") 2 =
        some ⟨[['a'], ['b']], [['z'], ['y']], [1, 0]⟩ ∧
      ¬ SortedChoices.InOrder ⟨[['a'], ['b']], [['z'], ['y']], [1, 0]⟩ 2
        (strchoicesplit 2 "y, z") := by
  refine ⟨.inr (.inr ⟨"4294967298", by decide, by decide⟩), by decide, fun h => ?_⟩
  exact absurd h.2 (by decide)

end DebianInstaller.Debconf
