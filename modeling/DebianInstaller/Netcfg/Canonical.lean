import DebianInstaller.Netcfg.Inet
import Mathlib.Data.List.OfFn

/-!
# Addresses as texts

How the C library writes addresses: four decimal numbers with dots between them, or eight
hexadecimal ones with colons. `inet_ntop` leaves two zero groups in a row out, and `inet_pton`
reads what was left out; that is not done here, so that this is the library only for the
addresses that have no such groups. What is written can be read, for every address.
-/

namespace DebianInstaller.Netcfg

open Lib

/-! ## Numbers -/

/-- The value of a digit; 16 if it is none. -/
def digitValue (c : Char) : ℕ := "0123456789abcdef".toList.idxOf c.toLower

def numeral (b : ℕ) (w : Text) : ℕ := w.foldl (fun n c => b * n + digitValue c) 0

/-- A byte in decimal, without leading zeros. -/
def octet (w : Text) : Option (BitVec 8) :=
  if w ≠ [] ∧ w.length ≤ 3 ∧ w.all (digitValue · < 10) ∧ (w.head? = some '0' → w.length = 1) ∧
      numeral 10 w < 256 then
    some (BitVec.ofNat 8 (numeral 10 w))
  else none

/-- One to four hexadecimal digits. -/
def group (w : Text) : Option (BitVec 16) :=
  if w ≠ [] ∧ w.length ≤ 4 ∧ w.all (digitValue · < 16) then
    some (BitVec.ofNat 16 (numeral 16 w))
  else none

/-! ## Fields -/

/-- `k` texts with a separator between them, each of which can be read. -/
def readFields {α : Type} (sep : Char) (k : ℕ) (read : Text → Option α) (t : Text) :
    Option (Fin k → α) := do
  let xs ← (t.splitOn sep).mapM read
  if h : xs.length = k then some fun i => xs.get (i.cast h.symm) else none

def writeFields {α : Type} (sep : Char) {k : ℕ} (write : α → Text) (f : Fin k → α) : Text :=
  [sep].intercalate ((List.ofFn f).map write)

/-- The two bytes of each group. -/
def ofGroups (g : Fin 8 → BitVec 16) : Address .inet6 := fun i =>
  have hi : (i : ℕ) < 16 := i.isLt
  (g ⟨i / 2, by omega⟩).extractLsb' (8 * (1 - i % 2)) 8

def groups (a : Address .inet6) : Fin 8 → BitVec 16 := fun k =>
  a ⟨2 * k, show 2 * (k : ℕ) < 16 by omega⟩ ++ a ⟨2 * k + 1, show 2 * (k : ℕ) + 1 < 16 by omega⟩

/-- Addresses written out. -/
def canonical : Inet where
  pton
    | .inet, t => readFields '.' 4 octet t
    | .inet6, t => (readFields ':' 8 group t).map ofGroups
  ntop
    | .inet, a => writeFields '.' (fun b => Nat.toDigits 10 b.toNat) a
    | .inet6, a => writeFields ':' (fun b => Nat.toDigits 16 b.toNat) (groups a)

/-! ## What is written can be read -/

theorem digitValue_digitChar : ∀ d < 16, digitValue (Nat.digitChar d) = d := by
  decide +kernel

theorem numeral_append (b : ℕ) (w : Text) (c : Char) :
    numeral b (w ++ [c]) = b * numeral b w + digitValue c := by
  rw [numeral, List.foldl_append]
  rfl

theorem digitValue_lt {b n : ℕ} (hb : 1 < b) (hb' : b ≤ 16) {c : Char}
    (hc : c ∈ Nat.toDigits b n) : digitValue c < b := by
  induction n using Nat.strong_induction_on with
  | _ n ih =>
      rw [Nat.toDigits_eq_if hb] at hc
      split at hc
      · next hlt =>
          obtain rfl := List.mem_singleton.1 hc
          rwa [digitValue_digitChar n (by omega)]
      · next hle =>
          rcases List.mem_append.1 hc with hc | hc
          · exact ih (n / b) (Nat.div_lt_self (by omega) hb) hc
          · obtain rfl := List.mem_singleton.1 hc
            have hmod := Nat.mod_lt n (show b > 0 by omega)
            rwa [digitValue_digitChar _ (by omega)]

theorem numeral_toDigits (n : ℕ) : numeral 16 (Nat.toDigits 16 n) = n := by
  induction n using Nat.strong_induction_on with
  | _ n ih =>
      rw [Nat.toDigits_eq_if (by omega)]
      split
      · next hlt =>
          rw [← List.nil_append [_], numeral_append, digitValue_digitChar n hlt]
          exact Nat.zero_add n
      · rw [numeral_append, ih (n / 16) (by omega), digitValue_digitChar _ (by omega)]
        omega

theorem octet_toDigits (b : BitVec 8) : octet (Nat.toDigits 10 b.toNat) = some b := by
  have hall : ∀ n : Fin 256, octet (Nat.toDigits 10 n) = some (BitVec.ofNat 8 n) := by
    decide +kernel
  simpa using hall ⟨b.toNat, b.isLt⟩

theorem group_toDigits (b : BitVec 16) : group (Nat.toDigits 16 b.toNat) = some b := by
  have hlength : (Nat.toDigits 16 b.toNat).length ≤ 4 :=
    (Nat.length_toDigits_le_iff (by omega) (by omega)).2 b.isLt
  have hdigits : (Nat.toDigits 16 b.toNat).all (digitValue · < 16) = true :=
    List.all_eq_true.2 fun c hc => decide_eq_true (digitValue_lt (by omega) le_rfl hc)
  rw [group, if_pos ⟨Nat.toDigits_ne_nil, hlength, hdigits⟩, numeral_toDigits,
    BitVec.ofNat_toNat, BitVec.setWidth_eq]

theorem readFields_writeFields {α : Type} {sep : Char} {k : ℕ} {read : Text → Option α}
    {write : α → Text} (hk : 0 < k) (hread : ∀ x, read (write x) = some x)
    (hsep : ∀ x, sep ∉ write x) (f : Fin k → α) :
    readFields sep k read (writeFields sep write f) = some f := by
  have hmap : ∀ xs : List α, (xs.map write).mapM read = some xs := by
    intro xs
    induction xs with
    | nil => rfl
    | cons x xs ih => simp [hread, ih]
  have hne : (List.ofFn f).map write ≠ [] := by
    intro hnil
    have hlength := congrArg List.length hnil
    simp only [List.length_map, List.length_ofFn, List.length_nil] at hlength
    omega
  have hsplit : (writeFields sep write f).splitOn sep = (List.ofFn f).map write := by
    refine List.splitOn_intercalate sep (fun l hl => ?_) hne
    obtain ⟨x, -, rfl⟩ := List.mem_map.1 hl
    exact hsep x
  rw [readFields, hsplit, hmap]
  simp

theorem ofGroups_groups (a : Address .inet6) : ofGroups (groups a) = a := by
  funext i
  refine BitVec.eq_of_getLsbD_eq fun j hj => ?_
  have hi : (i : ℕ) < 16 := i.isLt
  simp only [ofGroups, groups, BitVec.getLsbD_extractLsb', BitVec.getLsbD_append, hj, decide_true,
    Bool.true_and]
  rcases Nat.mod_two_eq_zero_or_one i with heven | hodd
  · have hat : 2 * ((i : ℕ) / 2) = i := by omega
    rw [heven, if_neg (by omega)]
    simp only [hat, show 8 * (1 - 0) + j - 8 = j by omega]
  · have hat : 2 * ((i : ℕ) / 2) + 1 = i := by omega
    rw [hodd, if_pos (by omega)]
    simp only [hat, show 8 * (1 - 1) + j = j by omega]

theorem canonical_pton_ntop (af : Family) (a : Address af) :
    canonical.pton af (canonical.ntop af a) = some a := by
  cases af with
  | inet =>
      have hsep : ∀ b : BitVec 8, '.' ∉ Nat.toDigits 10 b.toNat := by
        intro b hmem
        have hdigit := Nat.isDigit_of_mem_toDigits (by omega) (by omega) hmem
        revert hdigit
        decide
      exact readFields_writeFields (show 0 < 4 by omega) octet_toDigits hsep a
  | inet6 =>
      have hsep : ∀ b : BitVec 16, ':' ∉ Nat.toDigits 16 b.toNat := by
        intro b hmem
        have hdigit := digitValue_lt (by omega) le_rfl hmem
        revert hdigit
        decide
      have hread := readFields_writeFields (show 0 < 8 by omega) group_toDigits hsep (groups a)
      change (readFields ':' 8 group
        (writeFields ':' (fun b => Nat.toDigits 16 b.toNat) (groups a))).map ofGroups = some a
      rw [hread, Option.map_some, ofGroups_groups]

end DebianInstaller.Netcfg
