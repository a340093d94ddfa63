import Mathlib.Data.List.Basic

/-!
# Pointers into a string

A pointer that may only be moved up to the end of its string is the list of what stands
from it to that end. It is read at its first element, and where there is none it stands
behind the end: reading there gives nothing.

A loop that moves such a pointer stays inside exactly if it comes to an element that stops
it.
-/

namespace DebianInstaller.Lib

variable {α : Type}

/-- A pointer is moved until an element stops it. -/
def scan (stop : α → Bool) : List α → Option (List α)
  | [] => none
  | c :: m => if stop c then some (c :: m) else scan stop m

/-- The elements before the first `nul`. -/
def readString [DecidableEq α] (nul : α) : List α → Option (List α)
  | [] => none
  | c :: m => if c = nul then some [] else (readString nul m).map (c :: ·)

variable {stop : α → Bool}

theorem scan_append {l : List α} (hl : ∀ c ∈ l, stop c = false) (m : List α) :
    scan stop (l ++ m) = scan stop m := by
  induction l with
  | nil => rfl
  | cons c l ih =>
      rw [List.cons_append, scan, if_neg (by rw [hl c List.mem_cons_self]; exact nofun),
        ih fun d hd => hl d (List.mem_cons_of_mem _ hd)]

theorem scan_stop {c : α} (hc : stop c = true) (m : List α) : scan stop (c :: m) = some (c :: m) :=
  if_pos hc

theorem scan_eq {m : List α} (h : ∃ c ∈ m, stop c = true) :
    scan stop m = some (m.dropWhile (!stop ·)) := by
  induction m with
  | nil =>
      obtain ⟨c, hc, -⟩ := h
      cases hc
  | cons c m ih =>
      rw [scan, List.dropWhile_cons]
      cases hc : stop c with
      | true => rfl
      | false =>
          rw [List.exists_mem_cons_iff, hc] at h
          exact ih (h.resolve_left Bool.false_ne_true)

variable [DecidableEq α] {nul : α}

theorem readString_append {s : List α} (hs : nul ∉ s) (m : List α) :
    readString nul (s ++ nul :: m) = some s := by
  induction s with
  | nil => exact if_pos rfl
  | cons c s ih =>
      rw [List.mem_cons, not_or] at hs
      rw [List.cons_append, readString, if_neg (Ne.symm hs.1), ih hs.2]
      rfl

theorem readString_isSome_iff (m : List α) : (readString nul m).isSome ↔ nul ∈ m := by
  induction m with
  | nil => simp [readString]
  | cons c m ih =>
      rw [readString, List.mem_cons]
      split
      · next h => exact iff_of_true rfl (.inl h.symm)
      · next h =>
          rw [Option.isSome_map]
          exact ih.trans (or_iff_right (Ne.symm h)).symm

theorem scan_readString_isSome_iff (hnul : stop nul = true) (m : List α) :
    ((scan stop m).bind (readString nul)).isSome ↔ nul ∈ m := by
  induction m with
  | nil => simp [scan]
  | cons c m ih =>
      rw [scan]
      split
      · exact readString_isSome_iff (c :: m)
      · next h =>
          have hc : nul ≠ c := fun he => h (he ▸ hnul)
          rw [ih, List.mem_cons]
          exact (or_iff_right hc).symm

end DebianInstaller.Lib
