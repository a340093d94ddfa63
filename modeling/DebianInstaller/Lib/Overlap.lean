import Mathlib.Data.List.Basic

/-!
# Where reading and writing overlap

A loop that reads at one index and writes at another may be given two buffers, or the same
one twice. It makes no difference as long as nothing is written at or behind the index that
is read next: what is still to be read is then still there.
-/

namespace DebianInstaller.Lib

variable {σ α : Type}

/-- Memory of which one part is read and one is written. An access outside of its part
gives nothing. -/
structure Buffers (σ α : Type) where
  read : σ → ℕ → Option α
  out : σ → List α
  write : σ → ℕ → α → Option σ
  out_write : ∀ s i c, (write s i c).map out =
    if i < (out s).length then some ((out s).set i c) else none
  read_write : ∀ {s s' i c}, write s i c = some s' → ∀ k, i < k → read s' k = read s k

/-- An element is written, if there is a place for it. -/
def store (l : List α) (i : ℕ) (c : α) : Option (List α) :=
  if i < l.length then some (l.set i c) else none

theorem getElem?_of_store {l l' : List α} {i : ℕ} {c : α} (h : store l i c = some l') {k : ℕ}
    (hk : i < k) : l'[k]? = l[k]? := by
  unfold store at h
  split at h
  · cases h
    exact List.getElem?_set_ne (Nat.ne_of_lt hk)
  · cases h

/-- Two buffers. -/
def apart (α : Type) : Buffers (List α × List α) α where
  read s k := s.1[k]?
  out s := s.2
  write s i c := (store s.2 i c).map fun o => (s.1, o)
  out_write s i c := by
    unfold store
    split <;> rfl
  read_write h k _ := by
    obtain ⟨o, -, rfl⟩ := Option.map_eq_some_iff.mp h
    rfl

/-- One buffer. -/
def inPlace (α : Type) : Buffers (List α) α where
  read s k := s[k]?
  out s := s
  write := store
  out_write s i c := by
    unfold store
    split <;> rfl
  read_write h _ hk := getElem?_of_store h hk

/-- The index that is read next is not behind the one that is written next, and this stands
there. -/
structure Ahead (B : Buffers σ α) (s : σ) (p i : ℕ) (l : List α) : Prop where
  le : i ≤ p
  read : ∀ k, B.read s (p + k) = l[k]?

variable {B : Buffers σ α} {s : σ} {p i : ℕ} {l : List α}

theorem Ahead.head (h : Ahead B s p i l) : B.read s p = l.head? := by
  rw [List.head?_eq_getElem?]
  exact h.read 0

theorem Ahead.next (h : Ahead B s p i l) : B.read s (p + 1) = l[1]? := h.read 1

theorem Buffers.write_eq_none (B : Buffers σ α) {s : σ} {i : ℕ} (h : (B.out s).length ≤ i)
    (c : α) : B.write s i c = none := by
  have ho := B.out_write s i c
  rw [if_neg (by omega)] at ho
  exact Option.map_eq_none_iff.mp ho

theorem Buffers.exists_write (B : Buffers σ α) {s : σ} {i : ℕ} (h : i < (B.out s).length)
    (c : α) : ∃ s', B.write s i c = some s' ∧ B.out s' = (B.out s).set i c := by
  have ho := B.out_write s i c
  rw [if_pos h] at ho
  exact Option.map_eq_some_iff.mp ho

theorem Ahead.write (h : Ahead B s p i l) {c : α} {s' : σ} (hw : B.write s i c = some s')
    (n : ℕ) : Ahead B s' (p + (n + 1)) (i + 1) (l.drop (n + 1)) where
  le := by
    have := h.le
    omega
  read k := by
    have := h.le
    rw [B.read_write hw _ (by omega), Nat.add_assoc, h.read, List.getElem?_drop]

end DebianInstaller.Lib
