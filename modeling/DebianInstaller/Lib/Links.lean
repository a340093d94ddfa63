import Mathlib.Data.Finset.Card

/-!
# Doubly linked lists

Lists that are threaded through the nodes themselves: each node has a pointer to the
one before it and to the one after it. A node has room for one list only, whichever
head it is reached from; what is said about one list here holds for any other that
has no node in common with it.
-/

namespace DebianInstaller.Lib

/-- The pointers of all nodes. -/
structure Links (α : Type) where
  prev : α → Option α := fun _ => none
  next : α → Option α := fun _ => none

namespace Links

variable {α : Type}

/-- The nodes from a head on, for a number of steps. -/
def chain (l : Links α) : Nat → Option α → List α
  | 0, _ => []
  | _, none => []
  | n + 1, some a => a :: chain l n (l.next a)

/-- The nodes of a list are linked to each other and to nothing else, where the first
one points back to `p`. -/
def IsList (l : Links α) : Option α → List α → Prop
  | _, [] => True
  | p, a :: as => l.prev a = p ∧ l.next a = as.head? ∧ l.IsList (some a) as

/-- A list with its head. -/
def Heads (l : Links α) (head : Option α) (as : List α) : Prop :=
  head = as.head? ∧ l.IsList none as

variable {l l' : Links α} {p : Option α} {a b : α} {as : List α}

theorem IsList.congr (h : l.IsList p as)
    (hl : ∀ a ∈ as, l'.prev a = l.prev a ∧ l'.next a = l.next a) : l'.IsList p as := by
  induction as generalizing p with
  | nil => trivial
  | cons a as ih =>
      obtain ⟨hp, hn, hrest⟩ := h
      obtain ⟨hp', hn'⟩ := hl a List.mem_cons_self
      exact ⟨hp'.trans hp, hn'.trans hn, ih hrest fun b hb => hl b (List.mem_cons_of_mem _ hb)⟩

theorem chain_eq (h : l.IsList p as) {n : Nat} (hn : as.length ≤ n) :
    l.chain n as.head? = as := by
  induction as generalizing p n with
  | nil => cases n <;> rfl
  | cons a as ih =>
      obtain ⟨n, rfl⟩ := Nat.exists_eq_succ_of_ne_zero (Nat.ne_of_gt (Nat.zero_lt_of_lt hn))
      rw [List.head?_cons, chain, h.2.1, ih h.2.2 (Nat.le_of_succ_le_succ hn)]

theorem isList_singleton (hp : l.prev a = none) (hn : l.next a = none) : l.IsList none [a] :=
  ⟨hp, hn, trivial⟩

/-! ## Changing the pointers -/

variable [DecidableEq α]

/-- `a` is put behind `last`. -/
def append (l : Links α) (last a : α) : Links α where
  prev := Function.update l.prev a (some last)
  next := Function.update l.next last (some a)

/-- `a` is taken out, without a look at its neighbours. -/
def detach (l : Links α) (a : α) : Links α where
  prev := Function.update l.prev a none
  next := Function.update l.next a none

/-- From a node to `a` or to the end, for a number of steps. -/
def walk (l : Links α) (a : α) : Nat → α → Option α
  | 0, _ => none
  | n + 1, b =>
      if b = a then some b
      else
        match l.next b with
        | none => some b
        | some c => walk l a n c

theorem walk_eq (h : l.IsList p (b :: as)) (ha : a ∉ b :: as) {n : Nat} (hn : as.length < n) :
    l.walk a n b = some ((b :: as).getLast (List.cons_ne_nil _ _)) := by
  induction as generalizing p b n with
  | nil =>
      obtain ⟨n, rfl⟩ := Nat.exists_eq_succ_of_ne_zero (Nat.ne_of_gt hn)
      have hne : b ≠ a := fun e => ha (by simp [e])
      have hnext : l.next b = none := h.2.1
      rw [walk, if_neg hne, hnext]
      rfl
  | cons c as ih =>
      obtain ⟨n, rfl⟩ := Nat.exists_eq_succ_of_ne_zero (Nat.ne_of_gt (Nat.zero_lt_of_lt hn))
      have hne : b ≠ a := fun e => ha (by simp [e])
      have hnext : l.next b = some c := h.2.1
      rw [walk, if_neg hne, hnext]
      exact ih h.2.2 (fun hm => ha (List.mem_cons_of_mem _ hm)) (Nat.lt_of_succ_lt_succ hn)

theorem IsList.append (h : l.IsList p (b :: as)) (hnd : (b :: as).Nodup) (ha : a ∉ b :: as)
    (hnext : l.next a = none) :
    (l.append ((b :: as).getLast (List.cons_ne_nil _ _)) a).IsList p (b :: as ++ [a]) := by
  induction as generalizing p b with
  | nil =>
      have hne : b ≠ a := fun e => ha (by simp [e])
      refine ⟨?_, ?_, ?_, ?_, trivial⟩
      · exact (Function.update_of_ne hne ..).trans h.1
      · exact Function.update_self ..
      · exact Function.update_self ..
      · exact (Function.update_of_ne (Ne.symm hne) ..).trans hnext
  | cons c as ih =>
      have hb : b ≠ a := fun e => ha (by simp [e])
      obtain ⟨hbc, hnd⟩ := List.nodup_cons.mp hnd
      have hlast : b ≠ (c :: as).getLast (List.cons_ne_nil _ _) := fun e =>
        hbc (e ▸ List.getLast_mem _)
      rw [List.getLast_cons (List.cons_ne_nil _ _)]
      refine ⟨?_, ?_, ih h.2.2 hnd fun hm => ha (List.mem_cons_of_mem _ hm)⟩
      · exact (Function.update_of_ne hb ..).trans h.1
      · exact (Function.update_of_ne hlast ..).trans h.2.1

/-- A new node becomes the head of an empty list, or is put behind the node where the walk
ends. -/
theorem Heads.put {head : Option α} (h : l.Heads head as) (hnd : as.Nodup) (ha : a ∉ as)
    (hprev : l.prev a = none) (hnext : l.next a = none) {n : Nat} (hn : as.length < n) :
    (head = none ∧ l.Heads (some a) (as ++ [a])) ∨
      ∃ b last, head = some b ∧ l.walk a n b = some last ∧ last ∈ as ∧
        (l.append last a).Heads (some b) (as ++ [a]) := by
  cases as with
  | nil => exact .inl ⟨h.1, rfl, isList_singleton hprev hnext⟩
  | cons b as =>
      refine .inr ⟨b, _, h.1, walk_eq h.2 ha (Nat.lt_of_succ_lt hn), List.getLast_mem _, rfl, ?_⟩
      exact h.2.append hnd ha hnext

theorem append_of_ne {last b : α} (hlast : b ≠ last) (ha : b ≠ a) :
    (l.append last a).prev b = l.prev b ∧ (l.append last a).next b = l.next b :=
  ⟨Function.update_of_ne ha .., Function.update_of_ne hlast ..⟩

theorem IsList.detach_of_not_mem (h : l.IsList p as) (ha : a ∉ as) : (l.detach a).IsList p as := by
  refine h.congr fun c hc => ⟨Function.update_of_ne ?_ .., Function.update_of_ne ?_ ..⟩
  · exact fun e => ha (e ▸ hc)
  · exact fun e => ha (e ▸ hc)

end Links

theorem length_le_of_lt {as : List Nat} (hnd : as.Nodup) {n : Nat} (h : ∀ a ∈ as, a < n) :
    as.length ≤ n := by
  have hsub : as.Subperm (List.range n) := hnd.subperm fun a ha => List.mem_range.mpr (h a ha)
  exact hsub.length_le.trans_eq List.length_range

end DebianInstaller.Lib
