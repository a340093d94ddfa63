import Mathlib.Data.List.Sort

/-!
# The search trees of `search.h`

A tree of nodes with keys, in the order of the keys, where no key stands twice.
`tsearch` keeps the node that is there already; `tdelete` takes a node out;
`twalk` shows the nodes in order. How the nodes are balanced is of no concern
here, so a tree is the list of its nodes.

Two trees are equal if they find the same under every key, and a tree is built
again from its own nodes.
-/

namespace DebianInstaller.Lib

variable {κ ν : Type} [LinearOrder κ]

variable {k k' : κ} {ns : List (κ × ν)} {v : ν}

/-- The nodes of a tree in order. -/
structure Tree (κ ν : Type) [LinearOrder κ] where
  nodes : List (κ × ν)
  sorted : nodes.Pairwise fun a b => a.1 < b.1

namespace Tree

instance : EmptyCollection (Tree κ ν) where
  emptyCollection := ⟨[], .nil⟩

/-- The keys in order. -/
def keys (t : Tree κ ν) : List κ := t.nodes.map Prod.fst

/-- `tfind`. -/
def tfind (t : Tree κ ν) (k : κ) : Option ν :=
  (t.nodes.find? fun n => n.1 = k).map Prod.snd

/-- A node among others, unless its key is there already. -/
def insertNode (k : κ) (v : ν) : List (κ × ν) → List (κ × ν)
  | [] => [(k, v)]
  | n :: ns =>
      if k < n.1 then (k, v) :: n :: ns
      else if k = n.1 then n :: ns
      else n :: insertNode k v ns

theorem mem_insertNode {n : κ × ν} (h : n ∈ insertNode k v ns) : n = (k, v) ∨ n ∈ ns := by
  induction ns with
  | nil => exact .inl (List.mem_singleton.mp h)
  | cons m ns ih =>
      unfold insertNode at h
      split at h
      · rcases List.mem_cons.mp h with h | h
        · exact .inl h
        · exact .inr h
      · split at h
        · exact .inr h
        · rcases List.mem_cons.mp h with h | h
          · exact .inr (h ▸ List.mem_cons_self)
          · rcases ih h with h | h
            · exact .inl h
            · exact .inr (List.mem_cons_of_mem _ h)

theorem insertNode_sorted (h : ns.Pairwise fun a b => a.1 < b.1) :
    (insertNode k v ns).Pairwise fun a b => a.1 < b.1 := by
  induction ns with
  | nil => exact List.pairwise_singleton _ _
  | cons m ns ih =>
      obtain ⟨hm, hns⟩ := List.pairwise_cons.mp h
      unfold insertNode
      split
      · next hlt =>
          refine List.pairwise_cons.mpr ⟨fun n hn => ?_, h⟩
          rcases List.mem_cons.mp hn with rfl | hn
          · exact hlt
          · exact hlt.trans (hm n hn)
      · split
        · exact h
        · next hlt hne =>
            refine List.pairwise_cons.mpr ⟨fun n hn => ?_, ih hns⟩
            rcases mem_insertNode hn with rfl | hn
            · exact lt_of_le_of_ne (not_lt.mp hlt) (Ne.symm hne)
            · exact hm n hn

/-- `tsearch`. -/
def tsearch (t : Tree κ ν) (k : κ) (v : ν) : Tree κ ν :=
  ⟨insertNode k v t.nodes, insertNode_sorted t.sorted⟩

/-- `tdelete`. -/
def tdelete (t : Tree κ ν) (k : κ) : Tree κ ν :=
  ⟨t.nodes.filter fun n => n.1 ≠ k, t.sorted.filter _⟩

/-! ## What is found -/

@[simp]
theorem tfind_empty (k : κ) : (∅ : Tree κ ν).tfind k = none := rfl

theorem tfind_eq_some {t : Tree κ ν} : t.tfind k = some v ↔ (k, v) ∈ t.nodes := by
  obtain ⟨ns, hs⟩ := t
  show Option.map Prod.snd (ns.find? _) = some v ↔ (k, v) ∈ ns
  induction ns with
  | nil => simp
  | cons m ns ih =>
      obtain ⟨hm, hns⟩ := List.pairwise_cons.mp hs
      by_cases hk : m.1 = k
      · subst hk
        simp only [List.find?_cons, decide_true, Option.map_some, Option.some.injEq,
          List.mem_cons]
        constructor
        · rintro rfl
          exact .inl rfl
        · rintro (h | h)
          · rw [← h]
          · exact absurd (hm _ h) (lt_irrefl _)
      · rw [List.find?_cons_of_neg (by simpa using hk), ih hns, List.mem_cons]
        constructor
        · exact .inr
        · rintro (h | h)
          · exact absurd (congrArg Prod.fst h.symm) hk
          · exact h

theorem tfind_eq_none {t : Tree κ ν} : t.tfind k = none ↔ k ∉ t.keys := by
  simp only [tfind, Option.map_eq_none_iff, List.find?_eq_none, decide_eq_true_eq, keys,
    List.mem_map, not_exists, not_and]

theorem ext_tfind {t t' : Tree κ ν} (h : ∀ k, t.tfind k = t'.tfind k) : t = t' := by
  have hmem : ∀ n, n ∈ t.nodes ↔ n ∈ t'.nodes := by
    intro n
    rw [← tfind_eq_some (t := t), ← tfind_eq_some (t := t'), h]
  have hperm : t.nodes.Perm t'.nodes :=
    (List.perm_ext_iff_of_nodup (t.sorted.imp fun h e => by simp [e] at h)
      (t'.sorted.imp fun h e => by simp [e] at h)).mpr hmem
  have heq : t.nodes = t'.nodes :=
    hperm.eq_of_pairwise (fun a b _ _ hab hba => absurd (hab.trans hba) (lt_irrefl _))
      t.sorted t'.sorted
  cases t
  cases t'
  cases heq
  rfl

theorem mem_insertNode_self (h : ∀ n ∈ ns, n.1 ≠ k) : (k, v) ∈ insertNode k v ns := by
  induction ns with
  | nil => exact List.mem_singleton_self _
  | cons m ns ih =>
      unfold insertNode
      split
      · exact List.mem_cons_self
      · rw [if_neg fun e => h m List.mem_cons_self e.symm]
        exact List.mem_cons_of_mem _ (ih fun n hn => h n (List.mem_cons_of_mem _ hn))

theorem mem_insertNode_of_mem {n : κ × ν} (h : n ∈ ns) : n ∈ insertNode k v ns := by
  induction ns with
  | nil => cases h
  | cons m ns ih =>
      unfold insertNode
      split
      · exact List.mem_cons_of_mem _ h
      · split
        · exact h
        · rcases List.mem_cons.mp h with rfl | h
          · exact List.mem_cons_self
          · exact List.mem_cons_of_mem _ (ih h)

theorem tfind_tsearch_self (t : Tree κ ν) (k : κ) (v : ν) :
    (t.tsearch k v).tfind k = some ((t.tfind k).getD v) := by
  cases hf : t.tfind k with
  | some v' => exact tfind_eq_some.mpr (mem_insertNode_of_mem (tfind_eq_some.mp hf))
  | none =>
      refine tfind_eq_some.mpr (mem_insertNode_self fun n hn hk => ?_)
      exact tfind_eq_none.mp hf (List.mem_map.mpr ⟨n, hn, hk⟩)

theorem tfind_tsearch_of_ne {t : Tree κ ν} (h : k' ≠ k) :
    (t.tsearch k v).tfind k' = t.tfind k' := by
  cases hf : t.tfind k' with
  | some v' => exact tfind_eq_some.mpr (mem_insertNode_of_mem (tfind_eq_some.mp hf))
  | none =>
      refine tfind_eq_none.mpr fun hmem => ?_
      obtain ⟨n, hn, hnk⟩ := List.mem_map.mp hmem
      rcases mem_insertNode hn with rfl | hn
      · exact h hnk.symm
      · exact tfind_eq_none.mp hf (List.mem_map.mpr ⟨n, hn, hnk⟩)

theorem mem_keys_tsearch (t : Tree κ ν) (k : κ) (v : ν) (k' : κ) :
    k' ∈ (t.tsearch k v).keys ↔ k' = k ∨ k' ∈ t.keys := by
  rw [← not_iff_not, not_or, ← tfind_eq_none, ← tfind_eq_none]
  by_cases h : k' = k
  · subst h
    rw [tfind_tsearch_self]
    simp
  · rw [tfind_tsearch_of_ne h]
    simp [h]

theorem tfind_tdelete_self (t : Tree κ ν) (k : κ) : (t.tdelete k).tfind k = none := by
  refine tfind_eq_none.mpr fun hmem => ?_
  obtain ⟨n, hn, hnk⟩ := List.mem_map.mp hmem
  exact of_decide_eq_true (List.mem_filter.mp hn).2 hnk

theorem tfind_tdelete_of_ne {t : Tree κ ν} (h : k' ≠ k) : (t.tdelete k).tfind k' = t.tfind k' := by
  cases hf : t.tfind k' with
  | some v =>
      refine tfind_eq_some.mpr (List.mem_filter.mpr ⟨tfind_eq_some.mp hf, ?_⟩)
      simpa using h
  | none =>
      refine tfind_eq_none.mpr fun hmem => ?_
      obtain ⟨n, hn, hnk⟩ := List.mem_map.mp hmem
      exact tfind_eq_none.mp hf (List.mem_map.mpr ⟨n, (List.mem_filter.mp hn).1, hnk⟩)

theorem tfind_replace_self (t : Tree κ ν) (k : κ) (v : ν) :
    ((t.tdelete k).tsearch k v).tfind k = some v := by
  rw [tfind_tsearch_self, tfind_tdelete_self]
  rfl

theorem tfind_replace_of_ne {t : Tree κ ν} (h : k' ≠ k) :
    ((t.tdelete k).tsearch k v).tfind k' = t.tfind k' := by
  rw [tfind_tsearch_of_ne h, tfind_tdelete_of_ne h]

end Tree

end DebianInstaller.Lib
