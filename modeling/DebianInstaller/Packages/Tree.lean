import DebianInstaller.Lib.Tree
import Mathlib.Algebra.Order.Group.Nat
import Mathlib.Data.List.Dedup

/-!
# The trees of libdebian-installer

`di_tree` is a search tree that is balanced after every insertion: each node stores its height
and by how much its right side is higher than its left one. On the way back from a new node
both are computed again, and where one side is two higher than the other the nodes are rotated.

A rotation leaves the nodes in the order that they have, so in what it finds the tree is the
abstract one, which is the list of its nodes. What the stored heights have to do with the real
ones is an invariant of its own, and it is by that one that no case is missing: where a side is
two higher, its own balance is among the three that are provided for.
-/

namespace DebianInstaller.Packages

open Lib

variable {κ ν : Type}

/-- `di_tree_node`, or a null pointer. -/
inductive Node (κ ν : Type) where
  | null
  | node (key : κ) (value : ν) (left right : Node κ ν) (balance height : ℤ)
  deriving DecidableEq

namespace Node

/-- `left_height` and `right_height` -/
def height : Node κ ν → ℤ
  | null => 0
  | node _ _ _ _ _ height => height

/-- `di_tree_node_calculate`, for a node with these children. -/
def calculate (key : κ) (value : ν) (left right : Node κ ν) : Node κ ν :=
  node key value left right (right.height - left.height)
    ((if right.height < left.height then left.height else right.height) + 1)

/-- `di_tree_node_new` -/
def new (key : κ) (value : ν) : Node κ ν := node key value null null 0 1

/-! ## Rotations

There is none where a null pointer would be followed. -/

/-- `di_tree_node_rotate_left` -/
def rotateLeft : Node κ ν → Option (Node κ ν)
  | node key value left (node key' value' b right' _ _) _ _ =>
      some (calculate key' value' (calculate key value left b) right')
  | _ => none

/-- `di_tree_node_rotate_right` -/
def rotateRight : Node κ ν → Option (Node κ ν)
  | node key value (node key' value' left' b _ _) right _ _ =>
      some (calculate key' value' left' (calculate key value b right))
  | _ => none

/-- `di_tree_node_rotate_left_double` -/
def rotateLeftDouble : Node κ ν → Option (Node κ ν)
  | node key value left (node key' value' (node key'' value'' b c _ _) right' _ _) _ _ =>
      some (calculate key'' value'' (calculate key value left b) (calculate key' value' c right'))
  | _ => none

/-- `di_tree_node_rotate_right_double` -/
def rotateRightDouble : Node κ ν → Option (Node κ ν)
  | node key value (node key' value' left' (node key'' value'' c b _ _) _ _) right _ _ =>
      some (calculate key'' value'' (calculate key' value' left' c) (calculate key value b right))
  | _ => none

/-- What comes back from a call, and whether there was an `Internal error`. -/
structure Rotated (κ ν : Type) where
  node : Node κ ν
  internalError : Bool

/-- A node and no error. -/
def fine (n : Node κ ν) : Rotated κ ν := ⟨n, false⟩

/-- The cases of `di_tree_node_rotate`, where `balance` is what was just computed. -/
def rotateBy (n left right : Node κ ν) (balance : ℤ) : Option (Rotated κ ν) :=
  if balance = -2 then
    match left with
    | null => none
    | node _ _ _ _ balance _ =>
        if balance = -1 ∨ balance = 0 then n.rotateRight.map fine
        else if balance = 1 then n.rotateRightDouble.map fine
        -- The inner switch has no default, and falls through to the next case.
        else some (fine n)
  else if balance = -1 ∨ balance = 0 ∨ balance = 1 then some (fine n)
  else if balance = 2 then
    match right with
    | null => none
    | node _ _ _ _ balance _ =>
        if balance = -1 then n.rotateLeftDouble.map fine
        else if balance = 0 ∨ balance = 1 then n.rotateLeft.map fine
        else some ⟨n, true⟩
  else some ⟨n, true⟩

/-- `di_tree_node_rotate`, for a node with these children. -/
def rotate (key : κ) (value : ν) (left right : Node κ ν) : Option (Rotated κ ν) :=
  rotateBy (calculate key value left right) left right (right.height - left.height)

/-- What comes back from an insertion: whether `nnodes` is counted up, and whether there was an
`Internal error`. -/
structure Inserted (κ ν : Type) where
  node : Node κ ν
  added : Bool
  internalError : Bool

/-- `di_tree_node_insert`. Its callers make a new node where there is none. -/
def insert (compare : κ → κ → ℤ) (key : κ) (value : ν) : Node κ ν → Option (Inserted κ ν)
  | null => some ⟨new key value, true, false⟩
  | node key' value' left right _ _ =>
      if compare key key' = 0 then do
        let r ← rotate key' value' left right
        return ⟨r.node, false, r.internalError⟩
      else if compare key key' < 0 then do
        let i ← left.insert compare key value
        let r ← rotate key' value' i.node right
        return ⟨r.node, i.added, i.internalError || r.internalError⟩
      else do
        let i ← right.insert compare key value
        let r ← rotate key' value' left i.node
        return ⟨r.node, i.added, i.internalError || r.internalError⟩

/-- `di_tree_node_foreach`: the calls, one after the other. -/
def foreach : Node κ ν → List (κ × ν)
  | null => []
  | node key value left right _ _ => left.foreach ++ (key, value) :: right.foreach

/-- `di_tree_node_lookup` -/
def lookup (compare : κ → κ → ℤ) (key : κ) : Node κ ν → Option ν
  | null => none
  | node key' value' left right _ _ =>
      if compare key key' = 0 then some value'
      else if compare key key' < 0 then left.lookup compare key
      else right.lookup compare key

end Node

/-- `di_tree`, and whether it has logged an `Internal error`. -/
structure DiTree (κ ν : Type) where
  nnodes : ℕ := 0
  root : Node κ ν := .null
  internalError : Bool := false

namespace DiTree

/-- `di_tree_insert` -/
def insert (compare : κ → κ → ℤ) (tree : DiTree κ ν) (key : κ) (value : ν) :
    Option (DiTree κ ν) :=
  (tree.root.insert compare key value).map fun i =>
    { nnodes := if i.added then tree.nnodes + 1 else tree.nnodes
      root := i.node
      internalError := tree.internalError || i.internalError }

/-- Some insertions, one after the other. -/
def inserts (compare : κ → κ → ℤ) (tree : DiTree κ ν) (entries : List (κ × ν)) :
    Option (DiTree κ ν) :=
  entries.foldlM (fun tree e => tree.insert compare e.1 e.2) tree

/-- `di_tree_size`, which returns the number as a `di_ksize_t` of 32 bits. -/
def size (tree : DiTree κ ν) : UInt32 := UInt32.ofNat tree.nnodes

/-- `di_tree_foreach` -/
def foreach (tree : DiTree κ ν) : List (κ × ν) := tree.root.foreach

/-- `di_tree_lookup` -/
def lookup (compare : κ → κ → ℤ) (tree : DiTree κ ν) (key : κ) : Option ν :=
  tree.root.lookup compare key

end DiTree

/-! ## Heights -/

namespace Node

/-- How many nodes are below one another. -/
def depth : Node κ ν → ℕ
  | null => 0
  | node _ _ left right _ _ => max left.depth right.depth + 1

/-- Each node stores its height and its balance, and that is at most one. -/
def Balanced : Node κ ν → Prop
  | null => True
  | node _ _ left right balance height =>
      left.Balanced ∧ right.Balanced ∧ height = (max left.depth right.depth + 1 : ℕ) ∧
        balance = (right.depth : ℤ) - left.depth ∧ -1 ≤ balance ∧ balance ≤ 1

theorem Balanced.height {n : Node κ ν} (h : n.Balanced) : n.height = n.depth := by
  cases n with
  | null => rfl
  | node key value left right balance height => exact h.2.2.1

section Rotate

variable {key : κ} {value : ν} {left right : Node κ ν}

theorem depth_calculate : (calculate key value left right).depth =
    max left.depth right.depth + 1 := rfl

theorem foreach_calculate : (calculate key value left right).foreach =
    left.foreach ++ (key, value) :: right.foreach := rfl

theorem Balanced.calculate (hl : left.Balanced) (hr : right.Balanced)
    (hle : left.depth ≤ right.depth + 1) (hge : right.depth ≤ left.depth + 1) :
    (calculate key value left right).Balanced := by
  refine ⟨hl, hr, ?_, ?_, ?_, ?_⟩
  · rw [hl.height, hr.height]
    split <;> omega
  · rw [hl.height, hr.height]
  · rw [hl.height, hr.height]
    omega
  · rw [hl.height, hr.height]
    omega

/-- What comes of a node whose children are balanced: how deep it is, and in which order its
nodes are. -/
structure Restored (key : κ) (value : ν) (left right : Node κ ν) (r : Rotated κ ν) : Prop where
  noError : r.internalError = false
  balanced : r.node.Balanced
  order : r.node.foreach = left.foreach ++ (key, value) :: right.foreach
  deep : max left.depth right.depth ≤ r.node.depth
  shallow : r.node.depth ≤ max left.depth right.depth + 1
  same : left.depth ≤ right.depth + 1 → right.depth ≤ left.depth + 1 →
    r.node.depth = max left.depth right.depth + 1

/-- The left one is deeper by two. -/
theorem rotate_right (hl : left.Balanced) (hr : right.Balanced)
    (h : left.depth = right.depth + 2) :
    ∃ r, rotate key value left right = some r ∧ Restored key value left right r := by
  have hbalance : right.height - left.height = -2 := by
    rw [hl.height, hr.height]
    omega
  unfold rotate rotateBy
  rw [if_pos hbalance]
  cases left with
  | null => exact absurd h (by rw [depth]; omega)
  | node key' value' left' mid balance height =>
      obtain ⟨hl', hmid, hheight, hbal, hlow, hhigh⟩ := hl
      rw [depth] at h
      dsimp only
      by_cases hone : balance = 1
      · -- The inner one of the two is higher, and is in the middle afterwards.
        rw [if_neg (by omega), if_pos hone]
        cases mid with
        | null => exact absurd hbal (by rw [depth]; omega)
        | node key'' value'' c b balance'' height'' =>
            obtain ⟨hc, hb, -, hbal'', hlow'', hhigh''⟩ := hmid
            rw [depth] at h hbal
            refine ⟨_, rfl, rfl, ?_, ?_, ?_, ?_, fun hle => ?_⟩
            · refine Balanced.calculate (.calculate hl' hc (by omega) (by omega))
                (.calculate hb hr (by omega) (by omega)) ?_ ?_
              · rw [depth_calculate, depth_calculate]
                omega
              · rw [depth_calculate, depth_calculate]
                omega
            · simp only [fine, foreach_calculate, foreach, List.append_assoc, List.cons_append]
            · show _ ≤ max (max _ _ + 1) (max _ _ + 1) + 1
              rw [depth, depth]
              omega
            · show max (max _ _ + 1) (max _ _ + 1) + 1 ≤ _
              rw [depth, depth]
              omega
            · rw [depth, depth] at hle
              omega
      · rw [if_pos (by omega)]
        refine ⟨_, rfl, rfl, ?_, ?_, ?_, ?_, fun hle => ?_⟩
        · refine Balanced.calculate hl' (.calculate hmid hr (by omega) (by omega)) ?_ ?_
          · rw [depth_calculate]
            omega
          · rw [depth_calculate]
            omega
        · simp only [fine, foreach_calculate, foreach, List.append_assoc, List.cons_append]
        · show _ ≤ max _ (max _ _ + 1) + 1
          rw [depth]
          omega
        · show max _ (max _ _ + 1) + 1 ≤ _
          rw [depth]
          omega
        · rw [depth] at hle
          omega

/-- And here the right one is. -/
theorem rotate_left (hl : left.Balanced) (hr : right.Balanced)
    (h : right.depth = left.depth + 2) :
    ∃ r, rotate key value left right = some r ∧ Restored key value left right r := by
  have hbalance : right.height - left.height = 2 := by
    rw [hl.height, hr.height]
    omega
  unfold rotate rotateBy
  rw [if_neg (by omega), if_neg (by omega), if_pos hbalance]
  cases right with
  | null => exact absurd h (by rw [depth]; omega)
  | node key' value' mid right' balance height =>
      obtain ⟨hmid, hr', hheight, hbal, hlow, hhigh⟩ := hr
      rw [depth] at h
      dsimp only
      by_cases hone : balance = -1
      · rw [if_pos hone]
        cases mid with
        | null => exact absurd hbal (by rw [depth]; omega)
        | node key'' value'' b c balance'' height'' =>
            obtain ⟨hb, hc, -, hbal'', hlow'', hhigh''⟩ := hmid
            rw [depth] at h hbal
            refine ⟨_, rfl, rfl, ?_, ?_, ?_, ?_, fun _ hle => ?_⟩
            · refine Balanced.calculate (.calculate hl hb (by omega) (by omega))
                (.calculate hc hr' (by omega) (by omega)) ?_ ?_
              · rw [depth_calculate, depth_calculate]
                omega
              · rw [depth_calculate, depth_calculate]
                omega
            · simp only [fine, foreach_calculate, foreach, List.append_assoc, List.cons_append]
            · show _ ≤ max (max _ _ + 1) (max _ _ + 1) + 1
              rw [depth, depth]
              omega
            · show max (max _ _ + 1) (max _ _ + 1) + 1 ≤ _
              rw [depth, depth]
              omega
            · rw [depth, depth] at hle
              omega
      · rw [if_neg hone, if_pos (by omega)]
        refine ⟨_, rfl, rfl, ?_, ?_, ?_, ?_, fun _ hle => ?_⟩
        · refine Balanced.calculate (.calculate hl hmid (by omega) (by omega)) hr' ?_ ?_
          · rw [depth_calculate]
            omega
          · rw [depth_calculate]
            omega
        · simp only [fine, foreach_calculate, foreach, List.append_assoc, List.cons_append]
        · show _ ≤ max (max _ _ + 1) _ + 1
          rw [depth]
          omega
        · show max (max _ _ + 1) _ + 1 ≤ _
          rw [depth]
          omega
        · rw [depth] at hle
          omega

theorem rotate_spec (key : κ) (value : ν) (hl : left.Balanced) (hr : right.Balanced)
    (hle : left.depth ≤ right.depth + 2) (hge : right.depth ≤ left.depth + 2) :
    ∃ r, rotate key value left right = some r ∧ Restored key value left right r := by
  by_cases hleft : left.depth = right.depth + 2
  · exact rotate_right hl hr hleft
  by_cases hright : right.depth = left.depth + 2
  · exact rotate_left hl hr hright
  have hbalance : right.height - left.height = (right.depth : ℤ) - left.depth := by
    rw [hl.height, hr.height]
  unfold rotate rotateBy
  rw [hbalance, if_neg (by omega), if_pos (by omega)]
  refine ⟨_, rfl, rfl, hl.calculate hr (by omega) (by omega), rfl, ?_, ?_, fun _ _ => rfl⟩
  · exact Nat.le_succ _
  · exact le_rfl

end Rotate

end Node

/-! ## Insertion -/

/-- A compare function that is a total order. -/
structure Comparison (κ : Type) [LinearOrder κ] where
  compare : κ → κ → ℤ
  zero : ∀ a b, compare a b = 0 ↔ a = b
  neg : ∀ a b, compare a b < 0 ↔ a < b

variable [LinearOrder κ] (c : Comparison κ)

theorem insertNode_append_lt {key key' : κ} {value value' : ν} {l r : List (κ × ν)}
    (hlt : key < key') : Tree.insertNode key value (l ++ (key', value') :: r) =
      Tree.insertNode key value l ++ (key', value') :: r := by
  induction l with
  | nil => exact if_pos hlt
  | cons n l ih =>
      rw [List.cons_append, Tree.insertNode, Tree.insertNode, ih]
      split
      · rfl
      · split <;> rfl

theorem insertNode_append_ge {key key' : κ} {value value' : ν} {l r : List (κ × ν)}
    (hl : ∀ n ∈ l, n.1 < key') (hle : key' ≤ key) :
    Tree.insertNode key value (l ++ (key', value') :: r) =
      l ++ Tree.insertNode key value ((key', value') :: r) := by
  induction l with
  | nil => rfl
  | cons n l ih =>
      obtain ⟨hn, hl⟩ := List.forall_mem_cons.mp hl
      have hlt := hn.trans_le hle
      rw [List.cons_append, Tree.insertNode, if_neg hlt.not_gt, if_neg hlt.ne', ih hl]
      rfl

theorem length_insertNode {key : κ} (value : ν) {ns : List (κ × ν)}
    (h : ns.Pairwise fun a b => a.1 < b.1) : (Tree.insertNode key value ns).length =
      if ∃ n ∈ ns, n.1 = key then ns.length else ns.length + 1 := by
  induction ns with
  | nil => exact (if_neg fun ⟨n, hn, _⟩ => absurd hn List.not_mem_nil).symm
  | cons n ns ih =>
      obtain ⟨hn, hns⟩ := List.pairwise_cons.mp h
      rw [Tree.insertNode]
      split
      · next hlt =>
          refine (if_neg ?_).symm
          rintro ⟨m, hm, rfl⟩
          rcases List.mem_cons.mp hm with rfl | hm
          · exact lt_irrefl _ hlt
          · exact lt_irrefl _ (hlt.trans (hn m hm))
      · split
        · next heq => exact (if_pos ⟨n, List.mem_cons_self, heq.symm⟩).symm
        · next hne =>
            rw [List.length_cons, ih hns]
            have hiff : (∃ m ∈ n :: ns, m.1 = key) ↔ ∃ m ∈ ns, m.1 = key := by
              constructor
              · rintro ⟨m, hm, rfl⟩
                rcases List.mem_cons.mp hm with rfl | hm
                · exact absurd rfl hne
                · exact ⟨m, hm, rfl⟩
              · rintro ⟨m, hm, heq⟩
                exact ⟨m, List.mem_cons_of_mem _ hm, heq⟩
            rw [if_congr hiff rfl rfl]
            split <;> rfl

namespace Node

/-- What one insertion preserves. -/
structure Extended (key : κ) (value : ν) (n : Node κ ν) (i : Inserted κ ν) : Prop where
  noError : i.internalError = false
  balanced : i.node.Balanced
  order : i.node.foreach = Tree.insertNode key value n.foreach
  added : i.added = decide (¬ ∃ e ∈ n.foreach, e.1 = key)
  deep : n.depth ≤ i.node.depth
  shallow : i.node.depth ≤ n.depth + 1

section Insert

variable {key key' : κ} {value value' : ν} {left right : Node κ ν} {balance height : ℤ}

/-- A key that is there already: its value stays, and nothing is rotated. -/
theorem insert_same (h : (node key value' left right balance height).Balanced)
    (hleft : ∀ e ∈ left.foreach, e.1 < key) :
    ∃ i, (node key value' left right balance height).insert c.compare key value = some i ∧
      Extended key value (node key value' left right balance height) i := by
  obtain ⟨hl, hr, hheight, hbal, hlow, hhigh⟩ := h
  obtain ⟨r, hr', hres⟩ := rotate_spec key value' hl hr (by omega) (by omega)
  have hsame : r.node.depth = (node key value' left right balance height).depth :=
    hres.same (by omega) (by omega)
  rw [insert, if_pos ((c.zero key key).mpr rfl), hr']
  refine ⟨_, rfl, hres.noError, hres.balanced, ?_, ?_, hsame.ge, ?_⟩
  · rw [foreach, insertNode_append_ge hleft le_rfl, Tree.insertNode, if_neg (lt_irrefl key),
      if_pos rfl]
    exact hres.order
  · refine (decide_eq_false (not_not_intro ⟨(key, value'), ?_, rfl⟩)).symm
    exact List.mem_append_right _ List.mem_cons_self
  · exact hsame.le.trans (Nat.le_succ _)

/-- A smaller key goes to the left. -/
theorem insert_left (h : (node key' value' left right balance height).Balanced)
    (hright : ∀ e ∈ right.foreach, key' < e.1) (hlt : key < key') {i : Inserted κ ν}
    (hi : left.insert c.compare key value = some i) (hext : Extended key value left i) :
    ∃ i', (node key' value' left right balance height).insert c.compare key value = some i' ∧
      Extended key value (node key' value' left right balance height) i' := by
  obtain ⟨hl, hr, hheight, hbal, hlow, hhigh⟩ := h
  have hdepth : (node key' value' left right balance height).depth =
      max left.depth right.depth + 1 := rfl
  have hdeep := hext.deep
  have hshallow := hext.shallow
  obtain ⟨r, hr', hres⟩ := rotate_spec key' value' hext.balanced hr (by omega) (by omega)
  have hge := hres.deep
  have hle := hres.shallow
  have hsame := hres.same
  rw [insert, if_neg fun hzero => hlt.ne ((c.zero key key').mp hzero),
    if_pos ((c.neg key key').mpr hlt), hi, Option.bind_eq_bind, Option.bind_some, hr']
  refine ⟨_, rfl, ?_, hres.balanced, ?_, ?_, ?_, ?_⟩
  · show (i.internalError || r.internalError) = false
    rw [hext.noError, hres.noError]
    rfl
  · rw [foreach, insertNode_append_lt hlt, ← hext.order]
    exact hres.order
  · refine hext.added.trans (decide_eq_decide.mpr (not_congr ?_))
    constructor
    · rintro ⟨e, he, heq⟩
      exact ⟨e, List.mem_append_left _ he, heq⟩
    · rintro ⟨e, he, rfl⟩
      rcases List.mem_append.mp he with he | he
      · exact ⟨e, he, rfl⟩
      rcases List.mem_cons.mp he with rfl | he
      · exact absurd hlt (lt_irrefl _)
      · exact absurd (hlt.trans (hright e he)) (lt_irrefl _)
  · rw [hdepth]
    show _ ≤ r.node.depth
    omega
  · rw [hdepth]
    show r.node.depth ≤ _
    omega

/-- A larger key goes to the right. -/
theorem insert_right (h : (node key' value' left right balance height).Balanced)
    (hleft : ∀ e ∈ left.foreach, e.1 < key') (hgt : key' < key) {i : Inserted κ ν}
    (hi : right.insert c.compare key value = some i) (hext : Extended key value right i) :
    ∃ i', (node key' value' left right balance height).insert c.compare key value = some i' ∧
      Extended key value (node key' value' left right balance height) i' := by
  obtain ⟨hl, hr, hheight, hbal, hlow, hhigh⟩ := h
  have hdepth : (node key' value' left right balance height).depth =
      max left.depth right.depth + 1 := rfl
  have hdeep := hext.deep
  have hshallow := hext.shallow
  obtain ⟨r, hr', hres⟩ := rotate_spec key' value' hl hext.balanced (by omega) (by omega)
  have hge := hres.deep
  have hle := hres.shallow
  have hsame := hres.same
  rw [insert, if_neg fun hzero => hgt.ne' ((c.zero key key').mp hzero),
    if_neg fun hneg => hgt.not_gt ((c.neg key key').mp hneg), hi, Option.bind_eq_bind,
    Option.bind_some, hr']
  refine ⟨_, rfl, ?_, hres.balanced, ?_, ?_, ?_, ?_⟩
  · show (i.internalError || r.internalError) = false
    rw [hext.noError, hres.noError]
    rfl
  · rw [foreach, insertNode_append_ge hleft hgt.le, Tree.insertNode, if_neg hgt.not_gt,
      if_neg hgt.ne', ← hext.order]
    exact hres.order
  · refine hext.added.trans (decide_eq_decide.mpr (not_congr ?_))
    constructor
    · rintro ⟨e, he, heq⟩
      exact ⟨e, List.mem_append_right _ (List.mem_cons_of_mem _ he), heq⟩
    · rintro ⟨e, he, rfl⟩
      rcases List.mem_append.mp he with he | he
      · exact absurd (hgt.trans (hleft e he)) (lt_irrefl _)
      rcases List.mem_cons.mp he with rfl | he
      · exact absurd hgt (lt_irrefl _)
      · exact ⟨e, he, rfl⟩
  · rw [hdepth]
    show _ ≤ r.node.depth
    omega
  · rw [hdepth]
    show r.node.depth ≤ _
    omega

end Insert

theorem insert_spec (key : κ) (value : ν) {n : Node κ ν} (h : n.Balanced)
    (hsorted : n.foreach.Pairwise fun a b => a.1 < b.1) :
    ∃ i, n.insert c.compare key value = some i ∧ Extended key value n i := by
  induction n with
  | null =>
      refine ⟨_, rfl, rfl, ?_, rfl, ?_, Nat.zero_le _, le_rfl⟩
      · exact ⟨trivial, trivial, rfl, rfl, by omega, by omega⟩
      · exact (decide_eq_true fun ⟨e, he, _⟩ => absurd he List.not_mem_nil).symm
  | node key' value' left right balance height ihl ihr =>
      obtain ⟨hlsorted, hrsorted, hbetween⟩ := List.pairwise_append.mp hsorted
      obtain ⟨hright, hrsorted⟩ := List.pairwise_cons.mp hrsorted
      have hleft : ∀ e ∈ left.foreach, e.1 < key' := fun e he =>
        hbetween e he (key', value') List.mem_cons_self
      rcases lt_trichotomy key key' with hlt | rfl | hgt
      · obtain ⟨i, hi, hext⟩ := ihl h.1 hlsorted
        exact insert_left c h hright hlt hi hext
      · exact insert_same c h hleft
      · obtain ⟨i, hi, hext⟩ := ihr h.2.1 hrsorted
        exact insert_right c h hleft hgt hi hext

theorem lookup_eq (key : κ) {n : Node κ ν}
    (hsorted : n.foreach.Pairwise fun a b => a.1 < b.1) :
    n.lookup c.compare key = (n.foreach.find? fun e => e.1 = key).map Prod.snd := by
  induction n with
  | null => rfl
  | node key' value' left right balance height ihl ihr =>
      obtain ⟨hlsorted, hrsorted, hbetween⟩ := List.pairwise_append.mp hsorted
      obtain ⟨hright, hrsorted⟩ := List.pairwise_cons.mp hrsorted
      have hleft : ∀ e ∈ left.foreach, e.1 < key' := fun e he =>
        hbetween e he (key', value') List.mem_cons_self
      have hnone {es : List (κ × ν)} (h : ∀ e ∈ es, e.1 ≠ key) :
          (es.find? fun e => e.1 = key) = none :=
        List.find?_eq_none.mpr fun e he heq => h e he (of_decide_eq_true heq)
      rw [lookup, foreach, List.find?_append]
      by_cases hzero : c.compare key key' = 0
      · obtain rfl := (c.zero key key').mp hzero
        have hfirst : (((key, value') :: right.foreach).find? fun e => e.1 = key) =
            some (key, value') := List.find?_cons_of_pos (decide_eq_true rfl)
        rw [if_pos hzero, hnone fun e he => (hleft e he).ne, Option.none_or, hfirst]
        rfl
      have hne : key' ≠ key := fun heq => hzero ((c.zero key key').mpr heq.symm)
      have hfirst : (((key', value') :: right.foreach).find? fun e => e.1 = key) =
          right.foreach.find? fun e => e.1 = key :=
        List.find?_cons_of_neg fun heq => hne (of_decide_eq_true heq)
      rw [if_neg hzero, hfirst]
      by_cases hneg : c.compare key key' < 0
      · have hlt := (c.neg key key').mp hneg
        rw [if_pos hneg, ihl hlsorted, hnone fun e he => (hlt.trans (hright e he)).ne',
          Option.or_none]
      · have hgt : key' < key :=
          lt_of_le_of_ne (not_lt.mp fun hlt => hneg ((c.neg key key').mpr hlt)) hne
        rw [if_neg hneg, ihr hrsorted, hnone fun e he => ((hleft e he).trans hgt).ne,
          Option.none_or]

end Node

/-! ## Runs -/

/-- The tree stands for the abstract one. -/
structure DiTree.Refines (tree : DiTree κ ν) (t : Tree κ ν) : Prop where
  nodes : tree.foreach = t.nodes
  size : tree.nnodes = t.nodes.length
  balanced : tree.root.Balanced
  noError : tree.internalError = false

theorem DiTree.Refines.insert {tree : DiTree κ ν} {t : Tree κ ν} (h : tree.Refines t) (key : κ)
    (value : ν) :
    ∃ tree', tree.insert c.compare key value = some tree' ∧ tree'.Refines (t.tsearch key value) := by
  have hsorted := t.sorted
  rw [← h.nodes] at hsorted
  obtain ⟨i, hi, hext⟩ := Node.insert_spec c key value h.balanced hsorted
  have hadded : i.added = decide (¬ ∃ e ∈ t.nodes, e.1 = key) := by
    rw [← h.nodes]
    exact hext.added
  refine ⟨_, congrArg (Option.map _) hi, ?_, ?_, hext.balanced, ?_⟩
  · refine hext.order.trans ?_
    show Tree.insertNode key value tree.foreach = Tree.insertNode key value t.nodes
    rw [h.nodes]
  · show (if i.added then tree.nnodes + 1 else tree.nnodes) =
      (Tree.insertNode key value t.nodes).length
    rw [length_insertNode value t.sorted, hadded, h.size]
    by_cases hex : ∃ e ∈ t.nodes, e.1 = key
    · rw [if_pos hex, decide_eq_false (not_not_intro hex)]
      rfl
    · rw [if_neg hex, decide_eq_true hex]
      rfl
  · show (tree.internalError || i.internalError) = false
    rw [h.noError, hext.noError]
    rfl

/-- The abstract tree after some insertions. -/
def insertAll (t : Tree κ ν) (entries : List (κ × ν)) : Tree κ ν :=
  entries.foldl (fun t e => t.tsearch e.1 e.2) t

theorem DiTree.Refines.inserts {tree : DiTree κ ν} {t : Tree κ ν} (h : tree.Refines t)
    (entries : List (κ × ν)) :
    ∃ tree', tree.inserts c.compare entries = some tree' ∧ tree'.Refines (insertAll t entries) := by
  induction entries generalizing tree t with
  | nil => exact ⟨tree, rfl, h⟩
  | cons e entries ih =>
      obtain ⟨tree₁, h₁, hrefines₁⟩ := h.insert c e.1 e.2
      obtain ⟨tree₂, h₂, hrefines₂⟩ := ih hrefines₁
      refine ⟨tree₂, ?_, hrefines₂⟩
      unfold DiTree.inserts
      rw [List.foldlM_cons, h₁]
      exact h₂

theorem tfind_insertAll (t : Tree κ ν) (entries : List (κ × ν)) (key : κ) :
    (insertAll t entries).tfind key =
      (t.tfind key).or ((entries.find? fun e => e.1 = key).map Prod.snd) := by
  induction entries generalizing t with
  | nil => exact Option.or_none.symm
  | cons e entries ih =>
      refine (ih (t.tsearch e.1 e.2)).trans ?_
      by_cases hkey : e.1 = key
      · have hfirst : ((e :: entries).find? fun e => e.1 = key) = some e :=
          List.find?_cons_of_pos (decide_eq_true hkey)
        subst hkey
        rw [hfirst, Tree.tfind_tsearch_self]
        cases t.tfind e.1 <;> rfl
      · have hrest : ((e :: entries).find? fun e => e.1 = key) =
            entries.find? fun e => e.1 = key :=
          List.find?_cons_of_neg fun heq => hkey (of_decide_eq_true heq)
        rw [hrest, Tree.tfind_tsearch_of_ne (Ne.symm hkey)]

theorem mem_keys_insertAll (entries : List (κ × ν)) (key : κ) :
    key ∈ (insertAll ∅ entries).keys ↔ key ∈ entries.map Prod.fst := by
  rw [← not_iff_not, ← Tree.tfind_eq_none, tfind_insertAll, Tree.tfind_empty, Option.none_or,
    Option.map_eq_none_iff, List.find?_eq_none]
  constructor
  · intro hnone hmem
    obtain ⟨e, he, rfl⟩ := List.mem_map.mp hmem
    exact hnone e he (decide_eq_true rfl)
  · intro hnot e he heq
    exact hnot (List.mem_map.mpr ⟨e, he, of_decide_eq_true heq⟩)

/-- A search tree. -/
def Node.Search : Node κ ν → Prop
  | .null => True
  | .node key _ left right _ _ => left.Search ∧ right.Search ∧
      (∀ e ∈ left.foreach, e.1 < key) ∧ ∀ e ∈ right.foreach, key < e.1

theorem Node.search_of_sorted {n : Node κ ν}
    (hsorted : n.foreach.Pairwise fun a b => a.1 < b.1) : n.Search := by
  induction n with
  | null => trivial
  | node key value left right balance height ihl ihr =>
      obtain ⟨hlsorted, hrsorted, hbetween⟩ := List.pairwise_append.mp hsorted
      obtain ⟨hright, hrsorted⟩ := List.pairwise_cons.mp hrsorted
      exact ⟨ihl hlsorted, ihr hrsorted,
        fun e he => hbetween e he (key, value) List.mem_cons_self, hright⟩

theorem DiTree.Refines.nnodes {tree : DiTree κ ν} {entries : List (κ × ν)}
    (h : tree.Refines (insertAll ∅ entries)) :
    tree.nnodes = (entries.map Prod.fst).dedup.length := by
  have hsorted := (insertAll ∅ entries).sorted
  have hkeys : ((insertAll ∅ entries).nodes.map Prod.fst).Pairwise (· < ·) :=
    List.pairwise_map.mpr hsorted
  have hperm : ((insertAll ∅ entries).nodes.map Prod.fst).Perm (entries.map Prod.fst).dedup := by
    refine (List.perm_ext_iff_of_nodup (hkeys.imp fun hlt => hlt.ne) (List.nodup_dedup _)).mpr
      fun key => ?_
    rw [List.mem_dedup]
    exact mem_keys_insertAll entries key
  rw [← hperm.length_eq, List.length_map]
  exact h.size

theorem DiTree.refines_empty : ({} : DiTree κ ν).Refines ∅ := ⟨rfl, rfl, trivial, rfl⟩

/-- After any insertions the tree is a balanced search tree, and in what it shows and finds it is
the first entries for each key, in the order of the keys. Its size is that of a `di_ksize_t`. -/
theorem DiTree.inserts_spec (entries : List (κ × ν)) :
    ∃ tree, DiTree.inserts c.compare ({} : DiTree κ ν) entries = some tree ∧
      tree.root.Search ∧ tree.root.Balanced ∧
      tree.size.toNat = (entries.map Prod.fst).dedup.length % 2 ^ 32 ∧
      (tree.foreach.map Prod.fst).Pairwise (· < ·) ∧
      (∀ key, key ∈ tree.foreach.map Prod.fst ↔ key ∈ entries.map Prod.fst) ∧
      (∀ key, tree.lookup c.compare key = (entries.find? fun e => e.1 = key).map Prod.snd) ∧
      tree.internalError = false := by
  obtain ⟨tree, htree, h⟩ := DiTree.refines_empty.inserts c entries
  have hsorted := (insertAll ∅ entries).sorted
  rw [← h.nodes] at hsorted
  have hkeys : (tree.foreach.map Prod.fst).Pairwise (· < ·) := List.pairwise_map.mpr hsorted
  have hmem : ∀ key, key ∈ tree.foreach.map Prod.fst ↔ key ∈ entries.map Prod.fst := by
    rw [h.nodes]
    exact mem_keys_insertAll entries
  refine ⟨tree, htree, Node.search_of_sorted hsorted, h.balanced, ?_, hkeys, hmem, fun key => ?_,
    h.noError⟩
  · rw [DiTree.size, UInt32.toNat_ofNat', h.nnodes]
  · refine (Node.lookup_eq c key hsorted).trans ?_
    have hfind : (tree.foreach.find? fun e => e.1 = key).map Prod.snd =
        (insertAll ∅ entries).tfind key := by
      rw [h.nodes]
      rfl
    refine hfind.trans ?_
    rw [tfind_insertAll, Tree.tfind_empty, Option.none_or]

/-- Numbers as keys. -/
def numberOrder : Comparison ℕ where
  compare a b := (a : ℤ) - b
  zero a b := by omega
  neg a b := by omega

/-- The numbers below `n`, in their order. -/
def numberEntries (n : ℕ) : List (ℕ × Unit) := (List.range n).map fun k => (k, ())

theorem distinct_numberEntries (n : ℕ) : ((numberEntries n).map Prod.fst).dedup.length = n := by
  have hkeys : (numberEntries n).map Prod.fst = List.range n := by
    rw [numberEntries, List.map_map]
    exact List.map_id _
  rw [hkeys, List.nodup_range.dedup, List.length_range]

/-- With 2³² keys the size does not fit into a `di_ksize_t`. -/
theorem DiTree.size_overflows :
    ¬ ∀ entries : List (ℕ × Unit), ∃ tree,
      DiTree.inserts numberOrder.compare ({} : DiTree ℕ Unit) entries = some tree ∧
        tree.size.toNat = (entries.map Prod.fst).dedup.length := by
  intro hall
  obtain ⟨tree, htree, hsize⟩ := hall (numberEntries (2 ^ 32))
  obtain ⟨tree', htree', h⟩ := DiTree.refines_empty.inserts numberOrder (numberEntries (2 ^ 32))
  obtain rfl := Option.some.inj (htree.symm.trans htree')
  have hnodes := h.nnodes.trans (distinct_numberEntries _)
  rw [DiTree.size, UInt32.toNat_ofNat', hnodes, distinct_numberEntries] at hsize
  omega

end DebianInstaller.Packages
