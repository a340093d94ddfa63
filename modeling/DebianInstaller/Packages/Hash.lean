import DebianInstaller.Text
import DebianInstaller.Lib.Entries

/-!
# The hash table of libdebian-installer

`hash.c`: chains of nodes in an array whose length is a prime, and `string.c`: the
functions for keys that are strings. An insertion of a new key may move all nodes to an
array of another length; each chain is then turned around. Without functions that
destroy keys or values nothing else happens, so a table is the finite map of the
insertions that were made: a node stands in the chain of its hash, and there is one
node for a key.

The number of nodes is a `size_t`, and `di_hash_table_size` returns it as a
`di_ksize_t` of 32 bits.
-/

namespace DebianInstaller.Packages

open Lib

variable {α ν : Type}

variable {a b : Text} {chain : List (α × Option ν)} {i : Nat} {key : α} {node : α × Option ν}

/-! ## The code -/

/-- The functions of a table, with what is asked of them. -/
structure KeyFuncs (α : Type) extends KeyEq α where
  hashFunc : α → UInt32
  hash_eq : ∀ {a b}, equal a b = true → hashFunc a = hashFunc b

/-- `struct di_hash_table`. A value is a pointer, and `none` is `NULL`. -/
structure HashTable (α ν : Type) where
  size : Nat
  nnodes : Nat
  nodes : Nat → List (α × Option ν)

/-- `HASH_TABLE_MIN_SIZE`. -/
def hashTableMinSize : Nat := 11

/-- `HASH_TABLE_MAX_SIZE`. -/
def hashTableMaxSize : Nat := 13845163

/-- `internal_di_primes`. -/
def primes : List Nat :=
  [11, 19, 37, 73, 109, 163, 251, 367, 557, 823, 1237, 1861, 2777, 4177, 6247, 9371, 14057,
    21089, 31627, 47431, 71143, 106721, 160073, 240101, 360163, 540217, 810343, 1215497,
    1823231, 2734867, 4102283, 6153409, 9230113, 13845163]

/-- `internal_di_spaced_primes_closest`, which takes an `unsigned int`. -/
def spacedPrimesClosest (num : Nat) : Nat :=
  (primes.find? fun p => num % 2 ^ 32 < p).getD (primes.getLastD 0)

/-- `CLAMP`. -/
def clamp (x low high : Nat) : Nat := if x > high then high else if x < low then low else x

/-- `di_hash_table_new`. -/
def diHashTableNew : HashTable α ν where
  size := hashTableMinSize
  nnodes := 0
  nodes := fun _ => []

/-- What `di_hash_table_foreach` calls its function with. -/
def diHashTableForeach (t : HashTable α ν) : List (α × Option ν) :=
  (List.range t.size).flatMap t.nodes

/-- `di_hash_table_size`. -/
def diHashTableSize (t : HashTable α ν) : UInt32 := UInt32.ofNat t.nnodes

variable (K : KeyFuncs α)

/-- The chain of a key in an array. -/
def bucket (size : Nat) (key : α) : Nat := (K.hashFunc key).toNat % size

/-- A node is put in front of its chain in the new array. -/
def relink (newSize : Nat) (nodes : Nat → List (α × Option ν)) (node : α × Option ν) :
    Nat → List (α × Option ν) :=
  Function.update nodes (bucket K newSize node.1) (node :: nodes (bucket K newSize node.1))

/-- `internal_di_hash_table_resize`. -/
def resize (t : HashTable α ν) : HashTable α ν :=
  let newSize := clamp (spacedPrimesClosest t.nnodes) hashTableMinSize hashTableMaxSize
  { t with
    size := newSize
    nodes := (diHashTableForeach t).foldl (relink K newSize) fun _ => [] }

/-- `HASH_TABLE_RESIZE`. -/
def hashTableResize (t : HashTable α ν) : HashTable α ν :=
  if (t.size ≥ 3 * t.nnodes ∧ t.size > hashTableMinSize) ∨
      (3 * t.size ≤ t.nnodes ∧ t.size < hashTableMaxSize) then resize K t
  else t

/-- `internal_di_hash_table_lookup_node`: the node it finds, or none. -/
def lookupNode (t : HashTable α ν) (key : α) : Option (α × Option ν) :=
  (t.nodes (bucket K t.size key)).find? fun node => K.equal node.1 key

/-- `di_hash_table_lookup`. -/
def diHashTableLookup (t : HashTable α ν) (key : α) : Option ν :=
  match lookupNode K t key with
  | some node => node.2
  | none => none

/-- The value of the first node with the key is set. -/
def setValue (key : α) (value : Option ν) : List (α × Option ν) → List (α × Option ν)
  | [] => []
  | node :: chain =>
      if K.equal node.1 key then (node.1, value) :: chain else node :: setValue key value chain

/-- `di_hash_table_insert`, without functions to destroy keys or values. -/
def diHashTableInsert (t : HashTable α ν) (key : α) (value : Option ν) : HashTable α ν :=
  let i := bucket K t.size key
  match lookupNode K t key with
  | some _ => { t with nodes := Function.update t.nodes i (setValue K key value (t.nodes i)) }
  | none =>
      hashTableResize K
        { t with
          nnodes := t.nnodes + 1
          nodes := Function.update t.nodes i (t.nodes i ++ [(key, value)]) }

/-! ## Sequences of operations -/

/-- An operation on a table. -/
inductive HashOp (α ν : Type) where
  | insert (key : α) (value : Option ν)
  | lookup (key : α)

/-- The table after an operation: a lookup leaves it as it is. -/
def HashOp.apply (t : HashTable α ν) : HashOp α ν → HashTable α ν
  | .insert key value => diHashTableInsert K t key value
  | .lookup _ => t

/-- The table after some operations. -/
def afterOps (ops : List (HashOp α ν)) : HashTable α ν :=
  ops.foldl (HashOp.apply K) diHashTableNew

/-- What is inserted under a key. -/
def HashOp.valueFor (key : α) : HashOp α ν → Option (Option ν)
  | .insert key' value => if K.equal key' key then some value else none
  | .lookup _ => none

/-- The last value that was inserted for an equal key. -/
def lastInserted (ops : List (HashOp α ν)) (key : α) : Option (Option ν) :=
  ops.reverse.findSome? (HashOp.valueFor K key)

/-- The keys that were inserted. -/
def insertedKeys (ops : List (HashOp α ν)) : List α :=
  ops.filterMap fun
    | .insert key _ => some key
    | .lookup _ => none

/-! ## Tables as the operations leave them -/

/-- Every node stands in the chain of its key, no key twice, and the nodes are counted. -/
structure HashTable.Valid (t : HashTable α ν) : Prop where
  size_pos : 0 < t.size
  placed : ∀ i < t.size, ∀ node ∈ t.nodes i, bucket K t.size node.1 = i
  distinct : ∀ i < t.size, Entries.Distinct K.toKeyEq (t.nodes i)
  counted : t.nnodes = (diHashTableForeach t).length

variable {K}

theorem bucket_lt {size : Nat} (h : 0 < size) (key : α) : bucket K size key < size :=
  Nat.mod_lt _ h

theorem bucket_congr {a b : α} (h : K.equal a b = true) (size : Nat) :
    bucket K size a = bucket K size b := by
  rw [bucket, bucket, K.hash_eq h]

theorem mem_foreach {t : HashTable α ν} :
    node ∈ diHashTableForeach t ↔ ∃ i < t.size, node ∈ t.nodes i := by
  simp [diHashTableForeach]

theorem HashTable.Valid.distinct_foreach {t : HashTable α ν} (hv : t.Valid K) :
    Entries.Distinct K.toKeyEq (diHashTableForeach t) := by
  refine List.pairwise_flatMap.mpr ⟨fun i hi => hv.distinct i (List.mem_range.mp hi), ?_⟩
  refine List.pairwise_lt_range.imp_of_mem fun {i j} hi hj hij a ha b hb => ?_
  by_contra hab
  have hbucket := bucket_congr (Bool.not_eq_false _ ▸ hab) t.size
  rw [hv.placed i (List.mem_range.mp hi) a ha, hv.placed j (List.mem_range.mp hj) b hb]
    at hbucket
  omega

/-- What the table holds under a key. -/
def HashTable.value (K : KeyFuncs α) (t : HashTable α ν) (key : α) : Option (Option ν) :=
  Entries.find K.toKeyEq (t.nodes (bucket K t.size key)) key

theorem HashTable.Valid.value_eq {t : HashTable α ν} (hv : t.Valid K) (key : α) :
    t.value K key = Entries.find K.toKeyEq (diHashTableForeach t) key := by
  have hlt := bucket_lt (K := K) hv.size_pos key
  refine Entries.find_congr (hv.distinct _ hlt) hv.distinct_foreach fun node hk => ?_
  rw [mem_foreach]
  constructor
  · exact fun hmem => ⟨_, hlt, hmem⟩
  · rintro ⟨i, hi, hmem⟩
    rw [← bucket_congr hk, hv.placed i hi node hmem]
    exact hmem

theorem lookup_eq (t : HashTable α ν) (key : α) :
    diHashTableLookup K t key = (t.value K key).join := by
  rw [diHashTableLookup, HashTable.value, Entries.find, lookupNode]
  cases List.find? _ _ <;> rfl

theorem new_valid : (diHashTableNew : HashTable α ν).Valid K where
  size_pos := Nat.succ_pos _
  placed := fun i _ node hnode => by cases hnode
  distinct := fun i _ => List.Pairwise.nil
  counted := by
    symm
    refine List.length_eq_zero_iff.mpr (List.flatMap_eq_nil_iff.mpr fun i _ => rfl)

/-! ## Insertion -/

theorem put_eq_setValue {value : Option ν}
    (h : (chain.find? fun node => K.equal node.1 key).isSome) :
    Entries.put K.toKeyEq key value chain = setValue K key value chain := by
  induction chain with
  | nil => cases h
  | cons node chain ih =>
      rw [Entries.put, setValue]
      by_cases hk : K.equal node.1 key = true
      · rw [if_pos hk, if_pos hk]
      · rw [List.find?_cons_of_neg (by simpa using hk)] at h
        rw [if_neg hk, if_neg hk, ih h]

theorem put_eq_append {value : Option ν} (h : chain.find? (fun node => K.equal node.1 key) = none) :
    Entries.put K.toKeyEq key value chain = chain ++ [(key, value)] := by
  induction chain with
  | nil => rfl
  | cons node chain ih =>
      rw [Entries.put]
      by_cases hk : K.equal node.1 key = true
      · rw [List.find?_cons_of_pos (by simpa using hk)] at h
        cases h
      · rw [List.find?_cons_of_neg (by simpa using hk)] at h
        rw [if_neg hk, ih h]
        rfl

/-- A table after an insertion, before it is resized. -/
def putNode (K : KeyFuncs α) (t : HashTable α ν) (key : α) (value : Option ν) : HashTable α ν :=
  { t with
    nnodes := t.nnodes + if (t.value K key).isSome then 0 else 1
    nodes := Function.update t.nodes (bucket K t.size key)
      (Entries.put K.toKeyEq key value (t.nodes (bucket K t.size key))) }

theorem putNode_nodes (t : HashTable α ν) (key : α) (value : Option ν) (i : Nat) :
    (putNode K t key value).nodes i =
      if i = bucket K t.size key then Entries.put K.toKeyEq key value (t.nodes i)
      else t.nodes i := by
  by_cases hi : i = bucket K t.size key
  · rw [if_pos hi, hi]
    exact Function.update_self ..
  · rw [if_neg hi]
    exact Function.update_of_ne hi ..

theorem insert_eq (t : HashTable α ν) (key : α) (value : Option ν) :
    diHashTableInsert K t key value = putNode K t key value ∨
      diHashTableInsert K t key value = hashTableResize K (putNode K t key value) := by
  rw [diHashTableInsert]
  cases hnode : lookupNode K t key with
  | some node =>
      have hsome : (t.value K key).isSome := by
        rw [HashTable.value, Entries.find, Option.isSome_map, ← lookupNode, hnode]
        rfl
      refine .inl ?_
      rw [putNode, if_pos hsome, put_eq_setValue]
      · rfl
      · rw [← lookupNode, hnode]
        rfl
  | none =>
      have hnone : ¬ (t.value K key).isSome := by
        rw [HashTable.value, Entries.find, Option.isSome_map, ← lookupNode, hnode]
        simp
      refine .inr ?_
      rw [putNode, if_neg hnone, put_eq_append hnode]

theorem length_flatMap_update (f : Nat → List (α × Option ν)) {n : Nat} (hi : i < n)
    (c : List (α × Option ν)) :
    ((List.range n).flatMap (Function.update f i c)).length + (f i).length =
      ((List.range n).flatMap f).length + c.length := by
  induction n with
  | zero => omega
  | succ n ih =>
      rw [List.range_succ, List.flatMap_append, List.flatMap_append, List.length_append,
        List.length_append, List.flatMap_singleton, List.flatMap_singleton]
      by_cases hin : i = n
      · subst hin
        have hrest : (List.range i).flatMap (Function.update f i c) =
            (List.range i).flatMap f := by
          refine List.flatMap_congr fun j hj => ?_
          exact Function.update_of_ne (Nat.ne_of_lt (List.mem_range.mp hj)) ..
        rw [hrest, Function.update_self]
        omega
      · have := ih (by omega)
        rw [Function.update_of_ne (Ne.symm hin)]
        omega

theorem putNode_valid {t : HashTable α ν} (hv : t.Valid K) (key : α) (value : Option ν) :
    (putNode K t key value).Valid K := by
  have hlt := bucket_lt (K := K) hv.size_pos key
  refine ⟨hv.size_pos, fun i hi node hnode => ?_, fun i hi => ?_, ?_⟩
  · rw [putNode_nodes] at hnode
    split at hnode
    · next hib =>
        rcases Entries.key_of_mem_put hnode with h | ⟨node', hnode', h⟩
        · rw [h, hib]
          rfl
        · rw [← h]
          exact hv.placed i hi node' hnode'
    · exact hv.placed i hi node hnode
  · rw [putNode_nodes]
    split
    · exact (hv.distinct i hi).put key value
    · exact hv.distinct i hi
  · have hlen := length_flatMap_update t.nodes hlt
      (Entries.put K.toKeyEq key value (t.nodes (bucket K t.size key)))
    have hcount := hv.counted
    rw [Entries.length_put] at hlen
    simp only [putNode, diHashTableForeach, HashTable.value] at hlen hcount ⊢
    by_cases hs : (Entries.find K.toKeyEq (t.nodes (bucket K t.size key)) key).isSome
    · simp only [hs, ↓reduceIte] at hlen ⊢
      omega
    · simp only [hs, Bool.false_eq_true, ↓reduceIte] at hlen ⊢
      omega

theorem putNode_value {t : HashTable α ν} (key key' : α) (value : Option ν) :
    (putNode K t key value).value K key' =
      if K.equal key key' then some value else t.value K key' := by
  rw [HashTable.value, putNode_nodes, show (putNode K t key value).size = t.size from rfl]
  by_cases hb : bucket K t.size key' = bucket K t.size key
  · rw [if_pos hb, Entries.find_put]
    rfl
  · have hk : K.equal key key' ≠ true := fun h => hb (bucket_congr h t.size).symm
    rw [if_neg hb, if_neg hk]
    rfl

/-! ## Moving to another array -/

theorem foldl_relink (newSize : Nat) (es : List (α × Option ν))
    (nodes : Nat → List (α × Option ν)) (i : Nat) :
    es.foldl (relink K newSize) nodes i =
      (es.filter fun e => bucket K newSize e.1 = i).reverse ++ nodes i := by
  induction es generalizing nodes with
  | nil => rfl
  | cons e es ih =>
      rw [List.foldl_cons, ih, relink]
      by_cases hi : i = bucket K newSize e.1
      · subst hi
        rw [Function.update_self, List.filter_cons_of_pos (by simp)]
        simp
      · rw [Function.update_of_ne hi, List.filter_cons_of_neg (by simpa using Ne.symm hi)]

theorem newSize_pos (n : Nat) :
    0 < clamp (spacedPrimesClosest n) hashTableMinSize hashTableMaxSize := by
  have hmin : hashTableMinSize = 11 := rfl
  have hmax : hashTableMaxSize = 13845163 := rfl
  rw [clamp]
  split
  · omega
  · split <;> omega

theorem mem_resize {t : HashTable α ν} :
    node ∈ (resize K t).nodes i ↔
      node ∈ diHashTableForeach t ∧ bucket K (resize K t).size node.1 = i := by
  simp only [resize, foldl_relink, List.append_nil, List.mem_reverse, List.mem_filter,
    decide_eq_true_eq]

theorem mem_foreach_resize {t : HashTable α ν} :
    node ∈ diHashTableForeach (resize K t) ↔ node ∈ diHashTableForeach t := by
  rw [mem_foreach]
  constructor
  · rintro ⟨i, _, hmem⟩
    exact (mem_resize.mp hmem).1
  · intro hmem
    exact ⟨_, bucket_lt (newSize_pos t.nnodes) node.1, mem_resize.mpr ⟨hmem, rfl⟩⟩

theorem Distinct.nodup {es : List (α × Option ν)} (hd : Entries.Distinct K.toKeyEq es) :
    es.Nodup := by
  refine hd.imp fun hab e => ?_
  rw [e, K.refl] at hab
  cases hab

theorem resize_valid {t : HashTable α ν} (hv : t.Valid K) : (resize K t).Valid K := by
  have hplaced : ∀ i < (resize K t).size, ∀ node ∈ (resize K t).nodes i,
      bucket K (resize K t).size node.1 = i := fun i _ node hmem => (mem_resize.mp hmem).2
  have hdistinct : ∀ i < (resize K t).size,
      Entries.Distinct K.toKeyEq ((resize K t).nodes i) := by
    intro i _
    simp only [resize, foldl_relink, List.append_nil]
    exact Entries.Distinct.perm (hv.distinct_foreach.filter _) (List.reverse_perm _).symm
  refine ⟨newSize_pos _, hplaced, hdistinct, ?_⟩
  -- both arrays hold the same nodes, each of them once
  have hcount : t.nnodes = (diHashTableForeach t).length := hv.counted
  rw [show (resize K t).nnodes = t.nnodes from rfl, hcount]
  have hvalid : (⟨(resize K t).size, (diHashTableForeach (resize K t)).length,
      (resize K t).nodes⟩ : HashTable α ν).Valid K :=
    ⟨newSize_pos _, hplaced, hdistinct, rfl⟩
  refine List.Perm.length_eq ((List.perm_ext_iff_of_nodup (Distinct.nodup hv.distinct_foreach)
    (Distinct.nodup hvalid.distinct_foreach)).mpr fun node => ?_)
  exact mem_foreach_resize.symm

theorem resize_value {t : HashTable α ν} (hv : t.Valid K) (key : α) :
    (resize K t).value K key = t.value K key := by
  have hv' := resize_valid hv
  rw [hv.value_eq, hv'.value_eq]
  exact Entries.find_congr hv'.distinct_foreach hv.distinct_foreach
    fun node _ => mem_foreach_resize

theorem hashTableResize_spec {t : HashTable α ν} (hv : t.Valid K) :
    (hashTableResize K t).Valid K ∧
      ∀ key, (hashTableResize K t).value K key = t.value K key := by
  rw [hashTableResize]
  split
  · exact ⟨resize_valid hv, resize_value hv⟩
  · exact ⟨hv, fun _ => rfl⟩

theorem insert_spec {t : HashTable α ν} (hv : t.Valid K) (key : α) (value : Option ν) :
    (diHashTableInsert K t key value).Valid K ∧
      ∀ key', (diHashTableInsert K t key value).value K key' =
        if K.equal key key' then some value else t.value K key' := by
  have hput := putNode_valid hv key value
  rcases insert_eq t key value with heq | heq
  · rw [heq]
    exact ⟨hput, fun key' => putNode_value key key' value⟩
  · obtain ⟨hvalid, hvalue⟩ := hashTableResize_spec hput
    rw [heq]
    exact ⟨hvalid, fun key' => (hvalue key').trans (putNode_value key key' value)⟩

/-! ## The table is a finite map -/

theorem lastInserted_append (ops : List (HashOp α ν)) (op : HashOp α ν) (key : α) :
    lastInserted K (ops ++ [op]) key =
      (op.valueFor K key).or (lastInserted K ops key) := by
  rw [lastInserted, List.reverse_append, List.reverse_singleton, List.singleton_append,
    List.findSome?_cons]
  cases op.valueFor K key <;> rfl

theorem afterOps_spec (ops : List (HashOp α ν)) :
    (afterOps K ops).Valid K ∧
      ∀ key, (afterOps K ops).value K key = lastInserted K ops key := by
  induction ops using List.reverseRecOn with
  | nil => exact ⟨new_valid, fun _ => rfl⟩
  | append_singleton ops op ih =>
      obtain ⟨hvalid, hvalue⟩ := ih
      have hstep : afterOps K (ops ++ [op]) = op.apply K (afterOps K ops) := by
        rw [afterOps, List.foldl_append]
        rfl
      rw [hstep]
      cases op with
      | insert key value =>
          obtain ⟨hvalid', hvalue'⟩ := insert_spec hvalid key value
          refine ⟨hvalid', fun key' => ?_⟩
          rw [lastInserted_append, ← hvalue key', HashOp.apply, hvalue', HashOp.valueFor]
          split <;> rfl
      | lookup key =>
          refine ⟨hvalid, fun key' => ?_⟩
          rw [lastInserted_append, ← hvalue key']
          rfl

theorem lastInserted_isSome (ops : List (HashOp α ν)) (key : α) :
    (lastInserted K ops key).isSome ↔ ∃ key' ∈ insertedKeys ops, K.equal key' key = true := by
  induction ops using List.reverseRecOn with
  | nil => simp [lastInserted, insertedKeys]
  | append_singleton ops op ih =>
      rw [lastInserted_append, Option.isSome_or, Bool.or_eq_true, ih]
      simp only [insertedKeys, List.filterMap_append, List.mem_append, or_and_right, exists_or]
      rw [or_comm]
      refine or_congr Iff.rfl ?_
      cases op with
      | insert key' value => by_cases hk : K.equal key' key = true <;> simp [HashOp.valueFor, hk]
      | lookup key' => simp [HashOp.valueFor]

/-- What a table shows after some operations. -/
structure FiniteMap (K : KeyFuncs α) (ops : List (HashOp α ν)) (t : HashTable α ν) : Prop where
  lookup : ∀ key, diHashTableLookup K t key = (lastInserted K ops key).join
  size : (diHashTableSize t).toNat = K.distinct (insertedKeys ops) % 2 ^ 32
  once : ∀ key ∈ insertedKeys ops,
    (diHashTableForeach t).countP (fun node => K.equal node.1 key) = 1
  called : ∀ node ∈ diHashTableForeach t, lastInserted K ops node.1 = some node.2

theorem nnodes_afterOps (ops : List (HashOp α ν)) :
    (afterOps K ops).nnodes = K.distinct (insertedKeys ops) := by
  obtain ⟨hvalid, hvalue⟩ := afterOps_spec (K := K) ops
  rw [hvalid.counted]
  refine Entries.length_eq_distinct hvalid.distinct_foreach fun key => ?_
  rw [← hvalid.value_eq, hvalue, lastInserted_isSome]

/-- After every sequence of insertions and lookups the table is the finite map of what was
inserted, however often it was resized. -/
theorem hashTable_finiteMap (K : KeyFuncs α) (ops : List (HashOp α ν)) :
    FiniteMap K ops (afterOps K ops) := by
  obtain ⟨hvalid, hvalue⟩ := afterOps_spec (K := K) ops
  have hfind : ∀ key, Entries.find K.toKeyEq (diHashTableForeach (afterOps K ops)) key =
      lastInserted K ops key := fun key => by rw [← hvalid.value_eq, hvalue]
  constructor
  · intro key
    rw [lookup_eq, hvalue]
  · rw [diHashTableSize, UInt32.toNat_ofNat', nnodes_afterOps]
  · intro key hkey
    rw [Entries.countP_key hvalid.distinct_foreach, hfind, if_pos]
    exact (lastInserted_isSome ops key).mpr ⟨key, hkey, K.refl key⟩
  · intro node hnode
    rw [← hfind, Entries.find_eq_some hvalid.distinct_foreach]
    exact ⟨node, hnode, K.refl _, rfl⟩

/-- Numbers as keys. -/
def numberKeys : KeyFuncs Nat where
  equal := fun a b => a == b
  refl := fun _ => beq_self_eq_true _
  symm := fun h => beq_iff_eq.mpr (beq_iff_eq.mp h).symm
  trans := fun h h' => beq_iff_eq.mpr ((beq_iff_eq.mp h).trans (beq_iff_eq.mp h'))
  hashFunc := UInt32.ofNat
  hash_eq := fun h => congrArg UInt32.ofNat (beq_iff_eq.mp h)

/-- The numbers below `n` are inserted. -/
def insertNumbers (n : Nat) : List (HashOp Nat Unit) :=
  (List.range n).map fun k => .insert k none

theorem distinct_numbers (n : Nat) :
    numberKeys.distinct (insertedKeys (insertNumbers n)) = n := by
  have hkeys : insertedKeys (insertNumbers n) = List.range n := by
    rw [insertedKeys, insertNumbers, List.filterMap_map]
    exact List.filterMap_some
  have hd : Entries.Distinct numberKeys.toKeyEq ((List.range n).map fun k => (k, ())) := by
    refine List.pairwise_map.mpr (List.pairwise_lt_range.imp fun hab => ?_)
    simpa [numberKeys] using Nat.ne_of_lt hab
  have hlen : ((List.range n).map fun k => (k, ())).length = numberKeys.distinct (List.range n) := by
    refine Entries.length_eq_distinct hd fun k => ?_
    rw [Entries.find_isSome]
    simp
  rw [hkeys, ← hlen]
  simp

/-- With 2³² keys the size does not fit into a `di_ksize_t`. -/
theorem hashTable_size_overflows :
    ¬ ∀ ops : List (HashOp Nat Unit), (diHashTableSize (afterOps numberKeys ops)).toNat =
      numberKeys.distinct (insertedKeys ops) := by
  intro h
  have hsize := h (insertNumbers (2 ^ 32))
  rw [diHashTableSize, UInt32.toNat_ofNat', nnodes_afterOps, distinct_numbers] at hsize
  omega

/-! ## Keys that are strings -/

/-- `tolower` in the C locale. -/
def tolower (c : Char) : Char := c.toLower

/-- What `tolower` returns, as an `int`. A `char` is signed, but for a negative one the table has
what it has for the unsigned one, except at -1, which is `EOF`. -/
def charInt (c : Char) : UInt32 :=
  if c.toNat = 255 then 0 - 1 else UInt32.ofNat c.toNat

/-- `strncasecmp`. -/
def strncasecmp : Nat → Text → Text → Int
  | 0, _, _ => 0
  | n + 1, a, b =>
      let c := a.headD '\x00'
      let d := b.headD '\x00'
      if tolower c ≠ tolower d then (tolower c).toNat - (tolower d).toNat
      else if c = '\x00' then 0
      else strncasecmp n a.tail b.tail

/-- `di_rstring_equal`. -/
def diRstringEqual (a b : Text) : Bool :=
  if a.length = b.length then strncasecmp a.length a b = 0 else false

/-- `di_rstring_hash`. -/
def diRstringHash (a : Text) : UInt32 :=
  a.foldl (fun h c => (h <<< 5) - h + charInt (tolower c)) 0

/-- A string of a known length without a NUL. -/
structure RString where
  string : Text
  noNul : '\x00' ∉ string

theorem strncasecmp_eq_zero (ha : '\x00' ∉ a) (hlen : a.length = b.length) :
    strncasecmp a.length a b = 0 ↔ a.map tolower = b.map tolower := by
  induction a generalizing b with
  | nil =>
      cases b with
      | nil => simp [strncasecmp]
      | cons d b => simp at hlen
  | cons c a ih =>
      cases b with
      | nil => simp at hlen
      | cons d b =>
          rw [List.mem_cons, not_or] at ha
          have hc : c ≠ '\x00' := Ne.symm ha.1
          simp only [List.length_cons, strncasecmp, List.headD_cons, List.tail_cons,
            List.map_cons, List.cons.injEq]
          by_cases hcd : tolower c = tolower d
          · simp only [hcd, ne_eq, not_true, ↓reduceIte, hc, true_and]
            exact ih ha.2 (Nat.succ.inj hlen)
          · have hne : ((tolower c).toNat : Int) - (tolower d).toNat ≠ 0 := by
              intro h
              exact hcd (Char.toNat_inj.mp (by omega))
            simp [hcd, hne]

theorem diRstringEqual_iff (ha : '\x00' ∉ a) :
    diRstringEqual a b = true ↔ a.map tolower = b.map tolower := by
  rw [diRstringEqual]
  by_cases hlen : a.length = b.length
  · rw [if_pos hlen, decide_eq_true_eq, strncasecmp_eq_zero ha hlen]
  · rw [if_neg hlen]
    refine iff_of_false (by simp) fun h => hlen ?_
    simpa using congrArg List.length h

/-- The functions that libdebian-installer makes its tables with. -/
def rstringKeys : KeyFuncs RString where
  equal := fun a b => diRstringEqual a.string b.string
  refl := fun a => (diRstringEqual_iff a.noNul).mpr rfl
  symm := fun {a b} h =>
    (diRstringEqual_iff b.noNul).mpr ((diRstringEqual_iff a.noNul).mp h).symm
  trans := fun {a b c} hab hbc =>
    (diRstringEqual_iff a.noNul).mpr
      (((diRstringEqual_iff a.noNul).mp hab).trans ((diRstringEqual_iff b.noNul).mp hbc))
  hashFunc := fun a => diRstringHash a.string
  hash_eq := fun {a b} h => by
    have hmap := (diRstringEqual_iff a.noNul).mp h
    have hfold : ∀ t : Text, diRstringHash t =
        (t.map tolower).foldl (fun (h : UInt32) c => (h <<< 5) - h + charInt c) 0 := fun t => by
      rw [List.foldl_map]
      rfl
    rw [hfold, hfold, hmap]

end DebianInstaller.Packages
