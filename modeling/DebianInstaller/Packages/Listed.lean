import DebianInstaller.Packages.Readers

/-!
# The packages of the list and those of the table

A package is in the list since its stanza was read or since it was appended, and in the table
since its name was first met. The two agree as long as no stanza has the name of a package
that is real already, and no package is appended whose name the table knows, be it only from
a dependency: the reader of a name appends to the list each time, while
`di_packages_append_package` leaves the list alone and has the table destroy the old package.

The array in `choose_modules` has as many places as the table has nodes. The packages of the
list and the `NULL` behind them fit if the table has a package that is not real.
-/

namespace DebianInstaller.Packages

open Lib

variable {name : RString} {p : ℕ} {r' : Reader}

/-! ## Tables that agree -/

/-- Tables with the same nodes. -/
structure SameNodes {α ν : Type} (t t' : HashTable α ν) : Prop where
  size : t'.size = t.size
  nnodes : t'.nnodes = t.nnodes
  nodes : ∀ i < t.size, t'.nodes i = t.nodes i

section SameNodes

variable {α ν : Type} {K : KeyFuncs α} {t t' : HashTable α ν}

theorem SameNodes.foreach (h : SameNodes t t') : diHashTableForeach t' = diHashTableForeach t := by
  rw [diHashTableForeach, diHashTableForeach, h.size]
  exact List.flatMap_congr fun i hi => h.nodes i (List.mem_range.1 hi)

theorem SameNodes.value (h : SameNodes t t') (hsize : 0 < t.size) (key : α) :
    t'.value K key = t.value K key := by
  rw [HashTable.value, HashTable.value, h.size, h.nodes _ (bucket_lt hsize key)]

theorem SameNodes.valid (h : SameNodes t t') (hv : t.Valid K) : t'.Valid K where
  size_pos := h.size ▸ hv.size_pos
  placed := fun i hi node hnode => by
    rw [h.size] at hi ⊢
    exact hv.placed i hi node (h.nodes i hi ▸ hnode)
  distinct := fun i hi => by
    rw [h.size] at hi
    exact h.nodes i hi ▸ hv.distinct i hi
  counted := by
    rw [h.nnodes, h.foreach]
    exact hv.counted

theorem value_congr {a b : α} (h : K.equal a b = true) : t.value K a = t.value K b := by
  rw [HashTable.value, HashTable.value, bucket_congr h, Entries.find, Entries.find]
  congr 2
  funext node
  rw [K.equal_comm, K.equal_comm node.1]
  exact K.equal_congr h node.1

theorem key_of_mem_insert {key : α} {value : Option ν} {node : α × Option ν}
    (h : node ∈ diHashTableForeach (diHashTableInsert K t key value)) :
    node.1 = key ∨ ∃ node' ∈ diHashTableForeach t, node'.1 = node.1 := by
  have hput : node ∈ diHashTableForeach (putNode K t key value) := by
    rcases insert_eq (K := K) t key value with heq | heq
    · rwa [heq] at h
    · rw [heq, hashTableResize] at h
      split at h
      · exact mem_foreach_resize.1 h
      · exact h
  obtain ⟨i, hi, hnode⟩ := mem_foreach.1 hput
  rw [putNode_nodes] at hnode
  split at hnode
  · rcases Entries.key_of_mem_put hnode with hkey | ⟨node', hnode', hkey⟩
    · exact .inl hkey
    · exact .inr ⟨node', mem_foreach.2 ⟨i, hi, hnode'⟩, hkey⟩
  · exact .inr ⟨node, mem_foreach.2 ⟨i, hi, hnode⟩, rfl⟩

end SameNodes

namespace Reader

/-! ## The table -/

/-- The value of a node is a package of its name, and its key stands in a package. -/
structure Sound (r : Reader) : Prop where
  valid : r.table.Valid packageKeys
  keyed : ∀ node ∈ diHashTableForeach r.table, ∃ o < r.next, node.1 = ⟨r.nameOf o, some o⟩
  entry : ∀ key v, r.table.value packageKeys key = some v →
    ∃ p < r.next, v = some p ∧ rstringKeys.equal (r.nameOf p) key.string = true

/-- A package of the table: a node has it as its value. -/
def InTable (r : Reader) (p : ℕ) : Prop := ∃ node ∈ diHashTableForeach r.table, node.2 = some p

instance (r : Reader) (p : ℕ) : Decidable (r.InTable p) :=
  inferInstanceAs (Decidable (∃ node ∈ diHashTableForeach r.table, node.2 = some p))

/-- A package that is found under some name. -/
def Found (r : Reader) (p : ℕ) : Prop := ∃ name, r.getPackage name = some p

def Real (r : Reader) (p : ℕ) : Prop := (r.heap p).type = .realPackage

/-- The list holds each real package that is found once, and nothing else. -/
structure Listed (r : Reader) : Prop where
  nodup : r.list.Nodup
  mem : ∀ p, p ∈ r.list ↔ r.Found p ∧ r.Real p

variable {r : Reader}

theorem getPackage_eq :
    r.getPackage name = some p ↔ r.table.value packageKeys ⟨name, none⟩ = some (some p) := by
  rw [getPackage, lookup_eq]
  cases hv : r.table.value packageKeys ⟨name, none⟩ with
  | none => simp
  | some v => simp

theorem Sound.getPackage_nameOf (h : r.Sound) (hp : r.getPackage name = some p) :
    p < r.next ∧ rstringKeys.equal (r.nameOf p) name = true ∧
      r.getPackage (r.nameOf p) = some p := by
  have hvalue := getPackage_eq.1 hp
  obtain ⟨q, hq, he, hname⟩ := h.entry _ _ hvalue
  obtain rfl := Option.some.inj he
  refine ⟨hq, hname, getPackage_eq.2 ?_⟩
  rw [← hvalue]
  exact value_congr (K := packageKeys) (a := ⟨r.nameOf p, none⟩) (b := ⟨name, none⟩) hname

theorem Sound.found_iff (h : r.Sound) : r.Found p ↔ r.getPackage (r.nameOf p) = some p :=
  ⟨fun ⟨_, hp⟩ => (h.getPackage_nameOf hp).2.2, fun hp => ⟨_, hp⟩⟩

theorem Sound.lt_next (h : r.Sound) (hp : r.Found p) : p < r.next := by
  obtain ⟨name, hp⟩ := hp
  exact (h.getPackage_nameOf hp).1

theorem Sound.congr (h : r.Sound) (htable : r'.table = r.table) (hnext : r.next ≤ r'.next)
    (hname : ∀ p < r.next, r'.nameOf p = r.nameOf p) : r'.Sound where
  valid := htable ▸ h.valid
  keyed := fun node hnode => by
    rw [htable] at hnode
    obtain ⟨o, ho, hkey⟩ := h.keyed node hnode
    exact ⟨o, ho.trans_le hnext, by rw [hkey, hname o ho]⟩
  entry := fun key v hv => by
    rw [htable] at hv
    obtain ⟨p, hp, hvalue, hkey⟩ := h.entry key v hv
    exact ⟨p, hp.trans_le hnext, hvalue, by rw [hname p hp]; exact hkey⟩

theorem getPackage_congr (htable : r'.table = r.table) (name : RString) :
    r'.getPackage name = r.getPackage name := by
  rw [getPackage, getPackage, htable]

/-! ## Insertion -/

/-- What an insertion does, when it replaces at most a package without a name. -/
structure Inserted (r : Reader) (p : ℕ) (r' : Reader) : Prop where
  sound : r'.Sound
  getPackage : ∀ name, r'.getPackage name =
    if rstringKeys.equal (r.nameOf p) name = true then some p else r.getPackage name
  list : r'.list = r.list
  data : r'.data = r.data
  next : r'.next = r.next
  name : ∀ q, r'.nameOf q = r.nameOf q
  heap : ∀ q, r.getPackage (r.nameOf p) ≠ some q → r'.heap q = r.heap q
  real : ∀ q, r'.Real q → r.Real q

theorem rstring_ext {a b : RString} (h : a.string = b.string) : a = b := by
  cases a
  cases b
  subst h
  rfl

theorem eq_empty_of_equal {a b : RString} (h : rstringKeys.equal a b = true) (hb : b.string = []) :
    a = cstring [] := by
  have hmap := (diRstringEqual_iff a.noNul).1 h
  rw [hb, List.map_nil, List.map_eq_nil_iff] at hmap
  exact rstring_ext hmap

theorem sound_insert (h : r.Sound) (hp : p < r.next) :
    Sound { r with
      table := diHashTableInsert packageKeys r.table ⟨r.nameOf p, some p⟩ (some p) } := by
  obtain ⟨hvalid, hvalue⟩ := insert_spec h.valid (⟨r.nameOf p, some p⟩ : NodeKey) (some p)
  refine ⟨hvalid, fun node hnode => ?_, fun key v hv => ?_⟩
  · rcases key_of_mem_insert hnode with hkey | ⟨node', hnode', hkey⟩
    · exact ⟨p, hp, hkey⟩
    · rw [← hkey]
      exact h.keyed node' hnode'
  · rw [hvalue] at hv
    split at hv
    · next hequal =>
        exact ⟨p, hp, (Option.some.inj hv).symm, hequal⟩
    · exact h.entry key v hv

theorem destroy_sameNodes (h : r.Sound) {old : ℕ} (hold : r.nameOf old = cstring []) :
    SameNodes r.table (r.destroy old).table where
  size := rfl
  nnodes := rfl
  nodes := fun i hi => by
    show (r.table.nodes i).map _ = r.table.nodes i
    refine (List.map_congr_left fun node hnode => ?_).trans (List.map_id _)
    obtain ⟨o, ho, hkey⟩ := h.keyed node (mem_foreach.2 ⟨i, hi, hnode⟩)
    split
    · next howner =>
        obtain rfl : o = old := by simpa [hkey] using howner
        rw [← hold, ← hkey]
        rfl
    · rfl

theorem destroy_nameOf {old : ℕ} (hold : r.nameOf old = cstring []) (q : ℕ) :
    (r.destroy old).nameOf q = r.nameOf q := by
  show cstring (Function.update r.heap old {} q).package = cstring (r.heap q).package
  by_cases hq : q = old
  · subst hq
    rw [Function.update_self]
    exact hold.symm
  · rw [Function.update_of_ne hq]

theorem insert_inserted (h : r.Sound) (hp : p < r.next)
    (hold : ∀ old, r.getPackage (r.nameOf p) = some old → (r.nameOf p).string = []) :
    Inserted r p (r.insert p) := by
  obtain ⟨-, hvalue⟩ := insert_spec h.valid (⟨r.nameOf p, some p⟩ : NodeKey) (some p)
  have hsound := sound_insert h hp
  have hget (name : RString) : getPackage { r with
      table := diHashTableInsert packageKeys r.table ⟨r.nameOf p, some p⟩ (some p) } name =
      if rstringKeys.equal (r.nameOf p) name = true then some p else r.getPackage name := by
    rw [getPackage, lookup_eq, hvalue, getPackage, lookup_eq]
    show (if rstringKeys.equal (r.nameOf p) name = true then _ else _ : Option (Option ℕ)).join = _
    split <;> rfl
  have hplain : Inserted r p { r with
      table := diHashTableInsert packageKeys r.table ⟨r.nameOf p, some p⟩ (some p) } :=
    ⟨hsound, hget, rfl, rfl, rfl, fun _ => rfl, fun _ _ => rfl, fun _ hq => hq⟩
  rw [insert]
  split
  · next old hnode =>
      have hfound : r.getPackage (r.nameOf p) = some old := by
        rw [getPackage, diHashTableLookup,
          show lookupNode packageKeys r.table ⟨r.nameOf p, none⟩ = _ from hnode]
      have hempty : r.nameOf old = cstring [] :=
        eq_empty_of_equal (h.getPackage_nameOf hfound).2.1 (hold old hfound)
      have hname := destroy_nameOf (r := { r with
        table := diHashTableInsert packageKeys r.table ⟨r.nameOf p, some p⟩ (some p) }) hempty
      have hsame := destroy_sameNodes hsound hempty
      refine ⟨⟨hsame.valid hsound.valid, ?_, ?_⟩, ?_, rfl, rfl, rfl, hname, ?_, ?_⟩
      · intro node hnode
        rw [hsame.foreach] at hnode
        obtain ⟨o, ho, hkey⟩ := hsound.keyed node hnode
        exact ⟨o, ho, by rw [hkey, hname]⟩
      · intro key v hv
        rw [hsame.value hsound.valid.size_pos] at hv
        obtain ⟨q, hq, hv, hkey⟩ := hsound.entry key v hv
        exact ⟨q, hq, hv, by rw [hname]; exact hkey⟩
      · intro name
        rw [← hget, getPackage, lookup_eq, hsame.value hsound.valid.size_pos, getPackage, lookup_eq]
      · intro q hq
        refine Function.update_of_ne ?_ _ _
        rintro rfl
        exact hq hfound
      · intro q hq
        by_cases he : q = old
        · subst he
          have hreal : (Function.update r.heap q {} q).type = .realPackage := hq
          rw [Function.update_self] at hreal
          cases hreal
        · have hreal : (Function.update r.heap old {} q).type = .realPackage := hq
          rwa [Function.update_of_ne he] at hreal
  · exact hplain

theorem Inserted.mem_iff (h : Inserted r p r') (hs : r.Sound) (hnew : ¬ r.Found p)
    (hreplaced : ∀ q, r.getPackage (r.nameOf p) = some q → ¬ r.Real q) (q : ℕ) :
    r'.Found q ∧ r'.Real q ↔ q = p ∧ r.Real p ∨ r.Found q ∧ r.Real q := by
  have hfresh : r.getPackage (r.nameOf p) ≠ some p := fun he => hnew ⟨_, he⟩
  constructor
  · rintro ⟨⟨name, hq⟩, hreal⟩
    rw [h.getPackage] at hq
    split at hq
    · obtain rfl := Option.some.inj hq
      exact .inl ⟨rfl, h.real p hreal⟩
    · exact .inr ⟨⟨name, hq⟩, h.real q hreal⟩
  · rintro (⟨rfl, hreal⟩ | ⟨hq, hreal⟩)
    · refine ⟨⟨r.nameOf q, ?_⟩, ?_⟩
      · rw [h.getPackage, if_pos (rstringKeys.refl _)]
      · rw [Real, h.heap q hfresh]
        exact hreal
    · have hget := hs.found_iff.1 hq
      have hother : rstringKeys.equal (r.nameOf p) (r.nameOf q) ≠ true := by
        intro hequal
        refine hreplaced q ?_ hreal
        rw [getPackage_eq] at hget ⊢
        rw [← hget]
        exact value_congr (K := packageKeys) (a := ⟨_, none⟩) (b := ⟨_, none⟩) hequal
      refine ⟨⟨r.nameOf q, ?_⟩, ?_⟩
      · rw [h.getPackage, if_neg hother]
        exact hget
      · rw [Real, h.heap q fun he => hreplaced q he hreal]
        exact hreal

/-! ## One operation -/

/-- The table and the list are as they should be. -/
structure Good (r : Reader) : Prop where
  sound : r.Sound
  listed : r.Listed

theorem Good.congr (h : r.Good) (htable : r'.table = r.table) (hlist : r'.list = r.list)
    (hnext : r.next ≤ r'.next) (hname : ∀ p < r.next, r'.nameOf p = r.nameOf p)
    (hreal : ∀ p < r.next, (r'.Real p ↔ r.Real p)) : r'.Good := by
  refine ⟨h.sound.congr htable hnext hname, hlist ▸ h.listed.nodup, fun p => ?_⟩
  rw [hlist, h.listed.mem]
  simp only [Found, getPackage_congr htable]
  exact and_congr_right fun hp => (hreal p (h.sound.lt_next hp)).symm

theorem alloc_old (package : Package ℕ) (hp : p < r.next) :
    (r.alloc package).heap p = r.heap p := Function.update_of_ne (Nat.ne_of_lt hp) ..

theorem Good.alloc (h : r.Good) (package : Package ℕ) : (r.alloc package).Good :=
  h.congr rfl rfl (Nat.le_succ _) (fun p hp => by rw [nameOf, nameOf, alloc_old package hp])
    fun p hp => by rw [Real, Real, alloc_old package hp]

theorem modify_heap (p : ℕ) (f : Package ℕ → Package ℕ) (q : ℕ) :
    (r.modify p f).heap q = if q = p then f (r.heap p) else r.heap q :=
  Function.update_apply ..

theorem modify_nameOf {f : Package ℕ → Package ℕ}
    (hname : (f (r.heap p)).package = (r.heap p).package) (q : ℕ) :
    (r.modify p f).nameOf q = r.nameOf q := by
  rw [nameOf, nameOf, modify_heap]
  split
  · next hq => rw [hname, hq]
  · rfl

theorem Good.modify (h : r.Good) (p : ℕ) (f : Package ℕ → Package ℕ)
    (hname : (f (r.heap p)).package = (r.heap p).package)
    (hreal : (f (r.heap p)).type = .realPackage ↔ (r.heap p).type = .realPackage) :
    (r.modify p f).Good := by
  refine h.congr rfl rfl le_rfl (fun q _ => modify_nameOf hname q) fun q _ => ?_
  rw [Real, Real, modify_heap]
  split
  · next hq => rw [hreal, hq]
  · rfl

theorem cstring_string (name : RString) : cstring name.string = name := by
  refine rstring_ext ?_
  rw [cstring, List.takeWhile_eq_self_iff]
  intro c hc
  have hne : c ≠ '\x00' := fun e => name.noNul (e ▸ hc)
  simpa using hne

theorem Sound.alloc (h : r.Sound) (package : Package ℕ) : (r.alloc package).Sound :=
  h.congr rfl (Nat.le_succ _) fun p hp => by rw [nameOf, nameOf, alloc_old package hp]

theorem Sound.insert_new (h : r.Sound) (hfind : r.find name = none) :
    Inserted (r.alloc { package := name.string }) r.next
        ((r.alloc { package := name.string }).insert r.next) ∧
      (r.alloc { package := name.string }).nameOf r.next = name ∧
      ∀ old, r.getPackage name = some old → name.string = [] := by
  have hname : (r.alloc { package := name.string }).nameOf r.next = name := by
    have hheap : (r.alloc { package := name.string }).heap r.next =
        { package := name.string } := Function.update_self ..
    rw [nameOf, hheap]
    exact cstring_string name
  have hold : ∀ old, r.getPackage name = some old → name.string = [] := by
    intro old hp
    by_contra hne
    rw [find, if_neg hne, hp] at hfind
    cases hfind
  refine ⟨insert_inserted (h.alloc _) (Nat.lt_succ_self _) fun old hp => ?_, hname, hold⟩
  rw [hname] at hp ⊢
  exact hold old hp

theorem Good.getPackageNew (h : r.Good)
    (hempty : name.string = [] → ∀ p, r.getPackage name = some p → ¬ r.Real p) :
    (r.getPackageNew name).1.Good ∧
      (r.getPackageNew name).1.Found (r.getPackageNew name).2 ∧
      ((r.getPackageNew name).1.Real (r.getPackageNew name).2 → r.getPackage name =
        some (r.getPackageNew name).2 ∧ r.Real (r.getPackageNew name).2) ∧
      (r.getPackageNew name).1.list = r.list ∧
      ∀ q < r.next, (r.getPackageNew name).1.nameOf q = r.nameOf q := by
  rw [Reader.getPackageNew]
  cases hfind : r.find name with
  | some p =>
      have hget : r.getPackage name = some p := by
        rw [find] at hfind
        split at hfind
        · cases hfind
        · exact hfind
      exact ⟨h, ⟨name, hget⟩, fun hreal => ⟨hget, hreal⟩, rfl, fun _ _ => rfl⟩
  | none =>
      obtain ⟨hins, hname, hold⟩ := h.sound.insert_new hfind
      have hgood := h.alloc { package := name.string }
      have hnames : ∀ q < r.next,
          (r.alloc { package := name.string }).nameOf q = r.nameOf q := by
        intro q hq
        rw [nameOf, nameOf, alloc_old _ hq]
      have hnotReal : ¬ (r.alloc { package := name.string }).Real r.next := by
        have hheap : (r.alloc { package := name.string }).heap r.next =
            { package := name.string } := Function.update_self ..
        rw [Real, hheap]
        exact fun he => by cases he
      have hnew : ¬ (r.alloc { package := name.string }).Found r.next :=
        fun ⟨name', hp⟩ => Nat.lt_irrefl _ (h.sound.lt_next ⟨name', hp⟩)
      have hreplaced : ∀ old, r.getPackage name = some old →
          ¬ (r.alloc { package := name.string }).Real old := by
        intro old hp
        rw [Real, alloc_old _ (h.sound.lt_next ⟨name, hp⟩)]
        exact hempty (hold old hp) old hp
      refine ⟨⟨hins.sound, hins.list ▸ hgood.listed.nodup, fun q => ?_⟩, ⟨name, ?_⟩,
        fun hreal => ?_, hins.list, fun q hq => (hins.name q).trans (hnames q hq)⟩
      · rw [hins.mem_iff hgood.sound hnew (fun q hq => hreplaced q (by rwa [hname] at hq)) q,
          hins.list, hgood.listed.mem]
        simp [hnotReal]
      · rw [hins.getPackage, hname, if_pos (rstringKeys.refl name)]
      · exact absurd (hins.real _ hreal) hnotReal

instance (r : Reader) (p : ℕ) : Decidable (r.Real p) :=
  inferInstanceAs (Decidable ((r.heap p).type = .realPackage))

/-- The table has no real package of the name. -/
def Free (r : Reader) (name : RString) : Prop := ∀ p ∈ r.getPackage name, ¬ r.Real p

instance (r : Reader) (name : RString) : Decidable (r.Free name) :=
  inferInstanceAs (Decidable (∀ p ∈ r.getPackage name, ¬ r.Real p))

/-- The condition on a step: no stanza has the name of a real package, no nameless real package
is replaced, and what is appended is a real package with a name that the table does not have. -/
def Admissible (r : Reader) : Op → Prop
  | .parse (.read .package value) => r.Free (cstring value)
  | .parse (.read (.dependency _) value) =>
      ∀ name ∈ dependencyNames value.length value, name.string = [] → r.Free name
  | .append p => p < r.next ∧ r.Real p ∧ (r.getPackage (r.nameOf p)).isNone
  | _ => True

instance (r : Reader) : (op : Op) → Decidable (r.Admissible op)
  | .parse .entryNew => isTrue trivial
  | .parse (.read .package value) => inferInstanceAs (Decidable (r.Free (cstring value)))
  | .parse (.read (.dependency _) value) => inferInstanceAs (Decidable
      (∀ name ∈ dependencyNames value.length value, name.string = [] → r.Free name))
  | .parse (.read .other _) => isTrue trivial
  | .create _ => isTrue trivial
  | .append p => inferInstanceAs
      (Decidable (p < r.next ∧ r.Real p ∧ (r.getPackage (r.nameOf p)).isNone))

theorem Good.readName (h : r.Good) {value : Text} (hfresh : r.Free (cstring value)) :
    (r.readName value).Good := by
  obtain ⟨hgood, htable, hreal, -⟩ := h.getPackageNew fun _ => hfresh
  rw [Reader.readName]
  generalize r.getPackageNew (cstring value) = a at *
  obtain ⟨r', p⟩ := a
  dsimp only at hgood htable hreal ⊢
  have hnotReal : ¬ r'.Real p := fun hp => hfresh p (hreal hp).1 (hreal hp).2
  have hnotMem : p ∉ r'.list := fun hp => hnotReal ((hgood.listed.mem p).1 hp).2
  have hreal' (q : ℕ) :
      (r'.modify p fun package => { package with type := .realPackage }).Real q ↔
        q = p ∨ r'.Real q := by
    rw [Real, modify_heap]
    split
    · next hq => simp [hq]
    · next hq => simp [hq, Real]
  have hname (q : ℕ) :
      (r'.modify p fun package => { package with type := .realPackage }).nameOf q = r'.nameOf q :=
    modify_nameOf rfl q
  refine ⟨hgood.sound.congr rfl le_rfl fun q _ => hname q, ?_, fun q => ?_⟩
  · refine List.nodup_append.2 ⟨hgood.listed.nodup, List.nodup_singleton p, ?_⟩
    rintro q hq q' hq' rfl
    exact hnotMem (List.mem_singleton.1 hq' ▸ hq)
  · show q ∈ r'.list ++ [p] ↔
      r'.Found q ∧ (r'.modify p fun package => { package with type := .realPackage }).Real q
    rw [List.mem_append, List.mem_singleton, hgood.listed.mem, hreal']
    constructor
    · rintro (⟨hq, hreal⟩ | rfl)
      · exact ⟨hq, .inr hreal⟩
      · exact ⟨htable, .inl rfl⟩
    · rintro ⟨hq, rfl | hreal⟩
      · exact .inr rfl
      · exact .inl ⟨hq, hreal⟩

theorem provided_package (priority : PackagePriority) (q : Package ℕ) :
    (provided priority q).package = q.package ∧
      ((provided priority q).type = .realPackage ↔ q.type = .realPackage) := by
  rw [provided]
  by_cases hq : q.type = .nonExistent
  · rw [if_pos hq]
    split <;> simp [hq]
  · rw [if_neg hq]
    split <;> simp

/-- No real package is without a name. -/
def Named (r : Reader) : Prop := ∀ p ∈ r.list, (r.nameOf p).string ≠ []

theorem Good.named_iff (h : r.Good) (hempty : name.string = []) :
    r.Named ↔ ∀ p, r.getPackage name = some p → ¬ r.Real p := by
  constructor
  · intro hnamed p hp hreal
    have hname := eq_empty_of_equal (h.sound.getPackage_nameOf hp).2.1 hempty
    exact hnamed p ((h.listed.mem p).2 ⟨⟨name, hp⟩, hreal⟩) (by rw [hname]; rfl)
  · intro hnone p hp he
    obtain ⟨htable, hreal⟩ := (h.listed.mem p).1 hp
    refine hnone p ?_ hreal
    rw [← h.sound.found_iff.1 htable]
    exact congrArg _ (rstring_ext (hempty.trans he.symm))

theorem Named.modify (h : r.Named) (p : ℕ) (f : Package ℕ → Package ℕ)
    (hname : (f (r.heap p)).package = (r.heap p).package) : (r.modify p f).Named := by
  intro q hq
  rw [modify_nameOf hname]
  exact h q hq

theorem Good.readDependencyName (h : r.Good) (type : DependencyType) (p : ℕ)
    (hempty : name.string = [] → r.Named) :
    (r.readDependencyName type p name).Good ∧
      (r.Named → (r.readDependencyName type p name).Named) := by
  obtain ⟨hgood, -, -, hlist, hnames⟩ := h.getPackageNew fun he => (h.named_iff he).1 (hempty he)
  rw [Reader.readDependencyName]
  generalize r.getPackageNew name = a at *
  obtain ⟨r', q⟩ := a
  dsimp only at hgood hlist hnames ⊢
  have hdepends := hgood.modify p
    (fun package => { package with depends := package.depends ++ [⟨type, q⟩] }) rfl Iff.rfl
  have hkept : r.Named → (r'.modify p fun package =>
      { package with depends := package.depends ++ [⟨type, q⟩] }).Named := by
    intro hnamed
    refine Named.modify ?_ p _ rfl
    intro x hx
    rw [hlist] at hx
    rw [hnames x (h.sound.lt_next ((h.listed.mem x).1 hx).1)]
    exact hnamed x hx
  split
  · exact ⟨hdepends.modify q _ (provided_package _ _).1 (provided_package _ _).2,
      fun hnamed => (hkept hnamed).modify q _ (provided_package _ _).1⟩
  · exact ⟨hdepends.modify q _ (provided_package _ _).1 (provided_package _ _).2,
      fun hnamed => (hkept hnamed).modify q _ (provided_package _ _).1⟩
  · exact ⟨hdepends, hkept⟩

theorem Good.readDependency (h : r.Good) (type : DependencyType) (p : ℕ) {value : Text}
    (hempty : ∀ name ∈ dependencyNames value.length value, name.string = [] → r.Named) :
    (r.readDependency type p value).Good := by
  rw [Reader.readDependency]
  generalize dependencyNames value.length value = names at hempty
  induction names generalizing r with
  | nil => exact h
  | cons name names ih =>
      obtain ⟨hname, hnames⟩ := List.forall_mem_cons.1 hempty
      obtain ⟨hgood, hkept⟩ := h.readDependencyName type p hname
      exact ih hgood fun name' hname' he => hkept (hnames name' hname' he)

theorem Good.appendPackage (h : r.Good) (hp : p < r.next) (hreal : r.Real p)
    (hfresh : r.getPackage (r.nameOf p) = none) : (r.appendPackage p).Good := by
  have hnew : ¬ r.Found p := by
    intro htable
    rw [h.sound.found_iff, hfresh] at htable
    cases htable
  obtain ⟨r', hr'⟩ : ∃ r', { r with list := r.list ++ [p] } = r' := ⟨_, rfl⟩
  have hsound : r'.Sound := by
    subst hr'
    exact h.sound.congr rfl le_rfl fun _ _ => rfl
  have hfresh' : r'.getPackage (r'.nameOf p) = none := by
    subst hr'
    exact hfresh
  have hins := insert_inserted hsound (p := p) (by subst hr'; exact hp)
    fun old hold => by rw [hfresh'] at hold; cases hold
  have hmem := hins.mem_iff hsound (by subst hr'; exact hnew)
    fun q hq => by rw [hfresh'] at hq; cases hq
  rw [Reader.appendPackage, hfresh]
  dsimp only
  rw [hr']
  have hlist : r'.list = r.list ++ [p] := by rw [← hr']
  refine ⟨hins.sound, ?_, fun q => ?_⟩
  · rw [hins.list, hlist]
    refine List.nodup_append.2 ⟨h.listed.nodup, List.nodup_singleton p, ?_⟩
    rintro q hq q' hq' rfl
    exact hnew ((h.listed.mem p).1 (List.mem_singleton.1 hq' ▸ hq)).1
  · rw [hmem, hins.list, hlist, List.mem_append, List.mem_singleton, h.listed.mem]
    subst hr'
    constructor
    · rintro (hq | rfl)
      · exact .inr hq
      · exact .inl ⟨rfl, hreal⟩
    · rintro (⟨rfl, -⟩ | hq)
      · exact .inr rfl
      · exact .inl hq

/-! ## Runs -/

theorem new_good : Good {} := by
  refine ⟨⟨new_valid, fun node hnode => ?_, fun key v hv => ?_⟩, List.nodup_nil, fun p => ?_⟩
  · obtain ⟨i, -, hmem⟩ := mem_foreach.1 hnode
    cases hmem
  · cases hv
  · refine iff_of_false List.not_mem_nil ?_
    rintro ⟨⟨name, hp⟩, -⟩
    cases hp

theorem Good.step (h : r.Good) {op : Op} (ha : r.Admissible op) (hr : r.step op = some r') :
    r'.Good := by
  cases op with
  | parse event =>
      cases event with
      | entryNew =>
          obtain rfl := Option.some.inj hr
          exact h.congr rfl rfl le_rfl (fun _ _ => rfl) fun _ _ => Iff.rfl
      | read field value =>
          cases field with
          | package =>
              obtain rfl := Option.some.inj hr
              exact h.readName ha
          | dependency type =>
              obtain ⟨p, -, rfl⟩ := Option.map_eq_some_iff.1 hr
              exact h.readDependency type p fun name hname he =>
                (h.named_iff he).2 (ha name hname he)
          | other =>
              obtain ⟨p, -, rfl⟩ := Option.map_eq_some_iff.1 hr
              exact h
  | create package =>
      obtain rfl := Option.some.inj hr
      exact h.alloc package
  | append p =>
      obtain rfl := Option.some.inj hr
      exact h.appendPackage ha.1 ha.2.1 (Option.isNone_iff_eq_none.1 ha.2.2)

/-- Every step of a run is admissible where it is taken. -/
def AdmissibleRun (r : Reader) : List Op → Prop
  | [] => True
  | op :: ops => r.Admissible op ∧
      match r.step op with
      | none => True
      | some r' => AdmissibleRun r' ops

instance decidableAdmissibleRun : (r : Reader) → (ops : List Op) → Decidable (r.AdmissibleRun ops)
  | _, [] => isTrue trivial
  | r, op :: ops => @instDecidableAnd _ _ inferInstance <|
      match r.step op with
      | none => isTrue trivial
      | some r' => decidableAdmissibleRun r' ops

theorem Good.run (h : r.Good) {ops : List Op} (ha : r.AdmissibleRun ops)
    (hr : r.run ops = some r') : r'.Good := by
  induction ops generalizing r with
  | nil =>
      obtain rfl := Option.some.inj hr
      exact h
  | cons op ops ih =>
      obtain ⟨r₁, hstep, hrun⟩ := Option.bind_eq_some_iff.1 hr
      have hrest := ha.2
      rw [hstep] at hrest
      exact ih (h.step ha.1 hstep) hrest hrun

/-- The condition on a file, and on what its reader does with the packages. -/
def AdmissibleFile (lookup : Text → Option Field) (file behind : Text) (ops : List Op) : Prop :=
  ∀ a ∈ diParserRfc822Read lookup file behind, AdmissibleRun {} (a.1.map .parse ++ ops)

instance (lookup : Text → Option Field) (file behind : Text) (ops : List Op) :
    Decidable (AdmissibleFile lookup file behind ops) :=
  inferInstanceAs (Decidable (∀ a ∈ diParserRfc822Read lookup file behind,
    AdmissibleRun {} (a.1.map .parse ++ ops)))

theorem readThen_eq {lookup : Text → Option Field} {file behind : Text} {ops : List Op}
    (h : readThen lookup file behind ops = some r) :
    ∃ events nr, diParserRfc822Read lookup file behind = some (events, nr) ∧
      Reader.run {} (events.map .parse ++ ops) = some r := by
  rw [readThen, specialReadFile] at h
  cases hread : diParserRfc822Read lookup file behind with
  | none => simp [hread] at h
  | some a =>
      obtain ⟨events, nr⟩ := a
      refine ⟨events, nr, rfl, ?_⟩
      cases hrun : Reader.run {} (events.map .parse) with
      | none => simp [hread, hrun] at h
      | some r₀ =>
          by_cases hnr : nr < 0
          · simp [hread, hrun, hnr] at h
          · simp only [hread, hrun, hnr, Option.map_some, if_false] at h
            rw [Reader.run, List.foldlM_append]
            exact Option.bind_eq_some_iff.2 ⟨r₀, hrun, h⟩

/-! ## The array of `choose_modules` -/

theorem Sound.values (h : r.Sound) :
    ((diHashTableForeach r.table).map Prod.snd).Nodup ∧
      ∀ v, v ∈ (diHashTableForeach r.table).map Prod.snd ↔ ∃ p, v = some p ∧ r.Found p := by
  have hnode : ∀ node ∈ diHashTableForeach r.table,
      r.table.value packageKeys node.1 = some node.2 := by
    intro node hnode
    rw [h.valid.value_eq, Entries.find_eq_some h.valid.distinct_foreach]
    exact ⟨node, hnode, packageKeys.refl _, rfl⟩
  constructor
  · refine List.pairwise_map.2 (h.valid.distinct_foreach.imp_of_mem fun {a b} ha hb hab he => ?_)
    obtain ⟨p, -, hp, hpa⟩ := h.entry _ _ (hnode a ha)
    obtain ⟨q, -, hq, hqb⟩ := h.entry _ _ (hnode b hb)
    obtain rfl : p = q := by
      rw [hp, hq] at he
      exact Option.some.inj he
    have hequal : packageKeys.equal a.1 b.1 = true :=
      rstringKeys.trans (rstringKeys.symm hpa) hqb
    rw [hequal] at hab
    cases hab
  · intro v
    rw [List.mem_map]
    constructor
    · rintro ⟨node, hmem, rfl⟩
      obtain ⟨p, -, hp, -⟩ := h.entry _ _ (hnode node hmem)
      refine ⟨p, hp, node.1.string, getPackage_eq.2 ?_⟩
      rw [← hp]
      exact hnode node hmem
    · rintro ⟨p, rfl, name, hp⟩
      have hvalue := getPackage_eq.1 hp
      rw [h.valid.value_eq, Entries.find_eq_some h.valid.distinct_foreach] at hvalue
      obtain ⟨node, hmem, -, hv⟩ := hvalue
      exact ⟨node, hmem, hv⟩

/-- In a sound table every package is found. -/
theorem Sound.inTable_iff (h : r.Sound) : r.InTable p ↔ r.Found p := by
  have hvalues := h.values.2 (some p)
  rw [List.mem_map] at hvalues
  refine hvalues.trans ⟨fun ⟨q, hq, hfound⟩ => ?_, fun hfound => ⟨p, rfl, hfound⟩⟩
  obtain rfl := Option.some.inj hq
  exact hfound

theorem Good.hasRoom_iff (h : r.Good) (hfew : r.table.nnodes < 2 ^ 32) :
    r.HasRoom ↔ ∃ p, r.Found p ∧ ¬ r.Real p := by
  obtain ⟨hnodup, hmem⟩ := h.sound.values
  obtain ⟨values, hvalues⟩ : ∃ values, (diHashTableForeach r.table).map Prod.snd = values :=
    ⟨_, rfl⟩
  rw [hvalues] at hnodup hmem
  have hsize : (diHashTableSize r.table).toNat = values.length := by
    rw [diHashTableSize, UInt32.toNat_ofNat', Nat.mod_eq_of_lt hfew, h.sound.valid.counted,
      ← hvalues, List.length_map]
  have hlist : (r.list.map some).Nodup := h.listed.nodup.map (Option.some_injective _)
  have hsub : r.list.map some ⊆ values := by
    intro v hv
    obtain ⟨p, hp, rfl⟩ := List.mem_map.1 hv
    exact (hmem _).2 ⟨p, rfl, ((h.listed.mem p).1 hp).1⟩
  have hroom : r.HasRoom ↔ r.list.length < values.length := by
    rw [HasRoom, hsize]
    constructor
    · intro hall
      simpa using hall fun _ => .unknown
    · exact fun hlt want => (List.length_filter_le _ _).trans_lt hlt
  rw [hroom]
  constructor
  · intro hlt
    by_contra hnone
    push Not at hnone
    have hsub' : values ⊆ r.list.map some := by
      intro v hv
      obtain ⟨p, rfl, hp⟩ := (hmem v).1 hv
      exact List.mem_map_of_mem ((h.listed.mem p).2 ⟨hp, hnone p hp⟩)
    have hle := (hnodup.subperm hsub').length_le
    rw [List.length_map] at hle
    omega
  · rintro ⟨p, hp, hreal⟩
    have hnot : some p ∉ r.list.map some := by
      intro hv
      obtain ⟨q, hq, he⟩ := List.mem_map.1 hv
      obtain rfl := Option.some.inj he
      exact hreal ((h.listed.mem q).1 hq).2
    have hcons : some p :: r.list.map some ⊆ values :=
      List.cons_subset.2 ⟨(hmem _).2 ⟨p, rfl, hp⟩, hsub⟩
    have hle := ((List.nodup_cons.2 ⟨hnot, hlist⟩).subperm hcons).length_le
    rw [List.length_cons, List.length_map] at hle
    exact hle

/-! ## The list and the table -/

/-- The list holds each real package of the table once and nothing else, and a package of the
list is what is found under its name. -/
structure Consistent (r : Reader) : Prop where
  nodup : r.list.Nodup
  mem : ∀ p, p ∈ r.list ↔ r.InTable p ∧ r.Real p
  found : ∀ p ∈ r.list, ∀ name, rstringKeys.equal (r.nameOf p) name = true →
    r.getPackage name = some p

/-- After a file and whatever is done with its packages, the list and the table are consistent
if every step was admissible; and then the array of `choose_modules` has room, exactly if the
table has a package that is not real. -/
theorem readThen_consistent {lookup : Text → Option Field} {file behind : Text} {ops : List Op}
    (ha : AdmissibleFile lookup file behind ops) {r : Reader}
    (h : readThen lookup file behind ops = some r) :
    r.Consistent ∧ (r.table.nnodes < 2 ^ 32 → (r.HasRoom ↔ ∃ p, r.InTable p ∧ ¬ r.Real p)) := by
  obtain ⟨events, nr, hread, hrun⟩ := readThen_eq h
  have hgood := new_good.run (ha _ hread) hrun
  have htable (p : ℕ) := hgood.sound.inTable_iff (p := p)
  refine ⟨⟨hgood.listed.nodup, fun p => ?_, fun p hp name hname => ?_⟩, fun hfew => ?_⟩
  · rw [hgood.listed.mem, htable]
  · have hget := hgood.sound.found_iff.1 ((hgood.listed.mem p).1 hp).1
    rw [getPackage_eq] at hget ⊢
    rw [← hget]
    exact (value_congr (K := packageKeys) (a := ⟨_, none⟩) (b := ⟨_, none⟩) hname).symm
  · simp only [htable]
    exact hgood.hasRoom_iff hfew

/-- The table of the fields of a `Packages` file. -/
def packagesInfo : Text → Option Field := fieldLookup packagesParserFieldinfo

/-- A real package that a caller appends. -/
def realPackage (name : Text) : Package ℕ := { package := name, type := .realPackage }

/-- Two stanzas and a dependency on a third package, and one more package is appended. -/
theorem readThen_consistent_three :
    ∃ r, readThen packagesInfo "Package: a\nDepends: b\n\nPackage: c\n\n" []
      [.create (realPackage "d"), .append 3] = some r ∧ r.Consistent := by
  obtain ⟨r, hr⟩ := Option.isSome_iff_exists.1 (show (readThen packagesInfo
    "Package: a\nDepends: b\n\nPackage: c\n\n" []
    [.create (realPackage "d"), .append 3]).isSome = true by decide +kernel)
  exact ⟨r, hr, (readThen_consistent (by decide +kernel) hr).1⟩

/-- A stanza that is there twice, a package that is appended under a name that a dependency has,
and an array without room for its `NULL`. -/
theorem readThen_notConsistent :
    (∃ r, readThen packagesInfo "Package: a\n\nPackage: a\n\n" [] [] = some r ∧
      ¬ r.Consistent) ∧
    (∃ r, readThen packagesInfo "Package: a\nDepends: b\n\n" []
        [.create (realPackage "b"), .append 2] = some r ∧
      ¬ r.Consistent ∧ r.getPackage (cstring "b") = none) ∧
    ∃ r, readThen packagesInfo "Package: a\n\n" [] [] = some r ∧ ¬ r.HasRoom := by
  have htwice : (readThen packagesInfo "Package: a\n\nPackage: a\n\n" [] []).map
      Reader.list = some [0, 0] := by decide +kernel
  have hunlisted : (readThen packagesInfo "Package: a\nDepends: b\n\n" []
      [.create (realPackage "b"), .append 2]).map (fun r => (r.list, decide (r.InTable 2),
        decide (r.Real 2), r.getPackage (cstring "b"))) =
      some ([0], true, true, none) := by decide +kernel
  have hfull : (readThen packagesInfo "Package: a\n\n" [] []).map
      (fun r => (r.list, (diHashTableSize r.table).toNat)) = some ([0], 1) := by decide +kernel
  obtain ⟨r₁, hr₁, hlist₁⟩ := Option.map_eq_some_iff.1 htwice
  obtain ⟨r₂, hr₂, htuple₂⟩ := Option.map_eq_some_iff.1 hunlisted
  obtain ⟨r₃, hr₃, htuple₃⟩ := Option.map_eq_some_iff.1 hfull
  obtain ⟨hlist₂, htuple₂⟩ := Prod.mk.inj htuple₂
  obtain ⟨htable, htuple₂⟩ := Prod.mk.inj htuple₂
  obtain ⟨hreal, hget⟩ := Prod.mk.inj htuple₂
  obtain ⟨hlist₃, hsize⟩ := Prod.mk.inj htuple₃
  refine ⟨⟨r₁, hr₁, fun h => ?_⟩, ⟨r₂, hr₂, fun h => ?_, hget⟩, r₃, hr₃, fun h => ?_⟩
  · have hnodup := h.nodup
    rw [hlist₁] at hnodup
    exact absurd hnodup (by decide)
  · have hmem := (h.mem 2).2 ⟨of_decide_eq_true htable, of_decide_eq_true hreal⟩
    rw [hlist₂] at hmem
    exact absurd hmem (by decide)
  · have hroom := h fun _ => .unknown
    rw [hlist₃, hsize] at hroom
    exact absurd hroom (by decide)

end Reader

end DebianInstaller.Packages
