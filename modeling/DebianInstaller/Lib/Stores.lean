import DebianInstaller.Lib.Tree

/-!
# Stores that may refuse

A store keeps at most one value under a key. It may refuse a value, and then it has none
under that key any more; what it does for one key does not concern the others. That is
all that its users rely on.

A stack of trees of which each takes some values only is such a store: a value goes to
the first tree that takes it, and those above it give up theirs.
-/

namespace DebianInstaller.Lib

/-- A store, and what it looks at when it decides whether it takes a value. A value that is
taken comes with the one that was there before. -/
structure Store (κ ν ι σ : Type) where
  get : κ → σ → Option ν
  set : ι → κ → ν → σ → Bool × Option ν × σ
  get_set : ∀ {i k v s}, (set i k v s).1 = true → get k (set i k v s).2.2 = some v
  get_refused : ∀ {i k v s}, (set i k v s).1 = false → get k (set i k v s).2.2 = none
  get_other : ∀ {i k k' v s}, k' ≠ k → get k' (set i k v s).2.2 = get k' s

theorem Store.get_set_cases {κ ν ι σ : Type} [DecidableEq κ] (S : Store κ ν ι σ) {i : ι} {k k' : κ}
    {v w : ν} {s : σ} (h : S.get k' (S.set i k v s).2.2 = some w) :
    k' = k ∧ w = v ∨ k' ≠ k ∧ S.get k' s = some w := by
  by_cases hk : k' = k
  · subst hk
    cases hset : (S.set i k' v s).1 with
    | true =>
        rw [S.get_set hset] at h
        exact .inl ⟨rfl, (Option.some.inj h).symm⟩
    | false =>
        rw [S.get_refused hset] at h
        cases h
  · rw [S.get_other hk] at h
    exact .inr ⟨hk, h⟩

/-! ## Layers -/

section Layers

variable {κ ν ι : Type} [LinearOrder κ]

/-- A tree that takes some values only. -/
structure Layer (κ ν ι : Type) [LinearOrder κ] where
  accepts : ι → κ → ν → Tree κ ν → Bool
  root : Tree κ ν

def getLayers (k : κ) (ls : List (Layer κ ν ι)) : Option ν := ls.findSome? fun l => l.root.tfind k

def setLayers (i : ι) (k : κ) (v : ν) :
    List (Layer κ ν ι) → Bool × Option ν × List (Layer κ ν ι)
  | [] => (false, none, [])
  | l :: ls =>
      if l.accepts i k v l.root then
        (true, l.root.tfind k, { l with root := (l.root.tdelete k).tsearch k v } :: ls)
      else
        let r := setLayers i k v ls
        (r.1, r.2.1, { l with root := l.root.tdelete k } :: r.2.2)

theorem getLayers_cons (k : κ) (l : Layer κ ν ι) (ls : List (Layer κ ν ι)) :
    getLayers k (l :: ls) = (l.root.tfind k).or (getLayers k ls) := by
  rw [getLayers, List.findSome?_cons]
  cases l.root.tfind k <;> rfl

theorem getLayers_setLayers (i : ι) (k : κ) (v : ν) (ls : List (Layer κ ν ι)) :
    getLayers k (setLayers i k v ls).2.2 = if (setLayers i k v ls).1 then some v else none := by
  induction ls with
  | nil => rfl
  | cons l ls ih =>
      rw [setLayers]
      split
      · rw [if_pos rfl, getLayers_cons, Tree.tfind_replace_self]
        rfl
      · rw [getLayers_cons, Tree.tfind_tdelete_self, Option.none_or]
        exact ih

theorem getLayers_setLayers_of_ne (i : ι) {k k' : κ} (v : ν) (ls : List (Layer κ ν ι))
    (hk : k' ≠ k) : getLayers k' (setLayers i k v ls).2.2 = getLayers k' ls := by
  induction ls with
  | nil => rfl
  | cons l ls ih =>
      rw [setLayers]
      split
      · rw [getLayers_cons, getLayers_cons, Tree.tfind_replace_of_ne hk]
      · rw [getLayers_cons, getLayers_cons, Tree.tfind_tdelete_of_ne hk, ih]

/-- A stack of layers is a store. -/
def layers : Store κ ν ι (List (Layer κ ν ι)) where
  get := getLayers
  set := setLayers
  get_set h := by rw [getLayers_setLayers, if_pos h]
  get_refused h := by rw [getLayers_setLayers, h]; rfl
  get_other hk := getLayers_setLayers_of_ne _ _ _ hk

end Layers

end DebianInstaller.Lib
