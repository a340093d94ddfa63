import Mathlib.Data.List.Nodup
import Mathlib.Data.List.Perm.Basic

/-!
# Things put into buckets

A list of named buckets, to which things are added at the end of the bucket with a name, and
which is made if there is none. All that is in the buckets taken together is what was put into
them, and a bucket has what was put under its name.
-/

namespace DebianInstaller.Lib

variable {κ ν : Type}

/-- Buckets by their names. -/
abbrev Buckets (κ ν : Type) := List (κ × List ν)

namespace Buckets

def names (b : Buckets κ ν) : List κ := b.map Prod.fst

/-- All that is in them. -/
def items (b : Buckets κ ν) : List ν := b.flatMap Prod.snd

/-- A bucket with this name has this in it. -/
def Holds (b : Buckets κ ν) (k : κ) (x : ν) : Prop := ∃ e ∈ b, e.1 = k ∧ x ∈ e.2

variable {b : Buckets κ ν} {k k' : κ} {x y : ν} {ps : List (κ × ν)} {ks : List κ}

theorem holds_cons {e : κ × List ν} :
    Holds (e :: b) k x ↔ (e.1 = k ∧ x ∈ e.2) ∨ b.Holds k x := by
  simp [Holds]

theorem Holds.mem_items (h : b.Holds k x) : x ∈ b.items := by
  obtain ⟨e, he, -, hx⟩ := h
  exact List.mem_flatMap.mpr ⟨e, he, hx⟩

variable [DecidableEq κ]

/-- A bucket is made if there is none. -/
def touch (k : κ) (b : Buckets κ ν) : Buckets κ ν := if k ∈ b.names then b else b ++ [(k, [])]

def put (k : κ) (x : ν) : Buckets κ ν → Buckets κ ν
  | [] => [(k, [x])]
  | e :: b => if e.1 = k then (e.1, e.2 ++ [x]) :: b else e :: put k x b

def touchAll (ks : List κ) (b : Buckets κ ν) : Buckets κ ν := ks.foldl (fun b k => touch k b) b

def putAll (ps : List (κ × ν)) (b : Buckets κ ν) : Buckets κ ν :=
  ps.foldl (fun b p => put p.1 p.2 b) b

theorem items_put (k : κ) (x : ν) (b : Buckets κ ν) : (put k x b).items.Perm (x :: b.items) := by
  induction b with
  | nil => exact List.Perm.refl _
  | cons e b ih =>
      rw [put]
      split
      · change ((e.2 ++ [x]) ++ items b).Perm (x :: (e.2 ++ items b))
        rw [List.append_assoc]
        exact List.perm_middle
      · change (e.2 ++ (put k x b).items).Perm (x :: (e.2 ++ items b))
        exact (ih.append_left e.2).trans List.perm_middle

theorem holds_put : (put k x b).Holds k' y ↔ b.Holds k' y ∨ (k' = k ∧ y = x) := by
  induction b with
  | nil => simp [put, Holds, eq_comm]
  | cons e b ih =>
      rw [put]
      split
      · next hk =>
          rw [holds_cons, holds_cons, List.mem_append, List.mem_singleton]
          constructor
          · rintro (⟨he, hy | hy⟩ | hb)
            · exact .inl (.inl ⟨he, hy⟩)
            · exact .inr ⟨he.symm.trans hk, hy⟩
            · exact .inl (.inr hb)
          · rintro ((⟨he, hy⟩ | hb) | ⟨rfl, rfl⟩)
            · exact .inl ⟨he, .inl hy⟩
            · exact .inr hb
            · exact .inl ⟨hk, .inr rfl⟩
      · rw [holds_cons, holds_cons, ih, or_assoc]

theorem mem_names_put : k' ∈ (put k x b).names ↔ k' ∈ b.names ∨ k' = k := by
  induction b with
  | nil => simp [put, names]
  | cons e b ih =>
      rw [put]
      split
      · next hk =>
          refine ⟨.inl, ?_⟩
          rintro (h | rfl)
          · exact h
          · exact List.mem_map.mpr ⟨_, List.mem_cons_self, hk⟩
      · change k' ∈ e.1 :: (put k x b).names ↔ k' ∈ e.1 :: names b ∨ k' = k
        rw [List.mem_cons, List.mem_cons, ih, or_assoc]

theorem items_putAll (ps : List (κ × ν)) (b : Buckets κ ν) :
    (putAll ps b).items.Perm (b.items ++ ps.map Prod.snd) := by
  induction ps generalizing b with
  | nil =>
      rw [List.map_nil, List.append_nil]
      exact List.Perm.refl _
  | cons p ps ih =>
      refine (ih (put p.1 p.2 b)).trans ?_
      exact ((items_put p.1 p.2 b).append_right _).trans List.perm_middle.symm

theorem holds_putAll : (putAll ps b).Holds k x ↔ b.Holds k x ∨ (k, x) ∈ ps := by
  induction ps generalizing b with
  | nil => simp [putAll]
  | cons p ps ih =>
      change (putAll ps (put p.1 p.2 b)).Holds k x ↔ _
      rw [ih, holds_put, List.mem_cons, or_assoc, Prod.ext_iff]

theorem mem_names_putAll : k ∈ (putAll ps b).names ↔ k ∈ b.names ∨ k ∈ ps.map Prod.fst := by
  induction ps generalizing b with
  | nil => simp [putAll]
  | cons p ps ih =>
      change k ∈ (putAll ps (put p.1 p.2 b)).names ↔ _
      rw [ih, mem_names_put, List.map_cons, List.mem_cons, or_assoc]

theorem mem_names_touch : k' ∈ (touch k b).names ↔ k' ∈ b.names ∨ k' = k := by
  unfold touch
  split
  · next h =>
      refine ⟨.inl, ?_⟩
      rintro (h' | rfl)
      · exact h'
      · exact h
  · simp [names]

theorem items_touch : (touch k b).items = b.items := by
  unfold touch
  split
  · rfl
  · simp [items]

theorem mem_names_touchAll : k ∈ (touchAll ks b).names ↔ k ∈ b.names ∨ k ∈ ks := by
  induction ks generalizing b with
  | nil => simp [touchAll]
  | cons k' ks ih =>
      change k ∈ (touchAll ks (touch k' b)).names ↔ _
      rw [ih, mem_names_touch, List.mem_cons, or_assoc]

theorem items_touchAll : (touchAll ks b).items = b.items := by
  induction ks generalizing b with
  | nil => rfl
  | cons k' ks ih => exact (ih (b := touch k' b)).trans items_touch

end Buckets

end DebianInstaller.Lib
