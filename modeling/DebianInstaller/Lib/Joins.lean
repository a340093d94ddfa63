import Mathlib.Data.List.Dedup
import Mathlib.Data.List.Sort
import Mathlib.Data.List.TakeWhile

/-!
# Sorted files that are joined

Two sorted files are compared line by line: of the first, lines are passed over as long as
they are less than the key of the line of the second. So whether a line of the second has a
partner is found out in one pass, and it is right if both files are sorted by what is
compared. On this rest a join, the lines without a partner, and a closure that is computed by
joining again and again what the last round has added.
-/

namespace DebianInstaller.Lib

variable {α β : Type} [LinearOrder α]

variable {f list work : List α} {g : List β} {k : β → α}

/-- `sort`, by a key. -/
def sortBy (k : β → α) (l : List β) : List β := l.insertionSort (k · ≤ k ·)

/-- `sort -u`. -/
def sortUnique (l : List α) : List α := (sortBy id l).dedup

theorem mem_sortBy {l : List β} {x : β} : x ∈ sortBy k l ↔ x ∈ l :=
  (List.perm_insertionSort _ l).mem_iff

theorem sorted_sortBy (k : β → α) (l : List β) : (sortBy k l).Pairwise (k · ≤ k ·) :=
  haveI : Std.Total (α := β) (k · ≤ k ·) := ⟨fun a b => le_total (k a) (k b)⟩
  haveI : IsTrans β (k · ≤ k ·) := ⟨fun _ _ _ => le_trans⟩
  List.pairwise_insertionSort _ l

theorem mem_sortUnique {l : List α} {x : α} : x ∈ sortUnique l ↔ x ∈ l := by
  rw [sortUnique, List.mem_dedup, mem_sortBy]

theorem sorted_sortUnique (l : List α) : (sortUnique l).Pairwise (· ≤ ·) :=
  (sorted_sortBy id l).sublist (List.dedup_sublist _)

/-- Which lines of the second file have a partner in the first. -/
def pairing (k : β → α) : List α → List β → List (β × Bool)
  | _, [] => []
  | f, x :: g =>
      (x, (f.dropWhile (· < k x)).head? == some (k x)) ::
        pairing k (f.dropWhile (· < k x)) g

theorem head?_dropWhile_eq (hf : f.Pairwise (· ≤ ·)) (c : α) :
    (f.dropWhile (· < c)).head? = some c ↔ c ∈ f := by
  induction f with
  | nil => simp
  | cons a f ih =>
      rw [List.pairwise_cons] at hf
      by_cases ha : a < c
      · rw [List.dropWhile_cons_of_pos (by simpa using ha), ih hf.2, List.mem_cons]
        exact ⟨.inr, fun h => h.resolve_left ha.ne'⟩
      · rw [List.dropWhile_cons_of_neg (by simpa using ha), List.head?_cons, Option.some_inj,
          List.mem_cons]
        refine ⟨fun h => .inl h.symm, fun h => ?_⟩
        rcases h with rfl | h
        · rfl
        · exact le_antisymm (hf.1 c h) (not_lt.mp ha)

theorem mem_dropWhile_lt {a c : α} (hac : ¬ a < c) : a ∈ f.dropWhile (· < c) ↔ a ∈ f := by
  induction f with
  | nil => simp
  | cons b f ih =>
      by_cases hb : b < c
      · rw [List.dropWhile_cons_of_pos (by simpa using hb), ih, List.mem_cons]
        exact ⟨.inr, fun h => h.resolve_left fun hab => hac (hab ▸ hb)⟩
      · rw [List.dropWhile_cons_of_neg (by simpa using hb)]

theorem pairing_eq (hf : f.Pairwise (· ≤ ·)) (hg : g.Pairwise (k · ≤ k ·)) :
    pairing k f g = g.map fun x => (x, decide (k x ∈ f)) := by
  induction g generalizing f with
  | nil => rfl
  | cons x g ih =>
      rw [List.pairwise_cons] at hg
      have hdrop : (f.dropWhile (· < k x)).Pairwise (· ≤ ·) :=
        hf.sublist (List.dropWhile_sublist _)
      rw [pairing, ih hdrop hg.2, List.map_cons]
      congr 1
      · refine congrArg (Prod.mk x) ?_
        rw [Bool.eq_iff_iff, beq_iff_eq, decide_eq_true_iff]
        exact head?_dropWhile_eq hf (k x)
      · refine List.map_congr_left fun y hy => congrArg (Prod.mk y) ?_
        rw [Bool.eq_iff_iff, decide_eq_true_iff, decide_eq_true_iff]
        exact mem_dropWhile_lt (not_lt.mpr (hg.1 y hy))

/-- `join -o 2.2`. -/
def join (f : List α) (g : List (α × β)) : List β :=
  ((pairing Prod.fst f g).filter (·.2)).map (·.1.2)

/-- `join -v 2`, with the field of the second file that is compared; `comm -13` if that is
the whole line. -/
def unpaired (k : β → α) (f : List α) (g : List β) : List β :=
  ((pairing k f g).filter (!·.2)).map (·.1)

theorem mem_join (hf : f.Pairwise (· ≤ ·)) {g : List (α × β)} (hg : g.Pairwise (·.1 ≤ ·.1))
    (y : β) : y ∈ join f g ↔ ∃ x ∈ f, (x, y) ∈ g := by
  rw [join, pairing_eq hf hg]
  simp only [List.mem_map, List.mem_filter]
  constructor
  · rintro ⟨_, ⟨⟨p, hp, rfl⟩, hmem⟩, rfl⟩
    exact ⟨p.1, of_decide_eq_true hmem, hp⟩
  · rintro ⟨x, hx, hxy⟩
    exact ⟨((x, y), _), ⟨⟨(x, y), hxy, rfl⟩, decide_eq_true hx⟩, rfl⟩

theorem unpaired_eq (hf : f.Pairwise (· ≤ ·)) (hg : g.Pairwise (k · ≤ k ·)) :
    unpaired k f g = g.filter (k · ∉ f) := by
  rw [unpaired, pairing_eq hf hg, List.filter_map, List.map_map]
  have hmap : ((·.1) ∘ fun x => (x, decide (k x ∈ f)) : β → β) = id := rfl
  rw [hmap, List.map_id]
  exact List.filter_congr fun x _ => by simp

theorem mem_unpaired (hf : f.Pairwise (· ≤ ·)) (hg : g.Pairwise (k · ≤ k ·)) (x : β) :
    x ∈ unpaired k f g ↔ x ∈ g ∧ k x ∉ f := by
  rw [unpaired_eq hf hg, List.mem_filter, decide_eq_true_iff]

/-! ## A closure by joins -/

/-- Lines are joined to a list, and then to what was added, at most so often. -/
def closure (g : List (α × α)) : ℕ → List α → List α → Option (List α)
  | 0, _, _ => none
  | n + 1, list, work =>
      let new := unpaired id list (sortUnique (join work g))
      if new = [] then some list else closure g n (sortUnique (list ++ new)) new

theorem sorted_new (hlist : list.Pairwise (· ≤ ·)) (l : List α) :
    (unpaired id list (sortUnique l)).Pairwise (· ≤ ·) := by
  rw [unpaired_eq (k := id) hlist (sorted_sortUnique l)]
  exact (sorted_sortUnique l).filter _

section Closure

variable {g : List (α × α)} (hg : g.Pairwise (·.1 ≤ ·.1))

include hg

theorem mem_new (hlist : list.Pairwise (· ≤ ·)) (hwork : work.Pairwise (· ≤ ·)) (y : α) :
    y ∈ unpaired id list (sortUnique (join work g)) ↔ (∃ x ∈ work, (x, y) ∈ g) ∧ y ∉ list := by
  rw [mem_unpaired (k := id) hlist (sorted_sortUnique _), mem_sortUnique, mem_join hwork hg]
  rfl

/-- The list is closed but for what was added last. -/
theorem mem_closure {n : ℕ} {start r : List α} (hlist : list.Pairwise (· ≤ ·))
    (hwork : work.Pairwise (· ≤ ·)) (hsub : work ⊆ list)
    (hfrom : ∀ y ∈ list, ∃ x ∈ start, Relation.ReflTransGen (fun a b => (a, b) ∈ g) x y)
    (hstart : start ⊆ list) (hclosed : ∀ x ∈ list, x ∉ work → ∀ y, (x, y) ∈ g → y ∈ list)
    (h : closure g n list work = some r) :
    r.Pairwise (· ≤ ·) ∧
      ∀ y, y ∈ r ↔ ∃ x ∈ start, Relation.ReflTransGen (fun a b => (a, b) ∈ g) x y := by
  induction n generalizing list work with
  | zero => cases h
  | succ n ih =>
      rw [closure] at h
      split at h
      · next hnil =>
          obtain rfl := Option.some.inj h
          have hall : ∀ x ∈ list, ∀ y, (x, y) ∈ g → y ∈ list := by
            intro x hx y hxy
            by_cases hw : x ∈ work
            · by_contra hy
              have hmem := (mem_new hg hlist hwork y).mpr ⟨⟨x, hw, hxy⟩, hy⟩
              rw [hnil] at hmem
              cases hmem
            · exact hclosed x hx hw y hxy
          refine ⟨hlist, fun y => ⟨hfrom y, ?_⟩⟩
          rintro ⟨x, hx, hxy⟩
          induction hxy with
          | refl => exact hstart hx
          | tail _ hstep hmem => exact hall _ hmem _ hstep
      · have hnew := mem_new hg hlist hwork
        have hsorted := sorted_new hlist (join work g)
        generalize unpaired id list (sortUnique (join work g)) = new at h hnew hsorted
        refine ih (sorted_sortUnique _) hsorted ?_ ?_ ?_ ?_ h
        · exact fun y hy => mem_sortUnique.mpr (List.mem_append_right _ hy)
        · intro y hy
          rcases List.mem_append.mp (mem_sortUnique.mp hy) with hy | hy
          · exact hfrom y hy
          · obtain ⟨⟨x, hx, hxy⟩, -⟩ := (hnew y).mp hy
            obtain ⟨z, hz, hzx⟩ := hfrom x (hsub hx)
            exact ⟨z, hz, hzx.tail hxy⟩
        · exact fun x hx => mem_sortUnique.mpr (List.mem_append_left _ (hstart hx))
        · intro x hx hnx y hxy
          have hxl : x ∈ list := (List.mem_append.mp (mem_sortUnique.mp hx)).resolve_right hnx
          by_cases hy : y ∈ list
          · exact mem_sortUnique.mpr (List.mem_append_left _ hy)
          · by_cases hw : x ∈ work
            · exact mem_sortUnique.mpr (List.mem_append_right _ ((hnew y).mpr ⟨⟨x, hw, hxy⟩, hy⟩))
            · exact absurd (hclosed x hxl hw y hxy) hy

end Closure

end DebianInstaller.Lib
