import Mathlib.Data.Finset.Card

/-!
# Entries under keys

Lists of entries whose keys are told apart by an equivalence that a program computes.
As long as no two keys are equivalent, what is found under a key does not depend on the
order of the entries, and there are as many entries as classes of keys.
-/

namespace DebianInstaller.Lib

/-- An equivalence of keys. -/
structure KeyEq (κ : Type) where
  equal : κ → κ → Bool
  refl : ∀ a, equal a a = true
  symm : ∀ {a b}, equal a b = true → equal b a = true
  trans : ∀ {a b c}, equal a b = true → equal b c = true → equal a c = true

variable {κ ν : Type} (E : KeyEq κ)

namespace KeyEq

/-- The classes of keys. -/
def setoid : Setoid κ where
  r a b := E.equal a b = true
  iseqv := ⟨E.refl, E.symm, E.trans⟩

theorem equal_comm (a b : κ) : E.equal a b = E.equal b a :=
  Bool.eq_iff_iff.mpr ⟨E.symm, E.symm⟩

theorem equal_congr {a b : κ} (h : E.equal a b = true) (c : κ) : E.equal a c = E.equal b c :=
  Bool.eq_iff_iff.mpr ⟨E.trans (E.symm h), E.trans h⟩

open Classical in
/-- How many different keys there are in a list. -/
noncomputable def distinct (ks : List κ) : Nat :=
  (ks.map (Quotient.mk E.setoid)).toFinset.card

end KeyEq

namespace Entries

/-- No two keys are equivalent. -/
def Distinct (es : List (κ × ν)) : Prop := es.Pairwise fun a b => E.equal a.1 b.1 = false

/-- The value under a key. -/
def find (es : List (κ × ν)) (k : κ) : Option ν :=
  (es.find? fun e => E.equal e.1 k).map Prod.snd

/-- The value under a key is replaced, or an entry is added at the end. -/
def put (k : κ) (v : ν) : List (κ × ν) → List (κ × ν)
  | [] => [(k, v)]
  | e :: es => if E.equal e.1 k then (e.1, v) :: es else e :: put k v es

variable {E}

theorem Distinct.perm {es es' : List (κ × ν)} (hd : Distinct E es) (hp : es.Perm es') :
    Distinct E es' :=
  hp.pairwise hd fun h => (E.equal_comm _ _).trans h

theorem find_cons (e : κ × ν) (es : List (κ × ν)) (k : κ) :
    find E (e :: es) k = if E.equal e.1 k then some e.2 else find E es k := by
  rw [find, List.find?_cons]
  cases E.equal e.1 k <;> rfl

theorem find_eq_some {es : List (κ × ν)} (hd : Distinct E es) {k : κ} {v : ν} :
    find E es k = some v ↔ ∃ e ∈ es, E.equal e.1 k = true ∧ e.2 = v := by
  induction es with
  | nil => simp [find]
  | cons e es ih =>
      obtain ⟨he, hes⟩ := List.pairwise_cons.mp hd
      rw [find_cons]
      by_cases hk : E.equal e.1 k = true
      · rw [if_pos hk]
        constructor
        · intro h
          exact ⟨e, List.mem_cons_self, hk, Option.some.inj h⟩
        · rintro ⟨e', he', hk', rfl⟩
          rcases List.mem_cons.mp he' with rfl | he'
          · rfl
          · have := he e' he'
            rw [E.trans hk (E.symm hk')] at this
            cases this
      · rw [if_neg hk, ih hes]
        constructor
        · rintro ⟨e', he', h⟩
          exact ⟨e', List.mem_cons_of_mem _ he', h⟩
        · rintro ⟨e', he', hk', hv⟩
          rcases List.mem_cons.mp he' with rfl | he'
          · exact absurd hk' hk
          · exact ⟨e', he', hk', hv⟩

theorem find_isSome {es : List (κ × ν)} {k : κ} :
    (find E es k).isSome ↔ ∃ e ∈ es, E.equal e.1 k = true := by
  rw [find, Option.isSome_map, List.find?_isSome]

theorem find_congr {es es' : List (κ × ν)} (hd : Distinct E es) (hd' : Distinct E es') {k : κ}
    (h : ∀ e, E.equal e.1 k = true → (e ∈ es ↔ e ∈ es')) : find E es k = find E es' k := by
  refine Option.ext fun v => ?_
  rw [find_eq_some hd, find_eq_some hd']
  constructor
  · rintro ⟨e, he, hk, hv⟩
    exact ⟨e, (h e hk).mp he, hk, hv⟩
  · rintro ⟨e, he, hk, hv⟩
    exact ⟨e, (h e hk).mpr he, hk, hv⟩

theorem find_put (k k' : κ) (v : ν) (es : List (κ × ν)) :
    find E (put E k v es) k' = if E.equal k k' then some v else find E es k' := by
  induction es with
  | nil => rw [put, find_cons]
  | cons e es ih =>
      rw [put]
      by_cases hk : E.equal e.1 k = true
      · rw [if_pos hk, find_cons, find_cons, E.equal_congr hk]
        by_cases hk' : E.equal k k' = true
        · rw [if_pos hk', if_pos hk']
        · rw [if_neg hk', if_neg hk', if_neg hk']
      · rw [if_neg hk, find_cons, find_cons, ih]
        by_cases he : E.equal e.1 k' = true
        · have hkk' : E.equal k k' ≠ true := fun h => hk (E.trans he (E.symm h))
          rw [if_pos he, if_neg hkk', if_pos he]
        · rw [if_neg he, if_neg he]

theorem key_of_mem_put {k : κ} {v : ν} {es : List (κ × ν)} {e : κ × ν} (h : e ∈ put E k v es) :
    e.1 = k ∨ ∃ e' ∈ es, e'.1 = e.1 := by
  induction es with
  | nil =>
      rw [put, List.mem_singleton] at h
      exact .inl (congrArg Prod.fst h)
  | cons d es ih =>
      rw [put] at h
      split at h
      · rcases List.mem_cons.mp h with rfl | h
        · exact .inr ⟨d, List.mem_cons_self, rfl⟩
        · exact .inr ⟨e, List.mem_cons_of_mem _ h, rfl⟩
      · rcases List.mem_cons.mp h with rfl | h
        · exact .inr ⟨e, List.mem_cons_self, rfl⟩
        · rcases ih h with h | ⟨e', he', h⟩
          · exact .inl h
          · exact .inr ⟨e', List.mem_cons_of_mem _ he', h⟩

theorem Distinct.put {es : List (κ × ν)} (hd : Distinct E es) (k : κ) (v : ν) :
    Distinct E (put E k v es) := by
  induction es with
  | nil => exact List.pairwise_singleton _ _
  | cons e es ih =>
      obtain ⟨he, hes⟩ := List.pairwise_cons.mp hd
      rw [Entries.put]
      split
      · exact List.pairwise_cons.mpr ⟨he, hes⟩
      · next hk =>
          refine List.pairwise_cons.mpr ⟨fun e' he' => ?_, ih hes⟩
          rcases key_of_mem_put he' with h | ⟨e'', he'', h⟩
          · rw [h]
            exact Bool.not_eq_true _ ▸ hk
          · rw [← h]
            exact he e'' he''

theorem length_put (k : κ) (v : ν) (es : List (κ × ν)) :
    (put E k v es).length = es.length + if (find E es k).isSome then 0 else 1 := by
  induction es with
  | nil => rfl
  | cons e es ih =>
      rw [put, find_cons]
      by_cases hk : E.equal e.1 k = true
      · rw [if_pos hk, if_pos hk]
        rfl
      · rw [if_neg hk, if_neg hk, List.length_cons, ih, List.length_cons]
        omega

theorem length_eq_distinct {es : List (κ × ν)} (hd : Distinct E es) {ks : List κ}
    (h : ∀ k, (find E es k).isSome ↔ ∃ k' ∈ ks, E.equal k' k = true) :
    es.length = E.distinct ks := by
  classical
  have hnodup : (es.map fun e => Quotient.mk E.setoid e.1).Nodup := by
    refine List.pairwise_map.mpr (hd.imp fun hab e => ?_)
    have : E.equal _ _ = true := Quotient.exact e
    rw [hab] at this
    cases this
  have hset : (es.map fun e => Quotient.mk E.setoid e.1).toFinset =
      (ks.map (Quotient.mk E.setoid)).toFinset := by
    ext q
    induction q using Quotient.inductionOn with
    | h k =>
        simp only [List.mem_toFinset, List.mem_map]
        have hk := find_isSome.symm.trans (h k)
        constructor
        · rintro ⟨e, he, hq⟩
          obtain ⟨k', hk', hkk⟩ := hk.mp ⟨e, he, Quotient.exact hq⟩
          exact ⟨k', hk', Quotient.sound hkk⟩
        · rintro ⟨k', hk', hq⟩
          obtain ⟨e, he, hek⟩ := hk.mpr ⟨k', hk', Quotient.exact hq⟩
          exact ⟨e, he, Quotient.sound hek⟩
  have hcount := List.toFinset_card_of_nodup hnodup
  rw [List.length_map, hset] at hcount
  rw [KeyEq.distinct, ← hcount]

theorem countP_key {es : List (κ × ν)} (hd : Distinct E es) (k : κ) :
    es.countP (fun e => E.equal e.1 k) = if (find E es k).isSome then 1 else 0 := by
  induction es with
  | nil => rfl
  | cons e es ih =>
      obtain ⟨he, hes⟩ := List.pairwise_cons.mp hd
      rw [List.countP_cons, find_cons, ih hes]
      by_cases hk : E.equal e.1 k = true
      · have hnone : ¬ (find E es k).isSome := by
          rw [find_isSome]
          rintro ⟨e', he', hk'⟩
          have := he e' he'
          rw [E.trans hk (E.symm hk')] at this
          cases this
        simp [hk, hnone]
      · simp [hk]

end Entries

end DebianInstaller.Lib
