import DebianInstaller.PkgList.Lists
import Mathlib.Data.Set.Finite.Basic

/-!
# Packages with what they depend on

The search for dependencies looks at each package once, so it ends if only finitely many
packages have dependencies at all, whatever cycles these make. When it has looked at a
package, the package is covered: of each of its dependencies a package is collected, or the
choice is postponed. A choice that is made takes a set of alternatives away and may begin a
search, which either looks at a package with dependencies for the first time or postpones
nothing. So the call of `getlists` for the image type is right, provided that the reading of
the lists comes to an end, that is, that no list includes itself, directly or through others.
-/

namespace DebianInstaller.PkgList

open Lib Text

variable {D S : Finset Text} {P : Text → Prop} {deplist set : List Text} {k m n : ℕ}
  {line p type : Text} {rest : List (List Text)} {s s' : Collected}

namespace Env

variable {env : Env}

/-! ## What is required -/

/-- The lists that a list includes, the last one first. -/
def includes (env : Env) (list : Text) : List Text :=
  match env.file list with
  | none => []
  | some content => ((lines content).filterMap included).reverse.map ("pkg-lists/" ++ ·)

/-- The lists that are read for an image type. -/
def Reads (env : Env) (type list : Text) : Prop :=
  ∃ start ∈ env.initialLists type,
    Relation.ReflTransGen (fun a b => b ∈ env.includes a) start list

/-- A package that is listed for an image type, in a line that applies. -/
def Listed (env : Env) (type package : Text) : Prop :=
  ∃ list, env.Reads type list ∧ ∃ content, env.file list = some content ∧
    ∃ line ∈ lines content, ∃ entry ∈ env.entries line,
      env.applies entry = some package ∧ excluded package = none

/-- The listed packages are there, and one package for each dependency. -/
structure Complete (env : Env) (type : Text) (s : Collected) : Prop where
  listed : ∀ p, env.Listed type p → p ∈ s.collect
  closed : ∀ p ∈ s.collect, ∀ deplist ∈ env.pkgdeps p, ∃ d ∈ deplist, d ∈ s.collect

/-- No list that is read leads to itself. -/
def IncludesEnd (env : Env) (type : Text) : Prop :=
  ∀ list ∈ env.initialLists type, Acc (fun b a => b ∈ env.includes a) list

/-- The packages that the search may come upon: from a set of alternatives that none of the
collected packages is in, it takes the first. -/
inductive Visits (env : Env) (type : Text) : Text → Prop where
  | listed {p : Text} (h : env.Listed type p) : Visits env type p
  | step {q : Text} (h : Visits env type q) {deplist : List Text} (hd : deplist ∈ env.pkgdeps q) :
      Visits env type (deplist.headD [])

/-! ## What `apt-cache` says -/

theorem pkgdepsLoop_ne_nil (behind : Bool) (ls : List Text) :
    ∀ deplist ∈ env.pkgdepsLoop behind ls, deplist ≠ [] := by
  induction ls generalizing behind with
  | nil => simp [pkgdepsLoop]
  | cons line rest ih =>
      rw [pkgdepsLoop]
      split
      · exact ih true
      · split
        · exact ih false
        · split
          · dsimp only
            split
            · exact ih true
            · next hne =>
                intro deplist h
                rcases List.mem_cons.mp h with rfl | h
                · exact hne
                · exact ih true _ h
          · intro deplist h
            rcases List.mem_cons.mp h with rfl | h
            · exact List.cons_ne_nil _ _
            · exact ih false _ h

theorem pkgdeps_ne_nil (h : deplist ∈ env.pkgdeps p) : deplist ≠ [] :=
  pkgdepsLoop_ne_nil _ _ deplist h

theorem headD_mem (h : deplist ≠ []) : deplist.headD [] ∈ deplist := by
  cases deplist with
  | nil => exact absurd rfl h
  | cons d ds => exact List.mem_cons_self

/-! ## A search -/

/-- A dependency is met, or the choice is postponed. -/
def Met (s : Collected) (deplist : List Text) : Prop :=
  deplist ∈ s.postponed ∨ ∃ d ∈ deplist, d ∈ s.collect

/-- What a search does to the state. -/
structure Grows (env : Env) (s s' : Collected) : Prop where
  seendeps : s.seendeps ⊆ s'.seendeps
  collect : s.collect ⊆ s'.collect
  postponed : s.postponed ⊆ s'.postponed
  covered : ∀ q ∈ s'.seendeps, q ∉ s.seendeps → ∀ deplist ∈ env.pkgdeps q, Met s' deplist
  seen : ∀ q ∈ s'.collect, q ∉ s.collect → q ∈ s'.seendeps

theorem Grows.refl (s : Collected) : Grows env s s where
  seendeps := subset_rfl
  collect := subset_rfl
  postponed := fun _ => id
  covered := fun _ h hn => absurd h hn
  seen := fun _ h hn => absurd h hn

theorem Met.mono (h : Grows env s s') (hm : Met s deplist) : Met s' deplist := by
  rcases hm with hm | ⟨d, hd, hc⟩
  · exact .inl (h.postponed hm)
  · exact .inr ⟨d, hd, h.collect hc⟩

theorem Grows.trans {a b c : Collected} (hab : Grows env a b) (hbc : Grows env b c) :
    Grows env a c where
  seendeps := hab.seendeps.trans hbc.seendeps
  collect := hab.collect.trans hbc.collect
  postponed := fun _ h => hbc.postponed (hab.postponed h)
  covered := by
    intro q hq hqa deplist hd
    by_cases hqb : q ∈ b.seendeps
    · exact (hab.covered q hqb hqa deplist hd).mono hbc
    · exact hbc.covered q hq hqb deplist hd
  seen := by
    intro q hq hqa
    by_cases hqb : q ∈ b.collect
    · exact hbc.seendeps (hab.seen q hqb hqa)
    · exact hbc.seen q hq hqb

theorem grows_postpone (s : Collected) (deplist : List Text) :
    Grows env s (s.postpone deplist) where
  seendeps := subset_rfl
  collect := subset_rfl
  postponed := fun _ h => List.mem_cons_of_mem deplist h
  covered := fun _ h hn => absurd h hn
  seen := fun _ h hn => absurd h hn

theorem grows_leaveOut (s : Collected) (package : Text) : Grows env s (s.leaveOut package) where
  seendeps := subset_rfl
  collect := subset_rfl
  postponed := fun _ => id
  covered := fun _ h hn => absurd h hn
  seen := fun _ h hn => absurd h hn

theorem Grows.of_add (h : Grows env (s.add p) s') (hp : p ∈ s'.seendeps) : Grows env s s' where
  seendeps := h.seendeps
  collect := (Finset.subset_insert p s.collect).trans h.collect
  postponed := h.postponed
  covered := h.covered
  seen := by
    intro q hq hqs
    by_cases hqp : q = p
    · exact hqp ▸ hp
    · exact h.seen q hq fun hmem => (Finset.mem_insert.mp hmem).elim hqp hqs

/-- The search from a package, nested less deep. -/
def collectAll (env : Env) (n : ℕ) (s : Collected) (deplist : List Text) : Option Collected :=
  if deplist.length > 1 then some (s.postpone deplist)
  else env.collectdeps n (deplist.headD []) (s.add (deplist.headD []))

theorem collectdeps_succ (n : ℕ) (p : Text) (s : Collected) :
    env.collectdeps (n + 1) p s =
      if p ∈ s.seendeps then some s
      else (env.pkgdeps p).foldlM (env.collectAll n) (s.see p) := rfl

theorem collectdeps_seen (hp : p ∈ s.seendeps) (h : env.collectdeps n p s = some s') : s' = s := by
  cases n with
  | zero => cases h
  | succ n =>
      rw [collectdeps_succ, if_pos hp] at h
      exact (Option.some.inj h).symm

theorem collectdeps_grows (h : env.collectdeps n p s = some s') :
    Grows env s s' ∧ p ∈ s'.seendeps := by
  induction n generalizing p s s' with
  | zero => cases h
  | succ n ih =>
      by_cases hp : p ∈ s.seendeps
      · obtain rfl := collectdeps_seen hp h
        exact ⟨.refl _, hp⟩
      · rw [collectdeps_succ, if_neg hp] at h
        have hstep : ∀ deplist ∈ env.pkgdeps p, ∀ a b, env.collectAll n a deplist = some b →
            Grows env a b ∧ Met b deplist := by
          intro deplist hd a b hab
          rw [collectAll] at hab
          split at hab
          · obtain rfl := Option.some.inj hab
            exact ⟨grows_postpone a deplist, .inl List.mem_cons_self⟩
          · obtain ⟨hg, hseen⟩ := ih hab
            refine ⟨hg.of_add hseen, .inr ⟨_, headD_mem (pkgdeps_ne_nil hd), ?_⟩⟩
            exact hg.collect (Finset.mem_insert_self _ _)
        obtain ⟨hg, hmet⟩ := foldlM_rel Grows.refl Grows.trans (fun h hm => hm.mono h) hstep h
        have hps : p ∈ s'.seendeps := hg.seendeps (Finset.mem_insert_self p _)
        have hsub : s.seendeps ⊆ s'.seendeps := (Finset.subset_insert p _).trans hg.seendeps
        refine ⟨⟨hsub, hg.collect, hg.postponed, ?_, hg.seen⟩, hps⟩
        intro q hq hqs deplist hd
        by_cases hqp : q = p
        · subst hqp
          exact hmet deplist hd
        · exact hg.covered q hq (fun hmem => (Finset.mem_insert.mp hmem).elim hqp hqs) deplist hd

theorem collectdeps_mono (hnm : n ≤ m) (h : env.collectdeps n p s = some s') :
    env.collectdeps m p s = some s' := by
  induction n generalizing m p s s' with
  | zero => cases h
  | succ n ih =>
      obtain ⟨m, rfl⟩ : ∃ k, m = k + 1 := ⟨m - 1, by omega⟩
      rw [collectdeps_succ] at h ⊢
      split at h
      · next hp => rw [if_pos hp, h]
      · next hp =>
          rw [if_neg hp]
          refine foldlM_map (φ := id) (fun deplist _ a b hab => ?_) h
          change env.collectAll m a deplist = some b
          rw [collectAll] at hab ⊢
          split at hab
          · next hlong => rw [if_pos hlong, hab]
          · next hlong =>
              rw [if_neg hlong]
              exact ih (by omega) hab

/-- How many packages with dependencies are not looked at. -/
def unseen (D : Finset Text) (s : Collected) : ℕ := (D \ s.seendeps).card

theorem unseen_le (h : s.seendeps ⊆ s'.seendeps) : unseen D s' ≤ unseen D s :=
  Finset.card_le_card (Finset.sdiff_subset_sdiff subset_rfl h)

theorem unseen_lt (h : s.seendeps ⊆ s'.seendeps) (hD : p ∈ D) (hp : p ∉ s.seendeps)
    (hp' : p ∈ s'.seendeps) : unseen D s' < unseen D s := by
  refine Finset.card_lt_card (Finset.ssubset_iff_of_subset
    (Finset.sdiff_subset_sdiff subset_rfl h) |>.mpr ⟨p, ?_, ?_⟩)
  · exact Finset.mem_sdiff.mpr ⟨hD, hp⟩
  · exact fun hmem => (Finset.mem_sdiff.mp hmem).2 hp'

/-! ## The postponed choices -/

/-- What holds between the steps of `getlists`, with what the table had at its beginning. -/
structure Inv (env : Env) (S : Finset Text) (s : Collected) : Prop where
  covered : ∀ q ∈ s.seendeps, q ∉ S → ∀ deplist ∈ env.pkgdeps q, Met s deplist
  seen : ∀ q ∈ s.collect, q ∈ s.seendeps

theorem Inv.grows (h : Inv env S s) (hg : Grows env s s') :
    Inv env S s' where
  covered := by
    intro q hq hS deplist hd
    by_cases hqs : q ∈ s.seendeps
    · exact (h.covered q hqs hS deplist hd).mono hg
    · exact hg.covered q hq hqs deplist hd
  seen := by
    intro q hq
    by_cases hqs : q ∈ s.collect
    · exact hg.seendeps (h.seen q hqs)
    · exact hg.seen q hq hqs

theorem Inv.pop (h : Inv env S s) (hs : s.postponed = set :: rest)
    (hmet : ∃ d ∈ set, d ∈ s.collect) :
    Inv env S { s with postponed := rest } where
  covered := by
    intro q hq hS deplist hd
    rcases h.covered q hq hS deplist hd with hmem | hc
    · rw [hs] at hmem
      rcases List.mem_cons.mp hmem with rfl | hmem
      · exact .inr hmet
      · exact .inl hmem
    · exact .inr hc
  seen := h.seen

theorem choose_inv (hI : Inv env S s) (hs : s.postponed = set :: rest) (hne : set ≠ [])
    (h : env.collectdeps n (set.headD [])
      ({ s with postponed := rest }.add (set.headD [])) = some s') : Inv env S s' := by
  obtain ⟨hg, hseen⟩ := collectdeps_grows h
  have hhead : set.headD [] ∈ s'.collect := hg.collect (Finset.mem_insert_self _ _)
  constructor
  · intro q hq hS deplist hd
    by_cases hqs : q ∈ s.seendeps
    · rcases hI.covered q hqs hS deplist hd with hmem | ⟨d, hd, hc⟩
      · rw [hs] at hmem
        rcases List.mem_cons.mp hmem with rfl | hmem
        · exact .inr ⟨_, headD_mem hne, hhead⟩
        · exact .inl (hg.postponed hmem)
      · exact .inr ⟨d, hd, hg.collect (Finset.mem_insert_of_mem hc)⟩
    · exact hg.covered q hq hqs deplist hd
  · intro q hq
    by_cases hqs : q ∈ s.collect
    · exact hg.seendeps (hI.seen q hqs)
    · exact (hg.of_add hseen).seen q hq hqs

/-- Everything that is come upon has the property `P`, the table of the beginning apart. -/
structure Within (env : Env) (P : Text → Prop) (S : Finset Text) (s : Collected) : Prop where
  seendeps : ∀ q ∈ s.seendeps, q ∈ S ∨ P q
  collect : ∀ q ∈ s.collect, P q
  posed : ∀ deplist ∈ s.postponed, ∃ q, P q ∧ deplist ∈ env.pkgdeps q

section Within

theorem Within.add (h : Within env P S s) (hp : P p) :
    Within env P S (s.add p) where
  seendeps := h.seendeps
  collect := by
    intro q hq
    rcases Finset.mem_insert.mp hq with rfl | hq
    · exact hp
    · exact h.collect q hq
  posed := h.posed

theorem Within.see (h : Within env P S s) (hp : P p) :
    Within env P S (s.see p) where
  seendeps := by
    intro q hq
    rcases Finset.mem_insert.mp hq with rfl | hq
    · exact .inr hp
    · exact h.seendeps q hq
  collect := h.collect
  posed := h.posed

theorem Within.pop (h : Within env P S s) (hs : s.postponed = set :: rest) :
    Within env P S { s with postponed := rest } where
  seendeps := h.seendeps
  collect := h.collect
  posed := fun deplist hd => h.posed deplist (hs ▸ List.mem_cons_of_mem set hd)

theorem Within.ne_nil (h : Within env P S s) (hs : s.postponed = set :: rest) : set ≠ [] := by
  obtain ⟨q, -, hq⟩ := h.posed set (hs ▸ List.mem_cons_self)
  exact pkgdeps_ne_nil hq

theorem collectdeps_within
    (hP : ∀ q, P q → ∀ deplist ∈ env.pkgdeps q, deplist.length ≤ 1 → P (deplist.headD []))
    (hp : P p) (hs : Within env P S s) (h : env.collectdeps n p s = some s') :
    Within env P S s' := by
  induction n generalizing p s s' with
  | zero => cases h
  | succ n ih =>
      rw [collectdeps_succ] at h
      split at h
      · obtain rfl := Option.some.inj h
        exact hs
      · refine foldlM_inv (fun deplist hd a b ha hab => ?_) (hs.see hp) h
        rw [collectAll] at hab
        split at hab
        · obtain rfl := Option.some.inj hab
          refine ⟨ha.seendeps, ha.collect, fun l hl => ?_⟩
          rcases List.mem_cons.mp hl with rfl | hl
          · exact ⟨p, hp, hd⟩
          · exact ha.posed l hl
        · next hlong =>
            have hhead := hP p hp deplist hd (by omega)
            exact ih hhead (ha.add hhead) hab

end Within

section Ends

variable (hD : ∀ p, P p → env.pkgdeps p ≠ [] → p ∈ D)

include hD

theorem collectdeps_total
    (hP : ∀ q, P q → ∀ deplist ∈ env.pkgdeps q, deplist.length ≤ 1 → P (deplist.headD []))
    (hp : P p) (hn : unseen D s < n) :
    ∃ s', env.collectdeps n p s = some s' := by
  induction n generalizing p s with
  | zero => omega
  | succ n ih =>
      rw [collectdeps_succ]
      split
      · exact ⟨s, rfl⟩
      · next hnew =>
          by_cases hdeps : env.pkgdeps p = []
          · exact ⟨s.see p, by rw [hdeps]; rfl⟩
          · have hlt : unseen D (s.see p) < unseen D s :=
              unseen_lt (Finset.subset_insert p _) (hD p hp hdeps) hnew
                (Finset.mem_insert_self p _)
            have hstep : ∀ deplist ∈ env.pkgdeps p, ∀ a, unseen D a < n →
                ∃ b, env.collectAll n a deplist = some b ∧ unseen D b < n := by
              intro deplist hd a ha
              rw [collectAll]
              split
              · exact ⟨_, rfl, ha⟩
              · obtain ⟨b, hb⟩ := ih (hP p hp deplist hd (by omega))
                  (s := a.add (deplist.headD [])) ha
                exact ⟨b, hb, (unseen_le (collectdeps_grows hb).1.seendeps).trans_lt ha⟩
            obtain ⟨s', hs', -⟩ := foldlM_total hstep (s := s.see p) (by omega)
            exact ⟨s', hs'⟩

/-- A search looks at a package with dependencies for the first time, or it postpones
nothing. -/
theorem collectdeps_progress (hp : P p) (h : env.collectdeps n p s = some s') :
    unseen D s' < unseen D s ∨ unseen D s' ≤ unseen D s ∧ s'.postponed = s.postponed := by
  have hg := collectdeps_grows h
  cases n with
  | zero => cases h
  | succ n =>
      rw [collectdeps_succ] at h
      split at h
      · obtain rfl := Option.some.inj h
        exact .inr ⟨le_rfl, rfl⟩
      · next hnew =>
          by_cases hdeps : env.pkgdeps p = []
          · rw [hdeps] at h
            obtain rfl : s.see p = s' := by simpa using h
            exact .inr ⟨unseen_le (Finset.subset_insert p _), rfl⟩
          · exact .inl (unseen_lt hg.1.seendeps (hD p hp hdeps) hnew hg.2)

end Ends

theorem satisfy_nil (hs : s.postponed = []) : env.satisfy n (k + 1) s = some s := by
  rw [satisfy]
  split
  · rfl
  · next h => rw [hs] at h; cases h

theorem satisfy_cons (hs : s.postponed = set :: rest) :
    env.satisfy n (k + 1) s =
      if set.any (· ∈ s.collect) then env.satisfy n k { s with postponed := rest }
      else (env.collectdeps n (set.headD [])
        ({ s with postponed := rest }.add (set.headD []))).bind (env.satisfy n k) := by
  rw [satisfy]
  split
  · next h => rw [hs] at h; cases h
  · next set' rest' h =>
      rw [hs] at h
      cases h
      rfl

theorem any_mem_iff :
    set.any (· ∈ s.collect) ↔ ∃ d ∈ set, d ∈ s.collect := by simp

theorem satisfy_spec (hP : ∀ q, P q → ∀ deplist ∈ env.pkgdeps q, P (deplist.headD []))
    (hI : Inv env S s) (hW : Within env P S s) (h : env.satisfy n k s = some s') :
    Inv env S s' ∧ Within env P S s' ∧ s'.postponed = [] ∧ s.collect ⊆ s'.collect := by
  induction k generalizing s with
  | zero => cases h
  | succ k ih =>
      cases hs : s.postponed with
      | nil =>
          rw [satisfy_nil hs] at h
          obtain rfl := Option.some.inj h
          exact ⟨hI, hW, hs, subset_rfl⟩
      | cons set rest =>
          rw [satisfy_cons hs] at h
          split at h
          · next hmet =>
              exact ih (s := { s with postponed := rest }) (hI.pop hs (any_mem_iff.mp hmet))
                (hW.pop hs) h
          · obtain ⟨mid, hmid, hrest⟩ := Option.bind_eq_some_iff.mp h
            obtain ⟨q, hq, hd⟩ := hW.posed set (hs ▸ List.mem_cons_self)
            have hhead := hP q hq set hd
            have hW' := collectdeps_within (fun q hq l hl _ => hP q hq l hl) hhead
              ((hW.pop hs).add hhead) hmid
            obtain ⟨hI', hW'', hnil, hc⟩ := ih (choose_inv hI hs (hW.ne_nil hs) hmid) hW' hrest
            refine ⟨hI', hW'', hnil, fun x hx => hc ?_⟩
            exact (collectdeps_grows hmid).1.collect (Finset.mem_insert_of_mem hx)

theorem satisfy_met (hmet : ∀ deplist ∈ s.postponed, ∃ d ∈ deplist, d ∈ s.collect)
    (h : env.satisfy n k s = some s') : s'.collect = s.collect := by
  induction k generalizing s with
  | zero => cases h
  | succ k ih =>
      cases hs : s.postponed with
      | nil =>
          rw [satisfy_nil hs] at h
          rw [Option.some.inj h]
      | cons set rest =>
          rw [hs] at hmet
          rw [satisfy_cons hs, if_pos (any_mem_iff.mpr (hmet set List.mem_cons_self))] at h
          exact ih (s := { s with postponed := rest })
            (fun l hl => hmet l (List.mem_cons_of_mem set hl)) h

theorem satisfy_mono {j : ℕ} (hnm : n ≤ m) (hkj : k ≤ j) (h : env.satisfy n k s = some s') :
    env.satisfy m j s = some s' := by
  induction k generalizing j s with
  | zero => cases h
  | succ k ih =>
      obtain ⟨j, rfl⟩ : ∃ i, j = i + 1 := ⟨j - 1, by omega⟩
      cases hs : s.postponed with
      | nil => rwa [satisfy_nil hs] at h ⊢
      | cons set rest =>
          rw [satisfy_cons hs] at h ⊢
          split at h
          · next hmet =>
              rw [if_pos hmet]
              exact ih (by omega) h
          · next hmet =>
              obtain ⟨mid, hmid, hrest⟩ := Option.bind_eq_some_iff.mp h
              rw [if_neg hmet, collectdeps_mono hnm hmid]
              exact ih (by omega) hrest

theorem satisfy_total (hD : ∀ p, P p → env.pkgdeps p ≠ [] → p ∈ D)
    (hP : ∀ q, P q → ∀ deplist ∈ env.pkgdeps q, P (deplist.headD [])) (hn : D.card < n)
    (hW : Within env P S s) : ∃ k s', env.satisfy n k s = some s' := by
  have hcard : ∀ s, unseen D s < n := fun s =>
    (Finset.card_le_card Finset.sdiff_subset).trans_lt hn
  induction hu : unseen D s using Nat.strong_induction_on generalizing s with
  | _ u ihu =>
      induction hl : s.postponed.length using Nat.strong_induction_on generalizing s with
      | _ l ihl =>
          cases hs : s.postponed with
          | nil => exact ⟨1, s, satisfy_nil hs⟩
          | cons set rest =>
              have hlt : rest.length < l := by rw [← hl, hs]; exact Nat.lt_succ_self _
              by_cases hmet : set.any (· ∈ s.collect)
              · obtain ⟨k, s', h⟩ := ihl _ hlt (hW.pop hs) hu rfl
                exact ⟨k + 1, s', by rw [satisfy_cons hs, if_pos hmet, h]⟩
              · obtain ⟨q, hq, hd⟩ := hW.posed set (hs ▸ List.mem_cons_self)
                have hhead := hP q hq set hd
                have hP' := fun q hq l hl (_ : l.length ≤ 1) => hP q hq l hl
                obtain ⟨mid, hmid⟩ := collectdeps_total hD hP' hhead
                  (hcard ({ s with postponed := rest }.add (set.headD [])))
                have hW' := collectdeps_within hP' hhead ((hW.pop hs).add hhead) hmid
                have hrest : ∃ k s', env.satisfy n k mid = some s' := by
                  rcases collectdeps_progress hD hhead hmid with hlt' | ⟨hle, hpost⟩
                  · exact ihu _ (hu ▸ hlt') hW' rfl
                  · rcases hle.lt_or_eq with hlt' | heq
                    · exact ihu _ (hu ▸ hlt') hW' rfl
                    · exact ihl _ (by rw [hpost]; exact hlt) hW' (heq.trans hu) rfl
                obtain ⟨k, s', h⟩ := hrest
                exact ⟨k + 1, s', by rw [satisfy_cons hs, if_neg hmet, hmid]; exact h⟩

/-! ## The lists -/

/-- What a list collects, line by line. -/
def entriesOf (env : Env) (list : Text) : List Text :=
  match env.file list with
  | none => []
  | some content => (lines content).flatMap env.entries

theorem readLine_fold (n : ℕ) (ls lists : List Text) (s : Collected) :
    ls.foldlM (env.readLine n) (lists, s) =
      ((ls.flatMap env.entries).foldlM (env.collectpackage n) s).map fun s' =>
        ((ls.filterMap included).reverse.map ("pkg-lists/".toList ++ ·) ++ lists, s') := by
  induction ls generalizing lists s with
  | nil => rfl
  | cons line ls ih =>
      rw [List.foldlM_cons, List.flatMap_cons, List.foldlM_append, readLine]
      cases (env.entries line).foldlM (env.collectpackage n) s with
      | none => rfl
      | some mid =>
          simp only [Option.bind_eq_bind, Option.bind_some, Option.pure_def, ih]
          cases hi : included line with
          | none => rw [List.filterMap_cons_none hi]
          | some list =>
              rw [List.filterMap_cons_some hi]
              simp

theorem readLists_eq (n k : ℕ) (lists : List Text) (s : Collected) :
    env.readLists n k lists s =
      (order env.includes k lists).bind fun o =>
        (o.flatMap env.entriesOf).foldlM (env.collectpackage n) s := by
  induction k generalizing lists s with
  | zero => rfl
  | succ k ih =>
      cases lists with
      | nil => rfl
      | cons list lists =>
          rw [readLists, order, Option.bind_map]
          cases hf : env.file list with
          | none =>
              have hi : env.includes list = [] := by rw [includes, hf]
              have he : env.entriesOf list = [] := by rw [entriesOf, hf]
              simp only [ih, hi, List.nil_append]
              congr 1
              funext o
              rw [Function.comp_apply, List.flatMap_cons, he, List.nil_append]
          | some content =>
              have hi : env.includes list =
                  ((lines content).filterMap included).reverse.map ("pkg-lists/".toList ++ ·) := by
                rw [includes, hf]
              have he : env.entriesOf list = (lines content).flatMap env.entries := by
                rw [entriesOf, hf]
              simp only [readLine_fold, ← hi, ← he, Option.bind_eq_bind, Option.bind_map]
              cases ho : order env.includes k (env.includes list ++ lists) with
              | none =>
                  cases (env.entriesOf list).foldlM (env.collectpackage n) s with
                  | none => rfl
                  | some mid => simp [ih, ho]
              | some o =>
                  simp only [Option.bind_some, Function.comp_apply, List.flatMap_cons,
                    List.foldlM_append]
                  cases (env.entriesOf list).foldlM (env.collectpackage n) s with
                  | none => rfl
                  | some mid => simp [ih, ho]

/-- A line that names a package to be collected. -/
def Names (env : Env) (line package : Text) : Prop :=
  env.applies line = some package ∧ excluded package = none

theorem collectpackage_cases (n : ℕ) (s : Collected) (line : Text) :
    (env.collectpackage n s line = some s ∧ ∀ p, ¬ env.Names line p) ∨
      (∃ p, env.collectpackage n s line = some (s.leaveOut p) ∧ ∀ p, ¬ env.Names line p) ∨
      ∃ p, env.Names line p ∧ env.collectpackage n s line = env.collectdeps n p (s.add p) := by
  rw [collectpackage]
  cases ha : env.applies line with
  | none => exact .inl ⟨rfl, fun p hp => by rw [hp.1] at ha; cases ha⟩
  | some l =>
      dsimp only
      cases hx : excluded l with
      | some p =>
          refine .inr (.inl ⟨p, rfl, fun q hq => ?_⟩)
          obtain rfl : l = q := Option.some.inj (ha.symm.trans hq.1)
          rw [hq.2] at hx
          cases hx
      | none => exact .inr (.inr ⟨l, ⟨ha, hx⟩, rfl⟩)

theorem collectpackage_grows (h : env.collectpackage n s line = some s') :
    Grows env s s' ∧ ∀ p, env.Names line p → p ∈ s'.collect := by
  rcases collectpackage_cases n s line with ⟨he, hno⟩ | ⟨q, he, hno⟩ | ⟨q, hq, he⟩
  · obtain rfl := Option.some.inj (he.symm.trans h)
    exact ⟨.refl _, fun p hp => absurd hp (hno p)⟩
  · obtain rfl := Option.some.inj (he.symm.trans h)
    exact ⟨grows_leaveOut s q, fun p hp => absurd hp (hno p)⟩
  · rw [he] at h
    obtain ⟨hg, hseen⟩ := collectdeps_grows h
    refine ⟨hg.of_add hseen, fun p hp => ?_⟩
    obtain rfl : q = p := Option.some.inj (hq.1.symm.trans hp.1)
    exact hg.collect (Finset.mem_insert_self _ _)

theorem collectpackage_within
    (hP : ∀ q, P q → ∀ deplist ∈ env.pkgdeps q, deplist.length ≤ 1 → P (deplist.headD []))
    (hline : ∀ p, env.Names line p → P p) (hs : Within env P S s)
    (h : env.collectpackage n s line = some s') : Within env P S s' := by
  rcases collectpackage_cases n s line with ⟨he, -⟩ | ⟨q, he, -⟩ | ⟨q, hq, he⟩
  · obtain rfl := Option.some.inj (he.symm.trans h)
    exact hs
  · obtain rfl := Option.some.inj (he.symm.trans h)
    exact ⟨hs.seendeps, hs.collect, hs.posed⟩
  · exact collectdeps_within hP (hline q hq) (hs.add (hline q hq)) (he.symm.trans h)

theorem collectpackage_mono (hnm : n ≤ m) (h : env.collectpackage n s line = some s') :
    env.collectpackage m s line = some s' := by
  rw [collectpackage] at h ⊢
  split at h
  · exact h
  · split at h
    · exact h
    · exact collectdeps_mono hnm h

theorem collectpackage_total (hD : ∀ p, P p → env.pkgdeps p ≠ [] → p ∈ D)
    (hP : ∀ q, P q → ∀ deplist ∈ env.pkgdeps q, deplist.length ≤ 1 → P (deplist.headD []))
    (hn : D.card < n) (s : Collected) (hline : ∀ p, env.Names line p → P p) :
    ∃ s', env.collectpackage n s line = some s' := by
  rcases collectpackage_cases n s line with ⟨he, -⟩ | ⟨q, he, -⟩ | ⟨q, hq, he⟩
  · exact ⟨_, he⟩
  · exact ⟨_, he⟩
  · rw [he]
    exact collectdeps_total hD hP (hline q hq)
      ((Finset.card_le_card Finset.sdiff_subset).trans_lt hn)

/-! ## A call of `getlists` -/

theorem mem_entriesOf {o : List Text} (ho : order env.includes n (env.initialLists type) = some o)
    (p : Text) : env.Listed type p ↔ ∃ line ∈ o.flatMap env.entriesOf, env.Names line p := by
  have hentry : ∀ list line, line ∈ env.entriesOf list ↔
      ∃ content, env.file list = some content ∧ ∃ l ∈ lines content, line ∈ env.entries l := by
    intro list line
    rw [entriesOf]
    split
    · next h => simp [h]
    · next content h => simp [h]
  constructor
  · rintro ⟨list, hlist, content, hfile, l, hl, line, hline, hp⟩
    refine ⟨line, List.mem_flatMap.mpr ⟨list, (mem_order _ ho list).mpr hlist, ?_⟩, hp⟩
    exact (hentry list line).mpr ⟨content, hfile, l, hl, hline⟩
  · rintro ⟨line, hmem, hp⟩
    obtain ⟨list, hlist, hline⟩ := List.mem_flatMap.mp hmem
    obtain ⟨content, hfile, l, hl, hline⟩ := (hentry list line).mp hline
    exact ⟨list, (mem_order _ ho list).mp hlist, content, hfile, l, hl, line, hline, hp⟩

theorem getlists_eq_some :
    env.getlists n type S = some s ↔
      ∃ o mid, order env.includes n (env.initialLists type) = some o ∧
        (o.flatMap env.entriesOf).foldlM (env.collectpackage n) { seendeps := S } = some mid ∧
        env.satisfy n n mid = some s := by
  rw [getlists, readLists_eq]
  constructor
  · intro h
    obtain ⟨mid, hmid, hs⟩ := Option.bind_eq_some_iff.mp h
    obtain ⟨o, ho, hfold⟩ := Option.bind_eq_some_iff.mp hmid
    exact ⟨o, mid, ho, hfold, hs⟩
  · rintro ⟨o, mid, ho, hfold, hs⟩
    rw [ho]
    exact Option.bind_eq_some_iff.mpr ⟨mid, hfold, hs⟩

theorem order_mono (hnm : n ≤ m) {stack o : List Text} (h : order env.includes n stack = some o) :
    order env.includes m stack = some o := by
  induction hnm with
  | refl => exact h
  | step _ ih => exact order_succ _ ih

theorem getlists_mono (hnm : n ≤ m) (h : env.getlists n type S = some s) :
    env.getlists m type S = some s := by
  obtain ⟨o, mid, ho, hfold, hs⟩ := getlists_eq_some.mp h
  refine getlists_eq_some.mpr ⟨o, mid, order_mono hnm ho, ?_, satisfy_mono hnm hnm hs⟩
  exact foldlM_map (φ := id) (fun line _ a b hab => collectpackage_mono hnm hab) hfold

theorem getlists_unique (h : env.getlists n type S = some s)
    (h' : env.getlists m type S = some s') : s = s' := by
  have hmax := getlists_mono (le_max_left n m) h
  rw [getlists_mono (le_max_right n m) h'] at hmax
  exact (Option.some.inj hmax).symm

/-- What a call leaves behind, with a table that need not be empty at its beginning. -/
structure Result (env : Env) (type : Text) (S : Finset Text) (s : Collected) : Prop where
  listed : ∀ p, env.Listed type p → p ∈ s.collect
  closed : ∀ q ∈ s.seendeps, q ∉ S → ∀ deplist ∈ env.pkgdeps q, ∃ d ∈ deplist, d ∈ s.collect
  seen : ∀ q ∈ s.collect, q ∈ s.seendeps
  visits : ∀ q ∈ s.seendeps, q ∈ S ∨ env.Visits type q

theorem visits_head : ∀ q, env.Visits type q → ∀ deplist ∈ env.pkgdeps q,
    env.Visits type (deplist.headD []) := fun _ hq _ hd => hq.step hd

theorem within_start (P : Text → Prop) (S : Finset Text) : Within env P S { seendeps := S } where
  seendeps := fun _ => .inl
  collect := fun q hq => absurd hq (Finset.notMem_empty q)
  posed := fun _ hl => absurd hl List.not_mem_nil

theorem inv_start (S : Finset Text) : Inv env S { seendeps := S } where
  covered := fun _ hq hS => absurd hq hS
  seen := fun q hq => absurd hq (Finset.notMem_empty q)

theorem fold_grows {ls : List Text} (h : ls.foldlM (env.collectpackage n) s = some s') :
    Grows env s s' ∧ ∀ line ∈ ls, ∀ p, env.Names line p → p ∈ s'.collect :=
  foldlM_rel (Q := fun line s => ∀ p, env.Names line p → p ∈ s.collect) Grows.refl Grows.trans
    (fun hg hp p hn => hg.collect (hp p hn)) (fun _ _ _ _ hab => collectpackage_grows hab) h

theorem fold_within
    (hP : ∀ q, P q → ∀ deplist ∈ env.pkgdeps q, deplist.length ≤ 1 → P (deplist.headD []))
    {ls : List Text} (hls : ∀ line ∈ ls, ∀ p, env.Names line p → P p) (hs : Within env P S s)
    (h : ls.foldlM (env.collectpackage n) s = some s') : Within env P S s' :=
  foldlM_inv (fun line hline _ _ ha hab => collectpackage_within hP (hls line hline) ha hab) hs h

theorem getlists_isSome_iff (hfin : {p | env.Visits type p ∧ env.pkgdeps p ≠ []}.Finite)
    (S : Finset Text) : (∃ n s, env.getlists n type S = some s) ↔ env.IncludesEnd type := by
  rw [IncludesEnd, ← order_isSome_iff]
  constructor
  · rintro ⟨n, s, h⟩
    obtain ⟨o, mid, ho, -⟩ := getlists_eq_some.mp h
    exact ⟨n, by rw [ho]; rfl⟩
  · rintro ⟨n, hn⟩
    obtain ⟨o, ho⟩ := Option.isSome_iff_exists.mp hn
    have hD : ∀ p, env.Visits type p → env.pkgdeps p ≠ [] → p ∈ hfin.toFinset :=
      fun p hp hdeps => hfin.mem_toFinset.mpr ⟨hp, hdeps⟩
    have hP : ∀ q, env.Visits type q → ∀ l ∈ env.pkgdeps q, l.length ≤ 1 →
        env.Visits type (l.headD []) := fun q hq l hl _ => visits_head q hq l hl
    have hline : ∀ line ∈ o.flatMap env.entriesOf, ∀ p, env.Names line p → env.Visits type p :=
      fun line hline p hp => .listed ((mem_entriesOf ho p).mpr ⟨line, hline, hp⟩)
    have hcard := Nat.lt_succ_self hfin.toFinset.card
    obtain ⟨mid, hfold, -⟩ := foldlM_total (I := fun _ => True) (l := o.flatMap env.entriesOf)
      (fun line hl a _ => (collectpackage_total hD hP hcard a (hline line hl)).imp
        fun b hb => ⟨hb, trivial⟩)
      (s := { seendeps := S }) trivial
    have hW := fold_within hP hline (within_start _ S) hfold
    obtain ⟨k, s, hs⟩ := satisfy_total hD visits_head hcard hW
    let m := max n (max (hfin.toFinset.card + 1) k)
    refine ⟨m, s, getlists_eq_some.mpr ⟨o, mid, order_mono (le_max_left _ _) ho, ?_, ?_⟩⟩
    · have hm : hfin.toFinset.card + 1 ≤ m := (le_max_left _ _).trans (le_max_right _ _)
      exact foldlM_map (φ := id) (fun line _ a b hab => collectpackage_mono hm hab) hfold
    · exact satisfy_mono ((le_max_left _ _).trans (le_max_right _ _))
        ((le_max_right _ _).trans (le_max_right _ _)) hs

theorem getlists_result (h : env.getlists n type S = some s) : Result env type S s := by
  obtain ⟨o, mid, ho, hfold, hs⟩ := getlists_eq_some.mp h
  obtain ⟨hg, hnamed⟩ := fold_grows hfold
  have hW : Within env (env.Visits type) S mid :=
    fold_within (fun q hq l hl _ => visits_head q hq l hl)
      (fun line hline p hp => .listed ((mem_entriesOf ho p).mpr ⟨line, hline, hp⟩))
      (within_start _ S) hfold
  obtain ⟨hI, hW', hnil, hc⟩ := satisfy_spec visits_head ((inv_start S).grows hg) hW hs
  refine ⟨fun p hp => ?_, fun q hq hqS l hl => ?_, hI.seen, hW'.seendeps⟩
  · obtain ⟨line, hline, hn⟩ := (mem_entriesOf ho p).mp hp
    exact hc (hnamed line hline p hn)
  · rcases hI.covered q hq hqS l hl with hmem | hmet
    · rw [hnil] at hmem
      cases hmem
    · exact hmet

theorem getlists_complete (h : env.getlists n type ∅ = some s) : env.Complete type s := by
  have hr := getlists_result h
  exact ⟨hr.listed, fun p hp => hr.closed p (hr.seen p hp) (Finset.notMem_empty p)⟩

end Env

end DebianInstaller.PkgList
