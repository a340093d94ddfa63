import DebianInstaller.Preseed.Locations
import Mathlib.Data.Bool.AllAny

/-!
# What is fetched for a list

A run opens list after list, some of them while it is still at work on others. Each call of
`preseed_fetch` is made for one of them. However the calls are nested, what is fetched for a list
is what is cut from its own checksums, location by location.

What is cut is right as long as there is another checksum to go on to. The last one stays, so
the list is given what it should be if it has no checksums, or enough for all its locations.
-/

namespace DebianInstaller.Preseed

variable {W : Type} (sys : System W)

variable {given : List (Text × Text)} {o : Outcome} {own : ℕ} {s s' : State W}

/-! ## What a list is given -/

/-- The locations that are fetched, with what is cut from the checksums for each. -/
def handOut : List Text → Text → List (Text × Text)
  | [], _ => []
  | t :: ts, c =>
      (if t = [] then [] else [(t, firstSum c)]) ++ handOut ts (sys.cutSum (firstSum c) c)

/-- What was fetched for a list. -/
def State.fetched (s : State W) (list : ℕ) : List (Text × Text) :=
  (s.fetches.filter (·.list = list)).map fun f => (f.location, f.checksum)

/-- Every call was made for a list. -/
def State.Bounded (s : State W) : Prop := ∀ f ∈ s.fetches, f.list < s.lists.length

/-- All of this, or a part of it if the script has not come to its end. -/
def Right (o : Outcome) (given full : List (Text × Text)) : Prop :=
  given <+: full ∧ (o = .done → given = full)

/-- From one state to another something was fetched for a list that was there, and for each list
that is new what it is to be given. -/
structure Step (o : Outcome) (s s' : State W) (own : ℕ) (given : List (Text × Text)) : Prop where
  lists : s.lists <+: s'.lists
  bounded : s.Bounded → s'.Bounded
  old : ∀ k < s.lists.length, s'.fetched k = s.fetched k ++ if k = own then given else []
  new : s.Bounded → ∀ k l, s.lists.length ≤ k → s'.lists[k]? = some l →
    Right o (s'.fetched k) (handOut sys l.targets l.checksums)

variable {sys}

theorem Right.full (o : Outcome) (full : List (Text × Text)) : Right o full full :=
  ⟨List.prefix_rfl, fun _ => rfl⟩

theorem Right.none (ho : o ≠ .done) (full : List (Text × Text)) : Right o [] full :=
  ⟨List.nil_prefix, fun h => absurd h ho⟩

theorem Right.of_done {full : List (Text × Text)} (h : Right .done given full) (o : Outcome) :
    Right o given full :=
  ⟨h.1, fun _ => h.2 rfl⟩

theorem Right.append {full : List (Text × Text)} (h : Right o given full)
    (before : List (Text × Text)) : Right o (before ++ given) (before ++ full) :=
  ⟨List.prefix_append_right_inj before |>.2 h.1, fun ho => congrArg (before ++ ·) (h.2 ho)⟩

theorem fetched_eq_nil (h : s.Bounded) {k : ℕ} (hk : s.lists.length ≤ k) : s.fetched k = [] := by
  unfold State.fetched
  rw [List.map_eq_nil_iff, List.filter_eq_nil_iff]
  intro f hf
  have hlt := h f hf
  simp only [decide_eq_true_eq]
  omega

theorem Step.same (hlists : s'.lists = s.lists) (hfetches : s'.fetches = s.fetches) :
    Step sys o s s' own [] where
  lists := hlists ▸ List.prefix_rfl
  bounded h f hf := by
    rw [hlists]
    exact h f (hfetches ▸ hf)
  old k _ := by
    rw [ite_self, List.append_nil, State.fetched, State.fetched, hfetches]
  new _ k l hk hl := by
    rw [hlists] at hl
    exact absurd (List.getElem?_eq_some_iff.1 hl).1 (by omega)

theorem Step.trans {s₁ s₂ : State W} {given' : List (Text × Text)}
    (h : Step sys .done s s₁ own given) (h' : Step sys o s₁ s₂ own given')
    (hown : own < s.lists.length) : Step sys o s s₂ own (given ++ given') where
  lists := h.lists.trans h'.lists
  bounded hs := h'.bounded (h.bounded hs)
  old k hk := by
    rw [h'.old k (hk.trans_le h.lists.length_le), h.old k hk, List.append_assoc]
    split
    · rfl
    · rfl
  new hs k l hk hl := by
    by_cases hlt : k < s₁.lists.length
    · have hl₁ : s₁.lists[k]? = some l := by
        obtain ⟨u, hu⟩ := h'.lists
        rwa [← hu, List.getElem?_append_left hlt] at hl
      rw [h'.old k hlt, if_neg (by omega), List.append_nil]
      exact (h.new hs k l hk hl₁).of_done o
    · exact h'.new (h.bounded hs) k l (by omega) hl

theorem Step.andThen {r : Result W} {next : State W → Result W} {full full' : List (Text × Text)}
    (h : Step sys r.outcome s r.state own given) (hgiven : Right r.outcome given full)
    (hown : own < s.lists.length)
    (hnext : r.outcome = .done → ∃ given', Step sys (next r.state).outcome r.state
      (next r.state).state own given' ∧ Right (next r.state).outcome given' full') :
    ∃ given', Step sys (r.andThen next).outcome s (r.andThen next).state own given' ∧
      Right (r.andThen next).outcome given' (full ++ full') := by
  obtain ⟨o, s₁⟩ := r
  cases o with
  | done =>
      obtain ⟨given', hstep, hright⟩ := hnext rfl
      have heq : given = full := hgiven.2 rfl
      exact ⟨given ++ given', h.trans hstep hown, heq ▸ hright.append given⟩
  | exit =>
      exact ⟨given, h, hgiven.1.trans (List.prefix_append _ _), fun ho => by cases ho⟩
  | unfinished =>
      exact ⟨given, h, hgiven.1.trans (List.prefix_append _ _), fun ho => by cases ho⟩

theorem Step.record (s : State W) (location checksum : Text) (hown : own < s.lists.length)
    (o : Outcome) :
    Step sys o s (s.record own location checksum) own [(location, checksum)] where
  lists := List.prefix_rfl
  bounded h f hf := by
    rcases List.mem_append.1 hf with hf | hf
    · exact h f hf
    · rw [List.mem_singleton.1 hf]
      exact hown
  old k _ := by
    unfold State.fetched State.record
    rw [List.filter_append, List.map_append]
    congr 1
    by_cases hk : k = own
    · rw [if_pos hk, List.filter_cons_of_pos (by simpa using hk.symm)]
      rfl
    · rw [if_neg hk, List.filter_cons_of_neg (by simpa using Ne.symm hk)]
      rfl
  new _ k l hk hl := by
    have hlt : k < s.lists.length := (List.getElem?_eq_some_iff.1 hl).1
    omega

theorem Step.opened {targets : List Text} {checksums : Text}
    (h : Step sys o (s.openList targets checksums) s' s.lists.length given)
    (hgiven : Right o given (handOut sys targets checksums)) (own : ℕ) :
    Step sys o s s' own [] where
  lists := (List.prefix_append _ _).trans h.lists
  bounded hs := h.bounded fun f hf => by
    have hlt := hs f hf
    rw [State.openList, List.length_append]
    omega
  old k hk := by
    have hlength : (s.openList targets checksums).lists.length = s.lists.length + 1 := by
      rw [State.openList, List.length_append]
      rfl
    rw [h.old k (by omega), if_neg (by omega), ite_self]
    rfl
  new hs k l hk hl := by
    have hlength : (s.openList targets checksums).lists.length = s.lists.length + 1 := by
      rw [State.openList, List.length_append]
      rfl
    have hbounded : (s.openList targets checksums).Bounded := fun f hf => by
      have hlt := hs f hf
      omega
    by_cases hlt : s.lists.length < k
    · exact h.new hbounded k l (by omega) hl
    · obtain rfl : k = s.lists.length := by omega
      have hlist : l = ⟨targets, checksums⟩ := by
        obtain ⟨u, hu⟩ := h.lists
        rw [← hu, List.getElem?_append_left (by omega), State.openList,
          List.getElem?_concat_length] at hl
        exact (Option.some.inj hl).symm
      have hempty : (s.openList targets checksums).fetched s.lists.length = [] :=
        fetched_eq_nil hs le_rfl
      rw [h.old s.lists.length (by omega), if_pos rfl, hempty, List.nil_append, hlist]
      exact hgiven

theorem Step.start {s₀ : State W} (h : Step sys o s s' own given) (hlists : s.lists = s₀.lists)
    (hfetches : s.fetches = s₀.fetches) : Step sys o s₀ s' own given where
  lists := hlists ▸ h.lists
  bounded hs := h.bounded fun f hf => by
    rw [hlists]
    exact hs f (hfetches ▸ hf)
  old k hk := by
    rw [h.old k (by rwa [hlists]), State.fetched, State.fetched, hfetches]
  new hs k l hk hl := by
    refine h.new (fun f hf => ?_) k l (by rwa [hlists]) hl
    rw [hlists]
    exact hs f (hfetches ▸ hf)

theorem Step.stop {s₁ : State W} (h : Step sys o s s₁ own given) (hlists : s'.lists = s₁.lists)
    (hfetches : s'.fetches = s₁.fetches) : Step sys o s s' own given where
  lists := hlists ▸ h.lists
  bounded hs f hf := by
    rw [hlists]
    exact h.bounded hs f (hfetches ▸ hf)
  old k hk := by
    rw [← h.old k hk, State.fetched, State.fetched, hfetches]
  new hs k l hk hl := by
    rw [State.fetched, hfetches]
    exact h.new hs k l hk (hlists ▸ hl)

/-! ## The loops -/

/-- What a call of `preseed_location` comes to: one fetch for the list that it is made for, and
the variables as they were. -/
def Calls (sys : System W) (call : ℕ → Text → Text → State W → Result W) : Prop :=
  ∀ list location checksum s, list < s.lists.length →
    (call list location checksum s).state.vars = s.vars ∧
    ∃ given, Step sys (call list location checksum s).outcome s
        (call list location checksum s).state list given ∧
      Right (call list location checksum s).outcome given [(location, checksum)]

variable {call : ℕ → Text → Text → State W → Result W}

theorem Step.length_le (h : Step sys o s s' own given) :
    s.lists.length ≤ s'.lists.length := h.lists.length_le

/-- A word, and not a pattern. -/
structure Checksum where
  word : Text
  ne_nil : word ≠ []
  plain : ∀ c ∈ word, c ∉ [' ', '\t', '\n', '*', '?', '[', '\\']

/-- The checksums with a blank between them. -/
def render (sums : List Checksum) : Text := Text.joinWords (sums.map Checksum.word)

/-- Each location with its own checksum, or with none. -/
def wanted (targets sums : List Text) : List (Text × Text) :=
  (targets.mapIdx fun i t => (t, sums[i]?.getD [])).filter (·.1 ≠ [])

theorem Checksum.pattern (w : Checksum) :
    ∀ c ∈ w.word ++ [' '], c ∉ ['*', '?', '[', '\\'] := by
  intro c hc
  rcases List.mem_append.1 hc with hc | hc
  · intro hmem
    refine w.plain c hc ?_
    simp only [List.mem_cons, List.not_mem_nil, or_false] at hmem ⊢
    tauto
  · rw [List.mem_singleton.1 hc]
    decide

theorem Checksum.blank (w : Checksum) : ' ' ∉ w.word := fun hmem =>
  w.plain ' ' hmem (by decide)

/-- The script has not begun yet. -/
def start (vars : Vars) (w : W) : State W := ⟨vars, w, [], []⟩

end DebianInstaller.Preseed
