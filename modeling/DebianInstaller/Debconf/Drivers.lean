import DebianInstaller.Debconf.Stack

/-!
# Stacks of databases of any drivers

A driver brings the methods of its databases, and `template_db_new` and
`question_db_new` fill in those that it leaves out. What a method returns is an `int`,
and a stack that sets an object looks only for three of its values: with any other one
it asks the same database again.

Whether that comes to an end depends on the databases alone. The worlds they work in,
and what they do there, are not restricted.
-/

namespace DebianInstaller.Debconf

open Text Lib

/-- A code as an `int`. -/
def Status.int (c : Status) : Int := c.code

/-! ## Drivers -/

/-- What a driver brings, as far as a stack that sets an object calls it. `typeOf` is `get`
of which only the type of what is found is looked at. -/
structure Driver (W : Type) where
  accept : Option (Text → Option Text → W → Int × W) := none
  typeOf : Option (Text → W → Option Text × W) := none
  set : Option (W → Int × W) := none
  remove : Option (Text → W → Int × W) := none

/-- The methods of a database, for one object. -/
structure Methods (W : Type) where
  accept : Text → Option Text → W → Int × W
  set : W → Int × W
  remove : Text → W → Int × W

variable {W : Type}

/-- `template_db_accept` and `question_db_accept`. -/
def dbAccept (typeOf : Text → W → Option Text × W) (acceptTypes rejectTypes : Option (List Text))
    (name : Text) (type : Option Text) (w : W) : Int × W :=
  if type.getD [] = [] then
    ((commonAccept ((typeOf name w).1.getD []) acceptTypes rejectTypes).int, (typeOf name w).2)
  else ((commonAccept (type.getD []) acceptTypes rejectTypes).int, w)

/-- The methods after `SETMETHOD` in `template_db_new` and `question_db_new`. -/
def dbNew (mod : Driver W) (acceptTypes rejectTypes : Option (List Text)) : Methods W where
  accept := mod.accept.getD
    (dbAccept (mod.typeOf.getD fun _ w => (none, w)) acceptTypes rejectTypes)
  set := mod.set.getD fun w => (Status.notImpl.int, w)
  remove := mod.remove.getD fun _ w => (Status.notImpl.int, w)

/-! ## Setting an object -/

section Set

-- the tag and the type of the object, wherever it stands in the world
variable (tag : W → Text) (type : W → Option Text)

/-- The loop over a stack, for a number of rounds. -/
def stackDbSet : Nat → List (Methods W) → W → Option (Int × W)
  | 0, _, _ => none
  | _ + 1, [], w => some (Status.reject.int, w)
  | n + 1, db :: dbs, w =>
      let accepted := db.accept (tag w) (type w) w
      if accepted.1 = Status.reject.int then
        stackDbSet n dbs (db.remove (tag accepted.2) accepted.2).2
      else
        let ret := db.set accepted.2
        if ret.1 = Status.ok.int then some (Status.ok.int, ret.2)
        else if ret.1 = Status.notOk.int then some (Status.notOk.int, ret.2)
        else if ret.1 = Status.reject.int then
          stackDbSet n dbs (db.remove (tag ret.2) ret.2).2
        else stackDbSet n (db :: dbs) ret.2

/-- What a database has said, and the world, after it was asked and told once. -/
def Methods.told (db : Methods W) (w : W) : Int × W :=
  db.set (db.accept (tag w) (type w) w).2

/-- The database rejects the object, or it answers with a code that the stack knows. -/
def Methods.Decides (db : Methods W) (w : W) : Prop :=
  (db.accept (tag w) (type w) w).1 = Status.reject.int ∨
    (db.told tag type w).1 = Status.ok.int ∨ (db.told tag type w).1 = Status.notOk.int ∨
      (db.told tag type w).1 = Status.reject.int

/-- The world that the next database finds, if the object is rejected. -/
def Methods.passed (db : Methods W) (w : W) : Option W :=
  if (db.accept (tag w) (type w) w).1 = Status.reject.int then
    some (db.remove (tag (db.accept (tag w) (type w) w).2) (db.accept (tag w) (type w) w).2).2
  else if (db.told tag type w).1 = Status.reject.int then
    some (db.remove (tag (db.told tag type w).2) (db.told tag type w).2).2
  else none

/-- Every database that gets the object decides after it was asked so many times, and so
do those that find what it has left. -/
def Answering : List (Methods W) → W → Prop
  | [], _ => True
  | db :: dbs, w => ∃ n,
      (∀ k < n, ¬ db.Decides tag type ((fun w => (db.told tag type w).2)^[k] w)) ∧
        db.Decides tag type ((fun w => (db.told tag type w).2)^[n] w) ∧
          ∀ w' ∈ db.passed tag type ((fun w => (db.told tag type w).2)^[n] w), Answering dbs w'

variable {tag type}

theorem stackDbSet_undecided {db : Methods W} {w : W} (h : ¬ db.Decides tag type w) (n : Nat)
    (dbs : List (Methods W)) : stackDbSet tag type (n + 1) (db :: dbs) w =
      stackDbSet tag type n (db :: dbs) (db.told tag type w).2 := by
  unfold Methods.Decides at h
  rw [not_or, not_or, not_or] at h
  obtain ⟨haccept, hok, hnotOk, hreject⟩ := h
  rw [stackDbSet]
  simp only
  rw [if_neg haccept]
  exact (if_neg hok).trans ((if_neg hnotOk).trans (if_neg hreject))

theorem stackDbSet_decided {db : Methods W} {w : W} (h : db.Decides tag type w) (n : Nat)
    (dbs : List (Methods W)) :
    (∃ w', db.passed tag type w = some w' ∧
        stackDbSet tag type (n + 1) (db :: dbs) w = stackDbSet tag type n dbs w') ∨
      db.passed tag type w = none ∧
        stackDbSet tag type (n + 1) (db :: dbs) w = some (db.told tag type w) := by
  have htold : db.set (db.accept (tag w) (type w) w).2 = db.told tag type w := rfl
  rw [stackDbSet]
  unfold Methods.passed
  simp only [htold]
  by_cases haccept : (db.accept (tag w) (type w) w).1 = Status.reject.int
  · rw [if_pos haccept, if_pos haccept]
    exact .inl ⟨_, rfl, rfl⟩
  rw [if_neg haccept, if_neg haccept]
  have hne : ∀ {c d : Status}, c ≠ d → (db.told tag type w).1 = c.int →
      (db.told tag type w).1 ≠ d.int := by
    intro c d hcd hc hd
    rw [hc] at hd
    cases c <;> cases d <;> first | exact hcd rfl | exact absurd hd (by decide)
  rcases h.resolve_left haccept with hcode | hcode | hcode
  · refine .inr ⟨if_neg (hne (by decide) hcode), ?_⟩
    rw [if_pos hcode, ← hcode]
  · refine .inr ⟨if_neg (hne (by decide) hcode), ?_⟩
    rw [if_neg (hne (by decide) hcode), if_pos hcode, ← hcode]
  · refine .inl ⟨_, if_pos hcode, ?_⟩
    rw [if_neg (hne (by decide) hcode), if_neg (hne (by decide) hcode), if_pos hcode]

theorem answering_of_again {db : Methods W} {dbs : List (Methods W)} {w : W}
    (h : ¬ db.Decides tag type w) (hagain : Answering tag type (db :: dbs) (db.told tag type w).2) :
    Answering tag type (db :: dbs) w := by
  obtain ⟨n, hbefore, hdecides, hpassed⟩ := hagain
  refine ⟨n + 1, fun k hk => ?_, hdecides, hpassed⟩
  cases k with
  | zero => exact h
  | succ k => exact hbefore k (Nat.lt_of_succ_lt_succ hk)

theorem answering_of_stackDbSet {n : Nat} {dbs : List (Methods W)} {w : W} {r : Int × W}
    (h : stackDbSet tag type n dbs w = some r) : Answering tag type dbs w := by
  induction n generalizing dbs w with
  | zero => cases h
  | succ n ih =>
      cases dbs with
      | nil => trivial
      | cons db dbs =>
          by_cases hdecides : db.Decides tag type w
          · refine ⟨0, fun k hk => absurd hk (Nat.not_lt_zero k), hdecides, fun w' hw' => ?_⟩
            rcases stackDbSet_decided hdecides n dbs with ⟨w₁, hw₁, hnext⟩ | ⟨hnone, -⟩
            · obtain rfl : w₁ = w' := Option.some.inj (hw₁.symm.trans hw')
              rw [hnext] at h
              exact ih h
            · cases hnone.symm.trans hw'
          · rw [stackDbSet_undecided hdecides] at h
            exact answering_of_again hdecides (ih h)

theorem stackDbSet_of_answering {dbs : List (Methods W)} {w : W}
    (h : Answering tag type dbs w) : ∃ n r, stackDbSet tag type n dbs w = some r := by
  induction dbs generalizing w with
  | nil => exact ⟨1, _, rfl⟩
  | cons db dbs ih =>
      obtain ⟨k, hbefore, hdecides, hpassed⟩ := h
      induction k generalizing w with
      | zero =>
          rcases stackDbSet_decided hdecides 0 dbs with ⟨w', hw', -⟩ | ⟨-, hend⟩
          · obtain ⟨n, r, hr⟩ := ih (hpassed w' hw')
            refine ⟨n + 1, r, ?_⟩
            rcases stackDbSet_decided hdecides n dbs with ⟨w₁, hw₁, hnext⟩ | ⟨hnone, -⟩
            · obtain rfl : w' = w₁ := Option.some.inj (hw'.symm.trans hw₁)
              exact hnext.trans hr
            · cases hnone.symm.trans hw'
          · exact ⟨1, _, hend⟩
      | succ k ihk =>
          obtain ⟨n, r, hr⟩ := ihk (fun j hj => hbefore (j + 1) (Nat.succ_lt_succ hj)) hdecides
            hpassed
          exact ⟨n + 1, r, (stackDbSet_undecided (hbefore 0 (Nat.succ_pos k)) n dbs).trans hr⟩

theorem stackDbSet_ok {n : Nat} {dbs : List (Methods W)} {w w' : W} {code : Int}
    (h : stackDbSet tag type n dbs w = some (code, w')) (hcode : code = Status.ok.int) :
    ∃ db ∈ dbs, ∃ w₁, db.set w₁ = (code, w') := by
  induction n generalizing dbs w with
  | zero => cases h
  | succ n ih =>
      cases dbs with
      | nil =>
          obtain rfl := (Prod.mk.inj (Option.some.inj h)).1
          cases hcode
      | cons db dbs =>
          by_cases hdecides : db.Decides tag type w
          · rcases stackDbSet_decided hdecides n dbs with ⟨w₁, -, hnext⟩ | ⟨-, hend⟩
            · rw [hnext] at h
              obtain ⟨db', hdb', hset⟩ := ih h
              exact ⟨db', List.mem_cons_of_mem _ hdb', hset⟩
            · rw [hend] at h
              exact ⟨db, List.mem_cons_self, _, Option.some.inj h⟩
          · rw [stackDbSet_undecided hdecides] at h
            exact ih h

end Set

/-- `stack_template_db_set`, for a template in the world. -/
def stackTemplateDbSet (t : W → Template) : Nat → List (Methods W) → W → Option (Int × W) :=
  stackDbSet (fun w => (t w).tag) fun w => (t w).type

/-- `stack_question_db_set`, for a question in the world. -/
def stackQuestionDbSet (q : W → Question) : Nat → List (Methods W) → W → Option (Int × W) :=
  stackDbSet (fun w => (q w).tag) fun w => (q w).typeOf

/-- The stack comes to an end. If it says that the object is set then a database has just
said so. -/
def SetsOrTells (run : Nat → List (Methods W) → W → Option (Int × W)) (dbs : List (Methods W))
    (w : W) : Prop :=
  ∃ n code w', run n dbs w = some (code, w') ∧
    (code = Status.ok.int → ∃ db ∈ dbs, ∃ w₁, db.set w₁ = (code, w'))

theorem setsOrTells_iff (tag : W → Text) (type : W → Option Text) (dbs : List (Methods W))
    (w : W) : SetsOrTells (stackDbSet tag type) dbs w ↔ Answering tag type dbs w := by
  constructor
  · rintro ⟨n, code, w', h, -⟩
    exact answering_of_stackDbSet h
  · intro h
    obtain ⟨n, ⟨code, w'⟩, hr⟩ := stackDbSet_of_answering h
    exact ⟨n, code, w', hr, stackDbSet_ok hr⟩

/-- A stack sets an object or tells that it did not exactly if no database that gets it
answers with other codes for ever. -/
theorem stackDbSets_end_iff :
    (∀ (t : W → Template) dbs w, SetsOrTells (stackTemplateDbSet t) dbs w ↔
        Answering (fun w => (t w).tag) (fun w => (t w).type) dbs w) ∧
      ∀ (q : W → Question) dbs w, SetsOrTells (stackQuestionDbSet q) dbs w ↔
        Answering (fun w => (q w).tag) (fun w => (q w).typeOf) dbs w :=
  ⟨fun _ dbs w => setsOrTells_iff _ _ dbs w, fun _ dbs w => setsOrTells_iff _ _ dbs w⟩

/-- A driver without `set`, over a database that takes every type, is asked for ever. -/
theorem stackTemplateDbSet_notImpl :
    ¬ SetsOrTells (stackTemplateDbSet fun _ => templateNew "debconf/priority")
      [dbNew {} none none] () := by
  have hno : ∀ u : Unit, ¬ (dbNew {} none none).Decides
      (fun _ => (templateNew "debconf/priority").tag) (fun _ => none) u := by
    rintro ⟨⟩ (h | h | h | h)
    all_goals exact absurd h (by decide)
  intro h
  obtain ⟨n, -, hdecides, -⟩ := (setsOrTells_iff _ _ _ _).mp h
  exact hno _ hdecides

/-! ## The driver of files

With the methods of `rfc822db` the loop is the one of the stack model. -/

/-- The methods of `rfc822db` for a question, where the databases are numbered. -/
def rfc822Methods (q : Ref) (i : Nat) : Methods (Heap × (Nat → QuestionDb)) where
  accept name type w := ((questionAccept w.1 (w.2 i) name type).int, w)
  set w := (Status.ok.int, (questionSet w.1 (w.2 i) q).1,
    Function.update w.2 i (questionSet w.1 (w.2 i) q).2)
  remove name w := ((questionRemove (w.2 i) name).1.int, w.1,
    Function.update w.2 i (questionRemove (w.2 i) name).2)

theorem map_range'_update (f : Nat → QuestionDb) (i m : Nat) (db : QuestionDb) :
    (List.range' (i + 1) m).map (Function.update f i db) = (List.range' (i + 1) m).map f := by
  refine List.map_congr_left fun j hj => Function.update_of_ne ?_ ..
  have := List.mem_range'_1.mp hj
  omega

/-- Over databases in files the loop is `stackQuestionSet`. -/
theorem stackQuestionDbSet_rfc822 (q : Ref) (i m : Nat) (w : Heap × (Nat → QuestionDb)) :
    ∃ w', stackQuestionDbSet (fun w => w.1.cell q) (m + 1)
        ((List.range' i m).map (rfc822Methods q)) w =
          some ((stackQuestionSet w.1 q ((List.range' i m).map w.2)).1.int, w') ∧
      w'.1 = (stackQuestionSet w.1 q ((List.range' i m).map w.2)).2.1 ∧
      (List.range' i m).map w'.2 = (stackQuestionSet w.1 q ((List.range' i m).map w.2)).2.2 ∧
      ∀ j < i, w'.2 j = w.2 j := by
  induction m generalizing i w with
  | zero => exact ⟨w, rfl, rfl, rfl, fun _ _ => rfl⟩
  | succ m ih =>
      have hreject : (questionAccept w.1 (w.2 i) (w.1.cell q).tag (w.1.cell q).typeOf).int =
          Status.reject.int ↔
            questionAccept w.1 (w.2 i) (w.1.cell q).tag (w.1.cell q).typeOf = .reject := by
        cases questionAccept w.1 (w.2 i) (w.1.cell q).tag (w.1.cell q).typeOf <;> decide
      rw [List.range'_succ, List.map_cons, List.map_cons, stackQuestionSet]
      unfold stackQuestionDbSet
      rw [stackDbSet]
      by_cases hacc : questionAccept w.1 (w.2 i) (w.1.cell q).tag (w.1.cell q).typeOf = .reject
      · obtain ⟨w', hrun, hheap, hdbs, hother⟩ := ih (i + 1)
          (w.1, Function.update w.2 i (questionRemove (w.2 i) (w.1.cell q).tag).2)
        rw [map_range'_update] at hrun hheap hdbs
        rw [if_pos hacc]
        refine ⟨w', (if_pos (hreject.mpr hacc)).trans hrun, hheap, ?_, fun j hj => ?_⟩
        · rw [List.map_cons, hdbs, hother i (Nat.lt_succ_self i)]
          show Function.update w.2 i _ i :: _ = _
          rw [Function.update_self]
        · rw [hother j (Nat.lt_succ_of_lt hj)]
          exact Function.update_of_ne (Nat.ne_of_lt hj) ..
      · rw [if_neg hacc]
        refine ⟨_, (if_neg fun h => hacc (hreject.mp h)).trans (if_pos rfl), rfl, ?_,
          fun j hj => Function.update_of_ne (Nat.ne_of_lt hj) ..⟩
        show List.map (Function.update w.2 i _) _ = _
        rw [List.map_cons, Function.update_self, map_range'_update]
        rfl

end DebianInstaller.Debconf
