import DebianInstaller.Debconf.Database

/-!
# A stack of databases

A question is written to the first database that accepts its type, and read from
the first that holds its tag. The two agree since a database that rejects the type
drops its copy on the way down.
-/

namespace DebianInstaller.Debconf

open Text Lib

/-- The databases of a stack from the top, over the questions in memory. -/
structure Stack where
  heap : Heap
  layers : List QuestionDb
  tagged : ∀ db ∈ layers, db.Tagged heap

/-! ## The nodes keep their tags -/

theorem QuestionDb.Tagged.of_nodes {h h' : Heap} {db db' : QuestionDb} (hd : db.Tagged h)
    (hh : ∀ r, (h'.cell r).tag = (h.cell r).tag)
    (hn : ∀ n ∈ db'.root.nodes, n ∈ db.root.nodes ∨ (h.cell n.2).tag = n.1) :
    db'.Tagged h' := by
  intro n hmem
  rw [hh]
  rcases hn n hmem with hold | hnew
  · exact hd n hold
  · exact hnew

theorem tagged_remove {h : Heap} {db : QuestionDb} (hd : db.Tagged h) (tag : Text) :
    (questionRemove db tag).2.Tagged h := by
  refine hd.of_nodes (fun _ => rfl) fun n hn => .inl ?_
  unfold questionRemove at hn
  split at hn
  · exact (List.mem_filter.mp hn).1
  · exact hn

theorem tagged_set {h : Heap} {db : QuestionDb} (hd : db.Tagged h) (q : Ref) :
    (questionSet h db q).2.Tagged (questionSet h db q).1 := by
  refine hd.of_nodes (fun r => (questionSet_cell h db q r).1) fun n hn => ?_
  rcases Tree.mem_insertNode hn with rfl | hn
  · exact .inr rfl
  · exact .inl (List.mem_filter.mp hn).1

/-! ## Writing to the stack -/

/-- How `stack_question_db_set` goes: down to the first database that accepts the type,
or to the end. -/
theorem stackQuestionSet_cases (h : Heap) (q : Ref) (dbs : List QuestionDb) :
    ((∀ db ∈ dbs, questionAccept h db (h.cell q).tag (h.cell q).typeOf = .reject) ∧
      stackQuestionSet h q dbs =
        (.reject, h, dbs.map fun db => (questionRemove db (h.cell q).tag).2)) ∨
    ∃ above db below, dbs = above ++ db :: below ∧
      (∀ a ∈ above, questionAccept h a (h.cell q).tag (h.cell q).typeOf = .reject) ∧
      questionAccept h db (h.cell q).tag (h.cell q).typeOf ≠ .reject ∧
      stackQuestionSet h q dbs = (.ok, (questionSet h db q).1,
        above.map (fun a => (questionRemove a (h.cell q).tag).2) ++
          (questionSet h db q).2 :: below) := by
  induction dbs with
  | nil => exact .inl ⟨by simp, rfl⟩
  | cons db dbs ih =>
      unfold stackQuestionSet
      by_cases hacc : questionAccept h db (h.cell q).tag (h.cell q).typeOf = .reject
      · rw [if_pos hacc]
        rcases ih with ⟨hall, heq⟩ | ⟨above, db', below, rfl, habove, hdb, heq⟩
        · refine .inl ⟨List.forall_mem_cons.mpr ⟨hacc, hall⟩, ?_⟩
          rw [heq]
          rfl
        · refine .inr ⟨db :: above, db', below, rfl, List.forall_mem_cons.mpr ⟨hacc, habove⟩,
            hdb, ?_⟩
          rw [heq]
          rfl
      · rw [if_neg hacc]
        exact .inr ⟨[], db, dbs, rfl, by simp, hacc, rfl⟩

theorem stackQuestionGet_cons (db : QuestionDb) (dbs : List QuestionDb) (tag : Text) :
    stackQuestionGet (db :: dbs) tag = (questionGet db tag).or (stackQuestionGet dbs tag) := by
  rw [stackQuestionGet, List.findSome?_cons]
  cases questionGet db tag <;> rfl

theorem stackQuestionGet_append (above dbs : List QuestionDb) (tag : Text) :
    stackQuestionGet (above ++ dbs) tag =
      (stackQuestionGet above tag).or (stackQuestionGet dbs tag) := List.findSome?_append

theorem stackQuestionGet_remove_self (dbs : List QuestionDb) (tag : Text) :
    stackQuestionGet (dbs.map fun db => (questionRemove db tag).2) tag = none := by
  induction dbs with
  | nil => rfl
  | cons db dbs ih =>
      rw [List.map_cons, stackQuestionGet_cons, questionGet_remove_self, ih]
      rfl

theorem stackQuestionGet_remove_of_ne {dbs : List QuestionDb} {tag tag' : Text}
    (htag : tag' ≠ tag) :
    stackQuestionGet (dbs.map fun db => (questionRemove db tag).2) tag' =
      stackQuestionGet dbs tag' := by
  induction dbs with
  | nil => rfl
  | cons db dbs ih =>
      rw [List.map_cons, stackQuestionGet_cons, questionGet_remove_of_ne htag, ih,
        stackQuestionGet_cons]

theorem stackQuestionSet_cell (h : Heap) (q r : Ref) (dbs : List QuestionDb) :
    ((stackQuestionSet h q dbs).2.1.cell r).tag = (h.cell r).tag ∧
      (r ≠ q → (stackQuestionSet h q dbs).2.1.cell r = h.cell r) := by
  rcases stackQuestionSet_cases h q dbs with ⟨_, heq⟩ | ⟨_, db, _, _, _, _, heq⟩
  · rw [heq]
    exact ⟨rfl, fun _ => rfl⟩
  · rw [heq]
    exact questionSet_cell h db q r

/-- `stack_question_db_set`. -/
def Stack.set (s : Stack) (q : Ref) : Status × Stack :=
  ((stackQuestionSet s.heap q s.layers).1,
    { heap := (stackQuestionSet s.heap q s.layers).2.1
      layers := (stackQuestionSet s.heap q s.layers).2.2
      tagged := by
        intro db hdb
        rcases stackQuestionSet_cases s.heap q s.layers with
          ⟨_, heq⟩ | ⟨above, db₀, below, hlayers, _, _, heq⟩
        · rw [heq] at hdb ⊢
          obtain ⟨a, ha, rfl⟩ := List.mem_map.mp hdb
          exact tagged_remove (s.tagged a ha) _
        · rw [heq] at hdb ⊢
          have hold : ∀ a ∈ s.layers, a.Tagged (questionSet s.heap db₀ q).1 := fun a ha =>
            (s.tagged a ha).of_nodes (fun r => (questionSet_cell s.heap db₀ q r).1)
              fun _ hn => .inl hn
          rcases List.mem_append.mp hdb with hdb | hdb
          · obtain ⟨a, ha, rfl⟩ := List.mem_map.mp hdb
            exact tagged_remove (hold a (by rw [hlayers]; simp [ha])) _
          · rcases List.mem_cons.mp hdb with rfl | hdb
            · exact tagged_set (s.tagged db₀ (by rw [hlayers]; simp)) q
            · exact hold db (by rw [hlayers]; simp [hdb]) })

/-- `stack_question_db_get`. -/
def Stack.get (s : Stack) (name : Text) : Option Ref := stackQuestionGet s.layers name

/-- Whether a database of the stack accepts the question. -/
def Stack.rejects (s : Stack) (q : Ref) (db : QuestionDb) : Prop :=
  questionAccept s.heap db (s.heap.cell q).tag (s.heap.cell q).typeOf = .reject

/-- A question that is set is what its tag is answered with, and nothing changes for
the other tags. Above the database that has taken it are only databases that reject
it, and none of them holds the tag any more. Nothing takes it exactly if every
database rejects it. -/
theorem stack_set_get (s : Stack) (q : Ref) :
    ((s.set q).1 = .ok →
      (s.set q).2.get (s.heap.cell q).tag = some q ∧
      (∀ tag, tag ≠ (s.heap.cell q).tag → (s.set q).2.get tag = s.get tag ∧
        ∀ r, s.get tag = some r → (s.set q).2.heap.cell r = s.heap.cell r) ∧
      ∃ above db below, s.layers = above ++ db :: below ∧ ¬s.rejects q db ∧
        (s.set q).2.layers = above.map (fun a => (questionRemove a (s.heap.cell q).tag).2) ++
          (questionSet s.heap db q).2 :: below ∧
        ∀ a ∈ above, s.rejects q a ∧
          questionGet (questionRemove a (s.heap.cell q).tag).2 (s.heap.cell q).tag = none) ∧
    ((s.set q).1 = .reject ↔ ∀ db ∈ s.layers, s.rejects q db) := by
  rcases stackQuestionSet_cases s.heap q s.layers with
    ⟨hall, heq⟩ | ⟨above, db, below, hlayers, habove, hdb, heq⟩
  · refine ⟨fun hok => ?_, fun _ => hall, fun _ => congrArg Prod.fst heq⟩
    rw [show (s.set q).1 = .reject from congrArg Prod.fst heq] at hok
    cases hok
  · have hset : (s.set q).2.layers = above.map
        (fun a => (questionRemove a (s.heap.cell q).tag).2) ++ (questionSet s.heap db q).2 :: below :=
      congrArg (fun p => p.2.2) heq
    constructor
    · intro _
      refine ⟨?_, fun tag htag => ⟨?_, fun r hr => ?_⟩, above, db, below, hlayers, hdb, hset,
        fun a ha => ⟨habove a ha, questionGet_remove_self a _⟩⟩
      · unfold Stack.get
        rw [hset, stackQuestionGet_append, stackQuestionGet_remove_self, Option.none_or,
          stackQuestionGet_cons, questionGet_set_self]
        rfl
      · unfold Stack.get
        rw [hset, hlayers, stackQuestionGet_append, stackQuestionGet_append,
          stackQuestionGet_remove_of_ne htag, stackQuestionGet_cons,
          questionGet_set_of_ne htag, stackQuestionGet_cons]
      · refine (stackQuestionSet_cell s.heap q r s.layers).2 ?_
        rintro rfl
        -- the node that was found carries the tag that was asked for
        obtain ⟨db', hdb', hfind⟩ := List.exists_of_findSome?_eq_some hr
        exact htag (s.tagged db' hdb' (tag, r) (Tree.tfind_eq_some.mp hfind)).symm
    · constructor
      · intro hrej
        rw [show (s.set q).1 = .ok from congrArg Prod.fst heq] at hrej
        cases hrej
      · intro hall
        exact absurd (hall db (by rw [hlayers]; simp)) hdb

end DebianInstaller.Debconf
