import DebianInstaller.Debconf.Stack

/-!
# Copying a database

`debconf-copydb` goes through all questions of a database and sets them in another
one. The iteration over a stack shows every copy of a tag, from the top database to
the bottom one, and a question that is set takes the place of the one with its tag:
what is left in the new database is the copy from the lowest database that holds
the tag, where `stack_question_db_get` gives the one from the highest.
-/

namespace DebianInstaller.Debconf

open Text Lib

variable {dbs : List QuestionDb} {h : Heap} {iter : Option (List Question)}

variable {db : QuestionDb} {h' h₀ : Heap} {q : Question} {seen : List Question} {tdb1 : TemplateDb}

/-- A stack as it is loaded: every node points to a question that is there, with a
template that is in the template database. -/
structure Source extends Stack where
  templates : TemplateDb
  allocated : ∀ db ∈ layers, ∀ n ∈ db.root.nodes, n.2 < heap.fresh
  templated : ∀ db ∈ layers, ∀ n ∈ db.root.nodes, ∃ t, (heap.cell n.2).template = some t ∧
    (templateDbGet templates t.tag).isSome = true

/-- The memory and the databases that are written. -/
structure Copy where
  heap : Heap
  db2 : QuestionDb := {}
  tdb2 : TemplateDb
  tdb2Changed : Bool := false

variable {s : Copy}

/-- The template of a question is copied as well. -/
def copyTemplate (tdb1 : TemplateDb) (s : Copy) (tag : Text) : Option Copy :=
  match templateDbGet s.tdb2 tag with
  | some _ => some s
  | none => (templateDbGet tdb1 tag).map fun t =>
      { s with tdb2 := templateDbSet s.tdb2 t, tdb2Changed := true }

/-- One round of the loop, with the copy that the iteration has made. Without a
template to copy the program comes to a bad end. -/
def copyQuestion (tdb1 : TemplateDb) (s : Copy) (q : Question) : Option Copy :=
  let (r, h) := s.heap.alloc q
  let (h, db2) := questionSet h s.db2 r
  (h.cell r).template.bind fun t => copyTemplate tdb1 { s with heap := h, db2 := db2 } t.tag

/-- The loop, for a number of rounds. -/
def copyLoop (tdb1 : TemplateDb) : Nat → List QuestionDb → Option (List Question) → Copy →
    Option Copy
  | 0, _, _, _ => none
  | rounds + 1, dbs, iter, s =>
      match stackQuestionIterate s.heap iter dbs with
      | none => some s
      | some (q, dbs, qs) => (copyQuestion tdb1 s q).bind (copyLoop tdb1 rounds dbs (some qs))

/-- How many questions a stack shows. -/
def stackSize (dbs : List QuestionDb) : Nat := (dbs.map fun db => db.root.nodes.length).sum

/-- The part of `main` that copies, into a question database that is empty. -/
def debconfCopydb (s : Source) (tdb2 : TemplateDb) : Option Copy :=
  copyLoop s.templates (stackSize s.layers + 1) s.layers none { heap := s.heap, tdb2 := tdb2 }

/-- What the answer to a question is made of. -/
def Question.answer (q : Question) : Option Text × Bool × List (Text × Text) :=
  (q.value, q.seen, q.vars)

/-! ## What the iteration shows -/

/-- The questions that are still to come. -/
def pending (h : Heap) (iter : Option (List Question)) : List QuestionDb → List Question
  | [] => []
  | db :: dbs => iter.getD (db.questions h) ++ dbs.flatMap (QuestionDb.questions h)

theorem pending_none (h : Heap) (dbs : List QuestionDb) :
    pending h none dbs = dbs.flatMap (QuestionDb.questions h) := by
  cases dbs <;> rfl

theorem pending_cons (h : Heap) (iter : Option (List Question)) (db : QuestionDb)
    (dbs : List QuestionDb) :
    pending h iter (db :: dbs) =
      iter.getD (db.questions h) ++ dbs.flatMap (QuestionDb.questions h) := rfl

theorem questionIterate_eq (h : Heap) (db : QuestionDb) (iter : Option (List Question)) :
    questionIterate h db iter =
      match iter.getD (db.questions h) with
      | [] => none
      | q :: qs => some (q, qs) := by
  have hdup : (db.root.nodes.map fun n => questionDup (h.cell n.2)) = db.questions h :=
    List.map_congr_left fun n _ => questionDup_eq _
  rw [← hdup]
  rfl

theorem stackQuestionIterate_none (hn : stackQuestionIterate h iter dbs = none) :
    pending h iter dbs = [] := by
  induction dbs generalizing iter with
  | nil => rfl
  | cons db dbs ih =>
      unfold stackQuestionIterate at hn
      rw [questionIterate_eq] at hn
      cases hq : iter.getD (db.questions h) with
      | nil =>
          rw [hq] at hn
          rw [pending_cons, hq, List.nil_append, ← pending_none]
          exact ih hn
      | cons q qs =>
          rw [hq] at hn
          cases hn

theorem stackQuestionIterate_some {dbs' : List QuestionDb} {qs : List Question}
    (hs : stackQuestionIterate h iter dbs = some (q, dbs', qs)) :
    pending h iter dbs = q :: pending h (some qs) dbs' ∧ dbs' <:+ dbs := by
  induction dbs generalizing iter with
  | nil => cases hs
  | cons db dbs ih =>
      unfold stackQuestionIterate at hs
      rw [questionIterate_eq] at hs
      cases hq : iter.getD (db.questions h) with
      | nil =>
          rw [hq] at hs
          obtain ⟨hp, hsuf⟩ := ih hs
          rw [pending_cons, hq, List.nil_append, ← pending_none]
          exact ⟨hp, hsuf.trans (List.suffix_cons _ _)⟩
      | cons q' qs' =>
          rw [hq] at hs
          cases hs
          rw [pending_cons, hq]
          exact ⟨rfl, List.suffix_rfl⟩

/-! ## What one round does -/

/-- The questions below `bound` are as in `h₀`, and the new ones are those of the new
database. -/
structure Copied (h₀ : Heap) (seen : List Question) (s : Copy) : Prop where
  bound : h₀.fresh ≤ s.heap.fresh
  kept : ∀ r < h₀.fresh, s.heap.cell r = h₀.cell r
  refs : ∀ tag r, questionGet s.db2 tag = some r → r < s.heap.fresh
  found : ∀ tag, (questionGet s.db2 tag).map (fun r => (s.heap.cell r).answer) =
    (seen.reverse.find? fun q => q.tag = tag).map Question.answer

theorem foldl_ownerAdd_answer (os : List Text) (q : Question) :
    (os.foldl questionOwnerAdd q).answer = q.answer ∧
      (os.foldl questionOwnerAdd q).template = q.template := by
  induction os generalizing q with
  | nil => exact ⟨rfl, rfl⟩
  | cons o os ih => exact ih _

theorem questionSet_answer (h : Heap) (db : QuestionDb) (q : Ref) :
    ((questionSet h db q).1.cell q).answer = (h.cell q).answer ∧
      ((questionSet h db q).1.cell q).template = (h.cell q).template ∧
      (questionSet h db q).1.fresh = h.fresh := by
  unfold questionSet
  dsimp only
  split
  · next old _ =>
      rw [modify_cell_self]
      exact ⟨(foldl_ownerAdd_answer _ _).1, (foldl_ownerAdd_answer _ _).2, rfl⟩
  · exact ⟨rfl, rfl, rfl⟩

/-- One question more has been copied. -/
theorem copyQuestion_spec {t : Template} (hc : Copied h₀ seen s) (ht : q.template = some t)
    (hin : (templateDbGet tdb1 t.tag).isSome = true) :
    ∃ s', copyQuestion tdb1 s q = some s' ∧ Copied h₀ (seen ++ [q]) s' := by
  -- the memory and the database after the round
  obtain ⟨h₁, db₁, hset⟩ : ∃ h₁ db₁, questionSet (s.heap.alloc q).2 s.db2 s.heap.fresh =
    (h₁, db₁) := ⟨_, _, rfl⟩
  have hcell : (s.heap.alloc q).2.cell s.heap.fresh = q := Function.update_self ..
  obtain ⟨hans, htmp, hfresh⟩ := questionSet_answer (s.heap.alloc q).2 s.db2 s.heap.fresh
  have hother : ∀ r, r ≠ s.heap.fresh → h₁.cell r = s.heap.cell r := by
    intro r hr
    have := (questionSet_cell (s.heap.alloc q).2 s.db2 s.heap.fresh r).2 hr
    rw [hset] at this
    exact this.trans (Function.update_of_ne hr ..)
  rw [hset, hcell] at hans htmp
  rw [hset] at hfresh
  have hfresh : h₁.fresh = s.heap.fresh + 1 := hfresh
  have hcopied : ∀ tdb2 changed, Copied h₀ (seen ++ [q])
      { heap := h₁, db2 := db₁, tdb2 := tdb2, tdb2Changed := changed } := by
    intro tdb2 changed
    refine ⟨?_, fun r hr => ?_, fun tag r hr => ?_, fun tag => ?_⟩
    · show h₀.fresh ≤ h₁.fresh
      rw [hfresh]
      exact Nat.le_succ_of_le hc.bound
    · exact (hother r (Nat.ne_of_lt (Nat.lt_of_lt_of_le hr hc.bound))).trans (hc.kept r hr)
    · show r < h₁.fresh
      have hr : questionGet db₁ tag = some r := hr
      rw [hfresh]
      by_cases htag : tag = q.tag
      · have := questionGet_set_self (s.heap.alloc q).2 s.db2 s.heap.fresh
        rw [hset, hcell, ← htag, hr] at this
        rw [Option.some.inj this]
        exact Nat.lt_succ_self _
      · have : questionGet (questionSet (s.heap.alloc q).2 s.db2 s.heap.fresh).2 tag = _ :=
          questionGet_set_of_ne (by rw [hcell]; exact htag)
        rw [hset, hr] at this
        exact Nat.lt_succ_of_lt (hc.refs tag r this.symm)
    · rw [List.reverse_append, List.reverse_singleton, List.singleton_append, List.find?_cons]
      show Option.map (fun r => (h₁.cell r).answer) (questionGet db₁ tag) = _
      by_cases htag : tag = q.tag
      · have hget := questionGet_set_self (s.heap.alloc q).2 s.db2 s.heap.fresh
        rw [hset, hcell, ← htag] at hget
        rw [hget, Option.map_some, hans, htag]
        simp
      · have hget : questionGet (questionSet (s.heap.alloc q).2 s.db2 s.heap.fresh).2 tag = _ :=
          questionGet_set_of_ne (by rw [hcell]; exact htag)
        rw [hset] at hget
        rw [hget, show decide (q.tag = tag) = false by simpa using Ne.symm htag, ← hc.found tag]
        cases hold : questionGet s.db2 tag with
        | none => rfl
        | some r =>
            rw [Option.map_some, Option.map_some, hother r (Nat.ne_of_lt (hc.refs tag r hold))]
  have hround : copyQuestion tdb1 s q =
      copyTemplate tdb1 { s with heap := h₁, db2 := db₁ } t.tag := by
    show ((questionSet (s.heap.alloc q).2 s.db2 s.heap.fresh).1.cell s.heap.fresh).template.bind
      (fun t => copyTemplate tdb1 { s with
        heap := (questionSet (s.heap.alloc q).2 s.db2 s.heap.fresh).1
        db2 := (questionSet (s.heap.alloc q).2 s.db2 s.heap.fresh).2 } t.tag) = _
    rw [hset, htmp, ht]
    rfl
  rw [hround]
  unfold copyTemplate
  split
  · exact ⟨_, rfl, hcopied _ _⟩
  · obtain ⟨t', ht'⟩ := Option.isSome_iff_exists.mp hin
    rw [ht']
    exact ⟨_, rfl, hcopied _ _⟩

/-! ## The whole loop -/

theorem questions_congr (hh : ∀ n ∈ db.root.nodes, h'.cell n.2 = h.cell n.2) :
    db.questions h' = db.questions h :=
  List.map_congr_left hh

theorem pending_congr (iter : Option (List Question))
    (hh : ∀ db ∈ dbs, ∀ n ∈ db.root.nodes, h'.cell n.2 = h.cell n.2) :
    pending h' iter dbs = pending h iter dbs := by
  have hflat : ∀ dbs : List QuestionDb,
      (∀ db ∈ dbs, ∀ n ∈ db.root.nodes, h'.cell n.2 = h.cell n.2) →
      dbs.flatMap (QuestionDb.questions h') = dbs.flatMap (QuestionDb.questions h) := by
    intro dbs hh
    induction dbs with
    | nil => rfl
    | cons db dbs ih =>
        rw [List.flatMap_cons, List.flatMap_cons, questions_congr (hh db List.mem_cons_self),
          ih fun db' hdb' => hh db' (List.mem_cons_of_mem _ hdb')]
  cases dbs with
  | nil => rfl
  | cons db dbs =>
      rw [pending_cons, pending_cons, questions_congr (hh db List.mem_cons_self),
        hflat dbs fun db' hdb' => hh db' (List.mem_cons_of_mem _ hdb')]

theorem copyLoop_spec {rounds : Nat} (hc : Copied h₀ seen s)
    (halloc : ∀ db ∈ dbs, ∀ n ∈ db.root.nodes, n.2 < h₀.fresh)
    (htemplate : ∀ q ∈ pending h₀ iter dbs, ∃ t, q.template = some t ∧
      (templateDbGet tdb1 t.tag).isSome = true) (hrounds : (pending h₀ iter dbs).length < rounds) :
    ∃ s', copyLoop tdb1 rounds dbs iter s = some s' ∧
      Copied h₀ (seen ++ pending h₀ iter dbs) s' := by
  induction rounds generalizing dbs iter s seen with
  | zero => exact absurd hrounds (Nat.not_lt_zero _)
  | succ rounds ih =>
      have hpending : pending s.heap iter dbs = pending h₀ iter dbs :=
        pending_congr iter fun db hdb n hn => hc.kept _ (halloc db hdb n hn)
      unfold copyLoop
      cases hit : stackQuestionIterate s.heap iter dbs with
      | none =>
          rw [← hpending, stackQuestionIterate_none hit, List.append_nil]
          exact ⟨s, rfl, hc⟩
      | some p =>
          obtain ⟨q, dbs', qs⟩ := p
          obtain ⟨hp, hsuf⟩ := stackQuestionIterate_some hit
          have halloc' : ∀ db ∈ dbs', ∀ n ∈ db.root.nodes, n.2 < h₀.fresh :=
            fun db hdb => halloc db (hsuf.subset hdb)
          rw [hpending, pending_congr (some qs) fun db hdb n hn => hc.kept _ (halloc' db hdb n hn)]
            at hp
          rw [hp] at htemplate hrounds ⊢
          obtain ⟨t, ht, hin⟩ := htemplate q List.mem_cons_self
          obtain ⟨s₁, hs₁, hc₁⟩ := copyQuestion_spec hc ht hin
          obtain ⟨s', hs', hc'⟩ := ih hc₁ halloc'
            (fun q' hq' => htemplate q' (List.mem_cons_of_mem _ hq')) (Nat.lt_of_succ_lt_succ hrounds)
          refine ⟨s', ?_, ?_⟩
          · show (copyQuestion tdb1 s q).bind _ = some s'
            rw [hs₁]
            exact hs'
          · simpa using hc'

/-! ## The copy that is left -/

theorem find_questions (ht : db.Tagged h) (tag : Text) :
    ((db.questions h).reverse.find? fun q => q.tag = tag) =
      (questionGet db tag).map h.cell := by
  cases hget : questionGet db tag with
  | none =>
      rw [Option.map_none, List.find?_eq_none]
      intro q hq
      obtain ⟨n, hn, rfl⟩ := List.mem_map.mp (List.mem_reverse.mp hq)
      have hne := Tree.tfind_eq_none.mp hget
      rw [decide_eq_true_eq, ht n hn]
      exact fun heq => hne (heq ▸ List.mem_map_of_mem hn)
  | some r =>
      have hmem : (tag, r) ∈ db.root.nodes := Tree.tfind_eq_some.mp hget
      have htag : (h.cell r).tag = tag := ht _ hmem
      cases hfind : (db.questions h).reverse.find? fun q => q.tag = tag with
      | none =>
          have := List.find?_eq_none.mp hfind (h.cell r)
            (List.mem_reverse.mpr (List.mem_map.mpr ⟨(tag, r), hmem, rfl⟩))
          rw [decide_eq_true_eq] at this
          exact absurd htag this
      | some q =>
          obtain ⟨n, hn, rfl⟩ := List.mem_map.mp (List.mem_reverse.mp (List.mem_of_find?_eq_some hfind))
          have hntag : (h.cell n.2).tag = tag := by simpa using List.find?_some hfind
          rw [ht n hn] at hntag
          have : (tag, n.2) ∈ db.root.nodes := hntag ▸ hn
          have hsame : some r = some n.2 := hget.symm.trans (Tree.tfind_eq_some.mpr this)
          rw [Option.some.inj hsame]
          rfl

theorem find_pending (ht : ∀ db ∈ dbs, db.Tagged h) (tag : Text) :
    ((pending h none dbs).reverse.find? fun q => q.tag = tag) =
      (stackQuestionGet dbs.reverse tag).map h.cell := by
  rw [pending_none]
  induction dbs with
  | nil => rfl
  | cons db dbs ih =>
      rw [List.flatMap_cons, List.reverse_append, List.find?_append,
        ih fun db' hdb' => ht db' (List.mem_cons_of_mem _ hdb'),
        find_questions (ht db List.mem_cons_self), List.reverse_cons, stackQuestionGet_append]
      cases stackQuestionGet dbs.reverse tag with
      | some r => rfl
      | none =>
          rw [Option.map_none, Option.none_or, Option.none_or, stackQuestionGet_cons]
          cases questionGet db tag <;> rfl

theorem length_pending (h : Heap) (dbs : List QuestionDb) :
    (pending h none dbs).length = stackSize dbs := by
  rw [pending_none, List.length_flatMap]
  unfold stackSize
  congr 1
  exact List.map_congr_left fun db _ => List.length_map _

theorem stackQuestionGet_isSome_reverse (dbs : List QuestionDb) (tag : Text) :
    (stackQuestionGet dbs.reverse tag).isSome = (stackQuestionGet dbs tag).isSome := by
  rw [Bool.eq_iff_iff]
  simp [stackQuestionGet, List.findSome?_isSome_iff]

/-- The copy comes to its end, and it answers every tag like the stack exactly if the
highest and the lowest copy of every tag have the same answer. -/
theorem copydb_get_iff (s : Source) (tdb2 : TemplateDb) :
    ∃ r, debconfCopydb s tdb2 = some r ∧
      ((∀ tag, (questionGet r.db2 tag).map (fun q => (r.heap.cell q).answer) =
          (s.get tag).map fun q => (s.heap.cell q).answer) ↔
        ∀ tag high low, stackQuestionGet s.layers tag = some high →
          stackQuestionGet s.layers.reverse tag = some low →
          (s.heap.cell high).answer = (s.heap.cell low).answer) := by
  have hstart : Copied s.heap [] { heap := s.heap, tdb2 := tdb2 } :=
    ⟨Nat.le_refl _, fun _ _ => rfl, fun _ _ h => (nomatch h), fun _ => rfl⟩
  have htemplate : ∀ q ∈ pending s.heap none s.layers, ∃ t, q.template = some t ∧
      (templateDbGet s.templates t.tag).isSome = true := by
    intro q hq
    rw [pending_none] at hq
    obtain ⟨db, hdb, hq⟩ := List.mem_flatMap.mp hq
    obtain ⟨n, hn, rfl⟩ := List.mem_map.mp hq
    exact s.templated db hdb n hn
  have hrounds : (pending s.heap none s.layers).length < stackSize s.layers + 1 := by
    rw [length_pending]
    exact Nat.lt_succ_self _
  obtain ⟨r, hr, hc⟩ := copyLoop_spec hstart s.allocated htemplate hrounds
  refine ⟨r, hr, ?_⟩
  have hfound : ∀ tag, (questionGet r.db2 tag).map (fun q => (r.heap.cell q).answer) =
      (stackQuestionGet s.layers.reverse tag).map fun q => (s.heap.cell q).answer := by
    intro tag
    rw [hc.found tag, List.nil_append, find_pending s.tagged]
    cases stackQuestionGet s.layers.reverse tag <;> rfl
  constructor
  · intro h tag high low hhigh hlow
    have := h tag
    rw [hfound, hlow, Stack.get, hhigh] at this
    exact (Option.some.inj this).symm
  · intro h tag
    rw [hfound]
    have hsome := stackQuestionGet_isSome_reverse s.layers tag
    cases hhigh : stackQuestionGet s.layers tag with
    | none =>
        rw [hhigh, Option.isSome_none, Option.isSome_eq_false_iff, Option.isNone_iff_eq_none] at hsome
        rw [hsome, Stack.get, hhigh]
    | some high =>
        rw [hhigh] at hsome
        obtain ⟨low, hlow⟩ := Option.isSome_iff_exists.mp hsome
        rw [hlow, Stack.get, hhigh, Option.map_some, Option.map_some, h tag high low hhigh hlow]

/-- A template and a database whose only question points to the object `r`. -/
def netcfg : Template := { tag := "netcfg/hostname", type := some "string" }

def netcfgDb (r : Ref) : QuestionDb :=
  { root := ⟨[("netcfg/hostname", r)], List.pairwise_singleton _ _⟩ }

/-- Two databases, where the upper one hides the answer of the lower one. -/
def shadowed : Source where
  heap :=
    { cell := fun r => { tag := "netcfg/hostname", template := some netcfg,
                         value := some (if r = 0 then "new" else "old")
                         vars_nodup := noVars_nodup, owners_nodup := noOwners_nodup }
      fresh := 2 }
  layers := [netcfgDb 0, netcfgDb 1]
  templates := { root := ⟨[("netcfg/hostname", netcfg)], List.pairwise_singleton _ _⟩ }
  tagged := by
    intro db hdb n hn
    simp only [List.mem_cons, List.not_mem_nil, or_false] at hdb
    rcases hdb with rfl | rfl
    · rw [List.mem_singleton.mp hn]
    · rw [List.mem_singleton.mp hn]
  allocated := by
    intro db hdb n hn
    simp only [List.mem_cons, List.not_mem_nil, or_false] at hdb
    rcases hdb with rfl | rfl
    · rw [List.mem_singleton.mp hn]
      decide
    · rw [List.mem_singleton.mp hn]
      decide
  templated := fun _ _ _ _ => ⟨netcfg, rfl, by decide⟩

/-- The copy has the answer of the lower one. -/
theorem copydb_shadowed :
    ¬∀ (s : Source) (tdb2 : TemplateDb), ∃ r, debconfCopydb s tdb2 = some r ∧
      ∀ tag, (questionGet r.db2 tag).map (fun q => (r.heap.cell q).answer) =
        (s.get tag).map fun q => (s.heap.cell q).answer := by
  intro h
  obtain ⟨r, hr, hall⟩ := h shadowed {}
  have hrun : (debconfCopydb shadowed {}).map (fun r =>
      (questionGet r.db2 "netcfg/hostname").map fun q => (r.heap.cell q).value) =
      some (some (some "old".toList)) := by decide +kernel
  rw [hr, Option.map_some] at hrun
  have hold := hall "netcfg/hostname"
  have hnew : (shadowed.get "netcfg/hostname").map
      (fun q => (shadowed.heap.cell q).answer) = some (some "new".toList, false, []) := by decide +kernel
  rw [hnew] at hold
  obtain ⟨q, hq, hans⟩ := Option.map_eq_some_iff.mp hold
  rw [hq] at hrun
  have hval : (r.heap.cell q).value = some "new".toList := congrArg Prod.fst hans
  rw [Option.map_some, hval] at hrun
  exact absurd hrun (by decide)

end DebianInstaller.Debconf
