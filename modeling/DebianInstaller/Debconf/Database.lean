import DebianInstaller.Debconf.Question
import DebianInstaller.Lib.Tree
import Mathlib.Data.List.Lex
import Mathlib.Data.Char

/-!
# Question databases

The caches of `rfc822db.c` and the stack of databases of `stack.c`. A question is
an object in memory and the trees hold pointers to it; a database hands out the
pointer it holds, so whoever gets a question shares it. The nodes carry the tag
they are sorted by. How often an object is referred to is not modelled: no object
that a tree holds is given back.
-/

namespace DebianInstaller.Debconf

open Text Lib

/-- The codes `DC_*` of `constants.h`. -/
inductive Status where
  | notOk
  | ok
  | notImpl
  | authNeeded
  | reject
  deriving DecidableEq

/-- The values of `DC_*`. -/
def Status.code : Status → Nat
  | .notOk => 0
  | .ok => 1
  | .notImpl => 2
  | .authNeeded => 3
  | .reject => 4

/-! ## Objects -/

/-- A pointer to a question. -/
abbrev Ref := Nat

/-- The questions in memory, and the next one there is room for. -/
structure Heap where
  cell : Ref → Question
  fresh : Ref

/-- A question is changed in place. -/
def Heap.modify (h : Heap) (r : Ref) (f : Question → Question) : Heap :=
  { h with cell := Function.update h.cell r (f (h.cell r)) }

/-- A new question. -/
def Heap.alloc (h : Heap) (q : Question) : Ref × Heap :=
  (h.fresh, { cell := Function.update h.cell h.fresh q, fresh := h.fresh + 1 })

@[simp]
theorem modify_cell_self (h : Heap) (r : Ref) (f : Question → Question) :
    (h.modify r f).cell r = f (h.cell r) := Function.update_self ..

theorem modify_cell_of_ne {h : Heap} {r r' : Ref} (f : Question → Question) (hr : r' ≠ r) :
    (h.modify r f).cell r' = h.cell r' := Function.update_of_ne hr ..

/-! ## The cache of `rfc822db` -/

/-- A question database: the types it takes, `root` and `dirty`. -/
structure QuestionDb where
  acceptTypes : Option (List Text) := none
  rejectTypes : Option (List Text) := none
  root : Tree Text Ref := ∅
  dirty : Bool := false

/-- The nodes carry the tags of the questions they point to. -/
def QuestionDb.Tagged (h : Heap) (db : QuestionDb) : Prop :=
  ∀ n ∈ db.root.nodes, (h.cell n.2).tag = n.1

/-- The questions of a database, in order. -/
def QuestionDb.questions (h : Heap) (db : QuestionDb) : List Question :=
  db.root.nodes.map fun n => h.cell n.2

/-- `rfc822db_question_get`. -/
def questionGet (db : QuestionDb) (tag : Text) : Option Ref := db.root.tfind tag

/-- `rfc822db_question_set`. -/
def questionSet (h : Heap) (db : QuestionDb) (q : Ref) : Heap × QuestionDb :=
  let tag := (h.cell q).tag
  -- merge old and new owner lists
  let h :=
    match db.root.tfind tag with
    | some old => h.modify q fun c => (h.cell old).owners.foldl questionOwnerAdd c
    | none => h
  (h, { db with root := (db.root.tdelete tag).tsearch tag q, dirty := true })

/-- `rfc822db_question_remove`. -/
def questionRemove (db : QuestionDb) (tag : Text) : Status × QuestionDb :=
  match db.root.tfind tag with
  | some _ => (.ok, { db with root := db.root.tdelete tag, dirty := true })
  | none => (.notOk, db)

/-- `rfc822db_question_disown`. -/
def questionDisown (h : Heap) (db : QuestionDb) (tag owner : Text) :
    Status × Heap × QuestionDb :=
  match questionGet db tag with
  | none => (.notOk, h, db)
  | some q =>
      let h := h.modify q fun c => questionOwnerDelete c owner
      if (h.cell q).owners = [] then (.ok, h, (questionRemove db (h.cell q).tag).2)
      else
        let (h, db) := questionSet h db q
        (.ok, h, db)

/-- `rfc822db_question_iterate`: the copies of the questions that are still to come, or
none where the iteration has not begun. -/
def questionIterate (h : Heap) (db : QuestionDb) (iter : Option (List Question)) :
    Option (Question × List Question) :=
  match iter.getD (db.root.nodes.map fun n => questionDup (h.cell n.2)) with
  | [] => none
  | q :: qs => some (q, qs)

/-- `question_db_disownall`, over the tags of the copies. -/
def questionDisownall (h : Heap) (db : QuestionDb) (owner : Text) : Heap × QuestionDb :=
  (db.root.nodes.map fun n => questionDup (h.cell n.2)).foldl
    (fun (s : Heap × QuestionDb) q => (questionDisown s.1 s.2 q.tag owner).2) (h, db)

/-- `common_accept`. -/
def commonAccept (type : Text) (acceptTypes rejectTypes : Option (List Text)) : Status :=
  if acceptTypes.any (type ∉ ·) then .reject
  else if rejectTypes.any (type ∈ ·) then .reject
  else .ok

/-- `question_db_accept`. -/
def questionAccept (h : Heap) (db : QuestionDb) (name : Text) (type : Option Text) : Status :=
  let type :=
    if type.getD [] = [] then
      (((questionGet db name).bind fun q => (h.cell q).template).bind Template.type).getD []
    else type.getD []
  commonAccept type db.acceptTypes db.rejectTypes

/-! ## The stack -/

/-- The type that `stack_question_db_set` asks about. -/
def Question.typeOf (q : Question) : Option Text :=
  match q.template with
  | some t => t.type
  | none => some []

/-- `stack_question_db_set`. -/
def stackQuestionSet (h : Heap) (q : Ref) : List QuestionDb → Status × Heap × List QuestionDb
  | [] => (.reject, h, [])
  | db :: dbs =>
      if questionAccept h db (h.cell q).tag (h.cell q).typeOf = .reject then
        let r := stackQuestionSet h q dbs
        (r.1, r.2.1, (questionRemove db (h.cell q).tag).2 :: r.2.2)
      else
        let (h, db) := questionSet h db q
        (.ok, h, db :: dbs)

/-- `stack_question_db_get`. -/
def stackQuestionGet (dbs : List QuestionDb) (name : Text) : Option Ref :=
  dbs.findSome? fun db => questionGet db name

/-- `stack_question_db_iterate`: the databases that are left, and the copies of the first
one that are still to come. -/
def stackQuestionIterate (h : Heap) (iter : Option (List Question)) :
    List QuestionDb → Option (Question × List QuestionDb × List Question)
  | [] => none
  | db :: dbs =>
      match questionIterate h db iter with
      | some (q, qs) => some (q, db :: dbs, qs)
      | none => stackQuestionIterate h none dbs

/-! ## Templates -/

/-- The cache of templates. -/
structure TemplateDb where
  root : Tree Text Template := ∅
  dirty : Bool := false

/-- `rfc822db_template_get`. -/
def templateDbGet (db : TemplateDb) (tag : Text) : Option Template := db.root.tfind tag

/-- `rfc822db_template_set`. -/
def templateDbSet (db : TemplateDb) (t : Template) : TemplateDb :=
  { root := (db.root.tdelete t.tag).tsearch t.tag t, dirty := true }

/-! ## What the operations do -/

theorem questionGet_set_self (h : Heap) (db : QuestionDb) (q : Ref) :
    questionGet (questionSet h db q).2 (h.cell q).tag = some q :=
  db.root.tfind_replace_self _ q

theorem questionGet_set_of_ne {h : Heap} {db : QuestionDb} {q : Ref} {tag : Text}
    (htag : tag ≠ (h.cell q).tag) :
    questionGet (questionSet h db q).2 tag = questionGet db tag :=
  Tree.tfind_replace_of_ne htag

theorem questionGet_remove_self (db : QuestionDb) (tag : Text) :
    questionGet (questionRemove db tag).2 tag = none := by
  cases hf : db.root.tfind tag with
  | some r =>
      simp only [questionRemove, hf]
      exact db.root.tfind_tdelete_self tag
  | none =>
      simp only [questionRemove, hf]
      exact hf

theorem questionGet_remove_of_ne {db : QuestionDb} {tag tag' : Text} (htag : tag' ≠ tag) :
    questionGet (questionRemove db tag).2 tag' = questionGet db tag' := by
  cases hf : db.root.tfind tag with
  | some r =>
      simp only [questionRemove, hf]
      exact Tree.tfind_tdelete_of_ne htag
  | none => simp only [questionRemove, hf]

theorem foldl_ownerAdd_tag (os : List Text) (q : Question) :
    (os.foldl questionOwnerAdd q).tag = q.tag := by
  induction os generalizing q with
  | nil => rfl
  | cons o os ih => exact ih _

theorem questionSet_cell (h : Heap) (db : QuestionDb) (q r : Ref) :
    ((questionSet h db q).1.cell r).tag = (h.cell r).tag ∧
      (r ≠ q → (questionSet h db q).1.cell r = h.cell r) := by
  unfold questionSet
  dsimp only
  split
  · next old _ =>
      by_cases hr : r = q
      · subst hr
        rw [modify_cell_self]
        exact ⟨foldl_ownerAdd_tag _ _, fun hne => absurd rfl hne⟩
      · rw [modify_cell_of_ne _ hr]
        exact ⟨rfl, fun _ => rfl⟩
  · exact ⟨rfl, fun _ => rfl⟩

end DebianInstaller.Debconf
