import DebianInstaller.Debconf.Confmodule
import DebianInstaller.Lib.Links

/-!
# Asking questions

`INPUT` puts a question on one of two lists of the frontend, `GO` has them asked and
`CLEAR` takes them off. Both lists are threaded through the questions themselves, and
the database hands out one object for a tag, so a question that is put on a list
twice, or on both, is one node.

What a frontend does when it asks is left open: the values, the environment and the
references that are there afterwards, and what it returns. A frontend that is opened
in place of another one is left open, too. The functions stop where an assertion
fails, where a null pointer or a question that has been given back is read, and where
a loop does not end.
-/

namespace DebianInstaller.Debconf

open Text Lib

/-- Why the server stops. -/
inductive Stop where
  | assertion
  | nullPointer
  | freed
  | endless
  deriving DecidableEq

/-- The module and its frontend, with the pointers and the references of the questions. -/
structure Asking where
  heap : Heap
  db : QuestionDb
  links : Links Ref := {}
  refs : Ref → Nat
  questions : Option Ref := none
  noninteractive : Option Ref := none
  name : Text
  interactive : Bool
  env : Env
  /-- `_cmdline::priority` and `_cmdline::showold`. -/
  cmdlinePriority : Option Text := none
  cmdlineShowold : Option Text := none
  backedUp : Bool := false
  seenQuestions : List Text := []

/-- More than there are questions: a loop that takes so many steps takes them forever. -/
def Asking.steps (s : Asking) : Nat := s.heap.fresh + 1

/-- `question_ref`. -/
def Asking.ref (s : Asking) (q : Ref) : Asking :=
  { s with refs := Function.update s.refs q (s.refs q + 1) }

/-- `question_deref`: a question with no reference left is given back. -/
def Asking.deref (s : Asking) (q : Ref) : Except Stop Asking :=
  if s.refs q = 0 then .error .freed
  else .ok { s with refs := Function.update s.refs q (s.refs q - 1) }

/-- `rfc822db_question_get`, which may read any question of the tree. -/
def Asking.get (s : Asking) (tag : Text) : Except Stop (Option Ref) :=
  if s.db.root.nodes.any fun n => s.refs n.2 == 0 then .error .freed
  else .ok (questionGet s.db tag)

/-! ## Priorities -/

/-- `priority_code`. -/
def priorityCode (p : Text) : Int :=
  if p = "low" then 0
  else if p = "medium" then 1
  else if p = "high" then 2
  else if p = "critical" then 3
  else -1

/-- The value of a question of cdebconf itself. -/
def Asking.setting (s : Asking) (tag : Text) : Option Text :=
  (questionGet s.db tag).bind fun q => questionGetvalue s.env (s.heap.cell q) none

/-- `question_db_is_visible`. -/
def Asking.isVisible (s : Asking) (q : Ref) (priority : Text) : Bool :=
  let c := s.heap.cell q
  if c.template.bind Template.type = some "error".toList then true
  else
    let wantprio :=
      (s.cmdlinePriority.or s.env.debianPriority).or (s.setting "debconf/priority")
    let wantprio := if wantprio.getD [] = [] then "medium".toList else wantprio.getD []
    if priorityCode priority < priorityCode wantprio then false
    else if questionGetFlag c "seen" then
      s.cmdlineShowold.or (s.setting "debconf/showold") == some "true".toList
    else true

/-! ## The lists -/

/-- The assertions of `frontend_add` and `frontend_add_noninteractive`. -/
def Asking.unlinked (s : Asking) (q : Ref) : Bool :=
  s.links.prev q == none && s.links.next q == none

/-- `frontend_add`. -/
def frontendAdd (s : Asking) (q : Ref) : Except Stop Asking :=
  if !s.unlinked q then .error .assertion
  else
    match s.questions with
    | none => .ok ({ s with questions := some q }.ref q)
    | some head =>
        match s.links.walk q s.steps head with
        | none => .error .endless
        | some last =>
            -- question asked twice
            if last = q then .ok s
            else .ok ({ s with links := s.links.append last q }.ref q)

/-- `frontend_add_noninteractive`, which does not ask whether the question is there. -/
def frontendAddNoninteractive (s : Asking) (q : Ref) : Except Stop Asking :=
  if !s.unlinked q then .error .assertion
  else
    match s.noninteractive with
    | none => .ok ({ s with noninteractive := some q }.ref q)
    | some head =>
        match s.links.walk q s.steps head with
        | none => .error .endless
        | some last => .ok ({ s with links := s.links.append last q }.ref q)

/-- A loop of `frontend_clear`. -/
def clearList : Nat → Option Ref → Asking → Except Stop Asking
  | 0, _, _ => .error .endless
  | _ + 1, none, s => .ok s
  | n + 1, some q, s =>
      let next := s.links.next q
      do
        let s ← { s with links := s.links.detach q }.deref q
        clearList n next s

/-- `frontend_clear`. -/
def frontendClear (s : Asking) : Except Stop Asking := do
  let s ← clearList s.steps s.questions s
  let s ← clearList s.steps s.noninteractive { s with questions := none }
  return { s with noninteractive := none }

/-! ## Questions that are not shown -/

/-- `lookup_vars`. -/
def lookupVars (vars : List (Text × Text)) (name : Text) : Option Text :=
  if name.head? = some '!' then none
  else some (((vars.find? fun p => p.1 = name).map Prod.snd).getD [])

/-- `q_get_choices_vals`. -/
def choicesVals (env : Env) (c : Question) : Text :=
  ((c.template.bind fun t => templateLget env t (some "C") "choices").map
    (strexpand (lookupVars c.vars))).getD []

/-- What `frontend_go_noninteractive` makes of a selection: a value that is not among the
choices is replaced by the first one. It gives up on choices it cannot count. -/
def selectFirst (env : Env) (c : Question) : Option Question :=
  let choices := choicesVals env c
  let count := strgetargc choices
  let split := strchoicesplit count choices
  if split.length ≠ count then none
  else if split.any fun choice => questionGetvalue env c (some []) == some choice then some c
  else some (questionSetvalue c (some (split.headD [])))

/-- The loop of `frontend_go_noninteractive`. -/
def goNoninteractive : Nat → Option Ref → Asking → Except Stop Asking
  | 0, _, _ => .error .endless
  | _ + 1, none, s => .ok s
  | n + 1, some q, s =>
      match (s.heap.cell q).template.bind Template.type with
      | none => .error .nullPointer
      | some type =>
          if type = "select" then
            match selectFirst s.env (s.heap.cell q) with
            | none => .ok s
            | some c =>
                goNoninteractive n (s.links.next q) { s with heap := s.heap.modify q fun _ => c }
          else goNoninteractive n (s.links.next q) s

/-! ## Questions that have been seen -/

/-- The tags of a list, if it has an end. -/
def Asking.tagsOf (s : Asking) (head : Option Ref) : Except Stop (List Text) :=
  let qs := s.links.chain s.steps head
  if qs.length = s.steps then .error .endless
  else .ok (qs.map fun q => (s.heap.cell q).tag)

/-- Tags are taken from the end while they are the same. -/
def dropSeen : List Text → List Text → List Text
  | seen, [] => seen
  | seen, t :: ts => if seen.getLast? = some t then dropSeen seen.dropLast ts else seen

/-- `confmodule_update_seen_questions` with `STACK_SEEN_ADD` and `STACK_SEEN_REMOVE`. -/
def updateSeen (s : Asking) (add : Bool) : Except Stop Asking :=
  if !add && s.seenQuestions.isEmpty then .ok s
  else do
    let tags ← s.tagsOf s.questions
    return { s with
      seenQuestions :=
        if add then s.seenQuestions ++ tags else dropSeen s.seenQuestions tags.reverse }

/-! ## Commands -/

/-- What is left open of a `GO`: the frontend that is opened, if this succeeds, and what the
frontend has done to the questions. -/
structure GoOutcome where
  opened : Option (Text × Bool)
  ret : Int
  cell : Ref → Question
  added : Ref → Nat
  env : Env

/-- Whether another frontend is wanted. -/
def Asking.wantsOther (s : Asking) : Bool :=
  s.env.debianFrontend.any fun requested => requested != s.name

/-- The change to another frontend: it is given the lists, and the old one is deleted. -/
def switchFrontend (s : Asking) (o : GoOutcome) : Except Stop Asking :=
  match s.wantsOther, o.opened with
  | true, some (name, interactive) => do
      let cleared ← frontendClear s
      return { cleared with
        questions := s.questions, noninteractive := s.noninteractive
        name := name, interactive := interactive }
  | _, _ => .ok s

/-- `CMDSTATUS_GOBACK`. -/
def goBack : Int := 30

/-- What a frontend has done to the questions, and whether it went back. -/
def Asking.asked (s : Asking) (o : GoOutcome) : Asking :=
  { s with
    heap := { s.heap with cell := o.cell }
    env := o.env
    refs := fun q => s.refs q + o.added q
    backedUp := o.ret = goBack || s.backedUp }

/-- `command_go` with the frontend it has. -/
def goOn (s : Asking) (o : GoOutcome) : Except Stop (Text × Asking) := do
  let s ← goNoninteractive s.steps s.noninteractive s
  let s := s.asked o
  let fine := !s.backedUp && o.ret ≠ 0
  let out :=
    if s.backedUp then reply .inputInvisible (some "backup")
    else if fine then reply .success (some "ok")
    else reply .internalError (some "internal error")
  let s ← frontendClear (← updateSeen s fine)
  return (out, s)

/-- `command_go`. -/
def commandGo (s : Asking) (arg : Text) (o : GoOutcome) : Except Stop (Text × Asking) :=
  match strcmdsplit 2 arg with
  | [] => do goOn (← switchFrontend s o) o
  | _ => .ok (reply .syntaxError (some "Incorrect number of arguments"), s)

/-- `command_input`. -/
def commandInput (s : Asking) (arg : Text) : Except Stop (Text × Asking) :=
  match strcmdsplit 3 arg with
  | [priority, tag] => do
      match ← s.get tag with
      | none =>
          return (reply .badQuestion (some ('"' :: tag ++ "\" doesn't exist")), s)
      | some q =>
          let s := s.ref q
          if s.interactive && s.isVisible q priority then
            let s ← (← frontendAdd s q).deref q
            return (reply .success (some "question will be asked"),
              { s with backedUp := false })
          else
            let s ← (← frontendAddNoninteractive s q).deref q
            return (reply .inputInvisible (some "question skipped"), s)
  | _ => .ok (reply .syntaxError (some "Incorrect number of arguments"), s)

/-- `command_clear`. -/
def commandClear (s : Asking) (arg : Text) : Except Stop (Text × Asking) :=
  match strcmdsplit 3 arg with
  | [] => do return (reply .success none, ← frontendClear s)
  | _ => .ok (reply .syntaxError (some "Incorrect number of arguments"), s)

/-- A command about the lists. -/
inductive AskCommand where
  | input (arg : Text)
  | clear (arg : Text)
  | go (arg : Text) (outcome : GoOutcome)

def AskCommand.handle (s : Asking) : AskCommand → Except Stop (Text × Asking)
  | .input arg => commandInput s arg
  | .clear arg => commandClear s arg
  | .go arg o => commandGo s arg o

/-- A run of commands. -/
def ask (s : Asking) : List AskCommand → Except Stop Asking
  | [] => .ok s
  | c :: cs => do ask (← c.handle s).2 cs

end DebianInstaller.Debconf
