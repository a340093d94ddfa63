import DebianInstaller.Debconf.Confmodule
import DebianInstaller.Debconf.Rfc822db

/-!
# The commands on questions

The handlers of `commands.c` that read and change questions, over one database of
`rfc822db`, and what `X_SAVE` does. The commands that need a frontend are left open,
and so is what `rfc822db_template_reload` makes of the templates when the language
changes: it reads their file again and changes them in place.
-/

namespace DebianInstaller.Debconf

open Text Lib

/-- `struct confmodule`, with the capability of its frontend to escape. -/
structure Module where
  heap : Heap
  questions : QuestionDb
  templates : TemplateDb
  escape : Bool
  owner : Text
  env : Env

/-- What a reload makes of the template of a question, and of the templates. -/
abbrev Reload := Env → TemplateDb → (Ref → Template → Template) × TemplateDb

/-- The templates stay as they are. -/
def noReload : Reload := fun _ tdb => (fun _ t => t, tdb)

variable (reload : Reload)

/-- `rfc822db_template_reload`. -/
def Module.reloaded (mod : Module) : Module :=
  let r := reload mod.env mod.templates
  { mod with
    heap := { mod.heap with cell := fun q =>
      { mod.heap.cell q with template := (mod.heap.cell q).template.map (r.1 q) } }
    templates := r.2 }

/-- `mod->questions->methods.set`. -/
def Module.set (mod : Module) (q : Ref) : Module :=
  let r := questionSet mod.heap mod.questions q
  { mod with heap := r.1, questions := r.2 }

/-- A question is changed in place. -/
def Module.modify (mod : Module) (q : Ref) (f : Question → Question) : Module :=
  { mod with heap := mod.heap.modify q f }

@[simp]
theorem Module.modify_cell_self (mod : Module) (q : Ref) (f : Question → Question) :
    (mod.modify q f).heap.cell q = f (mod.heap.cell q) := Debconf.modify_cell_self ..

/-- `frontend_qdb_set`, where setting always succeeds. -/
def frontendQdbSet (mod : Module) (q : Ref) (prev : Option Text) : Module :=
  let mod := mod.set q
  let newval := (questionGetvalue mod.env (mod.heap.cell q) (some [])).getD []
  let tag := (mod.heap.cell q).tag
  if tag = "debconf/language" then
    let mod := { mod with env := { mod.env with language := some newval } }
    if mod.env.dropTranslations ∧ newval ≠ "C" ∧ newval ≠ "en" ∧ prev ≠ some newval
    then mod.reloaded reload
    else mod
  else if tag = "debconf/priority" then
    { mod with env := { mod.env with debianPriority := some newval } }
  else if tag = "cdebconf/frontend" then
    { mod with env := { mod.env with debianFrontend := some newval } }
  else mod

/-! ## Handlers -/

/-- `CHECKARGC`. -/
def incorrectArgs : Text :=
  reply .syntaxError (some "Incorrect number of arguments")

def doesntExist (tag : Text) : Text :=
  reply .badQuestion (some (tag ++ " doesn't exist"))

/-- `command_get`. -/
def commandGet (mod : Module) (arg : Text) : Text × Module :=
  match strcmdsplit 3 arg with
  | [tag] =>
      match questionGet mod.questions tag with
      | none => (doesntExist tag, mod)
      | some q =>
          let value := questionGetvalue mod.env (mod.heap.cell q) (some "C")
          if mod.escape then
            (reply .escapedData (some ((value.map escapestrFrontend).getD [])), mod)
          else (reply .success (some (value.getD [])), mod)
  | _ => (incorrectArgs, mod)

/-- `command_set`. -/
def commandSet (mod : Module) (arg : Text) : Text × Module :=
  match strcmdsplit 2 arg with
  | tag :: rest =>
      match questionGet mod.questions tag with
      | none => (doesntExist tag, mod)
      | some q =>
          let prev := questionGetvalue mod.env (mod.heap.cell q) (some [])
          let mod := mod.modify q fun c => questionSetvalue c (some (rest.headD []))
          (reply .success (some "value set"), frontendQdbSet reload mod q prev)
  | [] => (incorrectArgs, mod)

/-- `command_reset`. -/
def commandReset (mod : Module) (arg : Text) : Text × Module :=
  match strcmdsplit 2 arg with
  | [tag] =>
      match questionGet mod.questions tag with
      | none => (doesntExist tag, mod)
      | some q =>
          let mod := mod.modify q fun c =>
            questionClearFlag (questionSetvalue c none) "seen"
          (reply .success none, mod.set q)
  | _ => (incorrectArgs, mod)

/-- `command_subst`. -/
def commandSubst (mod : Module) (arg : Text) : Text × Module :=
  match strcmdsplit 3 arg with
  | tag :: var :: rest =>
      match questionGet mod.questions tag with
      | none => (doesntExist tag, mod)
      | some q =>
          let mod := mod.modify q fun c => questionVariableAdd c var (rest.headD [])
          (reply .success none, mod.set q)
  | _ => (incorrectArgs, mod)

/-- The question that `REGISTER` works on: the one that is there, or a new one. -/
def Module.questionFor (mod : Module) (tag : Text) : Ref × Module :=
  match questionGet mod.questions tag with
  | some q => (q, mod)
  | none =>
      let r := mod.heap.alloc (questionNew tag)
      (r.1, { mod with heap := r.2 })

/-- `command_register`. -/
def commandRegister (mod : Module) (arg : Text) : Text × Module :=
  match strcmdsplit 4 arg with
  | [template, tag] =>
      match templateDbGet mod.templates template with
      | none =>
          (reply .badQuestion (some ("No such template, \"" ++ template ++ ['"'])), mod)
      | some t =>
          let r := mod.questionFor tag
          let mod := r.2.modify r.1 fun c =>
            { questionOwnerAdd c mod.owner with template := some t }
          (reply .success none, mod.set r.1)
  | _ => (incorrectArgs, mod)

/-- `command_unregister`, which leaves the database as it is. -/
def commandUnregister (mod : Module) (arg : Text) : Text × Module :=
  match strcmdsplit 3 arg with
  | [tag] =>
      match questionGet mod.questions tag with
      | none => (doesntExist tag, mod)
      | some q =>
          (reply .success none, mod.modify q fun c => questionOwnerDelete c mod.owner)
  | _ => (incorrectArgs, mod)

/-- `command_purge`. -/
def commandPurge (mod : Module) (_arg : Text) : Text × Module :=
  let r := questionDisownall mod.heap mod.questions mod.owner
  (reply .success none, { mod with heap := r.1, questions := r.2 })

/-- `command_fget`. -/
def commandFget (mod : Module) (arg : Text) : Text × Module :=
  match strcmdsplit 4 arg with
  | [tag, field] =>
      match questionGet mod.questions tag with
      | none => (doesntExist tag, mod)
      | some q =>
          let c := mod.heap.cell q
          let set :=
            if field = "isdefault" then !questionGetFlag c "seen"
            else questionGetFlag c field
          (reply .success (some (if set then "true" else "false")), mod)
  | _ => (incorrectArgs, mod)

/-- The flag that `FSET` sets or clears, and which of them. -/
def fsetFlag (field value : Text) : Text × Bool :=
  if field = "isdefault" then ("seen", value = "false")
  else (field, value = "true")

/-- `command_fset`, which leaves the database as it is, too. -/
def commandFset (mod : Module) (arg : Text) : Text × Module :=
  match strcmdsplit 5 arg with
  | [tag, field, value] =>
      match questionGet mod.questions tag with
      | none => (doesntExist tag, mod)
      | some q =>
          let (flag, on) := fsetFlag field value
          (reply .success (some value),
            mod.modify q fun c => if on then questionSetFlag c flag else questionClearFlag c flag)
  | _ => (incorrectArgs, mod)

/-- `command_exist`. -/
def commandExist (mod : Module) (arg : Text) : Text × Module :=
  match strcmdsplit 3 arg with
  | [tag] =>
      (reply .success (some (if (questionGet mod.questions tag).isSome then "true"
        else "false")), mod)
  | _ => (incorrectArgs, mod)

/-- The table of commands, with those that are left open. -/
def commandTable (others : List (Command Module)) : List (Command Module) :=
  [⟨"exist", commandExist⟩, ⟨"fget", commandFget⟩, ⟨"fset", commandFset⟩,
    ⟨"get", commandGet⟩, ⟨"purge", commandPurge⟩,
    ⟨"register", commandRegister⟩, ⟨"reset", commandReset⟩,
    ⟨"set", commandSet reload⟩, ⟨"subst", commandSubst⟩,
    ⟨"unregister", commandUnregister⟩] ++ others

/-- `_confmodule_process` with this table. -/
def processLine (others : List (Command Module)) (mod : Module) (line : Text) :
    Option Text × Module :=
  confmoduleProcess (commandTable reload others) Module.escape mod line

end DebianInstaller.Debconf
