import DebianInstaller.Lib.Lines
import DebianInstaller.Text

/-!
# The machine database

The database of flash-kernel is the local file, if there is one, followed by the files that are
shipped. It consists of stanzas with empty lines between them, and a stanza names one or more
machines before it gives their fields.

`get_machine_field` goes through the lines in three states. It does not know about comments: a
comment behind the name of the machine is taken for a field, and then another name is taken for
an error. Nor does it know where the local file ends, so the last stanza of that file and the
first one that is shipped are one stanza if there is no empty line between them.
-/

namespace DebianInstaller.FlashKernel

open Text

/-! ## The code -/

/-- A line as `read field value` splits it. -/
abbrev Entry := Text × Text

/-- `read field value`, for a line without backslashes. -/
def readLine (line : Text) : Entry :=
  let line := (line.dropWhile isBlank).rdropWhile isBlank
  (line.takeWhile (!isBlank ·), (line.dropWhile (!isBlank ·)).dropWhile isBlank)

/-- `$(read_machine_db)`, without the newlines at the end. -/
def machineDb (etcDb db : List Text) : Text :=
  (Lib.unlines '\n' etcDb ++ Lib.unlines '\n' db).rdropWhile (· = '\n')

inductive State where
  | machine
  | gotmachine
  | fields
  deriving DecidableEq

/-- The loop goes on, or the function returns, with what it has printed or with an error. -/
inductive Step where
  | next (state : State)
  | returns (value : Option Text)

def machineKey : Text := "Machine:"

def key (fieldName : Text) : Text := fieldName ++ [':']

/-- The body of the loop. -/
def step (machine fieldName : Text) (state : State) (line : Entry) : Step :=
  let (field, value) := line
  let state :=
    if state = .machine ∧ field = machineKey ∧ value = machine then .gotmachine else state
  if state = .fields ∨ state = .gotmachine then
    if field = key fieldName then .returns (some value)
    else if field = machineKey then
      if state ≠ .gotmachine then .returns none else .next state
    else if field = [] then .next .machine
    else .next .fields
  else .next state

def loop (machine fieldName : Text) : State → List Entry → Option Text
  | _, [] => none
  | state, line :: rest =>
      match step machine fieldName state line with
      | .next state => loop machine fieldName state rest
      | .returns value => value

/-- `get_machine_field` -/
def getMachineField (db machine fieldName : Text) : Option Text :=
  loop machine fieldName .machine ((db.splitOn '\n').map readLine)

/-! ## Stanzas -/

/-- The lines between two empty lines. -/
abbrev Stanza := List Entry

def stanzas (lines : List Text) : List Stanza := (lines.map readLine).splitOnP (·.1 = [])

def isComment (line : Entry) : Bool := line.1.head? = some '#'

def isMachine (line : Entry) : Bool := line.1 = machineKey

/-- But for comments, the machines come first and the fields behind them. -/
def Stanza.Proper (s : Stanza) : Prop :=
  ∃ machines fields, s.filter (!isComment ·) = machines ++ fields ∧
    (∀ p ∈ machines, isMachine p = true) ∧ (∀ p ∈ fields, isMachine p = false) ∧
    (machines = [] → fields = [])

/-- A file with such stanzas. -/
structure Database where
  lines : List Text
  plain : ∀ l ∈ lines, '\n' ∉ l ∧ '\\' ∉ l
  proper : ∀ s ∈ stanzas lines, s.Proper

/-- The name of a field, which is not the beginning of a comment. -/
structure FieldName where
  name : Text
  plain : name.head? ≠ some '#'

section

variable (machine : Text) (fieldName : FieldName)

def machineField : Text := "Machine"

/-- The stanza is about this machine. -/
def Stanza.Lists (s : Stanza) : Prop := (machineKey, machine) ∈ s

instance (s : Stanza) : Decidable (s.Lists machine) :=
  inferInstanceAs (Decidable ((machineKey, machine) ∈ s))

/-- What a stanza says about a machine that it lists. -/
def Stanza.value (s : Stanza) : Option Text :=
  if fieldName.name = machineField then some machine
  else (s.find? (·.1 = key fieldName.name)).map Prod.snd

/-- The value in the first stanza that lists the machine and has the field. -/
def answer (db : List Stanza) : Option Text :=
  db.findSome? fun s => if s.Lists machine then s.value machine fieldName else none

/-! ## What the loop sees of a stanza -/

/-- The lines behind the name of the machine and the names that follow it at once. -/
def Stanza.rest (s : Stanza) : Stanza :=
  ((s.dropWhile (· ≠ (machineKey, machine))).tail).dropWhile isMachine

/-- The line at which the loop ends: the field, or another machine that comes before it. -/
def Stanza.last (s : Stanza) : Option Entry :=
  if s.Lists machine then
    if fieldName.name = machineField then some (machineKey, machine)
    else (s.rest machine).find? fun p => p.1 = key fieldName.name ∨ isMachine p = true
  else none

/-- Behind the name of the machine there is another line, and then one more machine, and the field
is not among the lines between them. -/
def Stanza.Interrupted (s : Stanza) : Prop :=
  ∃ p, s.last machine fieldName = some p ∧ p.1 ≠ key fieldName.name

end

end DebianInstaller.FlashKernel
