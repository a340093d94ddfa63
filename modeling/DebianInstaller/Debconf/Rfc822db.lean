import DebianInstaller.Debconf.Database
import DebianInstaller.Debconf.Rfc822

/-!
# The files of `rfc822db`

How the questions of a database are written to its file and read from it, field by
field, and when the file is written at all.
-/

namespace DebianInstaller.Debconf

open Text Lib

/-! ## Writing -/

/-- The list behind `Owners:`. -/
def dumpOwners : List Text → Text
  | [] => []
  | [o] => escapestr o
  | o :: os => escapestr o ++ ", " ++ dumpOwners os

/-- A line of the block of variables. -/
def dumpVariable (p : Text × Text) : Text :=
  ' ' :: escapestr p.1 ++ " = " ++ escapestr p.2

/-- The tag of the template that `question->template` points to. -/
def Question.templateTag (q : Question) : Text := (q.template.map Template.tag).getD []

/-- `rfc822db_question_dump`. -/
def questionDump (q : Question) : Text :=
  "Name: ".toList ++ escapestr q.tag ++ ['\n'] ++
  "Template: " ++ escapestr q.templateTag ++ ['\n'] ++
  (match q.value with
    | some v => "Value: " ++ escapestr v ++ ['\n']
    | none => []) ++
  (if q.owners = [] then [] else "Owners: ".toList ++ dumpOwners q.owners ++ ['\n']) ++
  (if questionGetFlag q "seen".toList then "Flags: seen\n".toList else []) ++
  (if q.vars = [] then []
    else "Variables:\n".toList ++ q.vars.flatMap fun p => dumpVariable p ++ ['\n']) ++
  ['\n']

/-- What `twalk` writes with `rfc822db_question_dump`. -/
def dumpFile (h : Heap) (db : QuestionDb) : Text := (db.questions h).flatMap questionDump

/-- How the attempt to write a file goes. -/
inductive WriteResult where
  | notOpened
  | notClosed
  /-- The old file is moved away and the new one not into its place. -/
  | notRenamed
  | written
  deriving DecidableEq

/-- `rfc822db_save`. -/
def rfc822dbSave (contents : Text) (file : Option Text) : WriteResult → Status × Option Text
  | .notOpened => (.notOk, file)
  | .notClosed => (.ok, file)
  | .notRenamed => (.ok, none)
  | .written => (.ok, some contents)

/-- `rfc822db_question_save`: a clean database is not written over a file that is there. -/
def questionSave (h : Heap) (db : QuestionDb) (file : Option Text) (r : WriteResult) :
    Status × Option Text :=
  if !db.dirty && file.isSome then (.ok, file) else rfc822dbSave (dumpFile h db) file r

/-! ## Reading -/

/-- The items of a list with commas, for a number of rounds. -/
def splitItems : Nat → Text → List Text
  | 0, _ => []
  | n + 1, t =>
      let item := t.takeWhile (· != ',')
      match t.dropWhile (· != ',') with
      | [] => [item]
      | _ :: rest => item :: splitItems n (rest.dropWhile isBlank)

/-- `parse_owners`. -/
def parseOwners (q : Question) : Option Text → Question
  | none => q
  | some t => (splitItems (t.length + 1) t).foldl questionOwnerAdd q

/-- `parse_flags`. -/
def parseFlags (q : Question) : Option Text → Question
  | none => q
  | some t => (splitItems (t.length + 1) t).foldl questionSetFlag q

/-- The pairs of a block of variables, for a number of rounds. A line without an equals
sign is the last one. -/
def splitVariables : Nat → Text → List (Text × Text)
  | 0, _ => []
  | _, [] => []
  | n + 1, t =>
      let val := (t.dropWhile (· != '=')).tail
      let pair := (strstrip (t.takeWhile (· != '=')), strstrip (val.takeWhile (· != '\n')))
      match val.dropWhile (· != '\n') with
      | [] => [pair]
      | _ :: rest => pair :: splitVariables n (rest.dropWhile isBlank)

/-- `parse_variables`. -/
def parseVariables (q : Question) : Option Text → Question
  | none => q
  | some t => (splitVariables t.length t).foldl (fun q p => questionVariableAdd q p.1 p.2) q

/-- A stanza of `rfc822db_question_load`: no question without a name, and a new template
where the one it has is not known. -/
def loadStanza (tdb : TemplateDb) (hs : List Header) : Option (Question × TemplateDb) :=
  match headerLookup hs "name" with
  | none => none
  | some [] => none
  | some (c :: name) =>
      let q := questionSetvalue (questionNew (c :: name)) (headerLookup hs "value")
      let q := parseFlags q (headerLookup hs "flags")
      let q := parseOwners q (headerLookup hs "owners")
      let q := parseVariables q (headerLookup hs "variables")
      match templateDbGet tdb ((headerLookup hs "template").getD []) with
      | some t => some ({ q with template := some t }, tdb)
      | none =>
          let t := templateNew (c :: name)
          some ({ q with template := some t }, templateDbSet tdb t)

/-- The memory and the databases while a file is loaded. -/
structure Loading where
  heap : Heap
  db : QuestionDb
  tdb : TemplateDb

/-- One round of `rfc822db_question_load`. -/
def loadQuestion (s : Loading) (hs : List Header) : Loading :=
  match loadStanza s.tdb hs with
  | none => s
  | some (q, tdb) =>
      let r := s.heap.alloc q
      { heap := r.2, db := { s.db with root := s.db.root.tsearch q.tag r.1 }, tdb := tdb }

/-- `rfc822db_question_load`. -/
def questionLoad (s : Loading) (file : Text) : Loading := (parseFile file).foldl loadQuestion s

end DebianInstaller.Debconf
