import DebianInstaller.Debootstrap.Words

/-!
# Preseed files and their checksums

`preseed_location` loads a file and then what the file asks for: the files that it includes, each
of which is loaded in the same way, and the programs that it wants to be run. The locations are
the words of one question and the checksums those of another. For each location a word is cut
from the checksums; from the last word nothing is cut, so it is used for every location that is
left.

The function calls itself, and the variables of the shell are global unless they are declared to
be local. What a call does to a local variable is undone at its end, so the caller finds its
list of checksums as it was. Calls may go on without an end, so a run may also be a part of one.
-/

namespace DebianInstaller.Preseed

open Debootstrap (expand)

/-! ## The shell and the system -/

/-- The questions that are read and set. -/
inductive Question where
  | preseedInclude
  | includeCommand
  | includeChecksum
  | run
  | runChecksum
  | interactive
  /-- `preseed/url` or `preseed/file` -/
  | template (name : Text)
  /-- Its checksums. -/
  | templateChecksum (name : Text)

/-- What `preseed_fetch` returns. -/
inductive Status where
  | fetched
  | checksumError
  | retrieveError

/-- The debconf database, the files, the network and all programs. -/
structure System (W : Type) where
  /-- `db_get`: what is in `RET` then, if there is such a question. -/
  get : Question → W → Option Text
  set : Question → Text → W → W
  /-- `preseed_fetch` -/
  fetch : Text → Text → W → Status × W
  /-- `debconf-set-selections`, with `--unseen` or not. -/
  setSelections : Bool → W → Option W
  /-- `$(eval …)` -/
  eval : Text → W → Text × W
  /-- The program that has been fetched is run. -/
  execute : W → Option W
  /-- `/var/run/preseed.last_location` is written. -/
  setLastLocation : Text → W → W
  /-- The file names that a word stands for. -/
  glob : Text → List Text
  glob_ne_nil : ∀ w, ∀ g ∈ glob w, g ≠ []
  /-- A text is what a pattern stands for. -/
  fits : Text → Text → Bool
  fits_plain : ∀ w t, (∀ c ∈ w, c ∉ ['*', '?', '[', '\\']) → (fits w t = true ↔ t = w)

/-- The variables of the script, as far as they are used after they have been changed by a call. -/
structure Vars where
  location : Text
  checksum : Text
  sum : Text
  torun : Text
  torunChecksum : Text
  included : Text
  lastLocation : Text

/-- A list that is worked through: the locations that are asked for, and their checksums. -/
structure Listing where
  targets : List Text
  checksums : Text

/-- A call of `preseed_fetch`, and the list that it was made for. -/
structure Fetch where
  list : ℕ
  location : Text
  checksum : Text

structure State (W : Type) where
  vars : Vars
  world : W
  lists : List Listing
  fetches : List Fetch

/-- The script goes on, or it has called `exit`, or this is as far as the run was followed. -/
inductive Outcome where
  | done
  | exit
  | unfinished
  deriving DecidableEq

structure Result (W : Type) where
  outcome : Outcome
  state : State W

variable {W : Type}

/-- One command and the next. -/
def Result.andThen (r : Result W) (next : State W → Result W) : Result W :=
  match r.outcome with
  | .done => next r.state
  | o => ⟨o, r.state⟩

/-! ## Words and checksums -/

variable (sys : System W)

/-- The words of a variable without quotes. -/
def System.words (t : Text) : List Text := (expand t).flatMap sys.glob

/-- `${checksum%% *}` -/
def firstSum (checksum : Text) : Text := checksum.takeWhile (· ≠ ' ')

/-- `${checksum#$sum }`. The sum is a pattern here. -/
def System.cutSum (sum checksum : Text) : Text :=
  match checksum.inits.find? (sys.fits (sum ++ [' '])) with
  | some found => checksum.drop found.length
  | none => checksum

/-- `${last%%/./*}` -/
def beforeRoot : Text → Text
  | [] => []
  | c :: t => if ['/', '.', '/'].isPrefixOf (c :: t) then [] else c :: beforeRoot t

/-- `${last%/*}` -/
def beforeSlash (last : Text) : Text :=
  if '/' ∈ last then (last.reverse.dropWhile (· ≠ '/')).tail.reverse else last

/-- What `'\([^:]*://[^/]*/\)'` matches. -/
def hostOf (last : Text) : Text :=
  let scheme := last.takeWhile (· ≠ ':')
  match last.drop scheme.length with
  | ':' :: '/' :: '/' :: rest =>
      let host := rest.takeWhile (· ≠ '/')
      if (rest.drop host.length).isEmpty = true then []
      else scheme ++ ':' :: '/' :: '/' :: (host ++ ['/'])
  | _ => []

/-- `expr $last : '\([^:]*://[^/]*/\)'`, which is an error if there are more words. -/
def System.exprHost (last : Text) : Text :=
  match sys.words last with
  | [last] => hostOf last
  | _ => []

/-- What remains of the output of a command. -/
def substituted (t : Text) : Text := (t.reverse.dropWhile (· = '\n')).reverse

/-- `$(make_absolute_url "$url" "$last")` -/
def System.makeAbsoluteUrl (url last : Text) : Text :=
  substituted <|
    if "://" <:+: url then url
    else if url.head? = some '/' then
      if last = [] ∨ "/./" <:+: last then beforeRoot last ++ '/' :: '.' :: url
      else sys.exprHost last ++ url
    else if url = [] then url
    else beforeSlash last ++ '/' :: url

/-! ## preseed.sh -/

namespace State

def setVars (s : State W) (f : Vars → Vars) : State W := { s with vars := f s.vars }

def setWorld (s : State W) (w : W) : State W := { s with world := w }

/-- A list is opened. -/
def openList (s : State W) (targets : List Text) (checksums : Text) : State W :=
  { s with lists := s.lists ++ [⟨targets, checksums⟩] }

def record (s : State W) (list : ℕ) (location checksum : Text) : State W :=
  { s with fetches := s.fetches ++ [⟨list, location, checksum⟩] }

end State

/-- `preseed_fetch` -/
def doFetch (list : ℕ) (location checksum : Text) (s : State W) : Status × State W :=
  let (status, w) := sys.fetch location checksum s.world
  (status, (s.record list location checksum).setWorld w)

/-- The variables for one location of a list of files. -/
def nextInclude (location : Text) (s : State W) : State W :=
  let s := s.setVars fun v => { v with location := location }
  let s := s.setVars fun v => { v with sum := firstSum v.checksum }
  let s := s.setVars fun v => { v with checksum := sys.cutSum v.sum v.checksum }
  s.setVars fun v => { v with location := sys.makeAbsoluteUrl v.location v.lastLocation }

/-- The same for a program. -/
def nextProgram (location : Text) (s : State W) : State W :=
  let s := s.setVars fun v => { v with location := location }
  let s := s.setVars fun v => { v with sum := firstSum v.torunChecksum }
  let s := s.setVars fun v => { v with torunChecksum := sys.cutSum v.sum v.torunChecksum }
  s.setVars fun v => { v with location := sys.makeAbsoluteUrl v.location v.lastLocation }

/-- The same for a file that is named in the question that all begins with. -/
def nextSum (s : State W) : State W :=
  let s := s.setVars fun v => { v with sum := firstSum v.checksum }
  s.setVars fun v => { v with checksum := sys.cutSum v.sum v.checksum }

/-- `for location in $include`, where `call` is `preseed_location`. -/
def includes (call : ℕ → Text → Text → State W → Result W) (list : ℕ) :
    List Text → State W → Result W
  | [], s => ⟨.done, s⟩
  | location :: rest, s =>
      let s := nextInclude sys location s
      if s.vars.location = [] then includes call list rest s
      else (call list s.vars.location s.vars.sum s).andThen (includes call list rest)

/-- `for location in $torun` -/
def programs (list : ℕ) : List Text → State W → Result W
  | [], s => ⟨.done, s⟩
  | location :: rest, s =>
      let s := nextProgram sys location s
      if s.vars.location = [] then programs list rest s
      else
        match doFetch sys list s.vars.location s.vars.sum s with
        | (.fetched, s) =>
            match sys.execute s.world with
            | some w => programs list rest (s.setWorld w)
            | none => ⟨.exit, s⟩
        | (_, s) => ⟨.exit, s⟩

/-- The questions are read into the variables; `none` is for a question that there is none of,
which ends the script. -/
def readQuestions (s : State W) : Option (State W) := do
  let included ← sys.get .preseedInclude s.world
  let command ← sys.get .includeCommand s.world
  let (output, w) := if command = [] then ([], s.world) else sys.eval command s.world
  let included := if command = [] then included else included ++ ' ' :: substituted output
  let checksum := (sys.get .includeChecksum w).getD []
  let torun ← sys.get .run w
  let torunChecksum := (sys.get .runChecksum w).getD []
  return { s with
    world := w
    vars := { s.vars with included, checksum, torun, torunChecksum } }

/-- The questions are emptied. -/
def clearQuestions (w : W) : W :=
  let w := sys.set .preseedInclude [] w
  let w := sys.set .includeChecksum [] w
  let w := sys.set .includeCommand [] w
  let w := sys.set .run [] w
  sys.set .runChecksum [] w

/-- What is done for the words that have been read. -/
def process (call : ℕ → Text → Text → State W → Result W) (s : State W) : Result W :=
  let words := sys.words s.vars.included
  let list := s.lists.length
  let s := s.openList (words.map (sys.makeAbsoluteUrl · s.vars.lastLocation)) s.vars.checksum
  (includes sys call list words s).andThen fun s =>
    let s := s.setWorld (sys.setLastLocation s.vars.lastLocation s.world)
    let words := sys.words s.vars.torun
    let list := s.lists.length
    let s := s.openList (words.map (sys.makeAbsoluteUrl · s.vars.lastLocation)) s.vars.torunChecksum
    programs sys list words s

/-- `while true` -/
def rounds (call : ℕ → Text → Text → State W → Result W) : ℕ → State W → Result W
  | 0, s => ⟨.unfinished, s⟩
  | n + 1, s =>
      match readQuestions sys s with
      | none => ⟨.exit, s⟩
      | some s =>
          let s := s.setWorld (clearQuestions sys s.world)
          if s.vars.included = [] ∧ s.vars.torun = [] then ⟨.done, s⟩
          else (process sys call s).andThen (rounds call n)

/-- The file has been fetched, and its settings are made. -/
def load (s : State W) : Option (State W) := do
  let w := sys.set .preseedInclude [] s.world
  let w := sys.set .includeCommand [] w
  let w := sys.set .run [] w
  let w := sys.set .runChecksum [] w
  let interactive ← sys.get .interactive w
  let w ← sys.setSelections (interactive == "true") w
  return (s.setWorld w).setVars fun v => { v with lastLocation := v.location }

/-- `preseed_location`, for a location of this list. All the variables are local to it. -/
def preseedLocation : ℕ → ℕ → Text → Text → State W → Result W
  | 0, _, _, _, s => ⟨.unfinished, s⟩
  | fuel + 1, list, location, checksum, s =>
      let saved := s.vars
      let s := s.setVars fun v => { v with location := location, checksum := checksum }
      let r : Result W :=
        match doFetch sys list s.vars.location s.vars.checksum s with
        | (.fetched, s) =>
            match load sys s with
            | some s => rounds sys (preseedLocation fuel) fuel s
            | none => ⟨.exit, s⟩
        | (_, s) => ⟨.exit, s⟩
      ⟨r.outcome, r.state.setVars fun _ => saved⟩

/-- `for loc in $location`, with global variables. -/
def preseedLoop (fuel list : ℕ) : List Text → State W → Result W
  | [], s => ⟨.done, s⟩
  | loc :: rest, s =>
      let s := nextSum sys s
      (preseedLocation sys fuel list loc s.vars.sum s).andThen (preseedLoop fuel list rest)

/-- `preseed` -/
def preseed (fuel : ℕ) (template : Text) (s : State W) : Result W :=
  match sys.get (.template template) s.world with
  | none => ⟨.exit, s⟩
  | some location =>
      let s := s.setVars fun v => { v with
        location := location
        checksum := (sys.get (.templateChecksum template) s.world).getD [] }
      let words := sys.words s.vars.location
      let list := s.lists.length
      preseedLoop sys fuel list words (s.openList words s.vars.checksum)

end DebianInstaller.Preseed
