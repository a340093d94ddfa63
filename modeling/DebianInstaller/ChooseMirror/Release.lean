import DebianInstaller.Lib.Lines
import DebianInstaller.Text

/-!
# The releases of a mirror

`get_release` fetches the Release file of a suite or codename and reads three of its fields.
A release that it got under one of its two names is checked by `cross_validate_release`,
which fetches it under the other one with `get_release`; the bits `GET_SUITE` and
`GET_CODENAME` of the caller are handed on to stop the recursion. `find_releases` asks for
all known suites and for the default one.

A mirror says what `wget` prints for a name. `strcmp` with `NULL` is a fault, and so is a
call of `get_release` that is nested deeper than the model is told to follow. What `popen`
does with a name that means something to the shell is left out, as are the messages that
are logged and the memory that is freed.
-/

namespace DebianInstaller.ChooseMirror

open Lib

/-! ## Calls that may fail -/

/-- The end of a call: it was nested too deep, it passed `NULL` to `strcmp`, or it returned. -/
inductive Run (α : Type) where
  | tooDeep
  | nullPassed
  | done (a : α)
  deriving DecidableEq

namespace Run

def bind {α β : Type} : Run α → (α → Run β) → Run β
  | tooDeep, _ => tooDeep
  | nullPassed, _ => nullPassed
  | done a, f => f a

instance : Monad Run where
  pure := done
  bind := bind

@[simp] theorem pure_eq {α : Type} (a : α) : (pure a : Run α) = done a := rfl

@[simp] theorem done_bind {α β : Type} (a : α) (f : α → Run β) : (done a >>= f) = f a := rfl

@[simp] theorem nullPassed_bind {α β : Type} (f : α → Run β) : (nullPassed >>= f) = nullPassed := rfl

@[simp] theorem tooDeep_bind {α β : Type} (f : α → Run β) : (tooDeep >>= f) = tooDeep := rfl

end Run

/-- `strcmp (a, b) == 0`. -/
def strcmp : Option Text → Option Text → Run Bool
  | some a, some b => .done (a == b)
  | _, _ => .nullPassed

/-! ## The code -/

/-- `struct release_t`, with the bits of its status. -/
structure Release where
  name : Option Text := none
  suite : Option Text := none
  archs : Option Text := none
  isValid : Bool := false
  isDefault : Bool := false
  getSuite : Bool := false
  getCodename : Bool := false
  deriving DecidableEq

/-- What `wget` prints for the Release file of a name, if there is one, and `ARCH_TEXT`. -/
structure Mirror where
  file : Text → Option Text
  archText : Text

/-- `strstr (line, ": ")`, and what is behind it. -/
def behindColon : Text → Option Text
  | [] => none
  | c :: t => if ": ".toList.isPrefixOf (c :: t) then some (t.drop 1) else behindColon t

/-- What `fgets` reads with a buffer of `BUFFER_LENGTH`, at most so many times. -/
def fgetsAll : ℕ → Text → List Text
  | 0, _ => []
  | n + 1, t => if t = [] then [] else (piece '\n' 255 t).1 :: fgetsAll n (piece '\n' 255 t).2.2

/-- What `grep -E '^(Suite|Codename|Architectures):'` prints. -/
def grep (file : Text) : Text :=
  ((file.splitOn '\n').filter fun l => "Suite:".toList.isPrefixOf l ||
    "Codename:".toList.isPrefixOf l || "Architectures:".toList.isPrefixOf l).flatMap (· ++ ['\n'])

/-- The body of the loop in `get_release`. -/
def readLine (release : Release) (line : Text) : Release :=
  let line := if line.getLast? = some '\n' then line.dropLast else line
  match behindColon line with
  | none => release
  | some value =>
      let buf := some (value.take 255)
      { release with
        name := if "Codename:".toList.isPrefixOf line then buf else release.name
        suite := if "Suite:".toList.isPrefixOf line then buf else release.suite
        archs := if "Architectures:".toList.isPrefixOf line then buf else release.archs }

/-- The loop in `get_release`. A name that is `NULL` is printed as `(null)`. -/
def Mirror.read (m : Mirror) (release : Release) (name : Option Text) : Release :=
  match m.file (name.getD "(null)") with
  | none => release
  | some file => (fgetsAll ((grep file).length + 1) (grep file)).foldl readLine release

/-- `field != NULL && strcmp (field, name) == 0`. -/
def isName (field name : Option Text) : Run Bool :=
  match field with
  | none => .done false
  | some _ => strcmp field name

/-- `release->archs != NULL && strstr (release->archs, ARCH_TEXT) == NULL`. -/
def Mirror.lacksArch (m : Mirror) (release : Release) : Bool :=
  release.archs.any fun archs => !decide (m.archText <:+: archs)

/-- The type of `get_release`: the answer, and the release. -/
abbrev Get := Release → Option Text → Run (Bool × Release)

/-- `(t_release.status & IS_VALID) && strcmp (field, other) == 0`. -/
def isSame (t : Release) (field other : Option Text) : Run Bool :=
  if t.isValid then strcmp field other else .done false

/-- The first half of `cross_validate_release`: the suite. -/
def crossSuite (get : Get) (release t : Release) : Run (Bool × Release × Release) :=
  if release.suite ≠ none ∧ release.getSuite = false then do
    let (found, t) ← get t release.suite
    if found then do
      let same ← isSame t t.name release.name
      if same then pure (true, { release with getSuite := release.getSuite || t.getSuite }, t)
      else pure (false, { release with isValid := false }, t)
    else pure (true, release, t)
  else pure (true, release, t)

/-- The second half: the codename. -/
def crossCodename (get : Get) (ret : Bool) (release t : Release) : Run (Bool × Release) :=
  if release.name ≠ none ∧ release.getCodename = false then do
    let (found, t) ← get t release.name
    if found then do
      let same ← isSame t t.suite release.suite
      if same then
        pure (ret, { release with getCodename := release.getCodename || t.getCodename })
      else pure (false, { release with isValid := false })
    else pure (ret, release)
  else pure (ret, release)

/-- `cross_validate_release`. -/
def crossValidate (get : Get) (release : Release) : Run (Bool × Release) := do
  -- preset status field to prevent endless recursion
  let t : Release := { getSuite := release.getSuite, getCodename := release.getCodename }
  let (ret, release, t) ← crossSuite get release t
  crossCodename get ret release t

/-- `get_release`, with what `cross_validate_release` calls. -/
def getReleaseWith (m : Mirror) (get : Get) (release : Release) (name : Option Text) :
    Run (Bool × Release) := do
  let release := m.read release name
  let byName ← isName release.name name
  let release := { release with
    isValid := release.isValid || byName, getCodename := release.getCodename || byName }
  let bySuite ← isName release.suite name
  let release := { release with
    isValid := release.isValid || bySuite, getSuite := release.getSuite || bySuite }
  -- does the release include this arch?
  let lacks := m.lacksArch release
  let release := { release with
    isValid := release.isValid && !lacks, name := if lacks then none else release.name }
  let release ←
    if release.isValid then do
      let (_, release) ← crossValidate get release
      pure release
    else pure release
  -- in case there is no Codename field
  let release := { release with
    name := if release.isValid ∧ release.name = none then name else release.name }
  pure (release.name.isSome, release)

/-- `get_release`, followed through so many nested calls. -/
def getRelease (m : Mirror) : ℕ → Get
  | 0 => getReleaseWith m fun _ _ => .tooDeep
  | depth + 1 => getReleaseWith m (getRelease m depth)

/-- `suites`. -/
def suites : List Text :=
  ["oldstable", "stable", "testing", "unstable"]

/-- `MAXRELEASES`. -/
def maxReleases : ℕ := suites.length + 2

/-- What `find_releases` keeps track of. -/
structure Search where
  releases : List Release := []
  badMirror : Bool := false
  haveDefault : Bool := false
  deriving DecidableEq

/-- `strcmp (name, default_suite) == 0 || strcmp (suite, default_suite) == 0`. -/
def isDefaultSuite (release : Release) (defaultSuite : Option Text) : Run Bool := do
  let byName ← strcmp release.name defaultSuite
  if byName then pure true else strcmp release.suite defaultSuite

/-- A valid release is listed; oldstable only if it is the default. -/
def Search.list (s : Search) (suite : Text) (release : Release) (isDefault : Bool) : Search :=
  { s with
    haveDefault := s.haveDefault || isDefault
    releases := if suite ≠ "oldstable" ∨ isDefault = true
      then s.releases ++ [{ release with isDefault := isDefault }] else s.releases }

/-- The loop over the suites in `find_releases`. -/
def findSuites (get : Get) (defaultSuite : Option Text) : List Text → Search → Run Search
  | [], s => pure s
  | suite :: rest, s =>
      if maxReleases ≤ s.releases.length then pure s
      else do
        let (found, release) ← get {} (some suite)
        if found then
          if release.isValid then do
            let isDefault ← isDefaultSuite release defaultSuite
            findSuites get defaultSuite rest (s.list suite release isDefault)
          else pure { s with badMirror := true }
        else findSuites get defaultSuite rest s

/-- The end of `find_releases`: the Release file of the default suite. -/
def findDefault (get : Get) (defaultSuite : Option Text) (s : Search) : Run Search := do
  let (found, release) ← get {} defaultSuite
  if found then
    if release.isValid then
      pure { s with
        releases := s.releases ++ [{ release with isDefault := true }]
        haveDefault := true }
    else pure { s with badMirror := true }
  else pure s

/-- `find_releases`, up to the questions it asks. -/
def findReleases (m : Mirror) (baseOnCd : Bool) (defaultSuite : Option Text) (depth : ℕ) :
    Run Search := do
  let s ← if baseOnCd then pure {} else findSuites (getRelease m depth) defaultSuite suites {}
  if s.badMirror = false ∧ (baseOnCd = true ∨ s.haveDefault = false) then
    findDefault (getRelease m depth) defaultSuite s
  else pure s

end DebianInstaller.ChooseMirror
