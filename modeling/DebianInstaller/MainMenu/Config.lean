import DebianInstaller.Packages.Basic

/-!
# Configuring a menu item

`di_config_package` configures the packages that a package depends on, depth first, and
then the package itself with `udpkg --configure`. A virtual package goes to
`satisfy_virtual`, which looks for an installed provider, asks which provider to configure
if one of them is a menu item, and otherwise configures all of them.

The two functions call each other. Each is written here with the call it makes as an
argument, and `diConfigPackage` ties the knot with a bound on the nesting; where the bound
is used up the call is still running and has no return value. What a call does outside is
kept in a log: the questions it asks, the packages it configures, with the statuses of all
packages at that moment, and the warning about deep recursion.

What comes from outside is a parameter: the exit statuses of `udpkg`, the answers, and the
titles in the debconf database, which may change with each run of `udpkg`.
-/

namespace DebianInstaller.MainMenu

def exitOk : Int := 0

def exitBackup : Int := 10

def exitInstaller : Int := 11

/-- The limit of `di_config_package_depth`. -/
def depthLimit : Int := 1000

/-- What the rest of the system does. -/
structure Outside (ι : Type) where
  /-- The `Description` of a question, after so many runs of `udpkg`. -/
  metaget : ℕ → Text → Option Text
  /-- The mangled exit status of a run of `udpkg`. -/
  udpkg : ℕ → ι → Int
  /-- The answer to a question, or `none` to go back. -/
  answer : ℕ → Option Text

/-- What a call does outside. -/
inductive Event (ι : Type) where
  | asked (v : ι) (runs : ℕ) (preset : Option Text) (choices : Text) (answer : Option Text)
  | configured (p : ι) (status : ι → PackageStatus)
  | deep (p : ι)

/-- The statuses of the packages, `di_config_package_depth`, and the log. -/
structure MenuState (ι : Type) where
  status : ι → PackageStatus
  depth : Int := 0
  runs : ℕ := 0
  questions : ℕ := 0
  log : List (Event ι) := []

/-- How a loop ends: the function returns, with no value while a call is running, or goes on. -/
inductive Flow (α : Type) where
  | done (ret : Option Int)
  | next (a : α)

/-- A call, and the state it leaves. -/
abbrev Call (ι : Type) := ι → MenuState ι → Option Int × MenuState ι

variable {ι : Type}

/-- The `case -1` and `case EXIT_BACKUP` behind a call; a call that runs keeps its caller
waiting. -/
def stops (ret : Option Int) : Prop := ret = none ∨ ret = some (-1) ∨ ret = some exitBackup

instance (ret : Option Int) : Decidable (stops ret) := inferInstanceAs (Decidable (_ ∨ _))

/-- `menu_entry`. -/
def menuEntry (out : Outside ι) (runs : ℕ) (package : Package ι) : Text :=
  let question := ("debian-installer/" ++ package.package ++ "/title").take 255
  match out.metaget runs question with
  | some value => value.take 256
  | none => (package.shortDescription.getD []).take 256

/-- `choices_escape`. -/
def choicesEscape (string : Text) : Text :=
  string.flatMap fun c => if c = ',' then ['\\', ','] else [c]

section Code

variable [DecidableEq ι] (t : ι → Package ι) (out : Outside ι)

/-! ## Virtual packages -/

/-- What the first loop of `satisfy_virtual` collects. -/
structure Providing (ι : Type) where
  menu : Text := []
  menuUsed : ℕ := 1
  defpkg : Option ι := none
  isMenuItem : Bool := false

/-- Whether `dep` is a better default. -/
def betterDefault (defpkg : Option ι) (dep : ι) : Bool :=
  match defpkg with
  | none => true
  | some q => decide ((t dep).priority.code > (t q).priority.code ∨
      (t dep).priority = (t q).priority ∧ (t dep).installerMenuItem < (t q).installerMenuItem)

/-- The list with a provider that is not installed; the default goes first. -/
def addProvider (runs : ℕ) (dep : ι) (a : Providing ι) : Providing ι :=
  let defpkg := if betterDefault t a.defpkg dep then some dep else a.defpkg
  let buf := choicesEscape (menuEntry out runs (t dep))
  { menu :=
      if defpkg = some dep then
        if a.menu.isEmpty then buf else buf ++ ", " ++ a.menu
      else if a.menu.isEmpty then buf else a.menu ++ ", " ++ buf
    menuUsed := a.menuUsed + buf.length + 2
    defpkg := defpkg
    isMenuItem := a.isMenuItem || (t dep).installerMenuItem != 0 }

/-- The first loop of `satisfy_virtual`. -/
def collectProviders (call : Call ι) :
    List (PackageDependency ι) → Providing ι → MenuState ι → Flow (Providing ι) × MenuState ι
  | [], a, s => (.next a, s)
  | d :: ds, a, s =>
      if d.type = .depends then
        if s.status d.ptr ≠ .installed then
          let (ret, s) := call d.ptr s
          if stops ret then (.done ret, s) else collectProviders call ds a s
        else collectProviders call ds a s
      else if d.type ≠ .reverseProvides then collectProviders call ds a s
      else if s.status d.ptr = .installed then (.next { a with menuUsed := 0 }, s)
      else collectProviders call ds (addProvider t out s.runs d.ptr a) s

/-- The second loop: the chosen package, or all. -/
def configureChosen (call : Call ι) (chosen : Option Text) :
    List (PackageDependency ι) → MenuState ι → Flow Unit × MenuState ι
  | [], s => (.next (), s)
  | d :: ds, s =>
      if chosen = none ∨ chosen = some (menuEntry out s.runs (t d.ptr)) then
        let (ret, s) := call d.ptr s
        if stops ret then (.done ret, s)
        else if chosen.isSome then (.next (), s)
        else configureChosen call chosen ds s
      else configureChosen call chosen ds s

/-- The question, with its default and its choices. -/
def MenuState.ask (s : MenuState ι) (v : ι) (a : Providing ι) : Option Text × MenuState ι :=
  let answer := out.answer s.questions
  let preset := a.defpkg.map fun q => menuEntry out s.runs (t q)
  (answer, { s with questions := s.questions + 1
                    log := s.log ++ [.asked v s.runs preset a.menu answer] })

def MenuState.setStatus (s : MenuState ι) (p : ι) (status : PackageStatus) : MenuState ι :=
  { s with status := Function.update s.status p status }

/-- The second loop and the end of `satisfy_virtual`. -/
def configureProviders (call : Call ι) (v : ι) (chosen : Option Text) (s : MenuState ι) :
    Option Int × MenuState ι :=
  match configureChosen t out call chosen (t v).depends s with
  | (.done ret, s) => (ret, s)
  | (.next _, s) => (some 1, s.setStatus v .installed)

/-- `satisfy_virtual`. -/
def satisfyVirtual (call : Call ι) (v : ι) (s : MenuState ι) : Option Int × MenuState ι :=
  match collectProviders t out call (t v).depends {} s with
  | (.done ret, s) => (ret, s)
  | (.next a, s) =>
      if a.menuUsed > 1 then
        if a.isMenuItem then
          match s.ask t out v a with
          | (none, s) => (some 0, s)
          | (some answer, s) => configureProviders t out call v (some answer) s
        else configureProviders t out call v none s
      else (some 1, s.setStatus v .installed)

/-! ## Real packages -/

/-- The loop of `di_config_package`. -/
def configureDepends (call : Call ι) (p : ι) :
    List (PackageDependency ι) → MenuState ι → Flow Unit × MenuState ι
  | [], s => (.next (), s)
  | d :: ds, s =>
      if s.status d.ptr = .installed then configureDepends call p ds s
      else if d.type ≠ .depends then configureDepends call p ds s
      else if s.depth + 1 > depthLimit then
        (.done (some (-1)), { s with depth := s.depth + 1, log := s.log ++ [.deep p] })
      else
        match call d.ptr { s with depth := s.depth + 1 } with
        | (none, s) => (.done none, s)
        | (some ret, s) =>
            let s := { s with depth := s.depth - 1 }
            if stops (some ret) then (.done (some ret), s) else configureDepends call p ds s

/-- `udpkg --configure` and the `switch` behind it. -/
def runConfigure (p : ι) (s : MenuState ι) : Int × MenuState ι :=
  let ret := out.udpkg s.runs p
  let s := { s with runs := s.runs + 1, log := s.log ++ [Event.configured p s.status] }
  if ret = exitOk ∨ ret = exitInstaller then (ret, s.setStatus p .installed)
  else if ret = exitBackup then (ret, s.setStatus p .halfConfigured)
  else (-1, s.setStatus p .halfConfigured)

/-- The body of `di_config_package`. -/
def configPackage (call : Call ι) (p : ι) (s : MenuState ι) : Option Int × MenuState ι :=
  match (t p).type with
  | .virtualPackage => satisfyVirtual t out call p s
  | .nonExistent => (some 0, s)
  | .realPackage =>
      match configureDepends call p (t p).depends s with
      | (.done ret, s) => (ret, s)
      | (.next _, s) => let (ret, s) := runConfigure out p s; (some ret, s)

/-- `di_config_package`, with so many calls inside each other. -/
def diConfigPackage : ℕ → Call ι
  | 0 => fun _ s => (none, s)
  | n + 1 => configPackage t out (diConfigPackage n)

end Code

end DebianInstaller.MainMenu
