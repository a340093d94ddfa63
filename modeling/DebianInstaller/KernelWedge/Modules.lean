import DebianInstaller.Lib.Joins
import DebianInstaller.Text
import Mathlib.Data.List.Lex
import Mathlib.Data.Char

/-!
# The modules of a udeb

`kernel-wedge copy-modules` goes through the udebs of a flavour, those that others depend on
first. The modules of a udeb are those that its modules list names and the modules that
these depend on, except what is in a udeb that it depends on. Which udeb depends on which is
what `gen-deps` reads in the package lists: it looks at each dependency whether there is a
modules list of that name, and throws away the lines of an earlier stanza of the same
package by means of a regular expression that is made of the package's name.

The package lists are there after they were read and merged, and a modules list is the list
of modules that `preprocess` makes of it. What Perl makes of a regular expression and the
order that `tsort` prints are parameters. Texts are compared byte by byte, as in the C
locale. The copying of the modules is left out.
-/

namespace DebianInstaller.KernelWedge

open Lib

/-- A stanza of the package lists: its fields. -/
abbrev Stanza := List (Text × Text)

/-- `$line =~ /^$name\t/`, if the name is a regular expression. -/
abbrev Engine := Text → Text → Option Bool

/-! ## `gen-deps` -/

/-- `split(", ", …)`, with the empty fields at its end. -/
def splitComma : Text → List Text
  | [] => [[]]
  | ',' :: ' ' :: t => [] :: splitComma t
  | c :: t =>
      match splitComma t with
      | [] => [[c]]
      | w :: ws => (c :: w) :: ws

/-- A line that `gen-deps` prints. -/
def line (p : Text × Text) : Text := p.1 ++ '\t' :: p.2 ++ ['\n']

/-- `$package->(…)`: a field of a stanza, if there is one for the flavour or for the
architecture that one. -/
def value (arch flavour : Text) (stanza : Stanza) (field : Text) : Option Text :=
  (stanza.lookup (field ++ '_' :: flavour)).or
    ((stanza.lookup (field ++ '_' :: arch ++ '_' :: flavour)).or
      ((stanza.lookup (field ++ '_' :: arch)).or (stanza.lookup field)))

/-- `split(", ", $package->("Depends") || "")`. -/
def dependsOf (arch flavour : Text) (stanza : Stanza) : List Text :=
  match value arch flavour stanza "Depends" with
  | none => []
  | some value => if value = ['0'] then [] else (splitComma value).rdropWhile (· = [])

/-- The package lists and the names of the modules lists, for an architecture and a flavour.
There is nothing else in the directory of the modules lists. An empty name would be taken for
the directory itself.

The system is Linux, where it is an error that no module depends on another one, unless there is
a file `no-modules`. On another one the pairs are always empty, and the program goes on as it
does with that file. -/
structure Lists where
  arch : Text
  flavour : Text
  noModules : Bool
  packages : List Stanza
  files : List Text
  names : ∀ f ∈ files, f ≠ [] ∧ ∀ ch ∈ f, ' ' < ch
  named : ∀ stanza ∈ packages, value arch flavour stanza "Package" ≠ some []
  whole : ∀ stanza ∈ packages, [] ∉ dependsOf arch flavour stanza

namespace Lists

variable (c : Lists)

def name (stanza : Stanza) : Text :=
  (value c.arch c.flavour stanza "Package").getD []

def depends (stanza : Stanza) : List Text := dependsOf c.arch c.flavour stanza

/-- The stanzas that `for_each_package` hands on: those with a modules list. -/
def built : List Stanza := c.packages.filter fun stanza => c.name stanza ∈ c.files

end Lists

/-! ## `copy-modules` -/

/-- The files in `module-deps` and in `module-list`. -/
structure Files where
  deps : Text → List Text
  list : Text → List Text

/-- `deplist`, with at most so many rounds. -/
def deplist (n : ℕ) (deps : List (Text × Text)) (list : List Text) : Option (List Text) :=
  closure deps n list list

/-- The body of the loop over all udebs. -/
def processUdeb (n : ℕ) (packages modules : List (Text × Text)) (preprocess : Text → List Text)
    (s : Files) (i : Text) : Option Files := do
  let direct := join [i] packages
  let deps := sortUnique (direct ++ direct.flatMap s.deps)
  let exclude := sortUnique (deps.flatMap s.list)
  let tmpdeps := sortBy Prod.fst (unpaired Prod.snd exclude modules)
  let list ← deplist n tmpdeps (sortBy id (preprocess i))
  pure { deps := Function.update s.deps i deps, list := Function.update s.list i list }

namespace Lists

variable (c : Lists)

/-- What `tsort` reads: each udeb, and what `gen-deps` printed. -/
def tsortInput (out : List (Text × Text)) : List (Text × Text) :=
  (c.files.map fun f => (f, f)) ++ out

end Lists

end DebianInstaller.KernelWedge
