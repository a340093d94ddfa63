import DebianInstaller.Text
import DebianInstaller.Lib.Worklist
import Mathlib.Data.Finset.Basic

/-!
# The list of udebs of an image

`pkg-list` reads the lists of an image type, with the lists that they include, and collects
the packages that are listed together with the packages that these depend on. It does so for
the image and then, if the image is one of drivers for another image, for that other image,
the parent: what the parent has is not printed. The table `%seendeps` of the packages whose
dependencies have been looked at is there once, for the whole run of the program.

The files do not change during a run and neither do the answers of `apt-cache`, which is a
function of its parameters here. A hash that only says which keys it has is the set of its
keys. Warnings and the order in which the packages are printed are left out. Both the files
of lists and the search for dependencies may go on forever, so the calls are told how often
they may go on.
-/

namespace DebianInstaller.PkgList

open Text

/-- What a run of the program finds: the files, `apt-cache`, what `dpkg-architecture` says
and the parameters behind the first two. -/
structure Env where
  file : Text → Option Text
  apt_cache : Text → Text
  deb_host_arch : Text
  deb_host_arch_os : Text
  kernel_flavour : Text
  kernel_major : Text
  sub_arch : Text
  kernel_versions : List Text

/-! ## Expressions on text -/

/-- `\Q`. -/
def quotemeta (t : Text) : Text :=
  t.flatMap fun c => if c.isAlphanum || c == '_' then [c] else ['\\', c]

/-- `^(.*) \[(…+)\]$`, with the kind of characters between the brackets. -/
def bracketed (kind : Char → Bool) (line : Text) : Option (Text × Text) :=
  if line.getLast? = some ']' then
    (List.range line.length).reverse.findSome? fun i =>
      if " [".toList.isPrefixOf (line.drop i) ∧ (line.drop (i + 2)).dropLast ≠ [] ∧
          (line.drop (i + 2)).dropLast.all kind then
        some (line.take i, (line.drop (i + 2)).dropLast)
      else none
  else none

/-- `\s*\?$`, and what is before it. -/
def questioned (line : Text) : Option Text :=
  if line.getLast? = some '?' then some (line.dropLast.rdropWhile Text.isSpace) else none

/-- `^(.*) \-$`. -/
def excluded (line : Text) : Option Text :=
  if " -".toList.isSuffixOf line then some (line.take (line.length - 2)) else none

/-- `^#include \"(.*)\"`. -/
def included (line : Text) : Option Text :=
  if "#include \"".toList.isPrefixOf line ∧ '"' ∈ line.drop 10 then
    some ((line.drop 10).rdropWhile (· ≠ '"')).dropLast
  else none

/-- `s/\$\{kernel:Version\}/…/g`, while so many characters of an occurrence are left. -/
def substitute (version : Text) : ℕ → Text → Text
  | _, [] => []
  | 0, c :: t =>
      if "$\x7bkernel:Version\x7d".toList.isPrefixOf (c :: t) then
        version ++ substitute version 16 t
      else c :: substitute version 0 t
  | n + 1, _ :: t => substitute version n t

/-! ## What a package depends on -/

/-- `^\s*Depends:\s`, and what is left when `^\s*Depends:\s*` is gone. -/
def dependsOn (line : Text) : Option Text :=
  let rest := (line.dropWhile Text.isSpace).drop 8
  if "Depends:".toList.isPrefixOf (line.dropWhile Text.isSpace) ∧ rest.head?.any Text.isSpace then
    some (rest.dropWhile Text.isSpace)
  else none

/-- `\<.+\>`. -/
def isVirtual (dep : Text) : Bool := '>' ∈ (dep.dropWhile (· ≠ '<')).drop 2

/-- `^    (.+)`. -/
def provider (line : Text) : Option Text :=
  if "    ".toList.isPrefixOf line ∧ line.drop 4 ≠ [] then some (line.drop 4) else none

/-- `(.*?):\s*(.*)`. -/
def fieldOf (line : Text) : Option (Text × Text) :=
  if ':' ∈ line then
    some (line.takeWhile (· ≠ ':'), ((line.dropWhile (· ≠ ':')).drop 1).dropWhile Text.isSpace)
  else none

/-- `$fields{…}`: what the last line says that has the field. -/
def field (name : Text) (shown : Text) : Option Text :=
  (lines shown).reverse.findSome? fun line =>
    match fieldOf line with
    | some (key, value) => if key.map Char.toLower = name then some value else none
    | none => none

namespace Env

variable (env : Env)

/-- The body of the loop over the providers of a virtual package. -/
def suitable (prov : Text) : Bool :=
  let shown := env.apt_cache ("show " ++ quotemeta prov)
  match field "kernel-version" shown with
  | some version => version ∈ env.kernel_versions && subarch shown
  | none => subarch shown
where
  subarch (shown : Text) : Bool :=
    match field "subarchitecture" shown with
    | some archs => env.sub_arch ∈ Text.words archs
    | none => true

/-- The loop in `pkgdeps`, also while it is behind the providers that it has read. -/
def pkgdepsLoop : Bool → List Text → List (List Text)
  | _, [] => []
  | behind, line :: rest =>
      if behind ∧ (provider line).isSome then pkgdepsLoop true rest
      else
        match dependsOn line with
        | none => pkgdepsLoop false rest
        | some dep =>
            if isVirtual dep then
              let deps := ((rest.takeWhile fun l => (provider l).isSome).filterMap provider).filter
                env.suitable
              if deps = [] then pkgdepsLoop true rest else deps :: pkgdepsLoop true rest
            else [dep] :: pkgdepsLoop false rest

/-- A list for each dependency; one of its packages is needed. -/
def pkgdeps (package : Text) : List (List Text) :=
  env.pkgdepsLoop false ((lines (env.apt_cache ("depends " ++ package))).drop 1)

end Env

/-! ## Collecting -/

/-- What a call of `getlists` has, and the table `%seendeps`. The set of alternatives that
was postponed last is the first of its list. -/
structure Collected where
  collect : Finset Text := ∅
  exclude : Finset Text := ∅
  postponed : List (List Text) := []
  seendeps : Finset Text
  deriving DecidableEq

namespace Collected

def add (s : Collected) (package : Text) : Collected :=
  { s with collect := insert package s.collect }

def leaveOut (s : Collected) (package : Text) : Collected :=
  { s with exclude := insert package s.exclude }

def postpone (s : Collected) (deplist : List Text) : Collected :=
  { s with postponed := deplist :: s.postponed }

def see (s : Collected) (package : Text) : Collected :=
  { s with seendeps := insert package s.seendeps }

end Collected

namespace Env

variable (env : Env)

/-- `collectdeps`, nested at most so deep. -/
def collectdeps : ℕ → Text → Collected → Option Collected
  | 0, _, _ => none
  | n + 1, package, s =>
      if package ∈ s.seendeps then some s
      else (env.pkgdeps package).foldlM (fun s deplist =>
        if deplist.length > 1 then some (s.postpone deplist)
        else collectdeps n (deplist.headD []) (s.add (deplist.headD []))) (s.see package)

/-- The conditions at the end of a line of `collectpackage`: what is left of the line. -/
def applies (line : Text) : Option Text :=
  match bracketed (fun c => c.isDigit || c == '.' || c == ' ') line with
  | some (rest, kernels) => if env.kernel_major ∈ Text.words kernels then some rest else none
  | none =>
      match bracketed (fun _ => true) line with
      | some (rest, oses) => if env.deb_host_arch_os ∈ Text.words oses then some rest else none
      | none =>
          match questioned line with
          | some rest =>
              if env.apt_cache ("show '" ++ rest ++ ['\'']) = [] then none else some rest
          | none => some line

def collectpackage (n : ℕ) (s : Collected) (line : Text) : Option Collected :=
  match env.applies line with
  | none => some s
  | some line =>
      match excluded line with
      | some package => some (s.leaveOut package)
      | none => env.collectdeps n line (s.add line)

/-- The packages that a line of a list stands for: none for a comment, and one for each
version of the kernel where the version is named. -/
def entries (line : Text) : List Text :=
  if line = [] ∨ ['#'].isPrefixOf line then []
  else if "$\x7bkernel:Version\x7d" <:+: line then
    env.kernel_versions.map fun v => substitute (v ++ '-' :: env.kernel_flavour) 0 line
  else [line]

/-- A line of a list: the lists that are still to be read, and what is collected. -/
def readLine (n : ℕ) (st : List Text × Collected) (line : Text) :
    Option (List Text × Collected) := do
  let lists := match included line with
    | some list => ("pkg-lists/" ++ list) :: st.1
    | none => st.1
  let s ← (env.entries line).foldlM (env.collectpackage n) st.2
  pure (lists, s)

/-- `while (@lists)`, at most so often. The list that was put there last is the first. -/
def readLists (n : ℕ) : ℕ → List Text → Collected → Option Collected
  | 0, _, _ => none
  | _ + 1, [], s => some s
  | k + 1, list :: lists, s =>
      match env.file list with
      | none => readLists n k lists s
      | some content => do
          let (lists, s) ← (lines content).foldlM (env.readLine n) (lists, s)
          readLists n k lists s

/-- `while (@postponed)`, at most so often. -/
def satisfy (n : ℕ) : ℕ → Collected → Option Collected
  | 0, _ => none
  | k + 1, s =>
      match s.postponed with
      | [] => some s
      | set :: rest =>
          if set.any (· ∈ s.collect) then satisfy n k { s with postponed := rest }
          else do
            let s ← env.collectdeps n (set.headD [])
              ({ s with postponed := rest }.add (set.headD []))
            satisfy n k s

/-- The directories of an image type, from the outermost: the loop in `getlists`. -/
def subtypes : Text → List Text → List Text
  | _, [] => []
  | t, subtype :: rest =>
      (if t = [] then subtype else t ++ '/' :: subtype) ::
        subtypes (if t = [] then subtype else t ++ '/' :: subtype) rest

/-- The lists of one directory. -/
def listsOf (t : Text) : List Text :=
  let dir := "pkg-lists/" ++ t
  [dir ++ "/local", dir ++ "/common",
      dir ++ '/' :: env.deb_host_arch ++ ".cfg"] ++
    if env.sub_arch = [] ∨ env.sub_arch = ['0'] then []
    else [dir ++ '/' :: env.deb_host_arch ++ '/' :: env.sub_arch ++ ".cfg"]

/-- The lists that `getlists` begins with; the one that is read first is the first. -/
def initialLists (type : Text) : List Text :=
  (["pkg-lists/local".toList, "pkg-lists/exclude".toList] ++
    (subtypes [] ((type.splitOn '/').rdropWhile (· = []))).flatMap env.listsOf).reverse

/-- `getlists`, with what `%seendeps` has when it is called. -/
def getlists (n : ℕ) (type : Text) (seendeps : Finset Text) : Option Collected := do
  let s ← env.readLists n n (env.initialLists type) { seendeps }
  env.satisfy n n s

/-- What the main program has when it begins to print. -/
structure Run where
  image : Collected
  parent : Option Collected

def pkgList (n : ℕ) (type driver_for : Text) : Option Run := do
  let image ← env.getlists n type ∅
  if driver_for = [] then pure { image, parent := none }
  else
    let parent ← env.getlists n driver_for image.seendeps
    pure { image, parent := some parent }

/-- The packages that are printed. -/
def Run.printed (run : Run) : Finset Text :=
  run.image.collect.filter fun p =>
    p ∉ run.image.exclude ∧ ∀ parent ∈ run.parent, p ∉ parent.collect

end Env

end DebianInstaller.PkgList
