import DebianInstaller.Text
import Mathlib.Data.Finset.Basic
import Mathlib.Data.List.Lex
import Mathlib.Data.List.Sort
import Mathlib.Data.Char

/-!
# The reduction of libraries

`mklibs` makes small libraries for a set of programs. In each pass of its loop it gathers the
symbols that the programs and the small libraries need and those that are provided, and it is
done if none is missing. Otherwise it looks for a library for each needed symbol, makes the
small libraries anew with the symbols that are used, and begins the next pass. It also stops
if the same symbols are missing as in the pass before.

What `mklibs-readelf` prints, the files in the destination, and what the linker makes of a
library are there in each pass; the last of these is a parameter that may do anything to the
others. A pass that raises an exception or leaves the program has no result. A dictionary is
a list of its entries, the last one first.
-/

namespace DebianInstaller.Mklibs

/-! ## Symbols -/

/-- `UndefinedSymbol`. -/
structure Undefined where
  name : Text
  weak : Bool
  version : Option Text
  library : Option Text
  deriving DecidableEq

/-- `ProvidedSymbol`; the library is empty if the file has no soname. -/
structure Provided where
  name : Text
  version : Option Text
  library : Text
  default_version : Bool
  deriving DecidableEq

/-- `str (symbol)`. -/
def Undefined.str (s : Undefined) : Text :=
  match s.version with
  | none => s.name
  | some version =>
      match s.library with
      | none => s.name ++ '@' :: version
      | some library => s.name ++ '@' :: version ++ '@' :: library

def Provided.baseNames (p : Provided) : List Text :=
  match p.version with
  | none => [p.name]
  | some version =>
      (if p.library = [] then [] else [p.name ++ '@' :: version ++ '@' :: p.library]) ++
        [p.name ++ '@' :: version] ++ if p.default_version then [p.name] else []

/-- The parts with `@` between them. -/
def joined (parts : List Text) : Text := ['@'].intercalate parts

/-- What `str` joins. -/
def Undefined.parts (s : Undefined) : List Text :=
  match s.version with
  | none => [s.name]
  | some version =>
      match s.library with
      | none => [s.name, version]
      | some library => [s.name, version, library]

/-- What `base_names` joins. -/
def Provided.spellings (p : Provided) : List (List Text) :=
  match p.version with
  | none => [[p.name]]
  | some version =>
      (if p.library = [] then [] else [[p.name, version, p.library]]) ++
        [[p.name, version]] ++ if p.default_version then [[p.name]] else []

/-- How many `@` are in each part. -/
def ats (parts : List Text) : List ℕ := parts.map (List.count '@')

/-- `string.lower () == word`. -/
def isWord (word : String) (t : Text) : Bool := t.map Char.toLower == word.toList

def versionOf (t : Text) : Option Text :=
  if isWord "base" t || isWord "none" t then none else some t

/-- A line of the undefined symbols; the unpacking of fewer than four words raises an
exception. -/
def Undefined.ofLine (line : Text) : Option Undefined :=
  match (Text.words line).take 4 with
  | [name, weak, version, library] => some
      { name
        weak := isWord "true" weak
        version := versionOf version
        library := if isWord "none" library then none else some library }
  | _ => none

def Provided.ofLine (library line : Text) : Option Provided :=
  match (Text.words line).take 4 with
  | [name, _, version, default] => some
      { name, version := versionOf version, library, default_version := isWord "true" default }
  | _ => none

/-- `symbol_is_blacklisted`. -/
def isBlacklisted (s : Undefined) : Bool := "__aeabi_".toList.isPrefixOf s.name

/-- What the files look like in a pass. -/
structure World where
  /-- `os.listdir (dest_path)` -/
  listdir : List Text
  inode : Text → ℕ
  undefined : Text → List Text
  provided : Text → List Text
  needed : Text → List Text
  soname : Text → Text

namespace World

variable (w : World)

def undefinedSymbols (obj : Text) : Option (List Undefined) := do
  let symbols ← (w.undefined obj).mapM Undefined.ofLine
  pure (symbols.filter (!isBlacklisted ·))

def providedSymbols (obj : Text) : Option (List Provided) :=
  (w.provided obj).mapM (Provided.ofLine (w.soname obj))

end World

/-! ## The loop -/

/-- What is there for the whole run. -/
structure Setup where
  dest_path : Text
  ldlib : Text
  force_libs : List Text
  find_lib : Text → Text
  /-- `root and re.compile("^" + root).search(so_file)` -/
  inRoot : Text → Bool
  /-- The member of the set that `pop` takes, and the machine and the flags of a file. -/
  pop : List Text → Option Text
  elf_header : Text → Option (ℕ × ℕ)
  /-- `objcopy`, or `gcc` and `objcopy`, for a library of which these symbols are used. -/
  reduce : World → Text → List Provided → Option World

/-- The variables that live longer than a pass. -/
structure State where
  objects : List (ℕ × Text)
  available_libs : List Text
  previous_pass_unresolved : Finset Text
  world : World

/-- What the last pass has when the loop ends. -/
structure Final where
  objects : List Text
  small_libs : List Text
  available_libs : List Text
  world : World

/-- The end of a pass that raised no exception. -/
inductive Pass where
  | next (s : State)
  | finished (e : Final)

/-- A pattern at the end of a text, with a character for each place that is not `none`. -/
def endsWith (pattern : List (Option Char)) (t : Text) : Bool :=
  pattern.length ≤ t.length &&
    (pattern.zip (t.drop (t.length - pattern.length))).all fun p =>
      match p.1 with
      | some c => p.2 == c
      | none => p.2 != '\n'

/-- The symbols that are deliberately left out. -/
def isSkipped (obj : Text) (s : Undefined) : Bool :=
  (decide ("libthread_db.so" <:+: obj) && "ps_".toList.isPrefixOf s.str) ||
    endsWith ("ld-linux".toList.map some ++ none :: "so".toList.map some ++ [none, some '3'])
      s.str ||
    "__gnu_local_gp".toList.isPrefixOf s.str

namespace Setup

variable (c : Setup)

/-- The small libraries in the destination. -/
def smallLibs (w : World) : List Text :=
  (w.listdir.filter fun lib => "-so-stripped".toList.isSuffixOf lib).map fun lib =>
    c.dest_path ++ '/' :: lib

/-- `objects[inode] = obj`, unless the file is a link to one that is there. -/
def addObject (w : World) (objects : List (ℕ × Text)) (obj : Text) : List (ℕ × Text) :=
  if (objects.lookup (w.inode obj)).isSome then objects else (w.inode obj, obj) :: objects

/-- `sorted (objects.values ())`. -/
def sortedObjects (objects : List (ℕ × Text)) : List Text :=
  (objects.map Prod.snd).insertionSort (· ≤ ·)

/-- `needed_symbols`. -/
def neededSymbols (w : World) (objects : List Text) : Option (List (Text × Undefined)) :=
  objects.foldlM (fun needed obj => do
    let symbols ← w.undefinedSymbols obj
    pure (((symbols.filter (!isSkipped obj ·)).map fun s => (s.str, s)).reverse ++ needed)) []

/-- The keys of `present_symbols`. -/
def presentSymbols (w : World) (libs : List Text) : Option (List Text) := do
  let symbols ← libs.mapM w.providedSymbols
  pure (symbols.flatten.flatMap Provided.baseNames)

/-- `symbol_provider` and `library_symbols`: for a name the first library that has it, and its
symbol there. -/
def provider (w : World) (libraries : List Text) : Option (List (Text × Text × Provided)) :=
  libraries.foldlM (fun known library =>
    if c.find_lib library = [] then none
    else do
      let symbols ← w.providedSymbols (c.find_lib library)
      pure (known ++ symbols.flatMap fun p => p.baseNames.map fun name => (name, library, p))) []

/-- `library_symbols_used`, unless a symbol that is not weak has no library. -/
def usedSymbols (needed : List (Text × Undefined)) (known : List (Text × Text × Provided)) :
    Option (List (Text × Provided)) :=
  (needed.map Prod.fst).dedup.foldlM (fun used name =>
    match known.lookup name with
    | some entry => some (entry :: used)
    | none => if (needed.lookup name).all (·.weak) then some used else none) []

/-- The loop over all libraries that are to be reduced. -/
def reduceAll (used : List (Text × Provided)) (libraries : List Text) (available_libs : List Text)
    (w : World) : Option (List Text × World) :=
  (libraries.insertionSort (· ≤ ·)).foldlM (fun (st : List Text × World) library =>
    if c.inRoot (c.find_lib library) then
      some (if c.find_lib library ∈ st.1 then st.1 else st.1 ++ [c.find_lib library], st.2)
    else do
      let w ← c.reduce st.2 library ((used.filter (·.1 == library)).map Prod.snd)
      pure (st.1, w)) (available_libs, w)

/-- A pass of the loop. -/
def pass (s : State) : Option Pass := do
  let w := s.world
  let small_libs := c.smallLibs w
  let dict := small_libs.foldl (addObject w) s.objects
  let objects := sortedObjects dict
  let needed ← neededSymbols w objects
  let libraries := (c.force_libs ++ objects.flatMap w.needed).dedup
  -- all objects are checked too, not only the small libraries
  let present ← presentSymbols w (small_libs ++ objects ++ s.available_libs ++ [c.ldlib])
  let unresolved := ((needed.map Prod.fst).filter (· ∉ present)).toFinset
  let final : Final := { objects, small_libs, available_libs := s.available_libs, world := w }
  if unresolved = ∅ then pure (.finished final)
  else if unresolved = s.previous_pass_unresolved then
    if ∀ name ∈ unresolved, (needed.lookup name).all (·.weak) then pure (.finished final) else none
  else do
    let popped ← c.pop libraries
    let (machine, flags) ← c.elf_header (c.find_lib popped)
    let libraries := if machine = 40 ∧ flags / 2 ^ 24 % 2 ^ 8 = 0 then
      (libraries ++ ["libgcc_s.so.1".toList]).dedup else libraries
    let known ← c.provider w libraries
    let used ← usedSymbols needed known
    let (available_libs, world) ← c.reduceAll used libraries s.available_libs w
    pure (.next { objects := dict, available_libs, previous_pass_unresolved := unresolved, world })

/-- `while 1`, at most so many passes. -/
def run : ℕ → State → Option Final
  | 0, _ => none
  | n + 1, s =>
      match c.pass s with
      | none => none
      | some (.finished e) => some e
      | some (.next s) => run n s

end Setup

end DebianInstaller.Mklibs
