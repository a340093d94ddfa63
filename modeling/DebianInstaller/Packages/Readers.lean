import DebianInstaller.Packages.Basic
import DebianInstaller.Packages.Hash
import DebianInstaller.Packages.Parser

/-!
# How packages come into the table and the list

`packages.c` and the readers of `package_parser.c` and `packages_parser.c`. A name gets into
the table when a stanza has it or when a dependency does; only the reader of the `Package`
field and `di_packages_append_package` write the list. The table destroys a value that it
replaces, and the keys of its nodes stand in the packages: when a package is destroyed, the
node that was made with it is left with an empty key.

Packages are numbered as they are allocated. Of the fields of a package only those are read
here that the table, the list or a dependency need; every other reader writes one of the
other fields. A value is a C string, up to its first NUL.
-/

namespace DebianInstaller.Packages

/-! ## Keys and the table -/

/-- A key, with the package that it stands in. -/
structure NodeKey where
  string : RString
  owner : Option ℕ

/-- The functions of the table of packages. -/
def packageKeys : KeyFuncs NodeKey where
  equal := fun a b => rstringKeys.equal a.string b.string
  refl := fun a => rstringKeys.refl a.string
  symm := fun h => rstringKeys.symm h
  trans := fun h h' => rstringKeys.trans h h'
  hashFunc := fun a => rstringKeys.hashFunc a.string
  hash_eq := fun h => rstringKeys.hash_eq h

/-- The C string at the start of a text. -/
def cstring (t : Text) : RString where
  string := t.takeWhile (· ≠ '\x00')
  noNul := fun h => by simpa using List.mem_takeWhile_imp h

/-- The packages in memory, `struct di_packages`, and the entry that the parser is at. -/
structure Reader where
  heap : ℕ → Package ℕ := fun _ => {}
  next : ℕ := 0
  table : HashTable NodeKey ℕ := diHashTableNew
  list : List ℕ := []
  data : Option ℕ := none

namespace Reader

/-- The functions of a package are given a name by its bytes. -/
def nameOf (r : Reader) (p : ℕ) : RString := cstring (r.heap p).package

/-- `di_package_destroy`, as the value of a node: the keys in the package are lost too. -/
def destroy (r : Reader) (p : ℕ) : Reader :=
  { r with
    heap := Function.update r.heap p {}
    table := { r.table with
      nodes := fun i => (r.table.nodes i).map fun node =>
        if node.1.owner = some p then (⟨cstring [], some p⟩, node.2) else node } }

/-- `di_packages_get_package`. -/
def getPackage (r : Reader) (name : RString) : Option ℕ :=
  diHashTableLookup packageKeys r.table ⟨name, none⟩

/-- `di_hash_table_insert (packages->table, &package->key, package)`. -/
def insert (r : Reader) (p : ℕ) : Reader :=
  let key : NodeKey := ⟨r.nameOf p, some p⟩
  let inserted := { r with table := diHashTableInsert packageKeys r.table key (some p) }
  match lookupNode packageKeys r.table key with
  | some (_, some old) => inserted.destroy old
  | _ => inserted

/-- `di_packages_append_package`. -/
def appendPackage (r : Reader) (p : ℕ) : Reader :=
  match r.getPackage (r.nameOf p) with
  | none => { r with list := r.list ++ [p] }.insert p
  | some _ => r.insert p

/-- A package is allocated. -/
def alloc (r : Reader) (package : Package ℕ) : Reader :=
  { r with heap := Function.update r.heap r.next package, next := r.next + 1 }

/-- The lookup of `di_packages_get_package_new`. For an empty name it takes the length of all
that is left of the file, and that ends in a newline and is no key. -/
def find (r : Reader) (name : RString) : Option ℕ :=
  if name.string = [] then none else r.getPackage name

/-- `di_packages_get_package_new`. -/
def getPackageNew (r : Reader) (name : RString) : Reader × ℕ :=
  match r.find name with
  | some p => (r, p)
  | none => ((r.alloc { package := name.string }).insert r.next, r.next)

/-- A field of a package is written. -/
def modify (r : Reader) (p : ℕ) (f : Package ℕ → Package ℕ) : Reader :=
  { r with heap := Function.update r.heap p (f (r.heap p)) }

/-! ## Readers -/

/-- `di_packages_parser_read_name`. -/
def readName (r : Reader) (value : Text) : Reader :=
  let (r, p) := r.getPackageNew (cstring value)
  let r := r.modify p fun package => { package with type := .realPackage }
  { r with list := r.list ++ [p], data := some p }

/-- `q->type` and `q->priority` of a package that `p` provides or enhances. -/
def provided (priority : PackagePriority) (q : Package ℕ) : Package ℕ :=
  let q := if q.type = .nonExistent then { q with type := .virtualPackage } else q
  if q.type = .virtualPackage ∧ q.priority.code < priority.code then { q with priority := priority }
  else q

/-- One name in `di_package_parser_read_dependency`. -/
def readDependencyName (type : DependencyType) (p : ℕ) (r : Reader) (name : RString) : Reader :=
  let (r, q) := r.getPackageNew name
  let r := r.modify p fun package => { package with depends := package.depends ++ [⟨type, q⟩] }
  match type with
  | .provides | .enhances =>
      let reverse := if type = .provides then .reverseProvides else .reverseEnhances
      r.modify q fun package =>
        let package := provided (r.heap p).priority package
        { package with depends := package.depends ++ [⟨reverse, p⟩] }
  | _ => r

/-- The names in a dependency field, for as many rounds. -/
def dependencyNames : ℕ → Text → List RString
  | 0, _ => []
  | rounds + 1, cur =>
      if cur = [] then []
      else
        cstring (cur.takeWhile fun c => decide (c ∉ " \t\n(,|".toList)) ::
          dependencyNames rounds
            (((cur.dropWhile fun c => decide (c ∉ "\n,\x00".toList)).drop 1).dropWhile Text.isSpace)

/-- `di_package_parser_read_dependency`. -/
def readDependency (r : Reader) (type : DependencyType) (p : ℕ) (value : Text) : Reader :=
  (dependencyNames value.length value).foldl (readDependencyName type p) r

/-- What the parser reads a field with. -/
inductive Field where
  | package
  | dependency (type : DependencyType)
  | other
  deriving DecidableEq

/-- What a field or a caller does. A reader that has no entry writes to an address near
`NULL`. -/
inductive Op where
  | parse (event : Event Field)
  | create (package : Package ℕ)
  | append (p : ℕ)

def step (r : Reader) : Op → Option Reader
  | .parse .entryNew => some { r with data := none }
  | .parse (.read .package value) => some (r.readName value)
  | .parse (.read (.dependency type) value) => r.data.map fun p => r.readDependency type p value
  | .parse (.read .other _) => r.data.map fun _ => r
  | .create package => some (r.alloc package)
  | .append p => some (r.appendPackage p)

/-- The state after some operations. -/
def run (r : Reader) (ops : List Op) : Option Reader := ops.foldlM step r

/-- `di_packages_special_read_file`: a fault, `NULL`, or the packages. -/
def specialReadFile (lookup : Text → Option Field) (file behind : Text) : Option (Option Reader) :=
  match diParserRfc822Read lookup file behind with
  | none => none
  | some (events, nr) =>
      (run {} (events.map .parse)).map fun r => if nr < 0 then none else some r

/-- A file is read, and the caller goes on with the packages. -/
def readThen (lookup : Text → Option Field) (file behind : Text) (ops : List Op) : Option Reader :=
  match specialReadFile lookup file behind with
  | some (some r) => run r ops
  | _ => none

/-- `packages_parser.c`: the fields of a `Packages` file. -/
def packagesParserFieldinfo : List (Text × Field) :=
  [("Package", .package), ("Essential", .other), ("Priority", .other),
    ("Section", .other), ("Installed-Size", .other), ("Maintainer", .other),
    ("Architecture", .other), ("Version", .other),
    ("Replaces", .dependency .replaces), ("Provides", .dependency .provides),
    ("Depends", .dependency .depends), ("Pre-Depends", .dependency .preDepends),
    ("Recommends", .dependency .recommends), ("Suggests", .dependency .suggests),
    ("Conflicts", .dependency .conflicts), ("Enhances", .dependency .enhances),
    ("Filename", .other), ("Size", .other), ("SHA256", .other),
    ("Description", .other)]

/-- `di_hash_table_lookup` in the table of the fields. -/
def fieldLookup (info : List (Text × Field)) (name : Text) : Option Field :=
  (info.find? fun field => diRstringEqual field.1 name).map Prod.snd

/-- The packages in the array that `choose_modules` makes have room in it, and so has the `NULL`
behind them, whatever packages are asked for. -/
def HasRoom (r : Reader) : Prop :=
  ∀ want : ℕ → PackageStatusWant,
    (r.list.filter fun p => want p = .unknown).length < (diHashTableSize r.table).toNat

end Reader

end DebianInstaller.Packages
