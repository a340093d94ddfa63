import DebianInstaller.Packages.ParserLines
import DebianInstaller.Packages.WriteDependency
import Mathlib.Data.Bool.AllAny

/-!
# The writer of control files

`di_parser_rfc822_write_file` writes a stanza for each package. For each field of a table, in
their order, a writer has a value or none, and `callback` makes a line of it. An empty line is
behind each stanza, the last one too, so the parser comes back whatever is in memory behind the
file.

What a value looks like nobody asks. It comes back as it was if it does not begin with a blank and
if each of its lines but the first does. What a field is for a package is up to its writer and its
reader, and these agree if the numbers have 32 bits, the names of dependencies are names, and the
buffer in which they are joined is never filled.

A pointer to a package is its name here; what is made of a name is in the model of the readers. A
value is read as it stands in the file, with a newline behind it.
-/

namespace DebianInstaller.Packages

open Lib Text

variable {entries : List (List (Text × Text))} {n : Int} {names : List Text} {p : Package Text}
  {v : Text}

/-! ## The code -/

/-- `callback`. -/
def writeField (f : Text × Text) : Text := f.1 ++ (": " ++ (f.2 ++ ['\n']))

/-- `di_parser_rfc822_write_file`: what is in the file, for what the writers gave for each entry. -/
def writeFile (entries : List (List (Text × Text))) : Text :=
  entries.flatMap fun fields => fields.flatMap writeField ++ ['\n']

/-! ## What comes back -/

/-- A line without a blank in front, and lines that continue it. -/
def IsValue (v : Text) : Prop :=
  ∃ first more, v = first ++ body more ∧ '\n' ∉ first ∧ startsBlank first = false ∧
    ∀ c ∈ more, Continues c

structure IsName (name : Text) : Prop where
  ne_nil : name ≠ []
  begins : startsBlank name = false
  noColon : ':' ∉ name
  line : '\n' ∉ name

/-- The calls that a stanza with these fields leads to. -/
def entryCalls {F : Type} (lookup : Text → Option F) (fields : List (Text × Text)) :
    List (Event F) :=
  .entryNew :: fields.flatMap fun f => (lookup f.1).toList.map fun fip => Event.read fip f.2

section Read

variable {F : Type} (lookup : Text → Option F)

theorem isChain_of_forall {p : Text → Bool} {l : Text} {cs : List Text}
    (h : ∀ c ∈ cs, p c = true) : (l :: cs).IsChain fun _ y => p y = true := by
  induction cs generalizing l with
  | nil => exact .singleton l
  | cons c cs ih =>
      obtain ⟨hc, hcs⟩ := List.forall_mem_cons.1 h
      exact .cons_cons hc (ih hcs)

theorem fieldsOf_flatten {fs : List (List Text)} (h : Fields fs) : fieldsOf fs.flatten = fs := by
  have hne : ∀ f ∈ fs, f ≠ [] := by
    intro f hf
    obtain ⟨l, cs, rfl, -⟩ := h.field f hf
    exact List.cons_ne_nil _ _
  refine List.splitBy_flatten (fun hmem => hne [] hmem rfl) (fun f hf => ?_) ?_
  · obtain ⟨l, cs, rfl, hfield⟩ := h.field f hf
    exact isChain_of_forall fun c hc => (hfield.continued c hc).1
  · refine h.chain.imp_of_mem_imp fun f g hf hg hfg => ⟨hne f hf, hne g hg, ?_⟩
    obtain ⟨l, cs, rfl⟩ := List.exists_cons_of_ne_nil (hne g hg)
    exact hfg

/-- A field that is written is a line and the lines that continue it. -/
theorem writeField_lines {f : Text × Text} (hname : IsName f.1) (hvalue : IsValue f.2) :
    ∃ l cs, writeField f = unlines '\n' (l :: cs) ∧ IsField l cs ∧ startsBlank l = false ∧
      hasColon (l :: cs) = true ∧
      fieldCall lookup (l :: cs) = (lookup f.1).toList.map fun fip => Event.read fip f.2 := by
  obtain ⟨name, value⟩ := f
  obtain ⟨first, more, rfl, hline, hbegins, hmore⟩ := hvalue
  refine ⟨name ++ ':' :: ' ' :: first, more, ?_, ⟨by simp, ?_, hmore⟩, ?_, by simp [hasColon], ?_⟩
  · rw [unlines_eq_body]
    simp [writeField]
  · have hspace : '\n' ∉ ':' :: ' ' :: first := by simp [hline]
    rw [List.mem_append, not_or]
    exact ⟨hname.line, hspace⟩
  · obtain ⟨c, name, rfl⟩ := List.exists_cons_of_ne_nil hname.ne_nil
    exact hname.begins
  · have hdrop : (' ' :: first).dropWhile isBlank = first := by
      rw [List.dropWhile_cons_of_pos rfl]
      cases first with
      | nil => rfl
      | cons c first => exact List.dropWhile_cons_of_neg (by simpa [startsBlank] using hbegins)
    rw [fieldCall_eq lookup hname.noColon, hdrop]

theorem writeFields_lines {fields : List (Text × Text)} (hname : ∀ f ∈ fields, IsName f.1)
    (hvalue : ∀ f ∈ fields, IsValue f.2) :
    ∃ fs, fields.flatMap writeField = unlines '\n' fs.flatten ∧ Fields fs ∧
      fs.length = fields.length ∧ (∀ g ∈ fs, startsBlank (g.headD []) = false) ∧
      (∀ f ∈ fs, hasColon f = true) ∧
      .entryNew :: fs.flatMap (fieldCall lookup) = entryCalls lookup fields := by
  induction fields with
  | nil => exact ⟨[], rfl, ⟨by simp, .nil⟩, rfl, by simp, by simp, rfl⟩
  | cons f fields ih =>
      obtain ⟨hf, hfields⟩ := List.forall_mem_cons.1 hname
      obtain ⟨hv, hvalues⟩ := List.forall_mem_cons.1 hvalue
      obtain ⟨fs, htext, hfs, hlen, hbegins, hcolon, hcalls⟩ := ih hfields hvalues
      obtain ⟨l, cs, hl, hfield, hstart, hl', hcall⟩ := writeField_lines lookup hf hv
      refine ⟨(l :: cs) :: fs, ?_, ⟨?_, ?_⟩, by rw [List.length_cons, List.length_cons, hlen],
        List.forall_mem_cons.2 ⟨hstart, hbegins⟩, List.forall_mem_cons.2 ⟨hl', hcolon⟩, ?_⟩
      · rw [List.flatMap_cons, List.flatten_cons, unlines_append, hl, htext]
      · exact List.forall_mem_cons.2 ⟨⟨l, cs, rfl, hfield⟩, hfs.field⟩
      · cases fs with
        | nil => exact .singleton _
        | cons g fs => exact .cons_cons (hbegins g List.mem_cons_self) hfs.chain
      · have htail := (List.cons.inj hcalls).2
        rw [List.flatMap_cons, hcall, htail]
        rfl

theorem lines_of_fields {fs : List (List Text)} (h : Fields fs) : ∀ l ∈ fs.flatten, Line l := by
  intro l hl
  obtain ⟨f, hf, hl⟩ := List.mem_flatten.1 hl
  obtain ⟨l', cs, rfl, hfield⟩ := h.field f hf
  rcases List.mem_cons.1 hl with rfl | hl
  · exact ⟨hfield.nonempty, hfield.line⟩
  · obtain ⟨b, t, rfl, -⟩ := (hfield.continued l hl).cons
    exact ⟨List.cons_ne_nil _ _, (hfield.continued _ hl).2⟩

/-- An entry is read up to the empty line behind it. -/
theorem readEntries_entry {fields : List (Text × Text)} (hne : fields ≠ [])
    (hname : ∀ f ∈ fields, IsName f.1) (hvalue : ∀ f ∈ fields, IsValue f.2) (rounds : ℕ) (nr : Int)
    (rest : Text) {extra : ℕ} (hextra : extra ≤ rest.length) :
    readEntries lookup (rounds + 2) nr (fields.flatMap writeField ++ '\n' :: rest)
        ((fields.flatMap writeField).length + (extra + 1)) =
      (readEntries lookup rounds ((nr + 1).bmod (2 ^ 32)) rest extra).map fun r =>
        (entryCalls lookup fields ++ r.1, r.2) := by
  obtain ⟨fs, htext, hfs, hlen, -, hcolon, hcalls⟩ := writeFields_lines lookup hname hvalue
  have hflat : fs.flatten ≠ [] := by
    obtain ⟨f, fields, rfl⟩ := List.exists_cons_of_ne_nil hne
    obtain ⟨g, fs, rfl⟩ := List.exists_cons_of_length_eq_add_one hlen
    obtain ⟨l, cs, rfl, -⟩ := hfs.field g List.mem_cons_self
    exact List.cons_ne_nil _ _
  have hgood : GoodStanza fs.flatten := by
    rw [GoodStanza, fieldsOf_flatten hfs]
    exact hcolon
  have hstanza : stanzaCalls lookup fs.flatten = entryCalls lookup fields := by
    rw [stanzaCalls, takeWhile_good hgood, fieldsOf_flatten hfs, hcalls]
  rw [htext, readEntries_stanza lookup hflat (lines_of_fields hfs) rounds nr rest hextra,
    if_pos hgood, hstanza]

theorem writeFile_cons (fields : List (Text × Text)) (entries : List (List (Text × Text))) :
    writeFile (fields :: entries) = fields.flatMap writeField ++ '\n' :: writeFile entries := by
  rw [writeFile, List.flatMap_cons, List.append_assoc]
  rfl

theorem length_writeFile (hne : ∀ fields ∈ entries, fields ≠ []) :
    2 * entries.length ≤ (writeFile entries).length := by
  induction entries with
  | nil => exact le_rfl
  | cons fields entries ih =>
      obtain ⟨hf, hentries⟩ := List.forall_mem_cons.1 hne
      obtain ⟨f, fields, rfl⟩ := List.exists_cons_of_ne_nil hf
      have hrest := ih hentries
      rw [writeFile_cons, List.flatMap_cons, writeField]
      simp only [List.length_append, List.length_cons]
      omega

theorem readEntries_writeFile (hne : ∀ fields ∈ entries, fields ≠ [])
    (hname : ∀ fields ∈ entries, ∀ f ∈ fields, IsName f.1)
    (hvalue : ∀ fields ∈ entries, ∀ f ∈ fields, IsValue f.2) (behind : Text) (rounds : ℕ) {nr : Int}
    (hnr : nr.bmod (2 ^ 32) = nr) :
    readEntries lookup (2 * entries.length + (rounds + 1)) nr (writeFile entries ++ behind)
        (writeFile entries).length =
      some (entries.flatMap (entryCalls lookup), (nr + entries.length).bmod (2 ^ 32)) := by
  induction entries generalizing nr with
  | nil =>
      rw [List.length_nil, Int.natCast_zero, Int.add_zero, hnr]
      rfl
  | cons fields entries ih =>
      obtain ⟨hf, hne⟩ := List.forall_mem_cons.1 hne
      obtain ⟨hn, hname⟩ := List.forall_mem_cons.1 hname
      obtain ⟨hv, hvalue⟩ := List.forall_mem_cons.1 hvalue
      have hrounds : 2 * (fields :: entries).length + (rounds + 1) =
          2 * entries.length + (rounds + 1) + 2 := by
        rw [List.length_cons]
        omega
      have hlen : (writeFile (fields :: entries)).length =
          (fields.flatMap writeField).length + ((writeFile entries).length + 1) := by
        rw [writeFile_cons, List.length_append, List.length_cons]
      rw [hlen, hrounds, writeFile_cons, List.append_assoc, List.cons_append,
        readEntries_entry lookup hf hn hv _ nr _ (by rw [List.length_append]; omega),
        ih hne hname hvalue Int.bmod_bmod, Option.map_some, bmod_succ, List.length_cons]
      rfl

/-- A file that is written is read field by field, whatever is behind it in memory. -/
theorem diParserRfc822Read_writeFile (hne : ∀ fields ∈ entries, fields ≠ [])
    (hname : ∀ fields ∈ entries, ∀ f ∈ fields, IsName f.1)
    (hvalue : ∀ fields ∈ entries, ∀ f ∈ fields, IsValue f.2) (hcount : entries.length < 2 ^ 31)
    (behind : Text) :
    diParserRfc822Read lookup (writeFile entries) behind =
      some (entries.flatMap (entryCalls lookup), (entries.length : Int)) := by
  have hlen := length_writeFile hne
  obtain ⟨k, hk⟩ := Nat.exists_eq_add_of_le hlen
  have hrounds : (writeFile entries).length + 1 = 2 * entries.length + (k + 1) := by omega
  rw [diParserRfc822Read, hrounds,
    readEntries_writeFile lookup hne hname hvalue behind k rfl, Int.zero_add,
    (bmod_eq_iff entries.length).2 hcount]

end Read

/-! ## Writers and readers of fields -/

/-- The fields in the tables of `package_parser.c` and `packages_parser.c`. -/
inductive Key where
  | package
  | status
  | essential
  | priority
  | sectionName
  | installedSize
  | maintainer
  | architecture
  | version
  | dependency (type : DependencyType)
  | filename
  | size
  | sha256
  | description
  deriving DecidableEq

variable {info : List Key} {k : Key}

def priorityText : PackagePriority → Text
  | .unspecified => "unspecified"
  | .extra => "extra"
  | .optional => "optional"
  | .standard => "standard"
  | .important => "important"
  | .required => "required"

def wantText : PackageStatusWant → Text
  | .unknown => "unknown"
  | .install => "install"
  | .hold => "hold"
  | .deinstall => "deinstall"
  | .purge => "purge"

def statusText : PackageStatus → Text
  | .undefined => "undefined"
  | .notInstalled => "not-installed"
  | .unpacked => "unpacked"
  | .installed => "installed"
  | .halfConfigured => "half-configured"
  | .configFiles => "config-files"

/-- `internal_di_package_array_text_from_rstring`: the first word that begins with the text. The
word at the beginning of an array is not looked at. -/
def textFrom {α : Type} (text : α → Text) (array : List α) (other : α) (t : Text) : α :=
  (array.find? fun a => decide (t <+: text a)).getD other

/-- `strtol`. In a value of blanks it goes on behind the value. -/
def strtol (v : Text) : Option Int :=
  match v.dropWhile Text.isSpace with
  | [] => none
  | '-' :: t => some (max (-2 ^ 63) (-(Text.number (t.takeWhile Char.isDigit) : Int)))
  | '+' :: t => some (min (2 ^ 63 - 1) (Text.number (t.takeWhile Char.isDigit) : Int))
  | t => some (min (2 ^ 63 - 1) (Text.number (t.takeWhile Char.isDigit) : Int))

/-- `di_package_parser_read_status`. Where a blank is missing it goes on from `NULL`. -/
def readStatus (v : Text) : Option (PackageStatusWant × PackageStatus) :=
  if ' ' ∈ v ∧ ' ' ∈ (v.dropWhile (· ≠ ' ')).tail then
    some (textFrom wantText [.install, .hold, .deinstall, .purge] .unknown (v.takeWhile (· ≠ ' ')),
      textFrom statusText [.notInstalled, .unpacked, .installed, .halfConfigured, .configFiles]
        .undefined ((v.dropWhile (· ≠ ' ')).tail.dropWhile (· ≠ ' ')).tail)
  else none

/-- `di_parser_write_int`. -/
def writeInt (n : Int) : Option Text := if n = 0 then none else some (Text.ofInt n)

/-- The names of the dependencies of a type. -/
def targets (p : Package Text) (type : DependencyType) : List Text :=
  (p.depends.filter fun d => d.type = type).map PackageDependency.ptr

namespace Key

def name : Key → Text
  | .package => "Package"
  | .status => "Status"
  | .essential => "Essential"
  | .priority => "Priority"
  | .sectionName => "Section"
  | .installedSize => "Installed-Size"
  | .maintainer => "Maintainer"
  | .architecture => "Architecture"
  | .version => "Version"
  | .dependency .replaces => "Replaces"
  | .dependency .provides => "Provides"
  | .dependency .depends => "Depends"
  | .dependency .preDepends => "Pre-Depends"
  | .dependency .recommends => "Recommends"
  | .dependency .suggests => "Suggests"
  | .dependency .conflicts => "Conflicts"
  | .dependency .enhances => "Enhances"
  -- these two are in no table
  | .dependency .reverseProvides => []
  | .dependency .reverseEnhances => []
  | .filename => "Filename"
  | .size => "Size"
  | .sha256 => "SHA256"
  | .description => "Description"

/-- What a field has to say of a package, if anything. -/
def value (p : Package Text) : Key → Option Text
  | .package => some p.package
  | .status => some (wantText p.statusWant ++ " ok " ++ statusText p.status)
  | .essential => if p.essential then some "Yes" else none
  | .priority => some (priorityText p.priority)
  | .sectionName => p.sectionName
  | .installedSize => writeInt p.installedSize
  | .maintainer => p.maintainer
  | .architecture => p.architecture
  | .version => p.version
  | .dependency type => passed (targets p type)
  | .filename => p.filename
  | .size => writeInt p.size
  | .sha256 => p.sha256
  | .description => p.shortDescription.map fun short =>
      match p.description with
      | some long => short ++ '\n' :: long
      | none => short

/-- The writer of a field: a fault, or what it calls `callback` with, if it does. -/
def write (fresh : ℕ → Char) (p : Package Text) : Key → Option (Option Text)
  | .dependency type => writeNames fresh (targets p type)
  | k => some (k.value p)

/-- What the reader of a field makes of a value. -/
def read (v : Text) (p : Package Text) : Key → Option (Package Text)
  | .package => some { p with package := v }
  | .status => (readStatus v).map fun s => { p with statusWant := s.1, status := s.2 }
  | .essential => some { p with essential := decide (strncasecmp 3 v "yes" = 0) }
  | .priority => some { p with
      priority := textFrom priorityText [.extra, .optional, .standard, .important, .required]
        .unspecified v }
  | .sectionName => some { p with sectionName := some v }
  | .installedSize => (strtol v).map fun n => { p with installedSize := n.bmod (2 ^ 32) }
  | .maintainer => some { p with maintainer := some v }
  | .architecture => some { p with architecture := some v }
  | .version => some { p with version := some v }
  | .dependency type => some { p with
      depends := p.depends ++ (Reader.dependencyNames v.length v).map fun name =>
        ⟨type, name.string⟩ }
  | .filename => some { p with filename := some v }
  | .size => (strtol v).map fun n => { p with size := n.bmod (2 ^ 32) }
  | .sha256 => some { p with sha256 := some v }
  | .description => some (
      if '\n' ∈ v then
        { p with
          shortDescription := some (v.takeWhile (· ≠ '\n'))
          description := some (v.dropWhile (· ≠ '\n')).tail }
      else { p with shortDescription := some v })

/-- The part of a package that belongs to a field. -/
def copy (p q : Package Text) : Key → Package Text
  | .package => { q with package := p.package }
  | .status => { q with statusWant := p.statusWant, status := p.status }
  | .essential => { q with essential := p.essential }
  | .priority => { q with priority := p.priority }
  | .sectionName => { q with sectionName := p.sectionName }
  | .installedSize => { q with installedSize := p.installedSize }
  | .maintainer => { q with maintainer := p.maintainer }
  | .architecture => { q with architecture := p.architecture }
  | .version => { q with version := p.version }
  | .dependency type => { q with
      depends := q.depends ++ (targets p type).map fun name => ⟨type, name⟩ }
  | .filename => { q with filename := p.filename }
  | .size => { q with size := p.size }
  | .sha256 => { q with sha256 := p.sha256 }
  | .description => match p.description with
      | some long => { q with shortDescription := p.shortDescription, description := some long }
      | none => { q with shortDescription := p.shortDescription }

end Key

/-- The fields of a package that have something to say. -/
def written (info : List Key) (p : Package Text) : List (Key × Text) :=
  info.filterMap fun k => (k.value p).map (k, ·)

/-- The writers of a table, one after the other. -/
def writeEntry (fresh : ℕ → Char) (info : List Key) (p : Package Text) :
    Option (List (Key × Text)) := do
  let values ← info.mapM fun k => (k.write fresh p).map fun v => v.map (k, ·)
  return values.reduceOption

/-- `di_packages_special_write_file` with one of the tables: what is in the file, or a fault. -/
def specialWriteFile (fresh : ℕ → Char) (info : List Key) (ps : List (Package Text)) :
    Option Text := do
  let entries ← ps.mapM (writeEntry fresh info)
  return writeFile (entries.map fun fields => fields.map fun f => (f.1.name, f.2))

/-- The readers of some fields, one after the other. -/
def readAll (fields : List (Key × Text)) (p : Package Text) : Option (Package Text) :=
  fields.foldlM (fun p f => f.1.read f.2 p) p

/-- A package with nothing but the parts that belong to fields that are written. -/
def kept (info : List Key) (p : Package Text) : Package Text :=
  (written info p).foldl (fun q f => f.1.copy p q) {}

/-- `di_hash_table_lookup` in a table. -/
def keyOf (info : List Key) (name : Text) : Option Key :=
  info.find? fun k => diRstringEqual k.name name

/-- `di_packages_parser_fieldinfo`. -/
def packagesFieldinfo : List Key :=
  [.package, .essential, .priority, .sectionName, .installedSize, .maintainer, .architecture,
    .version, .dependency .replaces, .dependency .provides, .dependency .depends,
    .dependency .preDepends, .dependency .recommends, .dependency .suggests,
    .dependency .conflicts, .dependency .enhances, .filename, .size, .sha256, .description]

/-- `di_packages_status_parser_fieldinfo`. -/
def statusFieldinfo : List Key :=
  [.package, .status, .essential, .priority, .sectionName, .installedSize, .maintainer, .version,
    .dependency .replaces, .dependency .provides, .dependency .depends, .dependency .preDepends,
    .dependency .recommends, .dependency .suggests, .dependency .conflicts, .dependency .enhances,
    .description]

/-- `di_packages_minimal_parser_fieldinfo`. -/
def minimalFieldinfo : List Key :=
  [.package, .essential, .priority, .installedSize, .version, .dependency .provides,
    .dependency .depends, .dependency .preDepends, .filename, .sha256, .size]

/-! ## What may be written -/

def IsTarget (name : Text) : Prop :=
  name ≠ [] ∧ ∀ c ∈ name, Text.isSpace c = false ∧ c ∉ "(,|\x00".toList

/-- What belongs to a field can be written and read again. -/
def Key.Fit (p : Package Text) : Key → Prop
  | .status | .essential | .priority => True
  | .installedSize => -2 ^ 31 ≤ p.installedSize ∧ p.installedSize < 2 ^ 31
  | .size => -2 ^ 31 ≤ p.size ∧ p.size < 2 ^ 31
  | .dependency type => Fits (targets p type) ∧ ∀ name ∈ targets p type, IsTarget name
  | .description => (∀ short, p.shortDescription = some short → '\n' ∉ short) ∧
      ∀ v, Key.value p .description = some v → IsValue v
  | k => ∀ v, k.value p = some v → IsValue v

theorem isValue_of_line (hline : '\n' ∉ v) (hbegins : startsBlank v = false) :
    IsValue v := ⟨v, [], by simp [body], hline, hbegins, by simp⟩

/-! ### Numbers -/

theorem strtol_digits {ds : Text} (hne : ds ≠ []) (h : ∀ c ∈ ds, c.isDigit = true) :
    strtol ds = some (min (2 ^ 63 - 1) (Text.number ds : Int)) := by
  obtain ⟨c, t, rfl⟩ := List.exists_cons_of_ne_nil hne
  have hc := h c List.mem_cons_self
  have hspace : Text.isSpace c = false := by
    by_contra hs
    rw [Bool.not_eq_false] at hs
    simp only [Text.isSpace, Bool.or_eq_true, beq_iff_eq] at hs
    rcases hs with ((((rfl | rfl) | rfl) | rfl) | rfl) | rfl <;> exact absurd hc (by decide)
  have hall : (c :: t).takeWhile Char.isDigit = c :: t := List.takeWhile_eq_self_iff.2 h
  rw [strtol, List.dropWhile_cons_of_neg (by rw [hspace]; exact Bool.false_ne_true)]
  split
  · next h' => cases h'
  · next h' =>
      obtain ⟨rfl, -⟩ := List.cons.inj h'
      exact absurd hc (by decide)
  · next h' =>
      obtain ⟨rfl, -⟩ := List.cons.inj h'
      exact absurd hc (by decide)
  · rw [hall]

theorem strtol_negative {ds : Text} (h : ∀ c ∈ ds, c.isDigit = true) :
    strtol ('-' :: ds) = some (max (-2 ^ 63) (-(Text.number ds : Int))) := by
  have hall : ds.takeWhile Char.isDigit = ds := List.takeWhile_eq_self_iff.2 h
  rw [strtol, List.dropWhile_cons_of_neg (by decide)]
  show some (max (-2 ^ 63) (-(Text.number (ds.takeWhile Char.isDigit) : Int))) = _
  rw [hall]

theorem strtol_ofInt (hlow : -2 ^ 31 ≤ n) (hhigh : n < 2 ^ 31) :
    strtol (Text.ofInt n) = some n := by
  have hdigits (k : ℕ) : ∀ c ∈ Nat.toDigits 10 k, c.isDigit = true := fun c hc =>
    Nat.isDigit_of_mem_toDigits (by decide) (by decide) hc
  rw [Text.ofInt_eq]
  split
  · next h =>
      rw [strtol_digits Nat.toDigits_ne_nil (hdigits _), Text.number_toDigits,
        Int.toNat_of_nonneg h, min_eq_right (by omega)]
  · next h =>
      rw [strtol_negative (hdigits _), Text.number_toDigits, Int.toNat_of_nonneg (by omega),
        Int.neg_neg, max_eq_right (by omega)]

theorem isValue_ofInt (n : Int) : IsValue (Text.ofInt n) := by
  refine isValue_of_line (Text.newline_not_mem_ofInt n) ?_
  cases hn : Text.ofInt n with
  | nil => rfl
  | cons c t =>
      have hc : c ∈ Text.ofInt n := hn ▸ List.mem_cons_self
      by_contra hb
      rw [Bool.not_eq_false] at hb
      have hblank : c = ' ' ∨ c = '\t' := by simpa [startsBlank, isBlank] using hb
      rcases Text.mem_ofInt hc with rfl | hd
      · exact absurd hblank (by decide)
      · rcases hblank with rfl | rfl <;> exact absurd hd (by decide)

/-! ### Names -/

theorem IsTarget.isPiece {name : Text} (h : IsTarget name) : IsPiece name ∧ '\x00' ∉ name :=
  ⟨⟨fun hmem => absurd (h.2 _ hmem).1 (by decide), fun hmem => (h.2 _ hmem).2 (by decide)⟩,
    fun hmem => (h.2 _ hmem).2 (by decide)⟩

theorem IsTarget.firstWord {name : Text} (h : IsTarget name) : firstWord name = name := by
  refine List.takeWhile_eq_self_iff.2 fun c hc => decide_eq_true fun hmem => ?_
  obtain ⟨hspace, hother⟩ := h.2 c hc
  have hcases : c = ' ' ∨ c = '\t' ∨ c = '\n' ∨ c = '(' ∨ c = ',' ∨ c = '|' := by simpa using hmem
  rcases hcases with rfl | rfl | rfl | rfl | rfl | rfl
  · exact absurd hspace (by decide)
  · exact absurd hspace (by decide)
  · exact absurd hspace (by decide)
  · exact hother (by decide)
  · exact hother (by decide)
  · exact hother (by decide)

theorem withCommas_cons_cons (first second : Text) (names : List Text) :
    withCommas (first :: second :: names) =
      first ++ ',' :: ' ' :: withCommas (second :: names) := by
  rw [withCommas, List.intercalate_cons_cons, List.append_assoc]
  rfl

theorem head_withCommas {first : Text} (h : IsTarget first) (names : List Text) :
    ∃ c t, withCommas (first :: names) = c :: t ∧ Text.isSpace c = false := by
  obtain ⟨c, t, rfl⟩ := List.exists_cons_of_ne_nil h.1
  refine ⟨c, ?_⟩
  have hc := (h.2 c List.mem_cons_self).1
  cases names with
  | nil => exact ⟨t, withCommas_singleton _, hc⟩
  | cons second names => exact ⟨_, withCommas_cons_cons _ _ _, hc⟩

/-- The names between the commas are read again. -/
theorem dependencyNames_withCommas (h : ∀ n ∈ names, IsTarget n) {rounds : ℕ}
    (hrounds : names.length ≤ rounds) :
    (Reader.dependencyNames rounds (withCommas names)).map RString.string = names := by
  have hstring {n : Text} (hn : IsTarget n) : (cstring n).string = n :=
    List.takeWhile_eq_self_iff.2 fun c hc => decide_eq_true fun e => hn.isPiece.2 (e ▸ hc)
  induction names generalizing rounds with
  | nil => cases rounds <;> rfl
  | cons first names ih =>
      obtain ⟨hfirst, hnames⟩ := List.forall_mem_cons.1 h
      obtain ⟨rounds, rfl⟩ := Nat.exists_eq_add_of_le' hrounds
      rw [List.length_cons, ← Nat.add_assoc]
      cases names with
      | nil =>
          rw [withCommas_singleton,
            dependencyNames_piece hfirst.isPiece.1 hfirst.isPiece.2 hfirst.1,
            hfirst.firstWord, List.map_singleton, hstring hfirst]
      | cons second names =>
          obtain ⟨c, t, hc, hspace⟩ := head_withCommas (hnames second List.mem_cons_self) names
          have hdrop : (' ' :: withCommas (second :: names)).dropWhile Text.isSpace =
              withCommas (second :: names) := by
            rw [List.dropWhile_cons_of_pos rfl, hc,
              List.dropWhile_cons_of_neg (by rw [hspace]; exact Bool.false_ne_true)]
          rw [withCommas_cons_cons, dependencyNames_append hfirst.isPiece.1
            hfirst.isPiece.2 (.inl rfl), hdrop, hfirst.firstWord, List.map_cons, hstring hfirst,
            ih hnames (Nat.le_add_left _ _)]

theorem length_le_withCommas (h : ∀ n ∈ names, IsTarget n) :
    names.length ≤ (withCommas names).length ∧ '\n' ∉ withCommas names := by
  induction names with
  | nil => exact ⟨le_rfl, List.not_mem_nil⟩
  | cons first names ih =>
      obtain ⟨hfirst, hnames⟩ := List.forall_mem_cons.1 h
      have hpos := List.length_pos_of_ne_nil hfirst.1
      have hline := hfirst.isPiece.1.1
      obtain ⟨hlen, hrest⟩ := ih hnames
      cases names with
      | nil =>
          rw [withCommas_singleton]
          exact ⟨hpos, hline⟩
      | cons second names =>
          rw [withCommas_cons_cons]
          simp only [List.length_append, List.length_cons, List.mem_append, List.mem_cons, not_or]
          simp only [List.length_cons] at hlen
          exact ⟨by omega, hline, by decide, by decide, hrest⟩

/-! ### Fields -/

theorem readStatus_text (want : PackageStatusWant) (status : PackageStatus) :
    readStatus (wantText want ++ " ok " ++ statusText status) = some (want, status) := by
  cases want <;> cases status <;> rfl

theorem textFrom_priority (priority : PackagePriority) :
    textFrom priorityText [.extra, .optional, .standard, .important, .required] .unspecified
      (priorityText priority) = priority := by
  cases priority <;> rfl

theorem writeInt_eq (h : writeInt n = some v) : v = Text.ofInt n := by
  rw [writeInt] at h
  split at h
  · cases h
  · exact (Option.some.inj h).symm

theorem passed_eq (h : passed names = some v) : names ≠ [] ∧ v = withCommas names := by
  rw [passed] at h
  split at h
  · cases h
  · next hne => exact ⟨hne, (Option.some.inj h).symm⟩

theorem Key.isValue_value (hfit : k.Fit p) (h : k.value p = some v) : IsValue v := by
  cases k with
  | status =>
      obtain rfl := Option.some.inj h
      cases p.statusWant <;> cases p.status <;>
        exact isValue_of_line (by decide) (by decide)
  | essential =>
      rw [value] at h
      split at h
      · obtain rfl := Option.some.inj h
        exact isValue_of_line (by decide) (by decide)
      · cases h
  | priority =>
      obtain rfl := Option.some.inj h
      cases p.priority <;> exact isValue_of_line (by decide) (by decide)
  | installedSize => exact writeInt_eq h ▸ isValue_ofInt _
  | size => exact writeInt_eq h ▸ isValue_ofInt _
  | dependency type =>
      obtain ⟨hne, rfl⟩ := passed_eq h
      obtain ⟨first, names, hnames⟩ := List.exists_cons_of_ne_nil hne
      have hall : ∀ n ∈ targets p type, IsTarget n := hfit.2
      obtain ⟨c, t, hc, hspace⟩ := head_withCommas
        (hall first (hnames ▸ List.mem_cons_self)) names
      refine isValue_of_line (length_le_withCommas hall).2 ?_
      rw [hnames, hc]
      by_contra hb
      rw [Bool.not_eq_false] at hb
      have hblank : c = ' ' ∨ c = '\t' := by simpa [startsBlank, isBlank] using hb
      rcases hblank with rfl | rfl <;> exact absurd hspace (by decide)
  | description => exact hfit.2 v h
  | package | sectionName | maintainer | architecture | version | filename | sha256 =>
      exact hfit v h

theorem Key.read_value (hfit : k.Fit p) (h : k.value p = some v) (q : Package Text) :
    k.read v q = some (k.copy p q) := by
  cases k with
  | package =>
      obtain rfl := Option.some.inj h
      rfl
  | status =>
      obtain rfl := Option.some.inj h
      rw [read, readStatus_text]
      rfl
  | essential =>
      rw [value] at h
      split at h
      · next hessential =>
          obtain rfl := Option.some.inj h
          rw [copy, hessential]
          rfl
      · cases h
  | priority =>
      obtain rfl := Option.some.inj h
      rw [read, textFrom_priority]
      rfl
  | installedSize =>
      rw [writeInt_eq h, read, strtol_ofInt hfit.1 hfit.2, Option.map_some,
        Int.bmod_eq_of_le hfit.1 hfit.2]
      rfl
  | size =>
      rw [writeInt_eq h, read, strtol_ofInt hfit.1 hfit.2, Option.map_some,
        Int.bmod_eq_of_le hfit.1 hfit.2]
      rfl
  | dependency type =>
      obtain ⟨-, rfl⟩ := passed_eq h
      have hnames := dependencyNames_withCommas hfit.2 (length_le_withCommas hfit.2).1
      rw [read, copy, ← hnames, List.map_map]
      rw [hnames]
      rfl
  | description =>
      obtain ⟨short, hshort, rfl⟩ := Option.map_eq_some_iff.mp h
      have hline := hfit.1 short hshort
      rw [read, copy]
      cases hlong : p.description with
      | none => simp only [hline, if_false, hshort]
      | some long =>
          have hne : ∀ c ∈ short, decide (c ≠ '\n') = true := by
            intro c hc
            exact decide_eq_true fun e => hline (e ▸ hc)
          have htake : (short ++ '\n' :: long).takeWhile (· ≠ '\n') = short := by
            rw [List.takeWhile_append_of_pos hne]
            simp
          have hdrop : ((short ++ '\n' :: long).dropWhile (· ≠ '\n')).tail = long := by
            rw [List.dropWhile_append_of_pos hne]
            simp
          simp only [List.mem_append, List.mem_cons, true_or, or_true, if_true, htake, hdrop,
            hshort]
  | sectionName | maintainer | architecture | version | filename | sha256 =>
      rw [read, copy, ← h]
      rfl

theorem mem_written {f : Key × Text} (h : f ∈ written info p) :
    f.1 ∈ info ∧ f.1.value p = some f.2 := by
  obtain ⟨k, hk, hf⟩ := List.mem_filterMap.1 h
  obtain ⟨v, hv, rfl⟩ := Option.map_eq_some_iff.mp hf
  exact ⟨hk, hv⟩

/-- Of a package that was written its readers make the parts that belong to its fields. -/
theorem readAll_written (hfit : ∀ k ∈ info, k.Fit p) :
    readAll (written info p) {} = some (kept info p) := by
  have hall : ∀ f ∈ written info p, ∀ q, f.1.read f.2 q = some (f.1.copy p q) := fun f hf q =>
    Key.read_value (hfit _ (mem_written hf).1) (mem_written hf).2 q
  rw [readAll, kept]
  generalize written info p = fields at hall
  generalize ({} : Package Text) = q
  induction fields generalizing q with
  | nil => rfl
  | cons f fields ih =>
      obtain ⟨hf, hfields⟩ := List.forall_mem_cons.1 hall
      rw [List.foldlM_cons, hf q]
      exact ih hfields _

/-- Without a fault the writers pass on what the fields have to say. -/
theorem Key.write_eq (hfit : k.Fit p) (fresh : ℕ → Char) : k.write fresh p = some (k.value p) := by
  cases k with
  | dependency type => exact (writeNames_iff fresh fun n hn => (hfit.2 n hn).isPiece.2).mpr hfit.1
  | _ => rfl

theorem mapM_eq_some {α β : Type} {f : α → Option β} {g : α → β} {l : List α}
    (h : ∀ a ∈ l, f a = some (g a)) : l.mapM f = some (l.map g) := by
  induction l with
  | nil => rfl
  | cons a l ih =>
      obtain ⟨ha, hl⟩ := List.forall_mem_cons.1 h
      rw [List.mapM_cons, ha, ih hl]
      rfl

theorem writeEntry_eq (hfit : ∀ k ∈ info, k.Fit p) (fresh : ℕ → Char) :
    writeEntry fresh info p = some (written info p) := by
  have hmap : (info.mapM fun k => (k.write fresh p).map fun v => v.map (k, ·)) =
      some (info.map fun k => (k.value p).map (k, ·)) :=
    mapM_eq_some fun k hk => congrArg _ (Key.write_eq (hfit k hk) fresh)
  rw [writeEntry, hmap]
  show some (List.filterMap id _) = _
  rw [List.filterMap_map]
  rfl

theorem specialWriteFile_eq {ps : List (Package Text)} (hfit : ∀ p ∈ ps, ∀ k ∈ info, k.Fit p)
    (fresh : ℕ → Char) :
    specialWriteFile fresh info ps =
      some (writeFile (ps.map fun p => (written info p).map fun f => (f.1.name, f.2))) := by
  have hmap : ps.mapM (writeEntry fresh info) = some (ps.map (written info)) :=
    mapM_eq_some fun p hp => writeEntry_eq (hfit p hp) fresh
  rw [specialWriteFile, hmap]
  show some (writeFile _) = _
  rw [List.map_map]
  rfl

/-- Each field of a table is found under its name, which is one. -/
def Key.Found (info : List Key) (k : Key) : Prop :=
  keyOf info k.name = some k ∧ k.name ≠ [] ∧ startsBlank k.name = false ∧ ':' ∉ k.name ∧
    '\n' ∉ k.name

instance (info : List Key) (k : Key) : Decidable (k.Found info) :=
  inferInstanceAs (Decidable (_ ∧ _))

theorem found (h : info ∈ [packagesFieldinfo, statusFieldinfo, minimalFieldinfo]) :
    ∀ k ∈ info, k.Found info := by
  simp only [List.mem_cons, List.not_mem_nil, or_false] at h
  rcases h with rfl | rfl | rfl
  · exact List.all_iff_forall_prop.mp (by decide)
  · exact List.all_iff_forall_prop.mp (by decide)
  · exact List.all_iff_forall_prop.mp (by decide)

/-- `di_packages_special_write_file` and the parser: for each package a new entry, and the values
that were written, of which the readers make the package again. -/
theorem specialWriteFile_read {info : List Key}
    (hinfo : info ∈ [packagesFieldinfo, statusFieldinfo, minimalFieldinfo])
    {ps : List (Package Text)} (hfit : ∀ p ∈ ps, ∀ k ∈ info, k.Fit p)
    (hcount : ps.length < 2 ^ 31) (fresh : ℕ → Char) (behind : Text) :
    (∃ file, specialWriteFile fresh info ps = some file ∧
      diParserRfc822Read (keyOf info) file behind =
        some (ps.flatMap fun p => .entryNew :: (written info p).map fun f => .read f.1 f.2,
          (ps.length : Int))) ∧
      ∀ p ∈ ps, readAll (written info p) {} = some (kept info p) := by
  refine ⟨⟨_, specialWriteFile_eq hfit fresh, ?_⟩, fun p hp => readAll_written (hfit p hp)⟩
  have hfound := found hinfo
  have hpackage : Key.package ∈ info := by
    simp only [List.mem_cons, List.not_mem_nil, or_false] at hinfo
    rcases hinfo with rfl | rfl | rfl <;> exact List.mem_cons_self
  rw [diParserRfc822Read_writeFile]
  · rw [List.length_map, List.flatMap_map]
    refine congrArg (fun calls => some (calls, (ps.length : Int))) ?_
    refine List.flatMap_congr fun p hp => congrArg (List.cons Event.entryNew) ?_
    rw [List.flatMap_map, List.map_eq_flatMap]
    refine List.flatMap_congr fun f hf => ?_
    rw [(hfound _ (mem_written hf).1).1]
    rfl
  · refine List.forall_mem_map.2 fun p hp hnil => ?_
    have hmem : (Key.package, p.package) ∈ written info p :=
      List.mem_filterMap.2 ⟨_, hpackage, rfl⟩
    rw [List.map_eq_nil_iff.1 hnil] at hmem
    exact List.not_mem_nil hmem
  · refine List.forall_mem_map.2 fun p hp => List.forall_mem_map.2 fun f hf => ?_
    obtain ⟨-, hne, hbegins, hcolon, hline⟩ := hfound _ (mem_written hf).1
    exact ⟨hne, hbegins, hcolon, hline⟩
  · refine List.forall_mem_map.2 fun p hp => List.forall_mem_map.2 fun f hf => ?_
    exact Key.isValue_value (hfit p hp _ (mem_written hf).1) (mem_written hf).2
  · rwa [List.length_map]

/-- A package with a version and a dependency. -/
def anna : Package Text :=
  { package := "anna"
    version := some "1.60"
    installedSize := 120
    depends := [⟨.depends, "cdebconf-udeb"⟩, ⟨.depends, "libc6"⟩] }

theorem fits_depends : Fits (targets anna .depends) := by
  have htwo : Fits ([] ++ ["cdebconf-udeb".toList] ++ ["libc6".toList]) := by
    refine (fits_concat _ _).2 ⟨(fits_concat _ _).2 ⟨fits_nil, ?_⟩, ?_⟩
    · exact ⟨by decide, by decide⟩
    · exact ⟨by decide, by decide⟩
  exact htwo

theorem anna_fit (k : Key) : k.Fit anna := by
  cases k with
  | status | essential | priority => trivial
  | installedSize => exact ⟨by decide, by decide⟩
  | size => exact ⟨by decide, by decide⟩
  | package =>
      intro v h
      obtain rfl := Option.some.inj h
      exact isValue_of_line (by decide) (by decide)
  | version =>
      intro v h
      obtain rfl := Option.some.inj h
      exact isValue_of_line (by decide) (by decide)
  | dependency type =>
      cases type with
      | depends =>
          refine ⟨fits_depends, fun name h => ?_⟩
          have hname : name ∈ ["cdebconf-udeb".toList, "libc6".toList] := h
          rcases List.mem_cons.1 hname with rfl | hname
          · exact ⟨by decide, List.all_iff_forall_prop.mp (by decide)⟩
          · obtain rfl := List.mem_singleton.1 hname
            exact ⟨by decide, List.all_iff_forall_prop.mp (by decide)⟩
      | _ =>
          refine ⟨fits_nil, fun name h => ?_⟩
          cases h
  | description =>
      constructor
      · intro short h
        cases h
      · intro v h
        cases h
  | sectionName | maintainer | architecture | filename | sha256 =>
      intro v h
      cases h

theorem specialWriteFile_read_anna :
    (∃ file, specialWriteFile (fun _ => 'x') packagesFieldinfo [anna] = some file ∧
      diParserRfc822Read (keyOf packagesFieldinfo) file [] =
        some ([anna].flatMap fun p =>
          .entryNew :: (written packagesFieldinfo p).map fun f => .read f.1 f.2, 1)) ∧
      readAll (written packagesFieldinfo anna) {} = some anna := by
  have hfit : ∀ p ∈ [anna], ∀ k ∈ packagesFieldinfo, k.Fit p := by
    intro p hp k _
    rw [List.mem_singleton.1 hp]
    exact anna_fit k
  obtain ⟨hread, hall⟩ :=
    specialWriteFile_read List.mem_cons_self hfit (by decide) (fun _ => 'x') []
  exact ⟨hread, hall anna List.mem_cons_self⟩

end DebianInstaller.Packages
