import DebianInstaller.Packages.WriteFile
import DebianInstaller.Udpkg.Written

/-!
# The status file, written here and read there

`status_merge` writes the stanzas of the packages that `udpkg` has processed, and the menu reads
them with the parser of the library, which has a reader of its own for each field. The two agree
on the lines: what `udpkg` writes as fields comes out as the same fields, package by package.

They do not quite agree on the words of a status. Of the states that `udpkg` writes the library
has no word for three, and takes a package in one of them for one whose state is not defined.

The library drops the blanks in front of a value, so nothing may begin with one. A list of
configuration files is left out: its line has nothing behind the colon.
-/

namespace DebianInstaller.Udpkg

open Text Lib
open Packages (IsValue IsName Continues startsBlank entryCalls)

variable {b d : Text} {p : PackageT}

/-! ## The lines as fields -/

/-- The lines of a stanza: names and values, if there are any. -/
def statusLines (p : PackageT) : List (Text × Option Text) :=
  [("Package", some (printed p.package)),
    ("Status", some (printed (statusPrint p.status))),
    ("Priority", p.priority),
    ("Section", p.sectionName),
    ("Installed-Size", p.priority.map fun _ => printed p.installedSize),
    ("Maintainer", p.maintainer),
    ("Source", p.source),
    ("Version", p.version),
    ("Pre-Depends", p.preDepends),
    ("Depends", p.depends),
    ("Replaces", p.replaces),
    ("Recommends", p.recommends),
    ("Suggests", p.suggests),
    ("Provides", p.provides),
    ("Conflicts", p.conflicts),
    ("Description",
      p.description.map fun d => (d ++ '\n' :: printed p.longDescription).dropLast),
    ("Installer-Menu-Item",
      if p.installerMenuItem ≠ 0 then some (ofInt p.installerMenuItem) else none)]

/-- The lines that are written. -/
def statusFields (p : PackageT) : List (Text × Text) :=
  (statusLines p).filterMap fun f => f.2.map (f.1, ·)

/-- A package as `control_read` leaves it, which the library can read as well. -/
structure Readable (p : PackageT) : Prop where
  filled : Filled p
  name : ∀ name, p.package = some name → '\n' ∉ name
  begins : ∀ k v, p.text k = some v → startsBlank v = false
  conffiles : p.conffiles = none
  long : ∀ b, p.longDescription = some b → Complete b

theorem statusLines_text (ls : List (Text × Option Text)) :
    ls.flatMap (fun f => writeField (f.1 ++ ": ") f.2) =
      (ls.filterMap fun f => f.2.map (f.1, ·)).flatMap Packages.writeField := by
  induction ls with
  | nil => rfl
  | cons f ls ih =>
      obtain ⟨name, v⟩ := f
      rw [List.flatMap_cons, ih]
      cases v with
      | none => rfl
      | some v => simp [writeField, Packages.writeField]

/-- The description and what is behind it, on their lines. -/
theorem description_text (h : Readable p) (hd : p.description = some d) :
    writeField "Description: "
        (some (d ++ '\n' :: printed p.longDescription).dropLast) =
      "Description: " ++ d ++ ['\n'] ++ printed p.longDescription := by
  cases hlong : p.longDescription with
  | none => exact absurd (hd.symm.trans (h.filled.described.mpr hlong)) (Option.some_ne_none d)
  | some b =>
      have hlast : ∃ t, d ++ '\n' :: b = t ++ ['\n'] := by
        rcases h.long b hlong with rfl | hb
        · exact ⟨d, rfl⟩
        · obtain ⟨t, rfl⟩ := List.getLast?_eq_some_iff.mp hb
          exact ⟨d ++ '\n' :: t, by simp⟩
      obtain ⟨t, ht⟩ := hlast
      rw [show printed (some b) = b from rfl, ht, List.dropLast_concat, writeField,
        List.append_assoc _ t, ← ht]
      simp

theorem writeStanza_fields (h : Readable p) :
    writeStanza p = (statusFields p).flatMap Packages.writeField ++ ['\n'] := by
  have hdescription : writeDescription p =
      writeField "Description: "
          (p.description.map fun d => (d ++ '\n' :: printed p.longDescription).dropLast) ++
        (writeField "Installer-Menu-Item: "
          (if p.installerMenuItem ≠ 0 then some (ofInt p.installerMenuItem) else none) ++
          ['\n']) := by
    have hmenu : (if p.installerMenuItem ≠ 0 then
        "Installer-Menu-Item: " ++ ofInt p.installerMenuItem ++ ['\n'] else []) =
        writeField "Installer-Menu-Item: "
          (if p.installerMenuItem ≠ 0 then some (ofInt p.installerMenuItem) else none) := by
      split <;> rfl
    rw [writeDescription, hmenu, List.append_assoc]
    refine congrArg (· ++ _) ?_
    cases hd : p.description with
    | none => rfl
    | some d => exact (description_text h hd).symm
  rw [writeStanza, writeConffiles, h.conffiles, List.append_nil, writeFields, hdescription,
    statusFields, ← statusLines_text]
  simp only [statusLines, List.flatMap_cons, List.flatMap_nil, List.append_assoc, List.nil_append]
  rfl

/-! ## Names and values -/

theorem statusLines_names (p : PackageT) : ∀ f ∈ statusLines p, IsName f.1 := by
  have hnames : ∀ n ∈ (statusLines {}).map Prod.fst,
      n ≠ [] ∧ startsBlank n = false ∧ ':' ∉ n ∧ '\n' ∉ n :=
    List.all_iff_forall_prop.mp (by decide)
  intro f hf
  have hmem : f.1 ∈ (statusLines p).map Prod.fst := List.mem_map_of_mem hf
  obtain ⟨hne, hbegins, hcolon, hline⟩ := hnames f.1 hmem
  exact ⟨hne, hbegins, hcolon, hline⟩

/-- The lines of a block, and what is behind the last newline. -/
theorem Pieces.continued (h : Pieces b) :
    ∃ more last, b = unlines '\n' more ++ last ∧ (∀ c ∈ more, Continues c) ∧
      '\n' ∉ last := by
  induction h with
  | nil => exact ⟨[], [], rfl, by simp, List.not_mem_nil⟩
  | @line l b hl _ _ ih =>
      obtain ⟨more, last, rfl, hmore, hlast⟩ := ih
      refine ⟨(' ' :: l) :: more, last, by simp [unlines_cons],
        List.forall_mem_cons.mpr ⟨⟨rfl, ?_⟩, hmore⟩, hlast⟩
      simpa using hl
  | @full l b hl _ _ ih =>
      obtain ⟨more, last, rfl, hmore, hlast⟩ := ih
      have hl' : '\n' ∉ ' ' :: l := by simpa using hl
      -- what fills the buffer runs on into the next piece
      cases more with
      | nil => exact ⟨[], ' ' :: l ++ last, by simp [unlines], by simp, by simpa [hl] using hlast⟩
      | cons c more =>
          obtain ⟨hc, hmore⟩ := List.forall_mem_cons.mp hmore
          refine ⟨(' ' :: l ++ c) :: more, last, by simp [unlines_cons],
            List.forall_mem_cons.mpr ⟨⟨rfl, ?_⟩, hmore⟩, hlast⟩
          exact fun hmem => (List.mem_append.mp hmem).elim hl' hc.2

theorem Block.continued (h : Block b) (hb : Complete b) :
    ∃ more, b = unlines '\n' more ∧ ∀ c ∈ more, Continues c := by
  have hsplit : ∃ more last, b = unlines '\n' more ++ last ∧
      (∀ c ∈ more, Continues c) ∧ '\n' ∉ last := by
    rcases h with h | ⟨b₀, l, h, -, hl, -, rfl⟩
    · exact h.continued
    · obtain ⟨more, last, rfl, hmore, hlast⟩ := h.continued
      refine ⟨more, last ++ ' ' :: l, by simp, hmore, ?_⟩
      simp [hlast, hl]
  obtain ⟨more, last, rfl, hmore, hlast⟩ := hsplit
  rcases List.eq_nil_or_concat last with rfl | ⟨t, c, rfl⟩
  · exact ⟨more, List.append_nil _, hmore⟩
  · rw [List.concat_eq_append] at hb hlast
    rcases hb with hb | hb
    · simp at hb
    · rw [← List.append_assoc, List.getLast?_concat] at hb
      exact absurd (by simp [Option.some.inj hb]) hlast

theorem isValue_description (h : Readable p) (hd : p.description = some d) :
    IsValue (d ++ '\n' :: printed p.longDescription).dropLast := by
  cases hlong : p.longDescription with
  | none => exact absurd (hd.symm.trans (h.filled.described.mpr hlong)) (Option.some_ne_none d)
  | some b =>
      obtain ⟨more, rfl, hmore⟩ := (h.filled.block b hlong).continued (h.long b hlong)
      have hbody : d ++ '\n' :: unlines '\n' more =
          d ++ Packages.body more ++ ['\n'] := by
        rw [List.append_assoc]
        refine congrArg (d ++ ·) ?_
        clear hlong hmore
        induction more with
        | nil => rfl
        | cons c more ih => simp [Packages.body_cons, unlines_cons, ← ih]
      rw [show printed (some (unlines '\n' more)) = unlines '\n' more from rfl, hbody, List.dropLast_concat]
      exact ⟨d, more, rfl, (h.filled.fits .description d (by decide) hd).1,
        h.begins .description d hd, hmore⟩

theorem startsBlank_printed (s : Status) : startsBlank (printed (statusPrint s)) = false := by
  rcases s with ⟨_ | want, _ | flag, _ | state⟩
  case some.some.some => cases want <;> rfl
  all_goals rfl

theorem statusLines_values (h : Readable p) :
    ∀ f ∈ statusLines p, ∀ v, f.2 = some v → IsValue v := by
  have htext : ∀ k, k ≠ .package → ∀ v, p.text k = some v → IsValue v := fun k hk v hv =>
    Packages.isValue_of_line (h.filled.fits k v hk hv).1 (h.begins k v hv)
  have hnull : IsValue null := Packages.isValue_of_line (by decide) (by decide)
  have hnone : ∀ {o : Option Text}, o = none → ∀ v, o = some v → IsValue v := by
    rintro o rfl v hv
    exact absurd hv.symm (Option.some_ne_none v)
  obtain ⟨hsource, hpreDepends, hreplaces, hconflicts⟩ := h.filled.unread
  have hpackage : IsValue (printed p.package) := by
    cases hp : p.package with
    | none => exact hnull
    | some name => exact Packages.isValue_of_line (h.name name hp) (h.begins .package name hp)
  have hstatus : IsValue (printed (statusPrint p.status)) :=
    Packages.isValue_of_line (printed_fits p.status).1 (startsBlank_printed p.status)
  have hsize : IsValue (printed p.installedSize) := by
    cases hs : p.installedSize with
    | none => exact hnull
    | some size => exact htext .installedSize (by decide) size hs
  simp only [statusLines, List.forall_mem_cons, List.not_mem_nil, false_implies, implies_true,
    and_true]
  refine ⟨?_, ?_, htext .priority (by decide), htext .sectionName (by decide), ?_,
    htext .maintainer (by decide), hnone hsource, htext .version (by decide), hnone hpreDepends,
    htext .depends (by decide), hnone hreplaces, htext .recommends (by decide),
    htext .suggests (by decide), htext .provides (by decide), hnone hconflicts, ?_, ?_⟩
  · rintro v ⟨⟩
    exact hpackage
  · rintro v ⟨⟩
    exact hstatus
  · intro v hv
    obtain ⟨_, -, rfl⟩ := Option.map_eq_some_iff.mp hv
    exact hsize
  · intro v hv
    obtain ⟨d, hd, rfl⟩ := Option.map_eq_some_iff.mp hv
    exact isValue_description h hd
  · intro v hv
    split at hv
    · obtain rfl := Option.some.inj hv
      exact Packages.isValue_ofInt _
    · exact absurd hv.symm (Option.some_ne_none v)

/-! ## The words of a status -/

/-- What the library reads for a word. -/
def Want.read : Want → PackageStatusWant
  | .unknown => .unknown
  | .install => .install
  | .hold => .hold
  | .deinstall => .deinstall
  | .purge => .purge

def State.read : State → PackageStatus
  | .notInstalled => .notInstalled
  | .unpacked => .unpacked
  | .halfConfigured => .halfConfigured
  | .installed => .installed
  | .configFiles => .configFiles
  | .halfInstalled | .postInstFailed | .removalFailed => .undefined

/-- What the library reads for a status. Where a group has no word `(null)` is printed, which has
no blank, and the reader goes on from `NULL`. -/
def Status.read : Status → Option (PackageStatusWant × PackageStatus)
  | ⟨some want, some _, some state⟩ => some (want.read, state.read)
  | _ => none

theorem readStatus_print (status : Status) :
    Packages.readStatus (printed (statusPrint status)) = status.read := by
  obtain ⟨want, flag, state⟩ := status
  cases want with
  | none => rfl
  | some want =>
      cases flag with
      | none => rfl
      | some flag =>
          cases state with
          | none => rfl
          | some state => cases want <;> cases flag <;> cases state <;> decide

/-! ## The file -/

/-- The parser of the library finds the packages that `udpkg` has written, each with its fields
and no others; their statuses are read word by word, where there is a word of each group. -/
theorem diParserRfc822Read_writeStanza {F : Type} (lookup : Text → Option F) {ps : List PackageT}
    (h : ∀ p ∈ ps, Readable p) (hcount : ps.length < 2 ^ 31) (behind : Text) :
    Packages.diParserRfc822Read lookup (ps.flatMap writeStanza) behind =
        some (ps.flatMap fun p => entryCalls lookup (statusFields p), (ps.length : Int)) ∧
      ∀ p ∈ ps, ∃ v, ("Status".toList, v) ∈ statusFields p ∧
        Packages.readStatus v = p.status.read := by
  have htext : ps.flatMap writeStanza = Packages.writeFile (ps.map statusFields) := by
    rw [Packages.writeFile, List.flatMap_map]
    exact List.flatMap_congr fun p hp => writeStanza_fields (h p hp)
  have hmem : ∀ p, ∀ f ∈ statusFields p, ∃ l ∈ statusLines p, l.1 = f.1 ∧ l.2 = some f.2 := by
    intro p f hf
    obtain ⟨l, hl, hlf⟩ := List.mem_filterMap.mp hf
    obtain ⟨v, hv, rfl⟩ := Option.map_eq_some_iff.mp hlf
    exact ⟨l, hl, rfl, hv⟩
  refine ⟨?_, fun p _ => ⟨printed (statusPrint p.status), ?_, readStatus_print p.status⟩⟩
  · rw [htext, Packages.diParserRfc822Read_writeFile lookup, List.length_map, List.flatMap_map]
    · refine List.forall_mem_map.mpr fun p _ hnil => ?_
      have : ("Package".toList, printed p.package) ∈ statusFields p :=
        List.mem_filterMap.mpr ⟨_, List.mem_cons_self, rfl⟩
      rw [hnil] at this
      exact List.not_mem_nil this
    · refine List.forall_mem_map.mpr fun p _ f hf => ?_
      obtain ⟨l, hl, hname, -⟩ := hmem p f hf
      rw [← hname]
      exact statusLines_names p l hl
    · refine List.forall_mem_map.mpr fun p hp f hf => ?_
      obtain ⟨l, hl, -, hvalue⟩ := hmem p f hf
      exact statusLines_values (h p hp) l hl f.2 hvalue
    · rw [List.length_map]
      exact hcount
  · exact List.mem_filterMap.mpr ⟨_, List.mem_cons_of_mem _ List.mem_cons_self, rfl⟩

/-- A package that was interrupted. -/
def brokenPackage : PackageT :=
  { sizedPackage with status := .full .install .ok .halfInstalled, installerMenuItem := 1800 }

theorem brokenPackage_readable : Readable brokenPackage := by
  have hfilled : Filled sizedPackage :=
    controlRead_filled (t := sizedControl) (r := (sizedPackage, none)) (by decide)
      (filled_new [] none)
  refine ⟨⟨fun k v hk hv => hfilled.fits k v hk ?_, hfilled.unread, hfilled.described,
    hfilled.block, hfilled.conffiles, by decide⟩, ?_, fun k v hv => ?_, rfl, ?_⟩
  · cases k <;> exact hv
  · rintro name ⟨⟩
    decide
  · cases k <;> first | exact absurd hv.symm (Option.some_ne_none v) | (cases hv; decide)
  · rintro b ⟨⟩
    decide

theorem diParserRfc822Read_writeStanza_broken :
    Packages.diParserRfc822Read (Packages.keyOf Packages.statusFieldinfo)
        ([brokenPackage].flatMap writeStanza) [] =
      some ([brokenPackage].flatMap fun p =>
        entryCalls (Packages.keyOf Packages.statusFieldinfo) (statusFields p), 1) ∧
      ∃ v, ("Status".toList, v) ∈ statusFields brokenPackage ∧
        Packages.readStatus v = some (.install, .undefined) := by
  obtain ⟨hread, hall⟩ := diParserRfc822Read_writeStanza
    (Packages.keyOf Packages.statusFieldinfo)
    (List.forall_mem_singleton.mpr brokenPackage_readable) (by decide) []
  exact ⟨hread, hall brokenPackage List.mem_cons_self⟩

end DebianInstaller.Udpkg
