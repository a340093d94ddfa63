import DebianInstaller.Udpkg.Written
import Mathlib.Data.List.Forall2

/-!
# The stanzas of all other packages

`status_merge` goes by the lines with the name of a package, not by stanzas: a line is under
the name that stands in it or last above it, and is left out if a package of that name was
processed. So a line of a stanza that stands before its name is under the name of the stanza
before. The stanzas of the packages that were not processed are kept if it makes no
difference, that is, if each stanza with a name is left out as a whole or not at all, and no
line of a status is under the name of another package.

Apart from that the lines of the file have to fit into the buffer, no status that
`status_read` looks at may stop the program, and the file has to end as it must: a last line
without its newline is not copied, and the stanzas that are written stand directly behind
what was copied. So what stands behind the last blank line may be the stanza of a processed
package, or lines without a name; it may be a stanza that is kept only if its last line is
complete and no stanza is written.

What is copied is a list of lines, and the induction is on the lines of the file: up to a
blank line they are collected, and at a blank line, or at the end, it is known what became of
the stanza.
-/

namespace DebianInstaller.Udpkg

open Text Lib

variable {above : Option Text} {cur ls s : List Text} {l name z : Text} {pkgs : List PackageT}
  {st : MergeState}

/-! ## Names -/

theorem takeWhile_line (h : '\n' ∉ name) : (name ++ ['\n']).takeWhile (· != '\n') = name := by
  have hname : ∀ c ∈ name, (c != '\n') = true := by
    intro c hc
    simp only [bne_iff_ne, ne_eq]
    rintro rfl
    exact h hc
  rw [List.takeWhile_append_of_pos hname]
  simp

theorem nameIn_package (h : '\n' ∉ name) : nameIn (packageLabel ++ name ++ ['\n']) = some name := by
  rw [nameIn, List.append_assoc, if_pos (isPrefixOf_append _ _), List.drop_left, takeWhile_line h]

theorem nameIn_other (h : ¬ packageLabel <+: l) : nameIn l = none := by
  rw [nameIn, if_neg (by rwa [List.isPrefixOf_iff_prefix])]

theorem Stanza.packageOf_texts {s : Stanza} (h : '\n' ∉ s.name) :
    packageOf s.texts = some s.name := by
  rw [Stanza.texts, Stanza.lines, List.map_cons, packageOf, List.findSome?_cons, nameIn_package h]

theorem newline_not_mem_name {s : Stanza} (hs : s.Ok) : '\n' ∉ s.name :=
  fun h => hs.name.newline (List.mem_append_right _ h)

/-! ## The stanzas that are written -/

/-- What `control_read` leaves in a package, and a name without a newline. -/
def Processed (p : PackageT) : Prop := Filled p ∧ ∃ name, p.package = some name ∧ '\n' ∉ name

theorem Stanza.rewrite_lines (tree : Tree) {s : Stanza} (hs : s.Ok) :
    ∀ l ∈ (s.rewrite tree).lines, '\n' ∉ l ∧ l ≠ [] := by
  intro l hl
  rcases List.mem_cons.mp hl with rfl | hl
  · exact ⟨hs.name.newline, hs.name.nonblank⟩
  · obtain ⟨l', hl', rfl⟩ := List.mem_map.mp hl
    split
    · refine ⟨fun hmem => ?_, fun hnil => absurd (List.append_eq_nil_iff.mp hnil).1 (by decide)⟩
      rcases List.mem_append.mp hmem with h | h
      · exact newline_not_mem_label .status h
      · cases htree : tree s.name with
        | none =>
            rw [htree] at h
            exact absurd h (by decide)
        | some status =>
            rw [htree] at h
            exact (printed_fits status).1 h
    · exact ⟨(hs.fields l' hl').1.newline, (hs.fields l' hl').1.nonblank⟩

/-! ## Files whose stanzas are spared -/

/-- The stanza of a package that is not processed. -/
def unlisted (pkgs : List PackageT) (s : List Text) : Bool :=
  (packageOf s).any fun name => !listed pkgs name

/-- The lines behind the last blank line, behind those of a stanza that has begun. -/
def openFrom : List Text → List Text → List Text
  | cur, [] => cur
  | cur, l :: ls => if l = ['\n'] then openFrom [] ls else openFrom (cur ++ [l]) ls

/-- The name a line is under: its own, or the last one above it. -/
def under (above : Option Text) (l : Text) : Option Text := (nameIn l).or above

/-- Lines, each with the name it is under. -/
def governed : Option Text → List Text → List (Text × Option Text)
  | _, [] => []
  | above, l :: ls => (l, under above l) :: governed (under above l) ls

/-- The name that what comes behind is under. -/
def below (above : Option Text) (s : List Text) : Option Text := s.foldl under above

/-- Lines under this name are left out. -/
def skips (pkgs : List PackageT) (name : Option Text) : Bool := name.any (listed pkgs)

/-- A stanza with a name is left out as a whole or not at all, and the line of its status is
not under the name of another package. -/
def Spared (pkgs : List PackageT) (above : Option Text) (s : List Text) : Prop :=
  ∀ name ∈ packageOf s, ∀ x ∈ governed above s, skips pkgs x.2 = listed pkgs name ∧
    (listed pkgs name = false → statusLabel <+: x.1 → x.2 = none ∨ x.2 = some name)

instance (pkgs : List PackageT) (above : Option Text) (s : List Text) :
    Decidable (Spared pkgs above s) :=
  inferInstanceAs (Decidable (∀ name ∈ packageOf s, ∀ x ∈ governed above s, _ ∧ (_ → _ → _)))

/-- All stanzas are spared, one behind the other. -/
def AllSpared (pkgs : List PackageT) : Option Text → List (List Text) → Prop
  | _, [] => True
  | above, s :: ss => Spared pkgs above s ∧ AllSpared pkgs (below above s) ss

instance allSpared_decidable (pkgs : List PackageT) :
    ∀ above ss, Decidable (AllSpared pkgs above ss)
  | _, [] => isTrue trivial
  | above, s :: ss =>
      haveI := allSpared_decidable pkgs (below above s) ss
      inferInstanceAs (Decidable (_ ∧ _))

/-- The status in a line stops the program. -/
def stops (l : Text) : Bool :=
  statusLabel.isPrefixOf l && (statusParse (l.drop statusLabel.length)).isNone

/-- Behind the last blank line there is no stanza that is kept, or it ends there and no
stanza is written. -/
def Ends (pkgs : List PackageT) (file : Text) : Prop :=
  ∀ name, packageOf (openFrom [] (cutLines file)) = some name →
    listed pkgs name = true ∨ pkgs = [] ∧ Complete file

section Copied

variable (tree : Tree) (pkgs : List PackageT)

/-- A stanza was kept. -/
def KeptStanza (s s' : List Text) : Prop := List.Forall₂ (KeptLine tree (packageOf s)) s s'

/-- `pkg` and `statpkg` below a name. -/
def stateOf (above : Option Text) : MergeState := ⟨skips pkgs above, above.bind tree⟩

/-- The lines that are copied. -/
def copied : Option Text → List Text → List Text
  | _, [] => []
  | above, l :: ls =>
      (if skips pkgs (under above l) then []
        else [mergeLine l.dropLast (stateOf tree pkgs (under above l))]) ++
      copied (under above l) ls

variable {tree pkgs}

theorem packageOf_kept {name : Option Text} {s' : List Text}
    (h : List.Forall₂ (KeptLine tree name) s s') : packageOf s' = packageOf s := by
  induction h with
  | nil => rfl
  | @cons l l' s s' hl _ ih =>
      have hname : nameIn l' = nameIn l := by
        rcases hl with rfl | ⟨⟨v, rfl⟩, status, -, rfl⟩
        · rfl
        · rw [nameIn_other fun hp => ?_, nameIn_other fun hp => ?_]
          · rw [← List.isPrefixOf_iff_prefix] at hp
            exact Bool.false_ne_true hp
          · rw [← List.isPrefixOf_iff_prefix] at hp
            exact Bool.false_ne_true hp
      rw [packageOf, packageOf, List.findSome?_cons, List.findSome?_cons, hname]
      split
      · rfl
      · exact ih

/-- A line of a file, with its newline. -/
def Whole (l : Text) : Prop := ∃ m, l = m ++ ['\n'] ∧ '\n' ∉ m ∧ m ≠ []

theorem KeptStanza.unlisted {s' : List Text} (h : KeptStanza tree s s')
    (hs : unlisted pkgs s = true) : s ≠ [] ∧ s' ≠ [] ∧ unlisted pkgs s' = true := by
  have hne : s ≠ [] := by
    rintro rfl
    cases hs
  refine ⟨hne, ?_, ?_⟩
  · rintro rfl
    exact hne (List.forall₂_nil_right_iff.mp h)
  · rw [Udpkg.unlisted, packageOf_kept h]
    exact hs

end Copied

theorem line_of_check (h : '\n' ∉ l ∧ l.length < room ∧ l ≠ [] ∧
    (statusLabel.isPrefixOf l = true → statusParse (l.drop statusLabel.length) ≠ none) ∧
    l.head? ≠ some '\xff') : Line l := by
  obtain ⟨hnl, hlen, hne, hstatus, hput⟩ := h
  refine ⟨hnl, hlen, hne, ?_, hput⟩
  rintro v rfl
  simpa using hstatus (isPrefixOf_append _ v)

/-- Two packages, with a field that `udpkg` does not know. -/
def twoStanzas : List Stanza :=
  [⟨"netcfg", ["Status: install ok installed", "Bugs: none"], 1⟩,
    ⟨"anna", ["Status: install ok unpacked"], 1⟩]

theorem twoStanzas_ok : ∀ s ∈ twoStanzas, s.Ok := by
  refine List.forall_mem_cons.mpr ⟨⟨line_of_check (by decide), ?_⟩, List.forall_mem_singleton.mpr
    ⟨line_of_check (by decide), ?_⟩⟩
  · refine List.forall_mem_cons.mpr ⟨⟨line_of_check (by decide), by decide⟩,
      List.forall_mem_singleton.mpr ⟨line_of_check (by decide), by decide⟩⟩
  · exact List.forall_mem_singleton.mpr ⟨line_of_check (by decide), by decide⟩

theorem processed_named (file : Text) (h : '\n' ∉ name) :
    Processed { file := file, package := some name } :=
  ⟨filled_new file (some name), name, rfl, h⟩

end DebianInstaller.Udpkg
