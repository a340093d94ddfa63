import DebianInstaller.Lib.Lines
import DebianInstaller.Udpkg.Status

/-!
# Control files and stanzas

`control_read` reads the lines of a control file, or of one stanza of the status file, up
to a blank line, and `status_merge` writes the stanza of a package that was processed.

A line is read into a buffer of `BUFSIZE` characters and its last character is cut off,
whatever it is; a last line without a newline is not looked at. The long description and
the list of configuration files are read by `read_block`, which takes lines that begin
with a blank and puts the character behind them back.

Files are text without `NUL` characters. A `char` is signed, so that `ungetc` does not put
back a character 255. Of `struct package_t` only the links of the list and of the
dependency sort are left out; a list of packages is a list.
-/

namespace DebianInstaller.Udpkg

open Text Lib

variable {buf rest t : Text} {m n : ℕ}

/-- What `fgets` takes into a buffer of `BUFSIZE`. -/
def room : ℕ := 4095

/-- `struct package_t`. -/
structure PackageT where
  file : Text := []
  package : Option Text := none
  status : Status := {}
  priority : Option Text := none
  sectionName : Option Text := none
  installedSize : Option Text := none
  maintainer : Option Text := none
  source : Option Text := none
  version : Option Text := none
  preDepends : Option Text := none
  depends : Option Text := none
  replaces : Option Text := none
  recommends : Option Text := none
  suggests : Option Text := none
  provides : Option Text := none
  conflicts : Option Text := none
  conffiles : Option Text := none
  description : Option Text := none
  longDescription : Option Text := none
  installerMenuItem : Int := 0
  deriving DecidableEq

variable {p : PackageT} {r : PackageT × Text}

/-! ## Reading -/

/-- `atoi`: `strtol` to base 10, made an `int`. -/
def atoi (t : Text) : Int :=
  let s := t.dropWhile isSpace
  let negative := s.head? = some '-'
  let s := if s.head? = some '-' ∨ s.head? = some '+' then s.tail else s
  let n : Int := number (s.takeWhile Char.isDigit)
  let n := if negative then -n else n
  (max (-2 ^ 63) (min (2 ^ 63 - 1) n)).bmod (2 ^ 32)

/-- `read_block`: the lines, and what is left, at most so many times. -/
def readBlockLoop : ℕ → Text → Text × Text
  | 0, t => ([], t)
  | _ + 1, [] => ([], [])
  | n + 1, c :: t =>
      if c = ' ' then
        if t = [] then ([], [' '])
        else
          let (b, r) := readBlockLoop n (piece '\n' room t).2.2
          (' ' :: (piece '\n' room t).1 ++ b, r)
      else if c = '\xff' then ([], t)
      else ([], c :: t)

def readBlock (t : Text) : Text × Text := readBlockLoop (t.length + 1) t

/-- The fields that `control_read` knows. -/
inductive Key where
  | package
  | status
  | depends
  | provides
  | description
  | installerMenuItem
  | priority
  | sectionName
  | installedSize
  | maintainer
  | version
  | suggests
  | recommends
  | conffiles
  deriving DecidableEq, Repr

/-- What the line of a field begins with. -/
def Key.label : Key → Text
  | .package => "Package: "
  | .status => "Status: "
  | .depends => "Depends: "
  | .provides => "Provides: "
  | .description => "Description: "
  | .installerMenuItem => "Installer-Menu-Item: "
  | .priority => "Priority: "
  | .sectionName => "Section: "
  | .installedSize => "Installed-Size: "
  | .maintainer => "Maintainer: "
  | .version => "Version: "
  | .suggests => "Suggests: "
  | .recommends => "Recommends: "
  | .conffiles => "Conffiles: "

/-- The fields in the order of the tests, and whether `strstr` or `strcasestr` tests. -/
def Key.all : List (Key × Bool) :=
  [(.package, true), (.status, true), (.depends, true), (.provides, true), (.description, true),
    (.installerMenuItem, false), (.priority, false), (.sectionName, false),
    (.installedSize, false), (.maintainer, false), (.version, false), (.suggests, false),
    (.recommends, false), (.conffiles, false)]

/-- `strstr (buf, label) == buf`, or with `strcasestr`. -/
def begins (exact : Bool) (label buf : Text) : Bool :=
  if exact then label.isPrefixOf buf else sameIgnoringCase (buf.take label.length) label

/-- The field of a line. -/
def keyOf (buf : Text) : Option Key :=
  (Key.all.find? fun k => begins k.2 k.1.label buf).map Prod.fst

/-- What `control_read` does with a field: the package, and what is left of the file. A
status that stops the program is `none`. -/
def setField (k : Key) (v rest : Text) (p : PackageT) : Option (PackageT × Text) :=
  match k with
  | .package => some ({ p with package := some v }, rest)
  | .status => (statusParse v).map fun s => ({ p with status := s }, rest)
  | .depends => some ({ p with depends := some v }, rest)
  | .provides => some ({ p with provides := some v }, rest)
  | .description =>
      some ({ p with description := some v, longDescription := some (readBlock rest).1 },
        (readBlock rest).2)
  | .installerMenuItem => some ({ p with installerMenuItem := atoi v }, rest)
  | .priority => some ({ p with priority := some v }, rest)
  | .sectionName => some ({ p with sectionName := some v }, rest)
  | .installedSize => some ({ p with installedSize := some v }, rest)
  | .maintainer => some ({ p with maintainer := some v }, rest)
  | .version => some ({ p with version := some v }, rest)
  | .suggests => some ({ p with suggests := some v }, rest)
  | .recommends => some ({ p with recommends := some v }, rest)
  | .conffiles => some ({ p with conffiles := some (readBlock rest).1 }, (readBlock rest).2)

/-- The `else if` chain, for a line without its last character. -/
def controlLine (buf rest : Text) (p : PackageT) : Option (PackageT × Text) :=
  match keyOf buf with
  | none => some (p, rest)
  | some k => setField k (buf.drop k.label.length) rest p

/-- `control_read`, at most so many lines: the package, and what is left behind a blank
line, if it ended there and not at the end of the file. -/
def controlReadLoop : ℕ → Text → PackageT → Option (PackageT × Option Text)
  | 0, _, p => some (p, none)
  | n + 1, t, p =>
      if t = [] then some (p, none)
      else if (piece '\n' room t).2.1 then some (p, none)
      else if (piece '\n' room t).1.dropLast = [] then some (p, some (piece '\n' room t).2.2)
      else
        match controlLine (piece '\n' room t).1.dropLast (piece '\n' room t).2.2 p with
        | none => none
        | some (p, rest) => controlReadLoop n rest p

/-- `control_read`. Each line takes a character, so the file is long enough. -/
def controlRead (t : Text) (p : PackageT) : Option (PackageT × Option Text) :=
  controlReadLoop (t.length + 1) t p

/-! ## Writing -/

/-- A line for a field that is there. -/
def writeField (label : Text) (v : Option Text) : Text :=
  match v with
  | none => []
  | some v => label ++ v ++ ['\n']

/-- The lines before the list of configuration files. -/
def writeFields (p : PackageT) : Text :=
  writeField "Package: " (some (printed p.package)) ++
    writeField "Status: " (some (printed (statusPrint p.status))) ++
    writeField "Priority: " p.priority ++
    writeField "Section: " p.sectionName ++
    writeField "Installed-Size: " (p.priority.map fun _ => printed p.installedSize) ++
    writeField "Maintainer: " p.maintainer ++
    writeField "Source: " p.source ++
    writeField "Version: " p.version ++
    writeField "Pre-Depends: " p.preDepends ++
    writeField "Depends: " p.depends ++
    writeField "Replaces: " p.replaces ++
    writeField "Recommends: " p.recommends ++
    writeField "Suggests: " p.suggests ++
    writeField "Provides: " p.provides ++
    writeField "Conflicts: " p.conflicts

/-- The list of configuration files. -/
def writeConffiles (p : PackageT) : Text :=
  match p.conffiles with
  | none => []
  | some conffiles => "Conffiles:\n " ++ conffiles ++ ['\n']

/-- The descriptions, the menu item and the blank line. -/
def writeDescription (p : PackageT) : Text :=
  (match p.description with
    | none => []
    | some description => "Description: " ++ description ++ ['\n'] ++ printed p.longDescription) ++
    (if p.installerMenuItem ≠ 0 then
      "Installer-Menu-Item: " ++ ofInt p.installerMenuItem ++ ['\n'] else []) ++
    ['\n']

/-- The stanza of a processed package in `status_merge`. -/
def writeStanza (p : PackageT) : Text := writeFields p ++ writeConffiles p ++ writeDescription p

/-! ## The length of what is left -/

theorem readBlockLoop_length_le (n : ℕ) (t : Text) :
    (readBlockLoop n t).2.length ≤ t.length := by
  induction n generalizing t with
  | zero => exact le_rfl
  | succ n ih =>
      cases t with
      | nil => exact le_rfl
      | cons c t =>
          rw [readBlockLoop]
          split
          · split
            · next ht =>
                subst ht
                exact le_rfl
            · next ht =>
                have hrest := length_rest_lt '\n' (n := room) (by decide) ht
                exact ((ih _).trans hrest.le).trans (Nat.le_succ _)
          · split
            · exact Nat.le_succ _
            · exact le_rfl

theorem readBlockLoop_rounds (hn : t.length < n) (hm : t.length < m) :
    readBlockLoop n t = readBlockLoop m t := by
  induction n generalizing m t with
  | zero => omega
  | succ n ih =>
      obtain ⟨m, rfl⟩ : ∃ k, m = k + 1 := ⟨m - 1, by omega⟩
      cases t with
      | nil => rfl
      | cons c t =>
          rw [readBlockLoop, readBlockLoop]
          split
          · split
            · rfl
            · next ht =>
                have hrest := length_rest_lt '\n' (n := room) (by decide) ht
                rw [List.length_cons] at hn hm
                rw [ih (m := m) (by omega) (by omega)]
          · rfl

theorem readBlock_nil : readBlock [] = ([], []) := rfl

theorem readBlock_blank (ht : t ≠ []) :
    readBlock (' ' :: t) = (' ' :: (piece '\n' room t).1 ++ (readBlock (piece '\n' room t).2.2).1,
      (readBlock (piece '\n' room t).2.2).2) := by
  have hrest := length_rest_lt '\n' (n := room) (by decide) ht
  rw [readBlock, readBlockLoop, if_pos rfl, if_neg ht, List.length_cons,
    readBlockLoop_rounds (m := (piece '\n' room t).2.2.length + 1) (by omega) (by omega)]
  rfl

theorem readBlock_stop {c : Char} (hc : c ≠ ' ') (hc' : c ≠ '\xff') (t : Text) :
    readBlock (c :: t) = ([], c :: t) := by
  rw [readBlock, readBlockLoop, if_neg hc, if_neg hc']

theorem setField_length_le {k : Key} {v : Text} (h : setField k v rest p = some r) :
    r.2.length ≤ rest.length := by
  have hblock : (readBlock rest).2.length ≤ rest.length := readBlockLoop_length_le _ _
  cases k with
  | status =>
      obtain ⟨s, -, rfl⟩ := Option.map_eq_some_iff.mp h
      exact le_rfl
  | description =>
      cases h
      exact hblock
  | conffiles =>
      cases h
      exact hblock
  | _ =>
      cases h
      exact le_rfl

theorem controlLine_length_le (h : controlLine buf rest p = some r) : r.2.length ≤ rest.length := by
  rw [controlLine] at h
  split at h
  · cases h
    exact le_rfl
  · exact setField_length_le h

theorem controlReadLoop_rounds (hn : t.length < n) (hm : t.length < m) (p : PackageT) :
    controlReadLoop n t p = controlReadLoop m t p := by
  induction n generalizing m t p with
  | zero => omega
  | succ n ih =>
      obtain ⟨m, rfl⟩ : ∃ k, m = k + 1 := ⟨m - 1, by omega⟩
      rw [controlReadLoop, controlReadLoop]
      split
      · rfl
      · next ht =>
          split
          · rfl
          · split
            · rfl
            · split
              · rfl
              · next heq =>
                  have h₁ := controlLine_length_le heq
                  dsimp only at h₁
                  have h₂ := length_rest_lt '\n' (n := room) (by decide) ht
                  exact ih (by omega) (by omega) _

theorem controlRead_piece (ht : t ≠ []) (hpiece : piece '\n' room t = (buf, false, rest))
    (p : PackageT) :
    controlRead t p =
      if buf.dropLast = [] then some (p, some rest)
      else (controlLine buf.dropLast rest p).bind fun r => controlRead r.2 r.1 := by
  have hrest := length_rest_lt '\n' (n := room) (by decide) ht
  rw [hpiece] at hrest
  rw [controlRead, controlReadLoop, if_neg ht, hpiece, if_neg (by simp)]
  split
  · rfl
  · cases heq : controlLine buf.dropLast rest p with
    | none => rfl
    | some r =>
        have hle := controlLine_length_le heq
        dsimp only at hrest
        exact controlReadLoop_rounds (by omega) (by omega) _

theorem controlRead_line {l : Text} (h : '\n' ∉ l) (hlen : l.length < room) (rest : Text)
    (p : PackageT) :
    controlRead (l ++ '\n' :: rest) p =
      if l = [] then some (p, some rest)
      else (controlLine l rest p).bind fun r => controlRead r.2 r.1 := by
  rw [controlRead_piece (by simp) (piece_line '\n' h hlen rest), List.dropLast_concat]

end DebianInstaller.Udpkg
