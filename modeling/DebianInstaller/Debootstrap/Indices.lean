import DebianInstaller.Debootstrap.Get
import DebianInstaller.Debootstrap.Words

/-!
# The Packages files of a suite

`download_release_indices` fetches the Packages file of each component of each suite, with the
checksums that the signed Release file has for it. It first makes sure that there is one that
can be used for each component, and the variable that it does this with is not cleared between
the components: a component without a checksum passes if it is not the first one. Its Packages
file is then fetched without a checksum, or taken as it is if there was a file before.

The Release files are those that were fetched and verified before this begins.
-/

namespace DebianInstaller.Debootstrap.Download

open Programs Text

/-! ## Release files -/

variable {c checksum s : Text} {content : Content} {n size : ℕ} {sums : List Sum}

namespace Shell

variable (sh : Shell)

/-- The line that `get_release_checksum` begins to read at. -/
def matchesSection (line : Text) : Bool :=
  if sh.field = "MD5SUM" then (line.take 6).map Char.toLower = "md5sum"
  else
    (line.take 3).map Char.toLower = "sha" &&
      (sh.shaSize ++ [':']).isPrefixOf (line.drop 3)

/-- `sed -n "/$match/,/^[^ ]/p"`, within such a range or not. -/
def sectionLines : Bool → List Text → List Text
  | _, [] => []
  | false, line :: lines =>
      if sh.matchesSection line then line :: sectionLines true lines else sectionLines false lines
  | true, line :: lines => line :: sectionLines (line.head?.all (· = ' ')) lines

end Shell

/-- `read a b c`, for a line without a backslash -/
def readWords (line : Text) : Text × Text × Text :=
  let line := line.dropWhile isIfs
  let rest := (line.dropWhile fun c => !isIfs c).dropWhile isIfs
  (line.takeWhile fun c => !isIfs c, rest.takeWhile fun c => !isIfs c,
    ((rest.dropWhile fun c => !isIfs c).dropWhile isIfs).rdropWhile isIfs)

/-- The digits of a checksum. -/
def isChecksum (w : Text) : Bool :=
  !w.isEmpty && w.all fun c =>
    c.isDigit || ['a', 'b', 'c', 'd', 'e', 'f', 'A', 'B', 'C', 'D', 'E', 'F'].contains c

/-- A size, as it is printed. -/
def IsSize (w : Text) : Prop := ∃ n < 2 ^ 63, w = Nat.toDigits 10 n

/-- A Release file. Where a line of the checksums names a Packages file, a checksum and a size
stand before it. -/
structure Release (sh : Shell) where
  lines : List Text
  sums : ∀ line ∈ sh.sectionLines false lines,
    '\\' ∉ line ∧
      ("/Packages" <:+: (readWords line).2.2 →
        isChecksum (readWords line).1 = true ∧ IsSize (readWords line).2.1)

/-- What there is to install, and from where. -/
structure Setup extends Shell where
  /-- The pattern `USE_COMPONENTS`. -/
  uses : Text → Bool
  /-- `$SUITE $EXTRA_SUITES` -/
  suites : List Text
  mirrors : List Text
  arch : Text
  /-- `$TARGET/$APTSTATE/lists` -/
  lists : Text
  release : Text → Release toShell

namespace Setup

variable (st : Setup)

/-- `get_release_checksum` -/
def getReleaseChecksum (s path : Text) : Text :=
  ((st.sectionLines false (st.release s).lines).findSome? fun line =>
    if (readWords line).2.2 = path then some ((readWords line).1 ++ ' ' :: (readWords line).2.1)
    else none).getD []

/-- `s/Components: *//p` -/
def sedComponents : Text → Option Text
  | [] => none
  | c :: t =>
      if "Components:".toList.isPrefixOf (c :: t) then
        some (((c :: t).drop 11).dropWhile (· = ' '))
      else (sedComponents t).map (c :: ·)

/-- The words of a variable without quotes, file names and all. -/
def words (t : Text) : List Text := (expand t).flatMap st.glob

/-- `extract_release_components`: what `COMPONENTS` is afterwards. -/
def addComponents (s COMPONENTS : Text) : Text :=
  let TMPCOMPONENTS := substitution ((st.release s).lines.filterMap sedComponents)
  (st.words TMPCOMPONENTS).foldl
    (fun COMPONENTS c => if st.uses c then COMPONENTS ++ ' ' :: c else COMPONENTS) COMPONENTS

/-! ## The Packages files -/

def subpath (c : Text) : Text := c ++ "/binary-" ++ st.arch ++ "/Packages"

def path (s c : Text) : Text := "dists/" ++ s ++ '/' :: st.subpath c

/-- `normi`, `xzi`, `bz2i` and `gzi` -/
def sumText (s c ext : Text) : Text := st.getReleaseChecksum s (st.subpath c ++ ext)

/-- Whether there is a checksum for a compression, and a program for it. -/
def has (program s c ext : Text) : Bool :=
  st.inPath program && st.sumText s c ext != []

/-- `i`, as the first loop sets it. -/
def pick (s c i : Text) : Text :=
  if st.sumText s c [] ≠ [] then st.sumText s c []
  else if st.has "bunzip2" s c ".bz2" then st.sumText s c ".bz2"
  else if st.has "unxz" s c ".xz" then st.sumText s c ".xz"
  else if st.has "gunzip" s c ".gz" then st.sumText s c ".gz"
  else i

/-- The first loop: what `i` is after it. -/
def checkEntries (s : Text) : Text → List Text → Run Text
  | i, [] => return i
  | i, c :: cs =>
      if st.pick s c i ≠ [] then checkEntries s (st.pick s c i) cs
      else
        error "MISSINGRELENTRY"
          ("Invalid Release file, no entry for " ++ st.subpath c)

/-- `acquirebyhash` -/
def acquireByHash (s : Text) : Bool :=
  (st.release s).lines.contains "Acquire-By-Hash: yes"

/-- What is added to `ext` for a compression. -/
def extPiece (present : Bool) (i typ : Text) : Text :=
  if present then ' ' :: i ++ ' ' :: typ else []

/-- `ext` -/
def ext (s c : Text) : Text :=
  (if st.acquireByHash s then " byhash".toList else []) ++
    extPiece (st.sumText s c [] != []) (st.sumText s c []) ['.'] ++
    extPiece (st.has "unxz" s c ".xz") (st.sumText s c ".xz") "xz" ++
    extPiece (st.has "bunzip2" s c ".bz2") (st.sumText s c ".bz2")
      "bz2" ++
    extPiece (st.has "gunzip" s c ".gz") (st.sumText s c ".gz") "gz"

/-- `i`, as the second loop sets it. -/
def pickAgain (s c i : Text) : Text :=
  let i := if st.sumText s c [] ≠ [] then st.sumText s c [] else i
  let unlessSet (i : Text) (present : Bool) (j : Text) : Text :=
    if present && i.isEmpty then j else i
  let i := unlessSet i (st.has "unxz" s c ".xz") (st.sumText s c ".xz")
  let i := unlessSet i (st.has "bunzip2" s c ".bz2") (st.sumText s c ".bz2")
  unlessSet i (st.has "gunzip" s c ".gz") (st.sumText s c ".gz")

end Setup

/-- `s,^[^:]\+://,,` -/
def stripScheme (t : Text) : Text :=
  if t.takeWhile (· ≠ ':') ≠ [] ∧ "://" <+: t.dropWhile (· ≠ ':') then
    (t.dropWhile (· ≠ ':')).drop 3
  else t

namespace Setup

variable (st : Setup)

/-- `$TARGET/` and what `apt_dest pkg` prints. -/
def pkgdest (s c m : Text) : Path where
  dir := st.lists
  base := (stripScheme (m ++ '_' :: st.path s c)).map fun c => if c = '/' then '_' else c

/-- The loop over the mirrors: the last one, and `pkgdest`. -/
def tryMirrors (s c : Text) : List Text → Option Text → Run (Option Text)
  | [], last => return last
  | m :: ms, _ => do
      let got ← st.get (m ++ '/' :: st.path s c) (st.pkgdest s c m) (st.words (st.ext s c))
      if got then return some m else tryMirrors s c ms (some m)

/-- A component, and where its Packages file is. -/
structure Turn where
  suite : Text
  component : Text
  pkgdest : Path
  deriving DecidableEq

/-- A turn of the second loop. -/
def turn (s c : Text) : Run Turn := do
  let last ← st.tryMirrors s c st.mirrors none
  match last with
  | none => error "COULDNTDL" ("Couldn't download /" ++ st.path s c)
  | some m => do
      let there ← fileExists (st.pkgdest s c m)
      if there then return ⟨s, c, st.pkgdest s c m⟩
      else error "COULDNTDL" ("Couldn't download " ++ m ++ '/' :: st.path s c)

/-- The second loop: its turns, and what `i` is after it. -/
def turns (s : Text) : Text → List Text → Run (List Turn × Text)
  | i, [] => return ([], i)
  | i, c :: cs => do
      let t ← st.turn s c
      let (ts, i) ← turns s (st.pickAgain s c i) cs
      return (t :: ts, i)

/-- The loop over the suites. -/
def indices : Text → Text → List Text → Run (List Turn)
  | _, _, [] => return []
  | COMPONENTS, i, s :: suites => do
      let COMPONENTS := st.addComponents s COMPONENTS
      if COMPONENTS = [] then
        error "INVALIDREL" "Invalid Release file, no valid components"
      else do
        let i ← st.checkEntries s i (st.words COMPONENTS)
        let (ts, i) ← st.turns s i (st.words COMPONENTS)
        let rest ← indices COMPONENTS i suites
        return ts ++ rest

/-- `download_release_indices`: the turns it has taken. -/
def downloadReleaseIndices : Run (List Turn) := st.indices [] [] st.suites

/-! ## What a Release file says -/

/-- A line of the checksums. -/
def Entry (s path checksum : Text) (size : ℕ) : Prop :=
  ∃ line ∈ st.sectionLines false (st.release s).lines,
    readWords line = (checksum, Nat.toDigits 10 size, path)

/-- The size and the checksum of a file. -/
def Has (content : Content) (checksum : Text) (size : ℕ) : Prop :=
  content.1.length = size ∧
    ∃ program, st.checksumPrograms.find? st.inPath = some program ∧
      st.digest program content = checksum

/-- The Release file of the suite has the size and the checksum of the file for this component,
or of one that it was unpacked from. -/
def Good (s c : Text) (content : Content) : Prop :=
  (∃ ext ∈ exts, ∃ checksum size,
    st.Entry s (st.subpath c ++ ext) checksum size ∧ st.Has content checksum size) ∨
  ∃ typ ext program, compression typ = some (ext, program) ∧ ∃ checksum size data,
    st.Entry s (st.subpath c ++ ext) checksum size ∧ st.Has data checksum size ∧
      st.unpack program data = some content

/-- The size and the checksum of a Packages file are words. -/
structure Word (checksum : Text) (size : ℕ) : Prop where
  digits : isChecksum checksum = true
  size_lt : size < 2 ^ 63

theorem sumText_eq (s c ext : Text) :
    st.sumText s c ext = [] ∨ ∃ checksum size, Word checksum size ∧
      st.Entry s (st.subpath c ++ ext) checksum size ∧
      st.sumText s c ext = checksum ++ ' ' :: Nat.toDigits 10 size := by
  rw [sumText, getReleaseChecksum]
  cases hfind : (st.sectionLines false (st.release s).lines).findSome? (fun line =>
      if (readWords line).2.2 = st.subpath c ++ ext then
        some ((readWords line).1 ++ ' ' :: (readWords line).2.1) else none) with
  | none => exact .inl rfl
  | some t =>
      right
      obtain ⟨line, hline, hsome⟩ := List.exists_of_findSome?_eq_some hfind
      split at hsome
      · next hpath =>
          obtain rfl := Option.some.inj hsome
          have hpackages : "/Packages" <:+: (readWords line).2.2 := by
            rw [hpath]
            exact ⟨c ++ "/binary-" ++ st.arch, ext, rfl⟩
          obtain ⟨hdigits, n, hn, hsize⟩ := ((st.release s).sums line hline).2 hpackages
          refine ⟨(readWords line).1, n, ⟨hdigits, hn⟩, ⟨line, hline, ?_⟩, ?_⟩
          · rw [← hsize, ← hpath]
          · rw [hsize, Option.getD_some]
      · cases hsome

end Setup

theorem isPlain_of_isChecksum {w : Text} (h : isChecksum w = true) : isPlain w = true := by
  have hletters : ∀ c ∈ ['a', 'b', 'c', 'd', 'e', 'f', 'A', 'B', 'C', 'D', 'E', 'F'],
      (c.isAlphanum || c == '.') = true := List.all_eq_true.mp (by decide)
  refine isPlain_of_all fun c hc => ?_
  have hhex := List.all_eq_true.mp (Bool.and_eq_true_iff.mp h).2 c hc
  rcases Bool.or_eq_true_iff.mp hhex with hdigit | hletter
  · simp [Char.isAlphanum, hdigit]
  · exact hletters c (List.contains_iff_mem.mp hletter)

theorem isPlain_toDigits (n : ℕ) : isPlain (Nat.toDigits 10 n) = true := by
  refine isPlain_of_all fun c hc => ?_
  have hdigit := Nat.isDigit_of_mem_toDigits (b := 10) (by decide) (by decide) hc
  simp [Char.isAlphanum, hdigit]

theorem intmax_toDigits (h : n < 2 ^ 63) : intmax (Nat.toDigits 10 n) = some (n : ℤ) := by
  have hdigit : ∀ c ∈ Nat.toDigits 10 n, c.isDigit = true := fun c hc =>
    Nat.isDigit_of_mem_toDigits (by decide) (by decide) hc
  have hnumber : Text.isNumber (Nat.toDigits 10 n) = true := by
    rw [Text.isNumber, Bool.and_eq_true]
    exact ⟨by simp [Nat.toDigits_ne_nil], List.all_eq_true.mpr hdigit⟩
  have hrange : -2 ^ 63 ≤ (n : ℤ) ∧ (n : ℤ) < 2 ^ 63 := by omega
  unfold intmax
  have hvalue := Text.number_toDigits n
  generalize Nat.toDigits 10 n = w at hdigit hnumber hvalue
  split
  · exact absurd (hdigit '-' List.mem_cons_self) (by decide)
  · exact absurd (hdigit '+' List.mem_cons_self) (by decide)
  · rw [digits, if_pos hnumber, hvalue]
    exact Option.filter_eq_some_iff.mpr ⟨rfl, by simpa using hrange⟩

theorem eq_of_testNe {m : ℕ} (hm : m < 2 ^ 63) (hn : n < 2 ^ 63)
    (h : testNe (Nat.toDigits 10 m) (Nat.toDigits 10 n) = false) : n = m := by
  rw [testNe, intmax_toDigits hm, intmax_toDigits hn] at h
  have heq : (m : ℤ) = n := by simpa using h
  omega

namespace Setup

variable (st : Setup) {done : List Turn} {t : Turn}

theorem has_of_passes (hsize : size < 2 ^ 63)
    (h : st.Passes content checksum (Nat.toDigits 10 size)) : st.Has content checksum size := by
  obtain ⟨program, hprogram, hdigest, htest⟩ := h
  exact ⟨eq_of_testNe hsize content.2 htest, program, hprogram, hdigest⟩

/-- A checksum of the Release file for this component. -/
structure Known (s c : Text) (sum : Sum) : Prop where
  good : sum.Good
  entry : ∃ size, size < 2 ^ 63 ∧ sum.siz = Nat.toDigits 10 size ∧
    st.Entry s (st.subpath c ++ extOf sum.typ) sum.checksum size

theorem known_of_word {typ : Text} (hword : Word checksum size) (htyp : isPlain typ = true)
    (hentry : st.Entry s (st.subpath c ++ extOf typ) checksum size) :
    st.Known s c ⟨checksum, Nat.toDigits 10 size, typ⟩ where
  good := {
    checksum := isPlain_of_isChecksum hword.digits
    siz := isPlain_toDigits size
    typ := htyp
    ne_nil := by
      rintro rfl
      exact absurd hword.digits (by decide)
    ne_nocache := by
      rintro rfl
      exact absurd hword.digits (by decide)
    ne_byhash := by
      rintro rfl
      exact absurd hword.digits (by decide) }
  entry := ⟨size, hword.size_lt, rfl, hentry⟩

theorem good_of_verified (hsums : ∀ sum ∈ sums, st.Known s c sum) (h : st.Verified sums content) :
    st.Good s c content := by
  obtain ⟨sum, hsum, hcontent⟩ := h
  obtain ⟨size, hlt, hsiz, hentry⟩ := (hsums sum hsum).entry
  rw [hsiz] at hcontent
  rcases hcontent with hpasses | ⟨data, hpasses, hmakes⟩
  · exact .inl ⟨extOf sum.typ, extOf_mem _, sum.checksum, size, hentry,
      st.has_of_passes hlt hpasses⟩
  · have hdata := st.has_of_passes hlt hpasses
    unfold Shell.Makes at hmakes
    cases hc : compression sum.typ with
    | none =>
        rw [hc] at hmakes
        rw [show content = data from hmakes]
        exact .inl ⟨extOf sum.typ, extOf_mem _, sum.checksum, size, hentry, hdata⟩
    | some p =>
        rw [hc] at hmakes
        have hext : extOf sum.typ = p.1 := by
          rw [extOf, hc]
          rfl
        rw [hext] at hentry
        exact .inr ⟨sum.typ, p.1, p.2, hc, sum.checksum, size, data, hentry, hdata, hmakes⟩

/-! ## The words of `ext` -/

theorem expand_append_piece (t i typ : Text) (present : Bool) :
    expand (t ++ extPiece present i typ) = expand t ++ expand (extPiece present i typ) := by
  cases present with
  | false => simp [extPiece, expand_eq]
  | true =>
      show expand (t ++ ' ' :: (i ++ ' ' :: typ)) = expand t ++ expand (' ' :: (i ++ ' ' :: typ))
      rw [expand_append_cons t _ rfl]
      exact congrArg (expand t ++ ·) (expand_append_cons [] (i ++ ' ' :: typ) rfl).symm

theorem parameters_append (sums sums' : List Sum) :
    parameters (sums ++ sums') = parameters sums ++ parameters sums' := List.flatMap_append

theorem expand_piece (s c typ : Text) (htyp : isPlain typ = true) (hne : typ ≠ [])
    (present : Bool)
    (hpresent : present = true → st.sumText s c (extOf typ) ≠ []) :
    ∃ sums, expand (extPiece present (st.sumText s c (extOf typ)) typ) = parameters sums ∧
      (∀ sum ∈ sums, st.Known s c sum) ∧ (present = true → sums ≠ []) := by
  cases present with
  | false => exact ⟨[], rfl, by simp, by simp⟩
  | true =>
      rcases st.sumText_eq s c (extOf typ) with hnil | ⟨checksum, size, hword, hentry, heq⟩
      · exact absurd hnil (hpresent rfl)
      · have hknown := st.known_of_word hword htyp hentry
        refine ⟨[⟨checksum, Nat.toDigits 10 size, typ⟩], ?_, by simpa using hknown, by simp⟩
        rw [heq]
        show expand ([] ++ ' ' :: (checksum ++ ' ' :: Nat.toDigits 10 size ++ ' ' :: typ)) = _
        rw [expand_append_cons [] _ rfl, expand_append_cons _ typ rfl,
          expand_append_cons checksum _ rfl,
          expand_word (isIfs_of_isPlain hknown.good.checksum) hknown.good.ne_nil,
          expand_word (isIfs_of_isPlain hknown.good.siz) Nat.toDigits_ne_nil,
          expand_word (isIfs_of_isPlain htyp) hne]
        rfl

/-- There is a checksum for the component, and a program for its compression. -/
def usable (s c : Text) : Bool := st.pick s c [] != []

theorem present_of_usable (h : st.usable s c = true) :
    (st.sumText s c [] != []) = true ∨ st.has "unxz" s c ".xz" = true ∨
      st.has "bunzip2" s c ".bz2" = true ∨
      st.has "gunzip" s c ".gz" = true := by
  unfold usable pick at h
  split at h
  · next hnorm => exact .inl (bne_iff_ne.mpr hnorm)
  · split at h
    · next hbz => exact .inr (.inr (.inl hbz))
    · split at h
      · next hxz => exact .inr (.inl hxz)
      · split at h
        · next hgz => exact .inr (.inr (.inr hgz))
        · exact absurd h (by decide)

theorem flatMap_glob {ws : List Text} (h : ∀ w ∈ ws, isPlain w = true) :
    ws.flatMap st.glob = ws := by
  induction ws with
  | nil => rfl
  | cons w ws ih =>
      obtain ⟨hw, hws⟩ := List.forall_mem_cons.mp h
      rw [List.flatMap_cons, st.glob_plain w hw, ih hws, List.singleton_append]

theorem isPlain_parameters (h : ∀ sum ∈ sums, sum.Good) :
    ∀ w ∈ parameters sums, isPlain w = true := by
  intro w hw
  obtain ⟨sum, hsum, hmem⟩ := List.mem_flatMap.mp hw
  have hgood := h sum hsum
  rcases List.mem_cons.mp hmem with rfl | hmem
  · exact hgood.checksum
  · rcases List.mem_cons.mp hmem with rfl | hmem
    · exact hgood.siz
    · rw [List.mem_singleton.mp hmem]
      exact hgood.typ

theorem words_ext (s c : Text) :
    ∃ sums, st.words (st.ext s c) =
        (if st.acquireByHash s then ["byhash".toList] else []) ++ parameters sums ∧
      (∀ sum ∈ sums, st.Known s c sum) ∧ (st.usable s c = true → sums ≠ []) := by
  have hhas (program ext : Text) (h : st.has program s c ext = true) :
      st.sumText s c ext ≠ [] := by
    rw [has, Bool.and_eq_true, bne_iff_ne] at h
    exact h.2
  obtain ⟨norm, hnorm, hknorm, hpnorm⟩ := st.expand_piece s c ['.'] (by decide)
    (by decide) (st.sumText s c [] != []) fun h => bne_iff_ne.mp h
  obtain ⟨xz, hxz, hkxz, hpxz⟩ := st.expand_piece s c "xz" (by decide)
    (by decide) (st.has "unxz" s c ".xz") (hhas _ _)
  obtain ⟨bz, hbz, hkbz, hpbz⟩ := st.expand_piece s c "bz2" (by decide)
    (by decide) (st.has "bunzip2" s c ".bz2") (hhas _ _)
  obtain ⟨gz, hgz, hkgz, hpgz⟩ := st.expand_piece s c "gz" (by decide)
    (by decide) (st.has "gunzip" s c ".gz") (hhas _ _)
  have hknown : ∀ sum ∈ norm ++ xz ++ bz ++ gz, st.Known s c sum := by
    intro sum hsum
    simp only [List.mem_append] at hsum
    rcases hsum with ((hsum | hsum) | hsum) | hsum
    · exact hknorm sum hsum
    · exact hkxz sum hsum
    · exact hkbz sum hsum
    · exact hkgz sum hsum
  have hflag : expand (if st.acquireByHash s then " byhash" else []) =
      if st.acquireByHash s then ["byhash".toList] else [] := by
    split <;> rfl
  have hexpand : expand (st.ext s c) =
      (if st.acquireByHash s then ["byhash".toList] else []) ++
        parameters (norm ++ xz ++ bz ++ gz) := by
    rw [ext, expand_append_piece, expand_append_piece, expand_append_piece, expand_append_piece,
      hflag, parameters_append, parameters_append, parameters_append, ← hnorm, ← hxz, ← hbz, ← hgz]
    simp only [List.append_assoc]
    rfl
  refine ⟨norm ++ xz ++ bz ++ gz, ?_, hknown, fun husable hnil => ?_⟩
  · rw [words, hexpand]
    refine st.flatMap_glob fun w hw => ?_
    rcases List.mem_append.mp hw with hw | hw
    · split at hw
      · rw [List.mem_singleton.mp hw]
        rfl
      · cases hw
    · exact isPlain_parameters (fun sum hsum => (hknown sum hsum).good) w hw
  · simp only [List.append_eq_nil_iff] at hnil
    rcases st.present_of_usable husable with h | h | h | h
    · exact hpnorm h hnil.1.1.1
    · exact hpxz h hnil.1.1.2
    · exact hpbz h hnil.1.2
    · exact hpgz h hnil.2

/-! ## Where the Packages files are -/

theorem getLast_stripScheme {t : Text} (h : t.getLast? = some 's') :
    (stripScheme t).getLast? = some 's' := by
  unfold stripScheme
  split
  · next hscheme =>
      obtain ⟨rest, hrest⟩ := hscheme.2
      have ht : t = t.takeWhile (· ≠ ':') ++ "://" ++ rest := by
        rw [List.append_assoc, hrest, List.takeWhile_append_dropWhile]
      rw [← hrest]
      show rest.getLast? = some 's'
      cases rest with
      | nil =>
          rw [ht, List.append_nil, List.getLast?_append_of_ne_nil _ (by decide)] at h
          exact absurd h (by decide)
      | cons c rest =>
          rw [ht, List.getLast?_append_of_ne_nil _ (List.cons_ne_nil c rest)] at h
          exact h
  · exact h

/-- Every one of these is in the directory of the lists, and its name ends as `Packages` does. -/
structure Final (p : Path) : Prop where
  dir : p.dir = st.lists
  base : p.base.getLast? = some 's'

theorem final_pkgdest (s c m : Text) : st.Final (st.pkgdest s c m) where
  dir := rfl
  base := by
    have hpath : (m ++ '_' :: st.path s c).getLast? = some 's' := by
      have heq : m ++ '_' :: st.path s c =
          (m ++ '_' :: ("dists/" ++ s ++ '/' :: (c ++ "/binary-" ++ st.arch))) ++
            "/Packages" := by
        unfold path subpath
        simp only [List.append_assoc, List.cons_append]
      rw [heq, List.getLast?_append_of_ne_nil _ (by decide)]
      rfl
    show (List.map _ _).getLast? = some 's'
    rw [List.getLast?_map, getLast_stripScheme hpath]
    rfl

theorem eq_of_place {p q : Path} (hp : st.Final p) (hq : st.Final q) (h : q.Place p) : p = q := by
  obtain ⟨ext, hext, heq | heq⟩ := h
  · by_cases hnil : ext = []
    · rw [heq, hnil, Path.addExt_nil]
    · have hlast := hp.base
      rw [heq, Path.addExt, List.getLast?_append_of_ne_nil _ hnil] at hlast
      have hall : ∀ ext ∈ exts, ext.getLast? ≠ some 's' := by decide
      exact absurd hlast (hall ext hext)
  · have hdir : q.dir ++ "/partial" = p.dir := (congrArg Path.dir heq).symm
    rw [hp.dir, hq.dir] at hdir
    exact absurd (List.append_right_eq_self.mp hdir) (by decide)

/-! ## The turns -/

/-- The files that count are as they were, or good Packages files of this component. -/
def Around (s c : Text) (w₀ w : World) : Prop :=
  Checked w ∧ ∀ p, st.Final p →
    w.files p = w₀.files p ∨
      (∃ m ∈ st.mirrors, p = st.pkgdest s c m) ∧
        ∀ content, w.files p = some content → st.Good s c content

/-- There is no Packages file from this mirror that is not good. -/
def Fine (s c m : Text) (w : World) : Prop :=
  m ∈ st.mirrors ∧
    ∀ content, w.files (st.pkgdest s c m) = some content → st.Good s c content

theorem get_around {m : Text} (hm : m ∈ st.mirrors) (husable : st.usable s c = true) (w₀ : World)
    (src : Text) :
    Triple (st.Around s c w₀)
      (st.get src (st.pkgdest s c m) (st.words (st.ext s c)))
      (fun _ w => st.Around s c w₀ w ∧ st.Fine s c m w) Failure.checked := by
  obtain ⟨sums, hwords, hknown, hne⟩ := st.words_ext s c
  have hget (w : World) := Shell.get_triple st.toShell (st.pkgdest s c m) w
    (fun sum hsum => (hknown sum hsum).good) (hne husable) src (st.acquireByHash s)
  rw [hwords]
  refine .intro (fun w got w' hw hrun => ?_) fun w e hw hrun =>
    (hget w).error ⟨hw.1, fun _ _ => rfl⟩ hrun
  obtain ⟨hapart, hgot⟩ := (hget w).ok ⟨hw.1, fun _ _ => rfl⟩ hrun
  have hfine : st.Fine s c m w' := by
    refine ⟨hm, fun content hcontent => ?_⟩
    cases got with
    | true => exact st.good_of_verified hknown (hgot content hcontent)
    | false =>
        have hnone : w'.files (st.pkgdest s c m) = none := hgot
        rw [hnone] at hcontent
        cases hcontent
  refine ⟨⟨hapart.1, fun p hp => ?_⟩, hfine⟩
  by_cases heq : p = st.pkgdest s c m
  · exact .inr ⟨⟨m, hm, heq⟩, heq ▸ hfine.2⟩
  · have hplace : ¬ (st.pkgdest s c m).Place p := fun h =>
      heq (st.eq_of_place hp (st.final_pkgdest s c m) h)
    rw [hapart.2 p hplace]
    exact hw.2 p hp

theorem tryMirrors_around (husable : st.usable s c = true) (w₀ : World) {ms : List Text}
    (hms : ∀ m ∈ ms, m ∈ st.mirrors) (last : Option Text) :
    Triple (fun w => st.Around s c w₀ w ∧ ∀ m, last = some m → st.Fine s c m w)
      (st.tryMirrors s c ms last)
      (fun last w => st.Around s c w₀ w ∧ ∀ m, last = some m → st.Fine s c m w)
      Failure.checked := by
  induction ms generalizing last with
  | nil => exact Triple.pure fun w hw => hw
  | cons m ms ih =>
      obtain ⟨hm, hms⟩ := List.forall_mem_cons.mp hms
      refine Triple.bind ((st.get_around hm husable w₀ _).weaken (fun w hw => hw.1)
        fun _ _ hw => hw) fun got => ?_
      have hfine (w : World) (hw : st.Fine s c m w) :
          ∀ m', some m = some m' → st.Fine s c m' w := fun m' h => Option.some.inj h ▸ hw
      cases got with
      | true => exact Triple.pure fun w hw => ⟨hw.1, hfine w hw.2⟩
      | false =>
          exact (ih hms (some m)).weaken (fun w hw => ⟨hw.1, hfine w hw.2⟩) fun _ _ hw => hw

/-- The suite and the component. -/
def Turn.pair (t : Turn) : Text × Text := (t.suite, t.component)

/-- `pkgdest` is where the Packages file of the component is from one of the mirrors. -/
def Turn.Placed (t : Turn) : Prop :=
  ∃ m ∈ st.mirrors, t.pkgdest = st.pkgdest t.suite t.component m

theorem turn_triple (husable : st.usable s c = true) (w₀ : World) :
    Triple (st.Around s c w₀) (st.turn s c)
      (fun t w => st.Around s c w₀ w ∧ t.pair = (s, c) ∧ Turn.Placed st t ∧
        (∀ content, w.files t.pkgdest = some content → st.Good s c content) ∧
        (w.files t.pkgdest).isSome = true) Failure.checked := by
  refine Triple.bind ((st.tryMirrors_around husable w₀ (fun _ hm => hm) none).weaken
    (fun w hw => ⟨hw, by simp⟩) fun _ _ hw => hw) fun last => ?_
  cases last with
  | none => exact error_triple _ _ fun w hw => hw.1.1
  | some m =>
      refine Triple.bind fileExists_triple fun there => ?_
      cases there with
      | false => exact error_triple _ _ fun w hw => hw.1.1.1
      | true =>
          refine Triple.pure fun w hw => ?_
          obtain ⟨hm, hgood⟩ := hw.1.2 m rfl
          exact ⟨hw.1.1, rfl, ⟨m, hm, rfl⟩, hgood, hw.2.symm⟩

/-- What the turns so far have left: at each `pkgdest` there is a good Packages file or none,
and each component has one. -/
structure Left (done : List Turn) (w : World) : Prop where
  checked : Checked w
  placed : ∀ t ∈ done, Turn.Placed st t
  good : ∀ t ∈ done, ∀ content, w.files t.pkgdest = some content →
    st.Good t.suite t.component content
  there : ∀ t ∈ done, ∃ t' ∈ done, t'.pair = t.pair ∧ (w.files t'.pkgdest).isSome = true

/-- No two components have a Packages file in the same place. -/
def Separate (pairs : List (Text × Text)) : Prop :=
  ∀ p ∈ pairs, ∀ q ∈ pairs, ∀ m ∈ st.mirrors, ∀ n ∈ st.mirrors,
    st.pkgdest p.1 p.2 m = st.pkgdest q.1 q.2 n → p = q

theorem Turn.Placed.final {st : Setup} (h : Turn.Placed st t) : st.Final t.pkgdest := by
  obtain ⟨m, -, heq⟩ := h
  rw [heq]
  exact st.final_pkgdest _ _ _

theorem Left.turn {st : Setup} {pairs : List (Text × Text)} (hsep : st.Separate pairs)
    (hdone : ∀ t ∈ done, t.pair ∈ pairs) {w₀ w : World} (h : st.Left done w₀) (ht : t.pair ∈ pairs)
    (hplaced : Turn.Placed st t) (haround : st.Around t.suite t.component w₀ w)
    (hgood : ∀ content, w.files t.pkgdest = some content → st.Good t.suite t.component content)
    (hthere : (w.files t.pkgdest).isSome = true) : st.Left (done ++ [t]) w := by
  -- What is where an earlier turn has put it can only have changed if it was this component's.
  have hsame : ∀ t' ∈ done, (∃ m ∈ st.mirrors, t'.pkgdest = st.pkgdest t.suite t.component m) →
      t'.pair = t.pair := by
    rintro t' ht' ⟨m, hm, heq⟩
    obtain ⟨n, hn, heq'⟩ := h.placed t' ht'
    exact hsep _ (hdone t' ht') _ ht n hn m hm (heq'.symm.trans heq)
  refine ⟨haround.1, ?_, ?_, ?_⟩
  · intro t' ht'
    rcases List.mem_append.mp ht' with ht' | ht'
    · exact h.placed t' ht'
    · exact List.mem_singleton.mp ht' ▸ hplaced
  · intro t' ht' content hcontent
    rcases List.mem_append.mp ht' with ht' | ht'
    · rcases haround.2 t'.pkgdest (h.placed t' ht').final with heq | ⟨hplace, hnew⟩
      · exact h.good t' ht' content (heq ▸ hcontent)
      · have hpair := Prod.mk.inj (hsame t' ht' hplace)
        rw [hpair.1, hpair.2]
        exact hnew content hcontent
    · obtain rfl := List.mem_singleton.mp ht'
      exact hgood content hcontent
  · intro t' ht'
    by_cases hpair : t'.pair = t.pair
    · exact ⟨t, List.mem_append_right _ (List.mem_singleton_self t), hpair.symm, hthere⟩
    · have hmem : t' ∈ done := by
        rcases List.mem_append.mp ht' with ht' | ht'
        · exact ht'
        · exact absurd (congrArg Turn.pair (List.mem_singleton.mp ht')) hpair
      obtain ⟨t₁, ht₁, hpair₁, hthere₁⟩ := h.there t' hmem
      refine ⟨t₁, List.mem_append_left _ ht₁, hpair₁, ?_⟩
      rcases haround.2 t₁.pkgdest (h.placed t₁ ht₁).final with heq | ⟨hplace, -⟩
      · rw [heq]
        exact hthere₁
      · exact absurd (hpair₁.symm.trans (hsame t₁ ht₁ hplace)) hpair

theorem turns_triple {pairs : List (Text × Text)} (hsep : st.Separate pairs) (s i : Text)
    {cs : List Text} (hcs : ∀ c ∈ cs, (s, c) ∈ pairs ∧ st.usable s c = true)
    (hdone : ∀ t ∈ done, t.pair ∈ pairs) :
    Triple (st.Left done) (st.turns s i cs)
      (fun r w => st.Left (done ++ r.1) w ∧ r.1.map Turn.pair = cs.map fun c => (s, c))
      Failure.checked := by
  induction cs generalizing i done with
  | nil => exact Triple.pure fun w hw => ⟨by rwa [List.append_nil], rfl⟩
  | cons c cs ih =>
      obtain ⟨⟨hmem, husable⟩, hcs⟩ := List.forall_mem_cons.mp hcs
      refine Triple.bind (Q := fun t w => st.Left (done ++ [t]) w ∧ t.pair = (s, c)) ?_
        fun t => ?_
      · refine .intro (fun w t w' hw hrun => ?_) fun w e hw hrun =>
          (st.turn_triple husable w).error ⟨hw.checked, fun _ _ => .inl rfl⟩ hrun
        obtain ⟨haround, hpair, hplaced, hgood, hthere⟩ :=
          (st.turn_triple husable w).ok ⟨hw.checked, fun _ _ => .inl rfl⟩ hrun
        obtain ⟨hsuite, hcomponent⟩ := Prod.mk.inj hpair
        subst hsuite hcomponent
        exact ⟨hw.turn hsep hdone hmem hplaced haround hgood hthere, rfl⟩
      · refine Triple.given (p := t.pair = (s, c)) (fun w hw => hw.2) fun hpair => ?_
        have hdone' : ∀ t' ∈ done ++ [t], t'.pair ∈ pairs := by
          intro t' ht'
          rcases List.mem_append.mp ht' with ht' | ht'
          · exact hdone t' ht'
          · rw [List.mem_singleton.mp ht', hpair]
            exact hmem
        refine Triple.bind ((ih (st.pickAgain s c i) hcs hdone').weaken (fun w hw => hw.1)
          fun _ _ hw => hw) fun r => Triple.pure fun w hw => ⟨?_, ?_⟩
        · show st.Left (done ++ t :: r.1) w
          rw [List.append_cons]
          exact hw.1
        · rw [List.map_cons, List.map_cons, hpair, hw.2]

/-! ## The suites -/

/-- The suites and components, in the order of the turns. -/
def pairs : Text → List Text → List (Text × Text)
  | _, [] => []
  | COMPONENTS, s :: suites =>
      ((st.words (st.addComponents s COMPONENTS)).map fun c => (s, c)) ++
        pairs (st.addComponents s COMPONENTS) suites

/-- The first component there is has no checksum that can be used, or all have one. -/
def Listed : Prop :=
  (∃ p, (st.pairs [] st.suites).head? = some p ∧ st.usable p.1 p.2 = false) ∨
    ∀ p ∈ st.pairs [] st.suites, st.usable p.1 p.2 = true

theorem checkEntries_triple {P : World → Prop} (hP : ∀ w, P w → Checked w) (s i : Text)
    (cs : List Text) :
    Triple P (st.checkEntries s i cs) (fun _ w => P w) Failure.checked := by
  induction cs generalizing i with
  | nil => exact Triple.pure fun w hw => hw
  | cons c cs ih =>
      rw [checkEntries]
      split
      · exact ih _
      · exact error_triple _ _ hP

theorem indices_triple {all : List (Text × Text)} (hsep : st.Separate all)
    {suites : List Text} {COMPONENTS : Text} (i : Text)
    (hall : ∀ p ∈ st.pairs COMPONENTS suites, p ∈ all ∧ st.usable p.1 p.2 = true)
    (done : List Turn) (hdone : ∀ t ∈ done, t.pair ∈ all) :
    Triple (st.Left done) (st.indices COMPONENTS i suites)
      (fun ts w => st.Left (done ++ ts) w ∧ ts.map Turn.pair = st.pairs COMPONENTS suites)
      Failure.checked := by
  induction suites generalizing COMPONENTS i done with
  | nil => exact Triple.pure fun w hw => ⟨by rwa [List.append_nil], rfl⟩
  | cons s suites ih =>
      unfold indices pairs
      unfold pairs at hall
      dsimp only
      generalize st.addComponents s COMPONENTS = COMPONENTS at hall ⊢
      generalize st.words COMPONENTS = cs at hall ⊢
      split
      · exact error_triple _ _ fun w hw => hw.checked
      · obtain ⟨hhere, hlater⟩ := List.forall_mem_append.mp hall
        have hcs : ∀ c ∈ cs, (s, c) ∈ all ∧ st.usable s c = true :=
          fun c hc => hhere (s, c) (List.mem_map_of_mem hc)
        refine Triple.bind (st.checkEntries_triple (fun w hw => hw.checked) s i _) fun i => ?_
        refine Triple.bind (st.turns_triple hsep s i hcs hdone) fun r => ?_
        refine Triple.given (p := r.1.map Turn.pair = cs.map fun c => (s, c))
          (fun w hw => hw.2) fun hpairs => ?_
        have hdone' : ∀ t ∈ done ++ r.1, t.pair ∈ all := by
          intro t ht
          rcases List.mem_append.mp ht with ht | ht
          · exact hdone t ht
          · have hmem := List.mem_map_of_mem (f := Turn.pair) ht
            rw [hpairs] at hmem
            exact (hhere t.pair hmem).1
        refine Triple.bind ((ih r.2 hlater _ hdone').weaken (fun w hw => hw.1) fun _ _ hw => hw)
          fun rest => Triple.pure fun w hw => ⟨?_, ?_⟩
        · rw [← List.append_assoc]
          exact hw.1
        · rw [List.map_append, hpairs, hw.2]

theorem indices_error {suites : List Text} {COMPONENTS : Text} {p : Text × Text}
    (hp : (st.pairs COMPONENTS suites).head? = some p) (husable : st.usable p.1 p.2 = false) :
    Triple Checked (st.indices COMPONENTS [] suites) (fun _ _ => False) Failure.checked := by
  induction suites generalizing COMPONENTS with
  | nil => cases hp
  | cons s suites ih =>
      rw [indices]
      dsimp only
      split
      · exact error_triple _ _ fun w hw => hw
      · rw [pairs] at hp
        cases hwords : st.words (st.addComponents s COMPONENTS) with
        | nil =>
            rw [hwords] at hp
            refine Triple.bind (Q := fun i w => Checked w ∧ i = [])
              (Triple.pure fun w hw => ⟨hw, rfl⟩) fun i => Triple.assume fun hi => ?_
            refine Triple.bind (Q := fun r w => Checked w ∧ r = ([], []))
              (Triple.pure fun w hw => ⟨hw, by rw [hi]⟩) fun r => Triple.assume fun hr => ?_
            rw [hr]
            exact (ih hp).bind fun _ w hw => hw.elim
        | cons c cs =>
            rw [hwords] at hp
            obtain rfl : (s, c) = p := Option.some.inj hp
            have hpick : st.pick s c [] = [] := by simpa [usable] using husable
            refine Triple.bind (Q := fun _ _ => False) ?_ fun i w hw => hw.elim
            rw [checkEntries, if_neg (by simp [hpick])]
            exact error_triple _ _ fun w hw => hw

/-- What a run of `download_release_indices` is to do: it fetches nothing without a checksum, and
if it returns, it has left a good Packages file for each component. -/
def Safe (files : Path → Option Content) (answers : List Response) : Prop :=
  (∀ ts w, st.downloadReleaseIndices ⟨files, [], answers⟩ = .ok (ts, w) →
    ts.map Turn.pair = st.pairs [] st.suites ∧ st.Left ts w) ∧
  ∀ e, st.downloadReleaseIndices ⟨files, [], answers⟩ = .error e → Checked e.world

/-- It does so where no component but the first one can lack a checksum. -/
theorem downloadReleaseIndices_safe (hlisted : st.Listed)
    (hsep : st.Separate (st.pairs [] st.suites)) (files : Path → Option Content)
    (answers : List Response) : st.Safe files answers := by
  have hchecked : Checked ⟨files, [], answers⟩ := by simp [Checked]
  rcases hlisted with ⟨p, hp, husable⟩ | hall
  · have htriple := st.indices_error hp husable
    exact ⟨fun ts w hrun => (htriple.ok hchecked hrun).elim, fun e hrun =>
      htriple.error hchecked hrun⟩
  · have htriple := st.indices_triple hsep [] (fun p hp => ⟨hp, hall p hp⟩) [] (by simp)
    have hleft : st.Left [] ⟨files, [], answers⟩ := ⟨hchecked, by simp, by simp, by simp⟩
    exact ⟨fun ts w hrun => (htriple.ok hleft hrun).symm, fun e hrun => htriple.error hleft hrun⟩

end Setup

/-! ## A component that is not listed -/

/-- The checksum of a file with nothing in it. -/
def emptySum : Text :=
  Nat.toDigits 16 0xe3b0c44298fc1c149afbf4c8996fb92427ae41e4649b934ca495991b7852b855

theorem empty_fits : ([] : Text).length < 2 ^ 63 := by decide

def emptyFile : Content := ⟨[], empty_fits⟩

theorem singleton_plain : ∀ w : Text, isPlain w = true → [w] = [w] := fun _ _ => rfl

/-- Where there is `sha256sum` and nothing else. -/
def sha256 : Shell where
  inPath program := program = "sha256sum"
  field := "SHA256"
  shaSize := "256"
  digest _ content := if content = emptyFile then emptySum else []
  unpack _ _ := none
  isDir _ := true
  glob w := [w]
  glob_plain := singleton_plain

theorem Shell.sectionLines_indented (sh : Shell) {lines : List Text}
    (h : ∀ line ∈ lines, line.head? = some ' ') : sh.sectionLines true lines = lines := by
  induction lines with
  | nil => rfl
  | cons line lines ih =>
      obtain ⟨hline, hlines⟩ := List.forall_mem_cons.mp h
      rw [sectionLines, hline]
      exact congrArg (line :: ·) (ih hlines)

/-- An empty Packages file. -/
def entryLine (c : Text) : Text :=
  ' ' :: emptySum ++ " 0 " ++ c ++ "/binary-amd64/Packages"

/-- The Release file of two components, with a checksum for some of them. -/
def sidRelease (listed : List Text)
    (h : ∀ c ∈ listed, c ∈ ["main".toList, "contrib".toList]) : Release sha256 where
  lines := "Components: main contrib" :: "SHA256:" :: listed.map entryLine
  sums := by
    have hindented : ∀ line ∈ listed.map entryLine, line.head? = some ' ' := by
      intro line hline
      obtain ⟨c, -, rfl⟩ := List.mem_map.mp hline
      rfl
    have hsection : sha256.sectionLines false
        ("Components: main contrib" :: "SHA256:" :: listed.map entryLine) =
        "SHA256:".toList :: listed.map entryLine := by
      have hout : sha256.matchesSection "Components: main contrib" = false := rfl
      have hin : sha256.matchesSection "SHA256:" = true := rfl
      rw [Shell.sectionLines, if_neg (by rw [hout]; decide), Shell.sectionLines, if_pos hin,
        sha256.sectionLines_indented hindented]
    rw [hsection]
    intro line hline
    rcases List.mem_cons.mp hline with rfl | hline
    · exact ⟨by decide, fun hpackages => absurd hpackages (by decide)⟩
    · obtain ⟨c, hc, rfl⟩ := List.mem_map.mp hline
      have hcheck : ∀ c ∈ ["main".toList, "contrib".toList], '\\' ∉ entryLine c ∧
          isChecksum (readWords (entryLine c)).1 = true ∧
          (readWords (entryLine c)).2.1 = Nat.toDigits 10 0 := by decide +kernel
      obtain ⟨hplain, hdigits, hsize⟩ := hcheck c (h c hc)
      exact ⟨hplain, fun _ => ⟨hdigits, 0, by decide, hsize⟩⟩

/-- Two components of a suite, from one mirror. -/
def sid (listed : List Text)
    (h : ∀ c ∈ listed, c ∈ ["main".toList, "contrib".toList]) : Setup where
  toShell := sha256
  uses c := c = "main" || c = "contrib"
  suites := ["sid"]
  mirrors := ["http://deb.debian.org/debian"]
  arch := "amd64"
  lists := "/target/var/lib/apt/lists"
  release _ := sidRelease listed h

/-- With a checksum for `main` only. -/
def mainListed : Setup := sid ["main"] (by decide)

/-- With a checksum for both. -/
def bothListed : Setup := sid ["main", "contrib"] (by decide)

theorem Setup.not_safe (st : Setup) (files : Path → Option Content) (answers : List Response)
    (sums : List Text)
    (h : (st.downloadReleaseIndices ⟨files, [], answers⟩).toOption.map
      (fun r => r.2.fetched.map Fetch.checksum) = some sums) (hnil : [] ∈ sums) :
    ¬ st.Safe files answers := by
  intro hsafe
  cases hrun : st.downloadReleaseIndices ⟨files, [], answers⟩ with
  | ok r =>
      rw [hrun] at h
      obtain rfl : r.2.fetched.map Fetch.checksum = sums := Option.some.inj h
      obtain ⟨f, hf, hempty⟩ := List.mem_map.mp hnil
      exact (hsafe.1 r.1 r.2 hrun).2.checked f hf hempty
  | error e =>
      rw [hrun] at h
      cases h

/-- The other Packages file is fetched without a checksum. -/
theorem mainListed_unsafe : ¬ mainListed.Safe (fun _ => none)
    [.fetched emptyFile, .fetched ⟨"Package: anything\n".toList, by decide⟩] :=
  mainListed.not_safe (fun _ => none) _ [emptySum, []] (by decide +kernel)
    (List.mem_cons_of_mem _ (List.mem_singleton_self []))

theorem bothListed_listed : bothListed.Listed := by
  unfold Setup.Listed
  exact Or.inr (by decide +kernel)

theorem bothListed_separate : bothListed.Separate (bothListed.pairs [] bothListed.suites) := by
  unfold Setup.Separate
  decide +kernel

/-- Neither is where both have one. -/
theorem bothListed_safe :
    bothListed.Safe (fun _ => none) [.fetched emptyFile, .fetched emptyFile] :=
  bothListed.downloadReleaseIndices_safe bothListed_listed bothListed_separate _ _

end DebianInstaller.Debootstrap.Download
