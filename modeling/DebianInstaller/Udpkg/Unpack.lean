import DebianInstaller.Udpkg.Accepted

/-!
# Unpacking

`dpkg_unpack` unpacks a list of packages, one after the other up to the first that fails,
and merges the whole list into the status file. The result of `dpkg_unpackcontrol` is
not looked at, and `dpkg_dounpack` sets the status only if the data were extracted. A
package that was not reached, or whose data were not extracted, keeps the status `0`,
unless its control file has one.

What the programs and calls of each step give back is a parameter. The name from the name
of the file is released after the control file was read, although the package still has it
if the control file has no name; the program goes on with memory that is free.
-/

namespace DebianInstaller.Udpkg

open Text Lib

variable {ps : List PackageT} {r : Int}

/-! ## The code -/

/-- `adminscripts`. -/
inductive AdminScript where
  | prerm
  | postrm
  | preinst
  | postinst
  | conffiles
  | md5sums
  | shlibs
  | templates
  | menutest
  | isinstallable
  | config
  deriving DecidableEq, Repr

def AdminScript.all : List AdminScript :=
  [.prerm, .postrm, .preinst, .postinst, .conffiles, .md5sums, .shlibs, .templates, .menutest,
    .isinstallable, .config]

/-- What `dpkg_copyfile` gives back. -/
inductive Copied where
  | failed
  | absent
  | copied
  deriving DecidableEq, Repr

/-- The steps of `dpkg_unpackcontrol`: whether the compression is known and the calls
succeed, the status of `tar`, and the control file, if it can be opened. -/
structure ControlSteps where
  compression : Bool
  mkdir : Bool
  chdir : Bool
  tar : Int
  control : Option Text
  rename : Bool
  chdirBack : Bool

/-- The steps of `dpkg_dounpack`. -/
structure DataSteps where
  compression : Bool
  chdir : Bool
  tar : Int
  copy : AdminScript → Copied
  load : Int
  chdirBack : Bool

variable {d : DataSteps}

/-- The steps for a package. -/
structure Steps where
  control : ControlSteps
  data : DataSteps

variable {args : List (Text × Steps)}

/-- The program is stopped by an address that is not there, or uses memory that is free. -/
inductive Fault where
  | stopped
  | freed
  deriving DecidableEq, Repr

/-- The name in the name of a file. -/
def nameOf (file : Text) : Text :=
  ((file.reverse.takeWhile (· != '/')).reverse).takeWhile fun c => c != '_' && c != '.'

/-- `dpkg_unpackcontrol`. While the control file is read, `none` stands for the name from
the name of the file. -/
def unpackControl (s : ControlSteps) (p : PackageT) : Except Fault (Int × PackageT) :=
  let name := nameOf p.file
  if !s.compression then .ok (1, { p with package := some name })
  else if !s.mkdir then .ok (1, { p with package := some name })
  else if !s.chdir then .ok (1, { p with package := some name })
  else if s.tar ≠ 0 then .ok (s.tar, { p with package := some name })
  else
    match s.control with
    | none => .ok (1, { p with package := some name })
    | some t =>
        match controlRead t { p with package := none } with
        | none => .error .stopped
        | some (p, _) =>
            match p.package with
            | none => .error .freed
            | some package =>
                if package ≠ name ∧ !s.rename then .ok (1, p)
                else if !s.chdirBack then .ok (1, p)
                else .ok (0, p)

/-- The loop over `adminscripts`. -/
def copyScripts (loadtemplate : Bool) (d : DataSteps) : List AdminScript → Int → Int
  | [], r => r
  | script :: rest, r =>
      match d.copy script with
      | .failed => 1
      | .absent => copyScripts loadtemplate d rest r
      | .copied =>
          if loadtemplate ∧ script = .templates then copyScripts loadtemplate d rest d.load
          else copyScripts loadtemplate d rest r

/-- `dpkg_dounpack`. -/
def doUnpack (loadtemplate : Bool) (d : DataSteps) (p : PackageT) : Int × PackageT :=
  if !d.compression then (1, p)
  else if !d.chdir then (1, p)
  else
    let (r, p) :=
      if d.tar = 0 then
        let r := copyScripts loadtemplate d AdminScript.all 0
        (r, { p with status := .full .install .ok (if r = 0 then .unpacked else .halfInstalled) })
      else (d.tar, p)
    if !d.chdirBack then (1, p) else (r, p)

/-- The loop of `dpkg_unpack`: the list as it is merged. -/
def unpackLoop (loadtemplate : Bool) : List (PackageT × Steps) → Except Fault (List PackageT × Int)
  | [] => .ok ([], 0)
  | (p, s) :: rest =>
      match unpackControl s.control p with
      | .error fault => .error fault
      | .ok (_, p) =>
          let (r, p) := doUnpack loadtemplate s.data p
          if r ≠ 0 then .ok (p :: rest.map Prod.fst, r)
          else
            match unpackLoop loadtemplate rest with
            | .error fault => .error fault
            | .ok (ps, r) => .ok (p :: ps, r)

/-- The directory for the control files: `rm` and `mkdir` before the loop, `rm` after it. -/
structure DirSteps where
  rm : Int
  mkdir : Bool
  rmAfter : Int

/-- `dpkg_unpack`: the new status file. -/
def dpkgUnpack (loadtemplate : Bool) (d : DirSteps) (pkgs : List (PackageT × Steps)) (file : Text) :
    Except Fault (Text × Int) :=
  match statusRead file with
  | none => .error .stopped
  | some tree =>
      if d.rm ≠ 0 ∨ !d.mkdir then .ok (file, 1)
      else
        match unpackLoop loadtemplate pkgs with
        | .error fault => .error fault
        | .ok (ps, r) => .ok (statusMerge tree ps file, if d.rmAfter ≠ 0 then 1 else r)

/-- The package of an argument in `main`. -/
def mainPackage (cwd argv : Text) : PackageT :=
  { file := if argv.head? = some '/' then argv else cwd ++ '/' :: argv
    package := some argv }

/-! ## One package -/

/-- The control file, if the steps lead to it. -/
def ControlSteps.opened (s : ControlSteps) : Option Text :=
  if s.compression ∧ s.mkdir ∧ s.chdir ∧ s.tar = 0 then s.control else none

/-- A `Status` line in the control file stops the program. -/
def ControlSteps.Stops (s : ControlSteps) (file : Text) : Prop :=
  ∃ t, s.opened = some t ∧ controlRead t { file := file } = none

/-- The package with the fields of the control file, if it is read. -/
def ControlSteps.fill (s : ControlSteps) (file : Text) : PackageT :=
  match s.opened.bind fun t => controlRead t { file := file } with
  | none => { file := file, package := some (nameOf file) }
  | some (p, _) => p

/-- It stops at a `Status` line, fails where the control file has no name, and else fills the
package. -/
theorem unpackControl_cases (s : ControlSteps) (file : Text) (package : Option Text) :
    (s.Stops file ∧ unpackControl s { file := file, package := package } = .error .stopped) ∨
      ¬ s.Stops file ∧
        ((s.fill file).package = none ∧
            unpackControl s { file := file, package := package } = .error .freed ∨
          (s.fill file).package ≠ none ∧
            ∃ r, unpackControl s { file := file, package := package } = .ok (r, s.fill file)) := by
  have hunread : s.opened = none → (∃ r, unpackControl s { file := file, package := package } =
      .ok (r, { file := file, package := some (nameOf file) })) → ¬ s.Stops file ∧
        ((s.fill file).package = none ∧
            unpackControl s { file := file, package := package } = .error .freed ∨
          (s.fill file).package ≠ none ∧
            ∃ r, unpackControl s { file := file, package := package } = .ok (r, s.fill file)) := by
    intro h hrun
    have hfill : s.fill file = { file := file, package := some (nameOf file) } := by
      rw [ControlSteps.fill, h]
      rfl
    refine ⟨?_, .inr ⟨by rw [hfill]; exact nofun, by rwa [hfill]⟩⟩
    rintro ⟨t, ht, -⟩
    rw [h] at ht
    cases ht
  by_cases hsteps : s.compression ∧ s.mkdir ∧ s.chdir ∧ s.tar = 0
  · have hopened : s.opened = s.control := if_pos hsteps
    obtain ⟨hcompression, hmkdir, hchdir, htar⟩ := hsteps
    have hrun : unpackControl s { file := file, package := package } =
        match s.control with
        | none => .ok (1, { file := file, package := some (nameOf file) })
        | some t =>
            match controlRead t { file := file } with
            | none => .error .stopped
            | some (p, _) =>
                match p.package with
                | none => .error .freed
                | some package =>
                    if package ≠ nameOf file ∧ !s.rename then .ok (1, p)
                    else if !s.chdirBack then .ok (1, p)
                    else .ok (0, p) := by
      rw [unpackControl, hcompression, hmkdir, hchdir]
      simp [htar]
    cases hcontrol : s.control with
    | none =>
        rw [hcontrol] at hopened hrun
        exact .inr (hunread hopened ⟨1, hrun⟩)
    | some t =>
        rw [hcontrol] at hopened hrun
        cases hread : controlRead t { file := file } with
        | none =>
            dsimp only at hrun
            rw [hread] at hrun
            exact .inl ⟨⟨t, hopened, hread⟩, hrun⟩
        | some r =>
            have hfill : s.fill file = r.1 := by
              rw [ControlSteps.fill, hopened, Option.bind_some, hread]
            dsimp only at hrun
            rw [hread] at hrun
            refine .inr ⟨?_, ?_⟩
            · rintro ⟨t', ht', hnone⟩
              rw [hopened] at ht'
              cases ht'
              rw [hread] at hnone
              cases hnone
            · rw [hfill]
              cases hpackage : r.1.package with
              | none =>
                  dsimp only at hrun
                  rw [hpackage] at hrun
                  exact .inl ⟨rfl, hrun⟩
              | some name =>
                  dsimp only at hrun
                  rw [hpackage] at hrun
                  refine .inr ⟨nofun, ?_⟩
                  dsimp only at hrun
                  rw [hrun]
                  split
                  · exact ⟨1, rfl⟩
                  · split
                    · exact ⟨1, rfl⟩
                    · exact ⟨0, rfl⟩
  · refine .inr (hunread (if_neg hsteps) ?_)
    rw [unpackControl]
    split
    · exact ⟨1, rfl⟩
    · split
      · exact ⟨1, rfl⟩
      · split
        · exact ⟨1, rfl⟩
        · split
          · exact ⟨s.tar, rfl⟩
          · next h₁ h₂ h₃ h₄ =>
              exact absurd ⟨by simpa using h₁, by simpa using h₂, by simpa using h₃,
                not_not.mp h₄⟩ hsteps

/-- The data were extracted. -/
def DataSteps.Extracted (d : DataSteps) : Prop := d.compression ∧ d.chdir ∧ d.tar = 0

/-- No step fails. -/
def DataSteps.Succeeds (loadtemplate : Bool) (d : DataSteps) : Prop :=
  d.Extracted ∧ copyScripts loadtemplate d AdminScript.all 0 = 0 ∧ d.chdirBack

instance (d : DataSteps) : Decidable d.Extracted :=
  inferInstanceAs (Decidable (d.compression ∧ d.chdir ∧ d.tar = 0))

instance (loadtemplate : Bool) (d : DataSteps) : Decidable (d.Succeeds loadtemplate) :=
  inferInstanceAs (Decidable (d.Extracted ∧ copyScripts loadtemplate d AdminScript.all 0 = 0 ∧
    d.chdirBack))

theorem doUnpack_extracted (loadtemplate : Bool) (h : d.Extracted) (p : PackageT) :
    ∃ state, doUnpack loadtemplate d p =
      (if d.chdirBack then copyScripts loadtemplate d AdminScript.all 0 else 1,
        { p with status := .full .install .ok state }) := by
  obtain ⟨hcompression, hchdir, htar⟩ := h
  refine ⟨if copyScripts loadtemplate d AdminScript.all 0 = 0 then .unpacked else .halfInstalled, ?_⟩
  rw [doUnpack, hcompression, hchdir, if_pos htar]
  cases d.chdirBack <;> rfl

theorem doUnpack_unextracted (loadtemplate : Bool) (h : ¬ d.Extracted) (p : PackageT) :
    ∃ r, r ≠ 0 ∧ doUnpack loadtemplate d p = (r, p) := by
  rw [doUnpack]
  split
  · exact ⟨1, by decide, rfl⟩
  · next hcompression =>
      split
      · exact ⟨1, by decide, rfl⟩
      · next hchdir =>
          have htar : d.tar ≠ 0 := fun htar => h ⟨by simpa using hcompression, by simpa using hchdir, htar⟩
          rw [if_neg htar]
          dsimp only
          split
          · exact ⟨1, by decide, rfl⟩
          · exact ⟨d.tar, htar, rfl⟩

theorem doUnpack_zero_iff (loadtemplate : Bool) (d : DataSteps) (p : PackageT) :
    (doUnpack loadtemplate d p).1 = 0 ↔ d.Succeeds loadtemplate := by
  by_cases h : d.Extracted
  · obtain ⟨state, hrun⟩ := doUnpack_extracted loadtemplate h p
    rw [hrun, DataSteps.Succeeds]
    dsimp only
    split
    · next hback => exact ⟨fun hr => ⟨h, hr, hback⟩, fun hs => hs.2.1⟩
    · next hback => exact ⟨fun hr => absurd hr (by decide), fun hs => absurd hs.2.2 hback⟩
  · obtain ⟨r, hr, hrun⟩ := doUnpack_unextracted loadtemplate h p
    rw [hrun]
    exact ⟨fun hzero => absurd hzero hr, fun hs => absurd hs.1 h⟩

theorem doUnpack_package (loadtemplate : Bool) (d : DataSteps) (p : PackageT) :
    ∃ status, (doUnpack loadtemplate d p).2 = { p with status := status } ∧
      (status.Full ↔ d.Extracted ∨ p.status.Full) := by
  by_cases h : d.Extracted
  · obtain ⟨state, hrun⟩ := doUnpack_extracted loadtemplate h p
    exact ⟨_, by rw [hrun], fun _ => .inl h, fun _ => ⟨_, _, _, rfl⟩⟩
  · obtain ⟨r, -, hrun⟩ := doUnpack_unextracted loadtemplate h p
    exact ⟨p.status, by rw [hrun], .inr, fun hs => hs.resolve_left h⟩

/-! ## The list -/

/-- The packages of a list of arguments. -/
def mainPackages (cwd : Text) (args : List (Text × Steps)) : List (PackageT × Steps) :=
  args.map fun a => (mainPackage cwd a.1, a.2)

/-- The package of an argument with the fields of its control file. -/
def fillOf (cwd : Text) (a : Text × Steps) : PackageT :=
  a.2.control.fill (mainPackage cwd a.1).file

section List

variable (loadtemplate : Bool) (cwd : Text)

/-- A control file stops the program, and the packages before it are unpacked. -/
def StoppedBy : List (Text × Steps) → Prop
  | [] => False
  | a :: rest =>
      a.2.control.Stops (mainPackage cwd a.1).file ∨
        ((fillOf cwd a).package ≠ none ∧ a.2.data.Succeeds loadtemplate) ∧ StoppedBy rest

/-- No package before the last one fails. Each has a name, and a name in its control file if
that is read; its data are extracted, or its control file has a status of three words; and
no lines are left alone behind its list of configuration files. -/
def Unpacked : List (Text × Steps) → Prop
  | [] => True
  | a :: rest =>
      ¬ a.2.control.Stops (mainPackage cwd a.1).file ∧
        ((fillOf cwd a).package ≠ none ∧ (fillOf cwd a).package ≠ some []) ∧
        (a.2.data.Extracted ∨ (fillOf cwd a).status.Full) ∧
        (Gap (fillOf cwd a) → Described (fillOf cwd a) → Unclosed (fillOf cwd a) ∧ rest ≠ []) ∧
        (rest ≠ [] → a.2.data.Succeeds loadtemplate) ∧ Unpacked rest

/-- The names of the packages behind the first one that fails. -/
def unreached : List (Text × Steps) → List Text
  | [] => []
  | a :: rest =>
      if a.2.data.Succeeds loadtemplate then unreached rest
      else rest.map fun a => nameOf (mainPackage cwd a.1).file

theorem unpackLoop_cases (a : Text × Steps) (rest : List (Text × Steps)) :
    (a.2.control.Stops (mainPackage cwd a.1).file ∧
        unpackLoop loadtemplate (mainPackages cwd (a :: rest)) = .error .stopped) ∨
      ¬ a.2.control.Stops (mainPackage cwd a.1).file ∧
        ((fillOf cwd a).package = none ∧
            unpackLoop loadtemplate (mainPackages cwd (a :: rest)) = .error .freed ∨
          (fillOf cwd a).package ≠ none ∧
            ∃ status : Status, (status.Full ↔ a.2.data.Extracted ∨ (fillOf cwd a).status.Full) ∧
              (¬ a.2.data.Succeeds loadtemplate ∧
                  (∃ r, unpackLoop loadtemplate (mainPackages cwd (a :: rest)) =
                    .ok ({ fillOf cwd a with status := status } ::
                      rest.map fun a => mainPackage cwd a.1, r)) ∨
                a.2.data.Succeeds loadtemplate ∧
                  unpackLoop loadtemplate (mainPackages cwd (a :: rest)) =
                    match unpackLoop loadtemplate (mainPackages cwd rest) with
                    | .error fault => .error fault
                    | .ok (ps, r) => .ok ({ fillOf cwd a with status := status } :: ps, r))) := by
  have hloop : unpackLoop loadtemplate (mainPackages cwd (a :: rest)) =
      match unpackControl a.2.control (mainPackage cwd a.1) with
      | .error fault => .error fault
      | .ok (_, p) =>
          if (doUnpack loadtemplate a.2.data p).1 ≠ 0 then
            .ok ((doUnpack loadtemplate a.2.data p).2 :: (mainPackages cwd rest).map Prod.fst,
              (doUnpack loadtemplate a.2.data p).1)
          else
            match unpackLoop loadtemplate (mainPackages cwd rest) with
            | .error fault => .error fault
            | .ok (ps, r) => .ok ((doUnpack loadtemplate a.2.data p).2 :: ps, r) := rfl
  have hrest : (mainPackages cwd rest).map Prod.fst = rest.map fun a => mainPackage cwd a.1 := by
    rw [mainPackages, List.map_map]
    rfl
  rw [hloop, hrest]
  have hcontrol := unpackControl_cases a.2.control (mainPackage cwd a.1).file (some a.1)
  rw [show ({ file := (mainPackage cwd a.1).file, package := some a.1 } : PackageT) =
    mainPackage cwd a.1 from rfl] at hcontrol
  rcases hcontrol with ⟨hstops, hrun⟩ | ⟨hstops, ⟨hnone, hrun⟩ | ⟨hsome, r, hrun⟩⟩
  · exact .inl ⟨hstops, by rw [hrun]⟩
  · exact .inr ⟨hstops, .inl ⟨hnone, by rw [hrun]⟩⟩
  · obtain ⟨status, hpackage, hfull⟩ := doUnpack_package loadtemplate a.2.data (fillOf cwd a)
    refine .inr ⟨hstops, .inr ⟨hsome, status, hfull, ?_⟩⟩
    rw [hrun]
    dsimp only
    rw [show a.2.control.fill (mainPackage cwd a.1).file = fillOf cwd a from rfl, hpackage]
    have hzero := doUnpack_zero_iff loadtemplate a.2.data (fillOf cwd a)
    by_cases hsucceeds : a.2.data.Succeeds loadtemplate
    · refine .inr ⟨hsucceeds, ?_⟩
      rw [if_neg (not_not.mpr (hzero.mpr hsucceeds))]
    · refine .inl ⟨hsucceeds, (doUnpack loadtemplate a.2.data (fillOf cwd a)).1, ?_⟩
      rw [if_pos fun h => hsucceeds (hzero.mp h)]

theorem unpackLoop_stopped_iff (args : List (Text × Steps)) :
    unpackLoop loadtemplate (mainPackages cwd args) = .error .stopped ↔
      StoppedBy loadtemplate cwd args := by
  induction args with
  | nil => exact ⟨nofun, False.elim⟩
  | cons a rest ih =>
      rw [StoppedBy]
      rcases unpackLoop_cases loadtemplate cwd a rest with ⟨hstops, hrun⟩ | ⟨hstops, ⟨hnone, hrun⟩ |
        ⟨hsome, status, -, ⟨hfails, r, hrun⟩ | ⟨hsucceeds, hrun⟩⟩⟩
      · exact ⟨fun _ => .inl hstops, fun _ => hrun⟩
      · rw [hrun]
        refine ⟨nofun, fun h => ?_⟩
        rcases h with h | ⟨⟨h, -⟩, -⟩
        · exact absurd h hstops
        · exact absurd hnone h
      · rw [hrun]
        refine ⟨nofun, fun h => ?_⟩
        rcases h with h | ⟨⟨-, h⟩, -⟩
        · exact absurd h hstops
        · exact absurd h hfails
      · have hrest : unpackLoop loadtemplate (mainPackages cwd (a :: rest)) = .error .stopped ↔
            unpackLoop loadtemplate (mainPackages cwd rest) = .error .stopped := by
          rw [hrun]
          cases unpackLoop loadtemplate (mainPackages cwd rest) with
          | error fault => exact Iff.rfl
          | ok _ => exact ⟨nofun, nofun⟩
        rw [hrest, ih]
        refine ⟨fun h => .inr ⟨⟨hsome, hsucceeds⟩, h⟩, fun h => ?_⟩
        exact (h.resolve_left hstops).2

theorem writtenOk_fill (a : Text × Steps) (status : Status) (ps : List PackageT) :
    WrittenOk ({ fillOf cwd a with status := status } :: ps) ↔
      (fillOf cwd a).package ≠ some [] ∧ status.Full ∧
        (Gap (fillOf cwd a) → Described (fillOf cwd a) → Unclosed (fillOf cwd a) ∧ ps ≠ []) ∧
        WrittenOk ps := Iff.rfl

theorem not_writtenOk_unreached {rest : List (Text × Steps)} (h : rest ≠ []) :
    ¬ WrittenOk (rest.map fun a => mainPackage cwd a.1) := by
  cases rest with
  | nil => exact absurd rfl h
  | cons a rest =>
      rintro ⟨-, ⟨want, flag, state, hstatus⟩, -⟩
      cases hstatus

theorem unpackLoop_ok (h : unpackLoop loadtemplate (mainPackages cwd args) = .ok (ps, r)) :
    (ps = [] ↔ args = []) ∧ (WrittenOk ps ↔ Unpacked loadtemplate cwd args) := by
  induction args generalizing ps r with
  | nil =>
      cases h
      exact ⟨⟨fun _ => rfl, fun _ => rfl⟩, Iff.rfl⟩
  | cons a rest ih =>
      rcases unpackLoop_cases loadtemplate cwd a rest with ⟨hstops, hrun⟩ | ⟨hstops, ⟨hnone, hrun⟩ |
        ⟨hsome, status, hfull, ⟨hfails, r', hrun⟩ | ⟨hsucceeds, hrun⟩⟩⟩
      · rw [hrun] at h
        cases h
      · rw [hrun] at h
        cases h
      · rw [hrun] at h
        cases h
        refine ⟨⟨nofun, nofun⟩, ?_⟩
        rw [writtenOk_fill, Unpacked, hfull]
        by_cases hrest : rest = []
        · subst hrest
          have hnone : ([] : List PackageT) ≠ [] ↔ ([] : List (Text × Steps)) ≠ [] :=
            ⟨fun h => absurd rfl h, fun h => absurd rfl h⟩
          rw [List.map_nil, hnone]
          refine ⟨fun ⟨hne, hdata, halone, _⟩ => ⟨hstops, ⟨hsome, hne⟩, hdata, halone, ?_, trivial⟩,
            fun ⟨_, hname, hdata, halone, _, _⟩ => ⟨hname.2, hdata, halone, trivial⟩⟩
          exact fun hmore => absurd rfl hmore
        · refine ⟨fun ⟨_, _, _, hlater⟩ => absurd hlater (not_writtenOk_unreached cwd hrest),
            fun ⟨_, _, _, _, hall, _⟩ => absurd (hall hrest) hfails⟩
      · rw [hrun] at h
        cases hlater : unpackLoop loadtemplate (mainPackages cwd rest) with
        | error fault =>
            rw [hlater] at h
            cases h
        | ok result =>
            obtain ⟨ps', r'⟩ := result
            rw [hlater] at h
            cases h
            obtain ⟨hnil, hok⟩ := ih hlater
            have hmore : ps' ≠ [] ↔ rest ≠ [] := not_congr hnil
            refine ⟨⟨nofun, nofun⟩, ?_⟩
            rw [writtenOk_fill, Unpacked, hfull, hok, hmore]
            refine ⟨fun ⟨hne, hdata, halone, hlater⟩ => ⟨hstops, ⟨hsome, hne⟩, hdata, halone,
              fun _ => hsucceeds, hlater⟩, fun ⟨_, hname, hdata, halone, _, hlater⟩ =>
              ⟨hname.2, hdata, halone, hlater⟩⟩

theorem unpackLoop_of_unpacked (h : Unpacked loadtemplate cwd args) :
    ∃ result, unpackLoop loadtemplate (mainPackages cwd args) = .ok result := by
  induction args with
  | nil => exact ⟨([], 0), rfl⟩
  | cons a rest ih =>
      obtain ⟨hstops', hname, -, -, -, hlater⟩ := h
      rcases unpackLoop_cases loadtemplate cwd a rest with ⟨hstops, hrun⟩ | ⟨hstops, ⟨hnone, hrun⟩ |
        ⟨hsome, status, hfull, ⟨hfails, r', hrun⟩ | ⟨hsucceeds, hrun⟩⟩⟩
      · exact absurd hstops hstops'
      · exact absurd hnone hname.1
      · exact ⟨_, hrun⟩
      · obtain ⟨result, hresult⟩ := ih hlater
        rw [hrun, hresult]
        exact ⟨_, rfl⟩

theorem unreached_of_unpacked (h : Unpacked loadtemplate cwd args) :
    unreached loadtemplate cwd args = [] := by
  induction args with
  | nil => rfl
  | cons a rest ih =>
      obtain ⟨-, -, -, -, hall, hlater⟩ := h
      rw [unreached]
      split
      · exact ih hlater
      · next hfails =>
          cases rest with
          | nil => rfl
          | cons _ _ => exact absurd (hall nofun) hfails

/-! ## The names -/

theorem mem_nameOf {x y : Text} {c : Char} (h : c ∈ nameOf (x ++ '/' :: y)) : c ∈ y := by
  have hbase := List.takeWhile_subset _ h
  rw [List.mem_reverse, List.reverse_append, List.reverse_cons, List.append_assoc,
    List.singleton_append, List.takeWhile_append] at hbase
  split at hbase
  · rw [List.takeWhile_cons_of_neg (by decide), List.append_nil] at hbase
    exact List.mem_reverse.mp hbase
  · exact List.mem_reverse.mp (List.takeWhile_subset _ hbase)

theorem newline_not_mem_nameOf {argv : Text} (h : '\n' ∉ argv) :
    '\n' ∉ nameOf (mainPackage cwd argv).file := by
  rw [mainPackage]
  dsimp only
  split
  · intro hmem
    have hbase := List.takeWhile_subset _ hmem
    rw [List.mem_reverse] at hbase
    exact h (List.mem_reverse.mp (List.takeWhile_subset _ hbase))
  · exact fun hmem => h (mem_nameOf hmem)

theorem processed_fill {a : Text × Steps} (ha : '\n' ∉ a.1) (hname : (fillOf cwd a).package ≠ none) :
    Processed (fillOf cwd a) := by
  rw [fillOf, ControlSteps.fill] at hname ⊢
  split
  · exact processed_named _ (newline_not_mem_nameOf cwd ha)
  · next p rest hread =>
      rw [hread] at hname
      obtain ⟨t, -, hread⟩ := Option.bind_eq_some_iff.mp hread
      obtain ⟨name, hname⟩ := Option.ne_none_iff_exists'.mp hname
      refine ⟨controlRead_filled hread (filled_new _ none), name, hname, ?_⟩
      exact (controlRead_fits hread .package name hname).1

theorem Processed.status {p : PackageT} (h : Processed p) (status : Status) :
    Processed { p with status := status } := by
  obtain ⟨hfilled, hname⟩ := h
  refine ⟨⟨fun k v hk hv => hfilled.fits k v hk ?_, hfilled.unread, hfilled.described,
    hfilled.block, hfilled.conffiles, hfilled.menuItem⟩, hname⟩
  cases k <;> exact hv

theorem unpackLoop_processed (hargs : ∀ a ∈ args, '\n' ∉ a.1)
    (h : unpackLoop loadtemplate (mainPackages cwd args) = .ok (ps, r)) :
    ∀ p ∈ ps, Processed p := by
  induction args generalizing ps r with
  | nil =>
      cases h
      simp
  | cons a rest ih =>
      obtain ⟨ha, hrest⟩ := List.forall_mem_cons.mp hargs
      rcases unpackLoop_cases loadtemplate cwd a rest with ⟨hstops, hrun⟩ | ⟨hstops, ⟨hnone, hrun⟩ |
        ⟨hsome, status, hfull, ⟨hfails, r', hrun⟩ | ⟨hsucceeds, hrun⟩⟩⟩
      · rw [hrun] at h
        cases h
      · rw [hrun] at h
        cases h
      · rw [hrun] at h
        cases h
        refine List.forall_mem_cons.mpr ⟨(processed_fill cwd ha hsome).status status, fun p hp => ?_⟩
        obtain ⟨a', ha', rfl⟩ := List.mem_map.mp hp
        exact processed_named _ (hrest a' ha')
      · rw [hrun] at h
        cases hlater : unpackLoop loadtemplate (mainPackages cwd rest) with
        | error fault =>
            rw [hlater] at h
            cases h
        | ok result =>
            obtain ⟨ps', r'⟩ := result
            rw [hlater] at h
            cases h
            exact List.forall_mem_cons.mpr ⟨(processed_fill cwd ha hsome).status status, ih hrest hlater⟩

/-! ## The status file -/

/-- The status file after the run. What a run leaves that uses free memory is not known. -/
def fileAfter (file : Text) : Except Fault (Text × Int) → Option Text
  | .error .stopped => some file
  | .error .freed => none
  | .ok (after, _) => some after

/-- The stanzas of a package. -/
def stanzasOf (name file : Text) : List (List Text) :=
  (stanzas file).filter fun s => packageOf s = some name

/-- Each stanza has a name and a status that `status_parse` accepts, and the stanzas of
these packages are what they were. -/
def StatusOk (before after : Text) (names : List Text) : Prop :=
  (∀ s ∈ stanzas after, Good s) ∧ ∀ name ∈ names, stanzasOf name after = stanzasOf name before

/-- What is in the status file after `dpkg_unpack`. -/
def UnpackOk (d : DirSteps) (args : List (Text × Steps)) (file : Text) : Prop :=
  ∃ after, fileAfter file (dpkgUnpack loadtemplate d (mainPackages cwd args) file) = some after ∧
    StatusOk file after (unreached loadtemplate cwd args)

/-- The status file is as it should be exactly if it was not written, because the directory
could not be made or a control file stopped the program, or all packages were unpacked. -/
theorem dpkgUnpack_statusOk_iff {args : List (Text × Steps)} (hargs : ∀ a ∈ args, '\n' ∉ a.1)
    (d : DirSteps) (blanks : ℕ) {ss : List Stanza} (hss : GoodFile ss) :
    UnpackOk loadtemplate cwd d args (render blanks ss) ↔
      (d.rm ≠ 0 ∨ !d.mkdir) ∨ StoppedBy loadtemplate cwd args ∨ Unpacked loadtemplate cwd args := by
  have hread : statusRead (render blanks ss) = some (treeOf ss) :=
    statusRead_render blanks (fun s hs => (hss s hs).1)
      fun s hs => (hss s (List.dropLast_subset _ hs)).2.1
  have hbefore : ∀ s ∈ stanzas (render blanks ss), Good s := by
    rw [stanzas_render_last blanks (fun s hs l hl => ⟨((hss s hs).1.lines l hl).newline,
      ((hss s hs).1.lines l hl).nonblank⟩) fun s hs => (hss s (List.dropLast_subset _ hs)).2.1]
    intro s hs
    obtain ⟨s', hs', rfl⟩ := List.mem_map.mp hs
    exact (hss s' hs').2.2
  have hsame : ∀ names, StatusOk (render blanks ss) (render blanks ss) names :=
    fun names => ⟨hbefore, fun _ _ => rfl⟩
  rw [UnpackOk, dpkgUnpack, hread]
  dsimp only
  by_cases hdir : d.rm ≠ 0 ∨ !d.mkdir
  · rw [if_pos hdir]
    exact ⟨fun _ => .inl hdir, fun _ => ⟨_, rfl, hsame _⟩⟩
  · rw [if_neg hdir, or_iff_right hdir, ← unpackLoop_stopped_iff]
    cases hrun : unpackLoop loadtemplate (mainPackages cwd args) with
    | error fault =>
        cases fault with
        | stopped => exact ⟨fun _ => .inl rfl, fun _ => ⟨_, rfl, hsame _⟩⟩
        | freed =>
            refine ⟨fun ⟨_, hnone, _⟩ => absurd hnone nofun, fun h => ?_⟩
            obtain ⟨result, hok⟩ := unpackLoop_of_unpacked loadtemplate cwd (h.resolve_left nofun)
            rw [hrun] at hok
            cases hok
    | ok result =>
        obtain ⟨ps, r⟩ := result
        have hiff := statusMerge_good_iff (unpackLoop_processed loadtemplate cwd hargs hrun) blanks hss
        rw [(unpackLoop_ok loadtemplate cwd hrun).2] at hiff
        refine ⟨fun ⟨after, hafter, hgood, _⟩ => ?_, fun h => ?_⟩
        · cases hafter
          exact .inr (hiff.mp hgood)
        · have hunpacked := h.resolve_left nofun
          refine ⟨_, rfl, hiff.mpr hunpacked, ?_⟩
          rw [unreached_of_unpacked loadtemplate cwd hunpacked]
          exact nofun

end List

theorem twoStanzas_good : GoodFile twoStanzas := by
  have hplain : ∀ l ∈ ["Bugs: none\n".toList], Plain l :=
    List.forall_mem_singleton.mpr ⟨by decide, by decide, by decide⟩
  have hnetcfg := @good_of_lines [] _ "netcfg".toList (.full .install .ok .installed) (by simp) hplain
    (by decide) (by decide) ⟨_, _, _, rfl⟩
  have hanna := @good_of_lines [] [] "anna".toList (.full .install .ok .unpacked) (by simp) (by simp)
    (by decide) (by decide) ⟨_, _, _, rfl⟩
  refine fun s hs => ⟨twoStanzas_ok s hs, ?_, ?_⟩
  · revert s hs
    decide
  · rcases List.mem_cons.mp hs with rfl | hs
    · exact hnetcfg
    · rw [List.mem_singleton.mp hs]
      exact hanna

/-- The steps of a package that is unpacked. -/
def unpackedSteps (control : Text) : Steps where
  control := ⟨true, true, true, 0, some control, true, true⟩
  data := ⟨true, true, 0, fun _ => .absent, 0, true⟩

/-- The steps of a package whose archive has no data. -/
def emptySteps : Steps where
  control := ⟨false, true, true, 0, none, true, true⟩
  data := ⟨false, true, 0, fun _ => .absent, 0, true⟩

/-- `anna` is unpacked behind a package without data. -/
def failingArgs : List (Text × Steps) :=
  [("/tmp/main-menu_1.udeb", emptySteps),
    ("/tmp/anna_2.udeb", unpackedSteps "Package: anna\n")]

/-- The status of the package that fails is not set, and no more that of `anna`. -/
theorem dpkgUnpack_loses_status :
    ¬ ∀ (loadtemplate : Bool) (cwd : Text) (d : DirSteps) (args : List (Text × Steps)) (blanks : ℕ)
      (ss : List Stanza), (∀ a ∈ args, '\n' ∉ a.1) → GoodFile ss →
        UnpackOk loadtemplate cwd d args (render blanks ss) := by
  intro h
  obtain ⟨after, hafter, hgood, -⟩ := h true "/" ⟨0, true, 0⟩ failingArgs 0 twoStanzas
    (by decide) twoStanzas_good
  have hlast : ((fileAfter (render 0 twoStanzas) (dpkgUnpack true ⟨0, true, 0⟩
      (mainPackages "/" failingArgs) (render 0 twoStanzas))).map stanzas).map List.getLast? =
      some (some ["Package: /tmp/anna_2.udeb\n".toList, "Status: (null)\n".toList]) := by decide
  rw [hafter] at hlast
  have hmem := List.mem_of_getLast? (Option.some.inj hlast)
  have hline : LineOk (statusLine {}) := (hgood _ hmem).lines _ (by decide)
  obtain ⟨want, flag, state, hfull⟩ := (lineOk_statusLine {}).mp hline
  cases hfull

/-- `anna` alone is unpacked. -/
theorem dpkgUnpack_anna :
    UnpackOk true "/" ⟨0, true, 0⟩
        [("/tmp/anna_2.udeb", unpackedSteps "Package: anna\n")] (render 0 twoStanzas) ↔
      ((0 : Int) ≠ 0 ∨ !true) ∨ StoppedBy true "/"
        [("/tmp/anna_2.udeb", unpackedSteps "Package: anna\n")] ∨
        Unpacked true "/"
          [("/tmp/anna_2.udeb", unpackedSteps "Package: anna\n")] :=
  dpkgUnpack_statusOk_iff true "/" (by decide) ⟨0, true, 0⟩ 0 twoStanzas_good

end DebianInstaller.Udpkg
