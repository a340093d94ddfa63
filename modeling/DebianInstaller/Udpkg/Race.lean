import DebianInstaller.Udpkg.Tidy
import DebianInstaller.Udpkg.Unpack
import Mathlib.Logic.Relation

/-!
# Several runs of `udpkg`

The status file is locked while `dpkg_unpack` runs. `dpkg_configure` locks it while it
reads the file and again while it merges, and not while the scripts run, which may call
`udpkg` themselves. What it merges is the status of every package it has read.

A run is any order of the locked sections of any number of processes. Next to the file,
the state keeps what each section has set: the status of each package that a process has
handled, and the stanzas there are, without their statuses.
-/

namespace DebianInstaller.Udpkg

open Text Lib

variable {name : Text} {ps : List PackageT} {ss : List Stanza} {status : Status} {tree : Tree}

/-! ## Configuring -/

/-- `di_exec_mangle_status`. -/
def execMangleStatus (status : Int) : Int :=
  if status % 128 = 0 then status / 256 % 256
  else if status % 128 ≠ 127 then 128 + status % 128
  else if status % 256 = 127 then 128 + status / 256 % 256
  else status

/-- The scripts of a package: the status of each, if it is a file. -/
structure Scripts where
  config : Option Int
  postinst : Option Int

/-- `dpkg_doconfigure`. -/
def doConfigure (force : Bool) (s : Scripts) (status : Status) : Int × Status :=
  if status.state = some .installed ∧ !force then (1, status)
  else if s.config.getD 0 ≠ 0 then (1, { status with state := some .halfConfigured })
  else if s.postinst.getD 0 ≠ 0 then
    (execMangleStatus (s.postinst.getD 0), { status with state := some .halfConfigured })
  else (0, { status with state := some .installed })

/-- The loop of `dpkg_configure`. -/
def configureLoop (force : Bool) : List (Text × Scripts) → Tree → Int × Tree
  | [], tree => (0, tree)
  | (package, s) :: rest, tree =>
      match tree package with
      | none => (1, tree)
      | some status =>
          let (r, status) := doConfigure force s status
          let tree := Function.update tree package (some status)
          if r ≠ 0 then (r, tree) else configureLoop force rest tree

/-- The packages whose status the loop sets. A package that is already installed is left as
it is. -/
def configured (force : Bool) : List (Text × Scripts) → Tree → List Text
  | [], _ => []
  | (package, s) :: rest, tree =>
      match tree package with
      | none => []
      | some status =>
          (if status.state = some .installed ∧ !force then [] else [package]) ++
            if (doConfigure force s status).1 ≠ 0 then []
            else configured force rest
              (Function.update tree package (some (doConfigure force s status).2))

theorem doConfigure_full (force : Bool) (s : Scripts) (h : status.Full) :
    (doConfigure force s status).2.Full := by
  obtain ⟨want, flag, state, rfl⟩ := h
  rw [doConfigure]
  split
  · exact ⟨want, flag, state, rfl⟩
  · split
    · exact ⟨want, flag, .halfConfigured, rfl⟩
    · split
      · exact ⟨want, flag, .halfConfigured, rfl⟩
      · exact ⟨want, flag, .installed, rfl⟩

theorem doConfigure_installed (force : Bool) (s : Scripts)
    (h : status.state = some .installed ∧ !force) : doConfigure force s status = (1, status) :=
  if_pos h

theorem configureLoop_full (force : Bool) (pkgs : List (Text × Scripts))
    (htree : ∀ name status, tree name = some status → status.Full) :
    ∀ name status, (configureLoop force pkgs tree).2 name = some status → status.Full := by
  induction pkgs generalizing tree with
  | nil => exact htree
  | cons a rest ih =>
      obtain ⟨package, s⟩ := a
      rw [configureLoop]
      split
      · exact htree
      · next status hstatus =>
          have hnew : ∀ name status', Function.update tree package
              (some (doConfigure force s status).2) name = some status' → status'.Full := by
            intro name status' h
            by_cases hname : name = package
            · subst hname
              rw [Function.update_self] at h
              cases h
              exact doConfigure_full force s (htree _ _ hstatus)
            · rw [Function.update_of_ne hname] at h
              exact htree name status' h
          dsimp only
          split
          · exact hnew
          · exact ih hnew

theorem configureLoop_other (force : Bool) (pkgs : List (Text × Scripts))
    (h : name ∉ configured force pkgs tree) :
    (configureLoop force pkgs tree).2 name = tree name := by
  induction pkgs generalizing tree with
  | nil => rfl
  | cons a rest ih =>
      obtain ⟨package, s⟩ := a
      rw [configured] at h
      rw [configureLoop]
      cases hpackage : tree package with
      | none => rfl
      | some status =>
          rw [hpackage] at h
          dsimp only at h ⊢
          rw [List.mem_append, not_or] at h
          have hsame : Function.update tree package (some (doConfigure force s status).2) name =
              tree name := by
            by_cases hname : name = package
            · subst hname
              -- only a package that is installed is not in the list
              have hinstalled : status.state = some .installed ∧ !force := by
                by_contra hno
                rw [if_neg hno] at h
                exact h.1 (List.mem_singleton.mpr rfl)
              rw [Function.update_self, doConfigure_installed force s hinstalled, hpackage]
            · exact Function.update_of_ne hname _ _
          split
          · exact hsame
          · next hzero =>
              rw [if_neg hzero] at h
              rw [ih h.2, hsame]

theorem configureLoop_some (force : Bool) (pkgs : List (Text × Scripts)) (h : tree name ≠ none) :
    (configureLoop force pkgs tree).2 name ≠ none := by
  induction pkgs generalizing tree with
  | nil => exact h
  | cons a rest ih =>
      obtain ⟨package, s⟩ := a
      rw [configureLoop]
      split
      · exact h
      · next status hstatus =>
          have hnew : Function.update tree package (some (doConfigure force s status).2) name ≠ none := by
            by_cases hname : name = package
            · subst hname
              rw [Function.update_self]
              exact nofun
            · rwa [Function.update_of_ne hname]
          dsimp only
          split
          · exact hnew
          · exact ih hnew

theorem configured_some (force : Bool) (pkgs : List (Text × Scripts))
    (h : name ∈ configured force pkgs tree) : tree name ≠ none := by
  induction pkgs generalizing tree with
  | nil => exact absurd h List.not_mem_nil
  | cons a rest ih =>
      obtain ⟨package, s⟩ := a
      rw [configured] at h
      cases hpackage : tree package with
      | none =>
          rw [hpackage] at h
          exact absurd h List.not_mem_nil
      | some status =>
          by_cases hname : name = package
          · rw [hname, hpackage]
            exact nofun
          · rw [hpackage] at h
            dsimp only at h
            rcases List.mem_append.mp h with h | h
            · split at h
              · exact absurd h List.not_mem_nil
              · exact absurd (List.mem_singleton.mp h) hname
            · split at h
              · exact absurd h List.not_mem_nil
              · have := ih h
                rwa [Function.update_of_ne hname] at this

/-! ## The processes -/

/-- `udpkg --configure` or `udpkg --unpack`. -/
inductive Program where
  | configure (force : Bool) (pkgs : List (Text × Scripts))
  | unpack (loadtemplate : Bool) (cwd : Text) (d : DirSteps) (args : List (Text × Steps))

/-- What a process does next: its first locked section, or the second one of
`dpkg_configure`, with the tree that was read. -/
inductive Phase where
  | start
  | scripts (tree : Tree)
  | done

variable {ι : Type}

/-- The status file, the processes, and what they have set. -/
structure World (ι : Type) where
  file : Text
  phase : ι → Phase
  set : Text → Option Status
  bodies : List (List Text)

/-- Before any process has started. -/
def World.init (file : Text) : World ι where
  file := file
  phase := fun _ => .start
  set := statusOf file
  bodies := (stanzas file).map body

/-- The packages that `dpkg_unpack` merges. -/
def merged (loadtemplate : Bool) (cwd : Text) (d : DirSteps) (args : List (Text × Steps))
    (file : Text) : List PackageT :=
  if statusRead file = none ∨ d.rm ≠ 0 ∨ !d.mkdir then []
  else
    match unpackLoop loadtemplate (mainPackages cwd args) with
    | .ok (ps, _) => ps
    | .error _ => []

/-- What is set for the packages that are merged. -/
def setMerged (ps : List PackageT) (set : Text → Option Status) : Text → Option Status := fun name =>
  match ps.find? (·.package = some name) with
  | some p => some p.status
  | none => set name

/-- The stanzas there are after a merge. -/
def addMerged (ps : List PackageT) (bodies : List (List Text)) : List (List Text) :=
  bodies.filter (fun s => !(packageOf s).any (listed ps)) ++
    (stanzas (ps.flatMap writeStanza)).map body

/-- A locked section of a process. -/
inductive Step [DecidableEq ι] (prog : ι → Program) (w : World ι) (i : ι) : World ι → Prop where
  | read {force : Bool} {pkgs : List (Text × Scripts)} {tree : Tree}
      (hprog : prog i = .configure force pkgs) (hphase : w.phase i = .start)
      (hread : statusRead w.file = some tree) :
      Step prog w i { w with phase := Function.update w.phase i (.scripts tree) }
  | readStopped {force : Bool} {pkgs : List (Text × Scripts)}
      (hprog : prog i = .configure force pkgs) (hphase : w.phase i = .start)
      (hread : statusRead w.file = none) :
      Step prog w i { w with phase := Function.update w.phase i .done }
  | merge {force : Bool} {pkgs : List (Text × Scripts)} {tree : Tree}
      (hprog : prog i = .configure force pkgs) (hphase : w.phase i = .scripts tree) :
      Step prog w i
        { file := statusMerge (configureLoop force pkgs tree).2 [] w.file
          phase := Function.update w.phase i .done
          set := fun name => if name ∈ configured force pkgs tree then
            (configureLoop force pkgs tree).2 name else w.set name
          bodies := w.bodies }
  | unpack {loadtemplate : Bool} {cwd : Text} {d : DirSteps} {args : List (Text × Steps)} {file : Text}
      (hprog : prog i = .unpack loadtemplate cwd d args) (hphase : w.phase i = .start)
      (hfile : fileAfter w.file (dpkgUnpack loadtemplate d (mainPackages cwd args) w.file) = some file) :
      Step prog w i
        { file := file
          phase := Function.update w.phase i .done
          set := setMerged (merged loadtemplate cwd d args w.file) w.set
          bodies := addMerged (merged loadtemplate cwd d args w.file) w.bodies }
  | unpackFreed {loadtemplate : Bool} {cwd : Text} {d : DirSteps} {args : List (Text × Steps)}
      (file : Text) (hprog : prog i = .unpack loadtemplate cwd d args) (hphase : w.phase i = .start)
      (hfile : dpkgUnpack loadtemplate d (mainPackages cwd args) w.file = .error .freed) :
      Step prog w i { w with file := file, phase := Function.update w.phase i .done }

/-- Each package has the status that was set last, and all stanzas are there. -/
structure Settled (w : World ι) : Prop where
  status : ∀ name, statusOf w.file name ≠ none → statusOf w.file name = w.set name
  bodies : (stanzas w.file).map body = w.bodies

/-- A section that does no harm. `dpkg_configure` has read no status that the file does not
have any more, but those of the packages it configures; and `dpkg_unpack` writes tidy
stanzas with different names. -/
def Safe (prog : ι → Program) (w : World ι) (i : ι) : Prop :=
  match prog i, w.phase i with
  | .configure force pkgs, .scripts tree =>
      ∀ name status, tree name = some status → name ∉ configured force pkgs tree →
        statusOf w.file name ≠ none → statusOf w.file name = some status
  | .unpack loadtemplate cwd d args, .start =>
      dpkgUnpack loadtemplate d (mainPackages cwd args) w.file ≠ .error .freed ∧
        (∀ p ∈ merged loadtemplate cwd d args w.file, ∃ s, Writes p s) ∧
        ((merged loadtemplate cwd d args w.file).map PackageT.package).Nodup
  | _, _ => True

/-- Runs, and runs of sections that do no harm. -/
def Run [DecidableEq ι] (prog : ι → Program) : World ι → World ι → Prop :=
  Relation.ReflTransGen fun w w' => ∃ i, Step prog w i w'

def SafeRun [DecidableEq ι] (prog : ι → Program) : World ι → World ι → Prop :=
  Relation.ReflTransGen fun w w' => ∃ i, Safe prog w i ∧ Step prog w i w'

/-! ## The invariant -/

/-- The file is tidy and settled, and the trees have statuses of three words. -/
structure Inv (w : World ι) : Prop where
  file : ∃ blanks ss, w.file = render blanks ss ∧ TidyFile ss
  trees : ∀ i tree, w.phase i = .scripts tree → ∀ name status, tree name = some status → status.Full
  settled : Settled w

theorem settled_merge {w : World ι} (hw : Inv w) {force : Bool} {pkgs : List (Text × Scripts)}
    (htree : ∀ name status, tree name = some status → status.Full)
    (hsafe : ∀ name status, tree name = some status → name ∉ configured force pkgs tree →
      statusOf w.file name ≠ none → statusOf w.file name = some status) :
    (∃ blanks ss, statusMerge (configureLoop force pkgs tree).2 [] w.file = render blanks ss ∧
      TidyFile ss) ∧
    (∀ name, statusOf (statusMerge (configureLoop force pkgs tree).2 [] w.file) name ≠ none →
      statusOf (statusMerge (configureLoop force pkgs tree).2 [] w.file) name =
        if name ∈ configured force pkgs tree then (configureLoop force pkgs tree).2 name
        else w.set name) ∧
    (stanzas (statusMerge (configureLoop force pkgs tree).2 [] w.file)).map body = w.bodies := by
  obtain ⟨blanks, ss, hfile, htidy⟩ := hw.file
  have hfull := configureLoop_full force pkgs htree
  have hold := hw.settled.status
  have hbodies := hw.settled.bodies
  obtain ⟨hmerge, htidy'⟩ := htidy.merge_statuses hfull blanks
  rw [hfile] at hsafe hold hbodies ⊢
  refine ⟨⟨blanks, _, hmerge, htidy'⟩, fun name => ?_, (htidy.bodies_merge hfull blanks).trans hbodies⟩
  rw [htidy.statusOf_merge hfull]
  cases hname : statusOf (render blanks ss) name with
  | none => exact fun h => absurd rfl h
  | some old =>
      intro _
      have hset := hold name (by rw [hname]; exact nofun)
      rw [Option.map_some]
      by_cases hmem : name ∈ configured force pkgs tree
      · obtain ⟨status, hstatus⟩ := Option.ne_none_iff_exists'.mp
          (configureLoop_some force pkgs (configured_some force pkgs hmem))
        rw [if_pos hmem, hstatus]
        rfl
      · rw [if_neg hmem, configureLoop_other force pkgs hmem, ← hset, hname]
        cases hread : tree name with
        | none => rfl
        | some status =>
            -- what was read is what the file has
            have hsame := hsafe name status hread hmem (by rw [hname]; exact nofun)
            rw [hname] at hsame
            exact hsame.symm

theorem setMerged_nil (set : Text → Option Status) : setMerged [] set = set := rfl

theorem addMerged_nil (bodies : List (List Text)) : addMerged [] bodies = bodies := by
  have hall : (bodies.filter fun s => !(packageOf s).any (listed [])) = bodies := by
    refine List.filter_eq_self.mpr fun s _ => ?_
    cases packageOf s <;> rfl
  rw [addMerged, hall]
  exact List.append_nil bodies

theorem find_writes {news : List Stanza} (h : List.Forall₂ Writes ps news) (name : Text) :
    (news.find? (·.name = name)).map Stanza.status =
      (ps.find? (·.package = some name)).map PackageT.status := by
  induction h with
  | nil => rfl
  | @cons p s ps news hp _ ih =>
      by_cases heq : s.name = name
      · rw [List.find?_cons_of_pos (by simpa using heq),
          List.find?_cons_of_pos (by simpa [hp.name] using heq), Option.map_some, Option.map_some,
          hp.status]
      · rw [List.find?_cons_of_neg (by simpa using heq),
          List.find?_cons_of_neg (by simpa [hp.name] using heq), ih]

/-- A tidy file stays tidy when packages are merged into it. -/
theorem settled_packages {w : World ι} (hw : Inv w) {blanks : ℕ} (hfile : w.file = render blanks ss)
    (htidy : TidyFile ss) (hwrites : ∀ p ∈ ps, ∃ s, Writes p s)
    (hnames : (ps.map PackageT.package).Nodup) :
    (∃ blanks' ss', statusMerge (treeOf ss) ps w.file = render blanks' ss' ∧ TidyFile ss') ∧
    (∀ name, statusOf (statusMerge (treeOf ss) ps w.file) name ≠ none →
      statusOf (statusMerge (treeOf ss) ps w.file) name = setMerged ps w.set name) ∧
    (stanzas (statusMerge (treeOf ss) ps w.file)).map body = addMerged ps w.bodies := by
  obtain ⟨news, hnews⟩ := exists_writes hwrites
  obtain ⟨hmerge, htidy'⟩ := htidy.merge_packages hnews hnames blanks
  have hold := hw.settled.status
  have hbodies := hw.settled.bodies
  rw [hfile] at hold hbodies ⊢
  rw [hmerge]
  refine ⟨⟨blanks, _, rfl, htidy'⟩, fun name => ?_, ?_⟩
  · have hnewname : (news.find? (·.name = name)).map Stanza.status =
        (ps.find? (·.package = some name)).map PackageT.status := find_writes hnews name
    rw [htidy'.statusOf, List.find?_append]
    by_cases hlisted : listed ps name = true
    · have hkept : ((ss.filter fun s => !listed ps s.name).map (Stanza.rewrite (treeOf ss))).find?
          (·.name = name) = none := by
        refine List.find?_eq_none.mpr fun s hs => ?_
        obtain ⟨s', hs', rfl⟩ := List.mem_map.mp hs
        have hunlisted := (List.mem_filter.mp hs').2
        rw [decide_eq_true_iff]
        rintro rfl
        rw [← Stanza.rewrite_name (treeOf ss) s', hlisted] at hunlisted
        cases hunlisted
      rw [hkept, Option.none_or, hnewname, setMerged]
      cases ps.find? (·.package = some name) with
      | none => exact fun h => absurd rfl h
      | some p => exact fun _ => rfl
    · have hps : ps.find? (·.package = some name) = none := by
        refine List.find?_eq_none.mpr fun p hp heq => hlisted ?_
        exact List.any_eq_true.mpr ⟨p, hp, heq⟩
      rw [hps, Option.map_none, Option.map_eq_none_iff] at hnewname
      have hkept : ((ss.filter fun s => !listed ps s.name).find? (·.name = name)) =
          ss.find? (·.name = name) := by
        rw [List.find?_filter]
        refine congrArg (fun q => ss.find? q) (funext fun s => ?_)
        by_cases heq : s.name = name
        · simp [heq, hlisted]
        · simp [heq]
      rw [hnewname, Option.or_none, find_rewrite, hkept, setMerged, hps]
      have hname := htidy.statusOf blanks name
      cases hfind : ss.find? (·.name = name) with
      | none => exact fun h => absurd rfl h
      | some s =>
          intro _
          have hs := List.mem_of_find?_eq_some hfind
          rw [hfind, Option.map_some] at hname
          rw [Option.map_some, ((htidy.tidy s hs).rewrite fun _ => htidy.tree_full).2, htidy.treeOf hs,
            ← hold name (by rw [hname]; exact nofun), hname]
          rfl
  · have hnew : TidyFile news := by
      refine ⟨fun s hs => htidy'.tidy s (List.mem_append_right _ hs), ?_⟩
      have := htidy'.names
      rw [List.map_append] at this
      exact this.of_append_right
    have hkept : (ss.map (body ∘ Stanza.texts)).filter (fun s => !(packageOf s).any (listed ps)) =
        (ss.filter fun s => !listed ps s.name).map (body ∘ Stanza.texts) := by
      rw [List.filter_map]
      refine congrArg _ (List.filter_congr fun s hs => ?_)
      rw [Function.comp_apply, Function.comp_apply,
        packageOf_body (newline_not_mem_name (htidy.tidy s hs).ok)]
      rfl
    rw [htidy'.stanzas_eq, addMerged, ← hbodies, htidy.stanzas_eq, writes_text hnews, hnew.stanzas_eq,
      List.map_map, List.map_map, List.map_map, hkept, List.map_append, List.map_map]
    refine congrArg (· ++ _) (List.map_congr_left fun s _ => ?_)
    exact body_rewrite _ s

theorem inv_unpack {w : World ι} (hw : Inv w) {loadtemplate : Bool} {cwd : Text} {d : DirSteps}
    {args : List (Text × Steps)} {file : Text}
    (hfile : fileAfter w.file (dpkgUnpack loadtemplate d (mainPackages cwd args) w.file) = some file)
    (hwrites : ∀ p ∈ merged loadtemplate cwd d args w.file, ∃ s, Writes p s)
    (hnames : ((merged loadtemplate cwd d args w.file).map PackageT.package).Nodup) :
    (∃ blanks ss, file = render blanks ss ∧ TidyFile ss) ∧
    (∀ name, statusOf file name ≠ none →
      statusOf file name = setMerged (merged loadtemplate cwd d args w.file) w.set name) ∧
    (stanzas file).map body = addMerged (merged loadtemplate cwd d args w.file) w.bodies := by
  obtain ⟨blanks, ss, hrender, htidy⟩ := hw.file
  have hread : statusRead w.file = some (treeOf ss) := by rw [hrender, htidy.read]
  have hsame : merged loadtemplate cwd d args w.file = [] → file = w.file →
      (∃ blanks ss, file = render blanks ss ∧ TidyFile ss) ∧
      (∀ name, statusOf file name ≠ none →
        statusOf file name = setMerged (merged loadtemplate cwd d args w.file) w.set name) ∧
      (stanzas file).map body = addMerged (merged loadtemplate cwd d args w.file) w.bodies := by
    rintro hnone rfl
    rw [hnone, setMerged_nil, addMerged_nil]
    exact ⟨hw.file, hw.settled.status, hw.settled.bodies⟩
  rw [dpkgUnpack, hread] at hfile
  dsimp only at hfile
  by_cases hdir : d.rm ≠ 0 ∨ !d.mkdir
  · rw [if_pos hdir] at hfile
    exact hsame (if_pos (.inr hdir)) (Option.some.inj hfile).symm
  · rw [if_neg hdir] at hfile
    have hkept : ¬ (statusRead w.file = none ∨ d.rm ≠ 0 ∨ !d.mkdir) := by
      rw [hread, or_iff_right (Option.some_ne_none _)]
      exact hdir
    have hmerged : merged loadtemplate cwd d args w.file = _ := if_neg hkept
    cases hloop : unpackLoop loadtemplate (mainPackages cwd args) with
    | error fault =>
        rw [hloop] at hfile hmerged
        cases fault with
        | stopped => exact hsame hmerged (Option.some.inj hfile).symm
        | freed => cases hfile
    | ok result =>
        obtain ⟨ps, r⟩ := result
        rw [hloop] at hfile hmerged
        have hps : merged loadtemplate cwd d args w.file = ps := hmerged
        cases hfile
        rw [hps] at hwrites hnames ⊢
        exact settled_packages hw hrender htidy hwrites hnames

/-! ## Runs -/

theorem inv_init (blanks : ℕ) (h : TidyFile ss) : Inv (World.init (render blanks ss) : World ι) :=
  ⟨⟨blanks, ss, rfl, h⟩, nofun, ⟨fun _ _ => rfl, rfl⟩⟩

section Runs

variable [DecidableEq ι] {prog : ι → Program}

theorem trees_update {w : World ι} (hw : Inv w) {i : ι} {phase : Phase}
    (hphase : ∀ tree, phase = .scripts tree → ∀ name status, tree name = some status → status.Full)
    (j : ι) (tree : Tree) (h : Function.update w.phase i phase j = .scripts tree) :
    ∀ name status, tree name = some status → status.Full := by
  by_cases hij : j = i
  · subst hij
    rw [Function.update_self] at h
    exact hphase tree h
  · rw [Function.update_of_ne hij] at h
    exact hw.trees j tree h

theorem inv_step {w w' : World ι} {i : ι} (hw : Inv w) (hstep : Step prog w i w')
    (hsafe : Safe prog w i) : Inv w' := by
  cases hstep with
  | read hprog hphase hread =>
      obtain ⟨blanks, ss, hfile, htidy⟩ := hw.file
      refine ⟨⟨blanks, ss, hfile, htidy⟩, trees_update hw ?_, ⟨hw.settled.status, hw.settled.bodies⟩⟩
      rintro tree ⟨⟩
      rw [hfile, htidy.read] at hread
      cases hread
      exact fun _ _ => htidy.tree_full
  | readStopped hprog hphase hread =>
      exact ⟨hw.file, trees_update hw nofun, ⟨hw.settled.status, hw.settled.bodies⟩⟩
  | merge hprog hphase =>
      rw [Safe, hprog, hphase] at hsafe
      obtain ⟨hfile, hstatus, hbodies⟩ := settled_merge hw (hw.trees i _ hphase) hsafe
      exact ⟨hfile, trees_update hw nofun, ⟨hstatus, hbodies⟩⟩
  | unpack hprog hphase hfile =>
      rw [Safe, hprog, hphase] at hsafe
      obtain ⟨hfile, hstatus, hbodies⟩ := inv_unpack hw hfile hsafe.2.1 hsafe.2.2
      exact ⟨hfile, trees_update hw nofun, ⟨hstatus, hbodies⟩⟩
  | unpackFreed file hprog hphase hfile =>
      rw [Safe, hprog, hphase] at hsafe
      exact absurd hfile hsafe.1

/-- A process that nothing comes between does no harm: what it has read is in the file. -/
theorem safeRun_configure {w : World ι} {i : ι} {blanks : ℕ} (hfile : w.file = render blanks ss)
    (htidy : TidyFile ss) {force : Bool} {pkgs : List (Text × Scripts)}
    (hprog : prog i = .configure force pkgs) (hphase : w.phase i = .start) :
    SafeRun prog w
      { file := statusMerge (configureLoop force pkgs (treeOf ss)).2 [] w.file
        phase := Function.update (Function.update w.phase i (.scripts (treeOf ss))) i .done
        set := fun name => if name ∈ configured force pkgs (treeOf ss) then
          (configureLoop force pkgs (treeOf ss)).2 name else w.set name
        bodies := w.bodies } := by
  have hread : statusRead w.file = some (treeOf ss) := by rw [hfile, htidy.read]
  refine .tail (.tail .refl ⟨i, ?_, .read hprog hphase hread⟩)
    ⟨i, ?_, .merge hprog (Function.update_self i _ _)⟩
  · rw [Safe, hprog, hphase]
    trivial
  · simp only [Safe, hprog, Function.update_self]
    intro name status hstatus _ hname
    rw [hfile] at hname ⊢
    exact (htidy.treeOf_statusOf blanks hname).symm.trans hstatus

/-- No result of a process is overwritten, in any order of sections that do no harm. -/
theorem safeRun_settled (blanks : ℕ) {ss : List Stanza} (h : TidyFile ss) {w : World ι}
    (hrun : SafeRun prog (World.init (render blanks ss)) w) : Settled w := by
  have hinv : Inv w := by
    induction hrun with
    | refl => exact inv_init blanks h
    | tail _ hstep ih =>
        obtain ⟨i, hsafe, hstep⟩ := hstep
        exact inv_step ih hstep hsafe
  exact hinv.settled

end Runs

/-- Two packages that are unpacked, and a process that configures each. -/
def unpackedStanzas : List Stanza :=
  [⟨"netcfg", ["Status: install ok unpacked"], 1⟩,
    ⟨"anna", ["Status: install ok unpacked"], 1⟩]

def configurePrograms : Bool → Program
  | true => .configure false [("netcfg", ⟨none, none⟩)]
  | false => .configure false [("anna", ⟨none, none⟩)]

/-- `netcfg` has been configured. -/
def halfStanzas : List Stanza :=
  [⟨"netcfg", ["Status: install ok installed"], 1⟩,
    ⟨"anna", ["Status: install ok unpacked"], 1⟩]

theorem tidy_of_status {name v : Text} (hname : Line (packageLabel ++ name))
    (hline : Line (statusLabel ++ v)) (hv : Accepted v) :
    Tidy ⟨name, [statusLabel ++ v], 1⟩ :=
  ⟨⟨hname, List.forall_mem_singleton.mpr ⟨hline, by rintro ⟨t, ht⟩; cases ht⟩⟩, Nat.one_pos,
    [], v, [], rfl, by simp, hv⟩

theorem accepted_unpacked : Accepted "install ok unpacked" :=
  ⟨.full .install .ok .unpacked, by decide, _, _, _, rfl⟩

theorem unpackedStanzas_tidy : TidyFile unpackedStanzas := by
  have htidy (name : Text) (hname : Line (packageLabel ++ name)) :
      Tidy ⟨name, ["Status: install ok unpacked"], 1⟩ :=
    tidy_of_status hname (line_of_check (by decide)) accepted_unpacked
  exact ⟨List.forall_mem_cons.mpr ⟨htidy _ (line_of_check (by decide)),
    List.forall_mem_singleton.mpr (htidy _ (line_of_check (by decide)))⟩, by decide⟩

theorem halfStanzas_tidy : TidyFile halfStanzas := by
  have hinstalled : Accepted "install ok installed" :=
    ⟨.full .install .ok .installed, by decide, _, _, _, rfl⟩
  exact ⟨List.forall_mem_cons.mpr
    ⟨tidy_of_status (line_of_check (by decide)) (line_of_check (by decide)) hinstalled,
      List.forall_mem_singleton.mpr (tidy_of_status (line_of_check (by decide))
        (line_of_check (by decide)) accepted_unpacked)⟩, by decide⟩

/-- Both packages are configured, one after the other. -/
theorem settled_both :
    ∃ w : World Bool, SafeRun configurePrograms (World.init (render 0 unpackedStanzas)) w ∧
      statusOf w.file "netcfg" = some (.full .install .ok .installed) ∧
      statusOf w.file "anna" = some (.full .install .ok .installed) ∧ Settled w := by
  have hfirst : SafeRun configurePrograms (World.init (render 0 unpackedStanzas)) _ :=
    safeRun_configure rfl unpackedStanzas_tidy (show configurePrograms true = _ from rfl) rfl
  have hfile : statusMerge (configureLoop false [("netcfg", ⟨none, none⟩)]
      (treeOf unpackedStanzas)).2 [] (render 0 unpackedStanzas) = render 0 halfStanzas := by
    decide
  have hrun := hfirst.trans
    (safeRun_configure hfile halfStanzas_tidy (show configurePrograms false = _ from rfl) rfl)
  exact ⟨_, hrun, by decide, by decide, safeRun_settled 0 unpackedStanzas_tidy hrun⟩

/-- The packages that a process is about to configure. -/
def Program.packages : Program → List Text
  | .configure _ pkgs => pkgs.map Prod.fst
  | .unpack _ _ _ _ => []

/-- The process that merges last writes back the status it has read of the other's package. -/
theorem run_loses_status :
    ¬ ∀ (prog : Bool → Program) (blanks : ℕ) (ss : List Stanza) (w : World Bool), TidyFile ss →
      (prog true).packages.Disjoint (prog false).packages →
        Run prog (World.init (render blanks ss)) w → Settled w := by
  intro h
  have hread : statusRead (render 0 unpackedStanzas) = some (treeOf unpackedStanzas) :=
    unpackedStanzas_tidy.read 0
  have hrun : Run configurePrograms (World.init (render 0 unpackedStanzas)) _ :=
    .tail (.tail (.tail (.tail .refl ⟨true, .read rfl rfl hread⟩) ⟨false, .read rfl rfl hread⟩)
      ⟨true, .merge rfl rfl⟩) ⟨false, .merge rfl rfl⟩
  have hdisjoint : (configurePrograms true).packages.Disjoint (configurePrograms false).packages := by
    intro name htrue hfalse
    rw [List.mem_singleton.mp htrue] at hfalse
    exact absurd hfalse (by decide)
  have hsettled := h configurePrograms 0 unpackedStanzas _ unpackedStanzas_tidy hdisjoint hrun
  exact absurd (hsettled.status "netcfg" (by decide)) (by decide)

end DebianInstaller.Udpkg
