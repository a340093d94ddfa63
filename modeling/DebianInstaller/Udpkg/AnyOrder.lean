import DebianInstaller.Udpkg.Race

/-!
# Runs in any order

`dpkg_configure` may write back a status that is older than the one in the file. It makes
nothing up: every status in the file is one that was set at some moment of the run, and no
stanza is lost. Only packages that `dpkg_unpack` adds during the run are left out, because
the tree of a process may have a status for such a name from a package that provides it.
-/

namespace DebianInstaller.Udpkg

open Text Lib

variable {ι : Type}

variable {i : ι} {name : Text} {ws : List (World ι)} {w w₀ : World ι}

/-- A section of `dpkg_unpack` that writes tidy stanzas with different names. Those of
`dpkg_configure` have no condition. -/
def Writing (prog : ι → Program) (w : World ι) (i : ι) : Prop :=
  match prog i, w.phase i with
  | .unpack loadtemplate cwd d args, .start =>
      dpkgUnpack loadtemplate d (mainPackages cwd args) w.file ≠ .error .freed ∧
        (∀ p ∈ merged loadtemplate cwd d args w.file, ∃ s, Writes p s) ∧
        ((merged loadtemplate cwd d args w.file).map PackageT.package).Nodup
  | _, _ => True

/-- A run with the states it goes through, the last one first. -/
inductive WritingRun [DecidableEq ι] (prog : ι → Program) (w₀ : World ι) :
    List (World ι) → World ι → Prop where
  | refl : WritingRun prog w₀ [w₀] w₀
  | tail {ws : List (World ι)} {w w' : World ι} {i : ι} (hrun : WritingRun prog w₀ ws w)
      (hwriting : Writing prog w i) (hstep : Step prog w i w') : WritingRun prog w₀ (w' :: ws) w'

/-- In one of these states this was what the package was set to last. -/
def WasSet (ws : List (World ι)) (name : Text) (status : Status) : Prop :=
  ∃ w ∈ ws, w.set name = some status

/-- A package that had a stanza when the run began. -/
def Known (w₀ : World ι) (name : Text) : Prop :=
  some name ∈ ((stanzas w₀.file).map body).map packageOf

/-- The file is tidy with all stanzas, and what it and the trees have was set. -/
structure Traced (w₀ : World ι) (ws : List (World ι)) (w : World ι) : Prop where
  file : ∃ blanks ss, w.file = render blanks ss ∧ TidyFile ss
  full : ∀ i tree, w.phase i = .scripts tree → ∀ name status, tree name = some status → status.Full
  bodies : (stanzas w.file).map body = w.bodies
  known : ∀ name, Known w₀ name → some name ∈ w.bodies.map packageOf
  status : ∀ name, Known w₀ name → ∀ status, statusOf w.file name = some status →
    WasSet ws name status
  trees : ∀ i tree, w.phase i = .scripts tree → ∀ name, Known w₀ name → ∀ status,
    tree name = some status → WasSet ws name status

theorem statusOf_ne_none {ss : List Stanza} (h : TidyFile ss) (blanks : ℕ)
    (hname : some name ∈ ((stanzas (render blanks ss)).map body).map packageOf) :
    statusOf (render blanks ss) name ≠ none := by
  rw [h.stanzas_eq, List.map_map, List.map_map] at hname
  obtain ⟨s, hs, heq⟩ := List.mem_map.mp hname
  rw [Function.comp_apply, Function.comp_apply,
    packageOf_body (newline_not_mem_name (h.tidy s hs).ok)] at heq
  rw [h.statusOf, Ne, Option.map_eq_none_iff, List.find?_eq_none]
  exact fun hall => hall s hs (decide_eq_true (Option.some.inj heq))

theorem known_addMerged {ps : List PackageT} (hwrites : ∀ p ∈ ps, ∃ s, Writes p s)
    (hnames : (ps.map PackageT.package).Nodup) {bodies : List (List Text)}
    (h : some name ∈ bodies.map packageOf) : some name ∈ (addMerged ps bodies).map packageOf := by
  obtain ⟨news, hnews⟩ := exists_writes hwrites
  rw [addMerged, List.map_append, List.mem_append]
  by_cases hlisted : listed ps name = true
  · right
    have hnew : TidyFile news := by
      refine ⟨fun s hs => ?_, ?_⟩
      · obtain ⟨p, -, hp⟩ := mem_writes hnews hs
        exact hp.tidy
      · rw [writes_names hnews] at hnames
        exact List.Nodup.of_map _ hnames
    obtain ⟨s, hs, heq⟩ := List.mem_map.mp ((listed_iff hnews name).mp hlisted)
    rw [writes_text hnews, hnew.stanzas_eq, List.map_map, List.map_map]
    refine List.mem_map.mpr ⟨s, hs, ?_⟩
    rw [Function.comp_apply, Function.comp_apply,
      packageOf_body (newline_not_mem_name (hnew.tidy s hs).ok), heq]
  · left
    obtain ⟨s, hs, heq⟩ := List.mem_map.mp h
    refine List.mem_map.mpr ⟨s, List.mem_filter.mpr ⟨hs, ?_⟩, heq⟩
    rw [heq, Option.any_some, Bool.eq_false_iff.mpr hlisted]
    rfl

section Runs

variable [DecidableEq ι] {prog : ι → Program}

/-- The trees of the processes, where one of them goes on. -/
theorem trees_next {P : Tree → Prop} {phase : Phase}
    (hold : ∀ j tree, w.phase j = .scripts tree → P tree)
    (hnext : ∀ tree, phase = .scripts tree → P tree) (j : ι) (tree : Tree)
    (h : Function.update w.phase i phase j = .scripts tree) : P tree := by
  by_cases hij : j = i
  · subst hij
    rw [Function.update_self] at h
    exact hnext tree h
  · rw [Function.update_of_ne hij] at h
    exact hold j tree h

theorem trees_ended {P : Tree → Prop} (hold : ∀ j tree, w.phase j = .scripts tree → P tree) (j : ι)
    (tree : Tree) (h : Function.update w.phase i .done j = .scripts tree) : P tree :=
  trees_next hold (fun _ => Phase.noConfusion) j tree h

/-- A step loses no stanza, and no status comes from nowhere. -/
theorem traced_step {w' : World ι} (hw : Traced w₀ ws w) (hwriting : Writing prog w i)
    (hstep : Step prog w i w') : Traced w₀ (w' :: ws) w' := by
  have hlater (name : Text) (status : Status) (h : WasSet ws name status) :
      WasSet (w' :: ws) name status := h.imp fun _ h => ⟨List.mem_cons_of_mem w' h.1, h.2⟩
  have hnow (name : Text) (status : Status) (h : w'.set name = some status) :
      WasSet (w' :: ws) name status := ⟨w', List.mem_cons_self, h⟩
  have hfile : ∀ name, Known w₀ name → ∀ status, statusOf w.file name = some status →
      WasSet (w' :: ws) name status :=
    fun name hname status h => hlater _ _ (hw.status name hname status h)
  have htrees : ∀ j tree, w.phase j = .scripts tree → ∀ name, Known w₀ name → ∀ status,
      tree name = some status → WasSet (w' :: ws) name status :=
    fun j tree hj name hname status h => hlater _ _ (hw.trees j tree hj name hname status h)
  cases hstep with
  | @read force pkgs tree hprog hphase hread =>
      obtain ⟨blanks, ss, hrender, htidy⟩ := hw.file
      rw [hrender, htidy.read] at hread
      obtain rfl := Option.some.inj hread
      refine ⟨⟨blanks, ss, hrender, htidy⟩, trees_next hw.full ?_, hw.bodies, hw.known, hfile,
        trees_next htrees ?_⟩
      · rintro tree ⟨⟩
        exact fun _ _ => htidy.tree_full
      · rintro tree ⟨⟩ name hname status hstatus
        have hmem := hw.known name hname
        rw [← hw.bodies, hrender] at hmem
        rw [htidy.treeOf_statusOf blanks (statusOf_ne_none htidy blanks hmem), ← hrender] at hstatus
        exact hfile name hname status hstatus
  | readStopped hprog hphase hread =>
      exact ⟨hw.file, trees_ended hw.full, hw.bodies, hw.known, hfile, trees_ended htrees⟩
  | @merge force pkgs tree hprog hphase =>
      obtain ⟨blanks, ss, hrender, htidy⟩ := hw.file
      have hfull := configureLoop_full force pkgs (hw.full i tree hphase)
      obtain ⟨hmerge, htidy'⟩ := htidy.merge_statuses hfull blanks
      refine ⟨⟨blanks, _, by rw [hrender]; exact hmerge, htidy'⟩, trees_ended hw.full, ?_,
        hw.known, fun name hname status hstatus => ?_, trees_ended htrees⟩
      · rw [hrender, htidy.bodies_merge hfull, ← hrender]
        exact hw.bodies
      · rw [hrender, htidy.statusOf_merge hfull, ← hrender] at hstatus
        obtain ⟨old, hold, hstatus⟩ := Option.map_eq_some_iff.mp hstatus
        by_cases hmem : name ∈ configured force pkgs tree
        · obtain ⟨set, hset⟩ := Option.ne_none_iff_exists'.mp
            (configureLoop_some force pkgs (configured_some force pkgs hmem))
          rw [hset] at hstatus
          exact hnow name status ((if_pos hmem).trans (hset.trans (congrArg some hstatus)))
        · -- a package that the loop leaves alone has what was read
          rw [configureLoop_other force pkgs hmem] at hstatus
          cases hread : tree name with
          | none =>
              rw [hread] at hstatus
              exact hfile name hname status (hold.trans (congrArg some hstatus))
          | some read =>
              rw [hread] at hstatus
              exact htrees i tree hphase name hname status (hread.trans (congrArg some hstatus))
  | @unpack loadtemplate cwd d args file hprog hphase hafter =>
      rw [Writing, hprog, hphase] at hwriting
      obtain ⟨-, hwrites, hnames⟩ := hwriting
      -- next to the file as it is, the section is one that does no harm
      have hinv : Inv { w with set := statusOf w.file } :=
        ⟨hw.file, hw.full, fun _ _ => rfl, hw.bodies⟩
      obtain ⟨htidy, hstatus, hbodies⟩ := inv_unpack hinv hafter hwrites hnames
      refine ⟨htidy, trees_ended hw.full, hbodies,
        fun name hname => known_addMerged hwrites hnames (hw.known name hname),
        fun name hname status h => ?_, trees_ended htrees⟩
      have hset := hstatus name (by rw [h]; exact Option.some_ne_none status)
      rw [h, setMerged] at hset
      cases hfind : (merged loadtemplate cwd d args w.file).find? (·.package = some name) with
      | none =>
          rw [hfind] at hset
          exact hfile name hname status hset.symm
      | some p =>
          rw [hfind] at hset
          refine hnow name status (Eq.trans ?_ hset.symm)
          show setMerged (merged loadtemplate cwd d args w.file) w.set name = _
          rw [setMerged, hfind]
  | unpackFreed file hprog hphase hafter =>
      rw [Writing, hprog, hphase] at hwriting
      exact absurd hafter hwriting.1

/-- In any order of the sections no stanza is lost, and the status of a package that was there
from the beginning is one that was set at some moment of the run. -/
theorem writingRun_wasSet (blanks : ℕ) {ss : List Stanza} (h : TidyFile ss) {w : World ι}
    (hrun : WritingRun prog (World.init (render blanks ss)) ws w) :
    (stanzas w.file).map body = w.bodies ∧
      ∀ name ∈ ss.map Stanza.name, ∃ status, statusOf w.file name = some status ∧
        WasSet ws name status := by
  have htraced : Traced (World.init (render blanks ss)) ws w := by
    induction hrun with
    | refl =>
        exact ⟨⟨blanks, ss, rfl, h⟩, fun _ _ => Phase.noConfusion, rfl, fun _ hname => hname,
          fun _ _ _ hstatus => ⟨_, List.mem_cons_self, hstatus⟩, fun _ _ => Phase.noConfusion⟩
    | tail _ hwriting hstep ih => exact traced_step ih hwriting hstep
  refine ⟨htraced.bodies, fun name hname => ?_⟩
  have hknown : Known (World.init (ι := ι) (render blanks ss)) name := by
    obtain ⟨s, hs, rfl⟩ := List.mem_map.mp hname
    rw [Known, World.init, h.stanzas_eq, List.map_map, List.map_map]
    exact List.mem_map.mpr ⟨s, hs, packageOf_body (newline_not_mem_name (h.tidy s hs).ok)⟩
  obtain ⟨blanks', ss', hrender, htidy⟩ := htraced.file
  have hmem := htraced.known name hknown
  rw [← htraced.bodies, hrender] at hmem
  obtain ⟨status, hstatus⟩ := Option.ne_none_iff_exists'.mp (statusOf_ne_none htidy blanks' hmem)
  rw [← hrender] at hstatus
  exact ⟨status, hstatus, htraced.status name hknown status hstatus⟩

end Runs

/-- Of two processes the one that merges last has read the file before the other has merged. -/
theorem writingRun_wasSet_netcfg :
    ∃ ws w, WritingRun configurePrograms (World.init (render 0 unpackedStanzas)) ws w ∧
      w.set "netcfg" = some (.full .install .ok .installed) ∧
      statusOf w.file "netcfg" = some (.full .install .ok .unpacked) ∧
      WasSet ws "netcfg" (.full .install .ok .unpacked) := by
  have hread : statusRead (render 0 unpackedStanzas) = some (treeOf unpackedStanzas) :=
    unpackedStanzas_tidy.read 0
  have hrun : WritingRun configurePrograms (World.init (render 0 unpackedStanzas)) _ _ :=
    .tail (.tail (.tail (.tail .refl (i := true) trivial (.read rfl rfl hread))
      (i := false) trivial (.read rfl rfl hread)) (i := true) trivial (.merge rfl rfl))
      (i := false) trivial (.merge rfl rfl)
  obtain ⟨-, hall⟩ := writingRun_wasSet 0 unpackedStanzas_tidy hrun
  obtain ⟨status, hstatus, hset⟩ := hall "netcfg" (by decide)
  have hnow : statusOf (statusMerge (configureLoop false [("anna", ⟨none, none⟩)]
      (treeOf unpackedStanzas)).2 [] (statusMerge (configureLoop false
        [("netcfg", ⟨none, none⟩)] (treeOf unpackedStanzas)).2 []
        (render 0 unpackedStanzas))) "netcfg" = some (.full .install .ok .unpacked) := by
    decide
  obtain rfl := Option.some.inj (hstatus.symm.trans hnow)
  exact ⟨_, _, hrun, by decide, hnow, hset⟩

end DebianInstaller.Udpkg
