import DebianInstaller.Udpkg.Others

/-!
# Stanzas that are accepted

A stanza is accepted if it has a name and a status, no name in it is empty, and
`status_parse` reads three words in each of its statuses. The stanzas that
`status_merge` writes are accepted exactly if the names and statuses of the packages are,
and no lines stand alone behind a list of configuration files. Such lines are joined to
the next stanza if no blank line follows them.
-/

namespace DebianInstaller.Udpkg

open Text Lib

variable {cur ls : List Text} {l name v : Text} {pkgs : List PackageT} {s : Stanza}

/-! ## Accepted lines -/

/-- The status in a line. -/
def statusIn (line : Text) : Option Text :=
  if statusLabel.isPrefixOf line then some ((line.drop statusLabel.length).takeWhile (· != '\n'))
  else none

/-- One word of each group. -/
def Status.Full (s : Status) : Prop := ∃ want flag state, s = .full want flag state

/-- `status_parse` finds three words. -/
def Accepted (v : Text) : Prop := ∃ s : Status, statusParse v = some s ∧ s.Full

/-- The name or the status in a line, if there is one, is accepted. -/
structure LineOk (l : Text) : Prop where
  name : ∀ name, nameIn l = some name → name ≠ []
  status : ∀ v, statusIn l = some v → Accepted v

/-- A stanza with a name and a status. -/
structure Good (s : List Text) : Prop where
  lines : ∀ l ∈ s, LineOk l
  package : ∃ l ∈ s, nameIn l ≠ none
  status : ∃ l ∈ s, statusIn l ≠ none

theorem statusIn_status (h : '\n' ∉ v) : statusIn (statusLabel ++ v ++ ['\n']) = some v := by
  rw [statusIn, List.append_assoc, if_pos (isPrefixOf_append _ _), List.drop_left, takeWhile_line h]

theorem statusIn_other (h : ¬ statusLabel <+: l) : statusIn l = none := by
  rw [statusIn, if_neg (by rwa [List.isPrefixOf_iff_prefix])]

theorem nameIn_status (v : Text) : nameIn (statusLabel ++ v) = none := by
  rw [nameIn, if_neg (show ¬ packageLabel.isPrefixOf (statusLabel ++ v) = true from
    Bool.false_ne_true)]

theorem statusIn_package (v : Text) : statusIn (packageLabel ++ v) = none := by
  rw [statusIn, if_neg (show ¬ statusLabel.isPrefixOf (packageLabel ++ v) = true from
    Bool.false_ne_true)]

theorem Plain.lineOk (h : Plain l) : LineOk l := by
  refine ⟨fun name hname => ?_, fun v hv => ?_⟩
  · rw [nameIn_other h.package] at hname
    cases hname
  · rw [statusIn_other h.status] at hv
    cases hv

theorem lineOk_package (h : '\n' ∉ name) : LineOk (packageLabel ++ name ++ ['\n']) ↔ name ≠ [] := by
  refine ⟨fun hl => hl.name name (nameIn_package h), fun hne => ⟨fun n hn => ?_, fun v hv => ?_⟩⟩
  · rw [nameIn_package h] at hn
    cases hn
    exact hne
  · rw [List.append_assoc, statusIn_package] at hv
    cases hv

theorem accepted_printed (s : Status) : Accepted (printed (statusPrint s)) ↔ s.Full := by
  refine ⟨?_, ?_⟩
  · rintro ⟨s', hparse, want, flag, state, rfl⟩
    rcases s with ⟨_ | want, _ | flag, _ | state⟩
    case some.some.some => exact ⟨want, flag, state, rfl⟩
    all_goals
      exfalso
      rw [show printed (statusPrint _) = null from rfl, statusParse_null] at hparse
      cases hparse
  · rintro ⟨want, flag, state, rfl⟩
    exact ⟨_, statusParse_print want flag state, want, flag, state, rfl⟩

theorem lineOk_status (h : '\n' ∉ v) : LineOk (statusLabel ++ v ++ ['\n']) ↔ Accepted v := by
  refine ⟨fun hl => hl.status v (statusIn_status h), fun hv => ⟨fun n hn => ?_, fun v' hv' => ?_⟩⟩
  · rw [List.append_assoc, nameIn_status] at hn
    cases hn
  · rw [statusIn_status h] at hv'
    cases hv'
    exact hv

/-! ## The stanzas of the processed packages -/

theorem exists_mem_stanzasFrom (hl : l ∈ cur) (ls : List Text) :
    ∃ s ∈ stanzasFrom cur ls, l ∈ s := by
  induction ls generalizing cur with
  | nil =>
      rw [stanzasFrom, if_neg (List.ne_nil_of_mem hl)]
      exact ⟨cur, List.mem_singleton.mpr rfl, hl⟩
  | cons l' ls ih =>
      rw [stanzasFrom, if_neg (List.ne_nil_of_mem hl)]
      split
      · exact ⟨cur, List.mem_cons_self, hl⟩
      · exact ih (List.mem_append_left _ hl)

theorem stanzasFrom_closing (cur : List Text) (n : ℕ) (rest : List Text) :
    stanzasFrom cur (List.replicate n ['\n'] ++ rest) =
      if n = 0 then stanzasFrom cur rest
      else (if cur = [] then [] else [cur]) ++ stanzasFrom [] rest := by
  cases n with
  | zero => rfl
  | succ n =>
      rw [if_neg n.succ_ne_zero, List.replicate_succ, List.cons_append, stanzasFrom, if_pos rfl,
        stanzasFrom_blanks]
      split <;> rfl

/-- The line of the name and the line of the status that are written. -/
def nameLine (name : Text) : Text := packageLabel ++ name ++ ['\n']

def statusLine (s : Status) : Text := statusLabel ++ printed (statusPrint s) ++ ['\n']

theorem nameLine_nonblank (name : Text) : nameLine name ≠ ['\n'] := nofun

theorem statusLine_nonblank (s : Status) : statusLine s ≠ ['\n'] := nofun

/-- A list of configuration files that is complete ends the stanza; the lines behind it
are the beginning of another one. -/
theorem stanzasFrom_writeStanza {p : PackageT} (hp : Filled p) (hname : p.package = some name)
    (hnl : '\n' ∉ name) (cur : List Text) :
    ∃ ls ls' : List Text, (∀ l ∈ ls, Plain l) ∧ (∀ l ∈ ls', Plain l) ∧ (ls' ≠ [] ↔ Described p) ∧
      ∃ n, (n = 0 ↔ Unclosed p) ∧ ∀ t,
        (Gap p → stanzasFrom cur (cutLines (writeStanza p ++ t)) =
          (cur ++ nameLine name :: statusLine p.status :: ls) ::
            stanzasFrom ls' (List.replicate n ['\n'] ++ cutLines t)) ∧
        (¬ Gap p → stanzasFrom cur (cutLines (writeStanza p ++ t)) =
          stanzasFrom (cur ++ nameLine name :: statusLine p.status :: (ls ++ ls'))
            (List.replicate n ['\n'] ++ cutLines t)) := by
  obtain ⟨ls, ls', hls, hls', hdesc, gap, n, hgap, hn, hcut⟩ := cutLines_writeStanza hp hname hnl
  refine ⟨ls, ls', hls, hls', hdesc, n, hn, fun t => ?_⟩
  have hblank : ∀ l ∈ nameLine name :: statusLine p.status :: ls, l ≠ ['\n'] := by
    refine List.forall_mem_cons.mpr ⟨nameLine_nonblank name, ?_⟩
    exact List.forall_mem_cons.mpr ⟨statusLine_nonblank p.status, fun l hl => (hls l hl).nonblank⟩
  have hblank' : ∀ l ∈ ls', l ≠ ['\n'] := fun l hl => (hls' l hl).nonblank
  have hlines : cutLines (writeStanza p ++ t) = (nameLine name :: statusLine p.status :: ls) ++
      (List.replicate gap ['\n'] ++ (ls' ++ (List.replicate n ['\n'] ++ cutLines t))) := by
    rw [hcut]
    simp only [List.append_assoc, List.cons_append]
    rfl
  rw [hlines, stanzasFrom_lines hblank, stanzasFrom_closing]
  refine ⟨fun h => ?_, fun h => ?_⟩
  · rw [if_neg (Nat.pos_iff_ne_zero.mp (hgap.mpr h)), if_neg (by simp), List.singleton_append,
      stanzasFrom_lines hblank', List.nil_append]
  · have hzero : gap = 0 := Nat.eq_zero_of_not_pos fun hpos => h (hgap.mp hpos)
    rw [if_pos hzero, stanzasFrom_lines hblank', List.append_assoc]
    rfl

/-- The names and statuses are accepted, and no lines behind a list of configuration files
are left alone. -/
def WrittenOk : List PackageT → Prop
  | [] => True
  | p :: ps =>
      p.package ≠ some [] ∧ p.status.Full ∧ (Gap p → Described p → Unclosed p ∧ ps ≠ []) ∧
        WrittenOk ps

theorem lineOk_nameLine (h : '\n' ∉ name) : LineOk (nameLine name) ↔ name ≠ [] :=
  lineOk_package h

theorem lineOk_statusLine (s : Status) : LineOk (statusLine s) ↔ s.Full :=
  (lineOk_status (printed_fits s).1).trans (accepted_printed s)

theorem good_of_lines {status : Status} (hcur : ∀ l ∈ cur, LineOk l) (hls : ∀ l ∈ ls, Plain l)
    (hnl : '\n' ∉ name) (hname : name ≠ []) (hstatus : status.Full) :
    Good (cur ++ nameLine name :: statusLine status :: ls) := by
  refine ⟨fun l hl => ?_, ⟨nameLine name, by simp, ?_⟩, ⟨statusLine status, by simp, ?_⟩⟩
  · simp only [List.mem_append, List.mem_cons] at hl
    rcases hl with hl | rfl | rfl | hl
    · exact hcur l hl
    · exact (lineOk_nameLine hnl).mpr hname
    · exact (lineOk_statusLine status).mpr hstatus
    · exact (hls l hl).lineOk
  · rw [nameLine, nameIn_package hnl]
    exact Option.some_ne_none _
  · rw [statusLine, statusIn_status (printed_fits status).1]
    exact Option.some_ne_none _

theorem Plain.not_good (h : ∀ l ∈ ls, Plain l) : ¬ Good ls := by
  intro hgood
  obtain ⟨l, hl, hname⟩ := hgood.package
  exact hname (nameIn_other (h l hl).package)

theorem good_of_writtenOk (hpkgs : ∀ p ∈ pkgs, Processed p) (h : WrittenOk pkgs)
    (hcur : ∀ l ∈ cur, LineOk l) (hlast : pkgs = [] → cur = [] ∨ Good cur) :
    ∀ s ∈ stanzasFrom cur (cutLines (pkgs.flatMap writeStanza)), Good s := by
  induction pkgs generalizing cur with
  | nil =>
      intro s hs
      rw [List.flatMap_nil, cutLines, stanzasFrom] at hs
      split at hs
      · exact absurd hs List.not_mem_nil
      · next hne =>
          rw [List.mem_singleton.mp hs]
          exact (hlast rfl).resolve_left hne
  | cons p pkgs ih =>
      obtain ⟨⟨hfilled, name, hname, hnl⟩, hpkgs⟩ := List.forall_mem_cons.mp hpkgs
      obtain ⟨hne, hfull, halone, hlater⟩ := h
      have hne : name ≠ [] := fun hnil => hne (by rw [hname, hnil])
      obtain ⟨ls, ls', hls, hls', hdesc, n, hn, hstanzas⟩ :=
        stanzasFrom_writeStanza hfilled hname hnl cur
      have hnone : ∀ s ∈ stanzasFrom [] (cutLines (pkgs.flatMap writeStanza)), Good s :=
        ih hpkgs hlater (by simp) fun _ => .inl rfl
      intro s hs
      rw [List.flatMap_cons] at hs
      by_cases hgap : Gap p
      · rw [(hstanzas _).1 hgap, stanzasFrom_closing] at hs
        rcases List.mem_cons.mp hs with rfl | hs
        · exact good_of_lines hcur hls hnl hne hfull
        · by_cases hnil : ls' = []
          · subst hnil
            rw [if_pos rfl, List.nil_append, ite_self] at hs
            exact hnone s hs
          · -- the lines behind the list are joined to the next stanza
            obtain ⟨hunclosed, hmore⟩ := halone hgap (hdesc.mp hnil)
            rw [if_pos (hn.mpr hunclosed)] at hs
            exact ih hpkgs hlater (fun l hl => (hls' l hl).lineOk) (fun h => absurd h hmore) s hs
      · have hgood : Good (cur ++ nameLine name :: statusLine p.status :: (ls ++ ls')) :=
          good_of_lines hcur (fun l hl => (List.mem_append.mp hl).elim (hls l) (hls' l)) hnl hne hfull
        rw [(hstanzas _).2 hgap, stanzasFrom_closing] at hs
        split at hs
        · exact ih hpkgs hlater hgood.lines (fun _ => .inr hgood) s hs
        · rw [if_neg (by simp), List.singleton_append] at hs
          rcases List.mem_cons.mp hs with rfl | hs
          · exact hgood
          · exact hnone s hs

theorem writtenOk_of_good (hpkgs : ∀ p ∈ pkgs, Processed p)
    (h : ∀ s ∈ stanzasFrom cur (cutLines (pkgs.flatMap writeStanza)), Good s) : WrittenOk pkgs := by
  induction pkgs generalizing cur with
  | nil => trivial
  | cons p pkgs ih =>
      obtain ⟨⟨hfilled, name, hname, hnl⟩, hpkgs⟩ := List.forall_mem_cons.mp hpkgs
      obtain ⟨ls, ls', hls, hls', hdesc, n, hn, hstanzas⟩ :=
        stanzasFrom_writeStanza hfilled hname hnl cur
      rw [List.flatMap_cons] at h
      -- the lines of the name and the status are in a stanza
      have hlines : LineOk (nameLine name) ∧ LineOk (statusLine p.status) := by
        have hmem : ∀ l ∈ [nameLine name, statusLine p.status], LineOk l := by
          intro l hl
          have hin : ∀ ls, l ∈ cur ++ nameLine name :: statusLine p.status :: ls :=
            fun ls => List.mem_append_right _ (List.mem_append_left ls hl)
          by_cases hgap : Gap p
          · rw [(hstanzas _).1 hgap] at h
            exact (h _ List.mem_cons_self).lines l (hin ls)
          · rw [(hstanzas _).2 hgap] at h
            obtain ⟨s, hs, hls⟩ := exists_mem_stanzasFrom (hin (ls ++ ls')) (List.replicate n ['\n'] ++
              cutLines (pkgs.flatMap writeStanza))
            exact (h s hs).lines l hls
        exact ⟨hmem _ List.mem_cons_self, hmem _ (List.mem_cons_of_mem _ List.mem_cons_self)⟩
      -- so are the stanzas of the later packages
      have hlater : ∃ cur', ∀ s ∈ stanzasFrom cur' (cutLines (pkgs.flatMap writeStanza)), Good s := by
        have hclosing : ∀ cur', (∀ s ∈ stanzasFrom cur' (List.replicate n ['\n'] ++
            cutLines (pkgs.flatMap writeStanza)), Good s) →
            ∃ cur', ∀ s ∈ stanzasFrom cur' (cutLines (pkgs.flatMap writeStanza)), Good s := by
          intro cur' hcur'
          rw [stanzasFrom_closing] at hcur'
          split at hcur'
          · exact ⟨cur', hcur'⟩
          · exact ⟨[], fun s hs => hcur' s (List.mem_append_right _ hs)⟩
        by_cases hgap : Gap p
        · rw [(hstanzas _).1 hgap] at h
          exact hclosing _ fun s hs => h s (List.mem_cons_of_mem _ hs)
        · rw [(hstanzas _).2 hgap] at h
          exact hclosing _ h
      refine ⟨fun hnil => ?_, (lineOk_statusLine _).mp hlines.2, fun hgap hdescribed => ?_,
        ih hpkgs hlater.choose_spec⟩
      · rw [hname, Option.some.injEq] at hnil
        exact (lineOk_nameLine hnl).mp hlines.1 hnil
      · have hne : ls' ≠ [] := hdesc.mpr hdescribed
        rw [(hstanzas _).1 hgap, stanzasFrom_closing] at h
        by_cases hzero : n = 0
        · refine ⟨hn.mp hzero, ?_⟩
          rintro rfl
          rw [if_pos hzero, List.flatMap_nil, cutLines, stanzasFrom, if_neg hne] at h
          exact Plain.not_good hls' (h ls' (by simp))
        · rw [if_neg hzero, if_neg hne] at h
          exact absurd (h ls' (by simp)) (Plain.not_good hls')

theorem written_good_iff (hpkgs : ∀ p ∈ pkgs, Processed p) :
    (∀ s ∈ stanzas (pkgs.flatMap writeStanza), Good s) ↔ WrittenOk pkgs :=
  ⟨writtenOk_of_good hpkgs, fun h => good_of_writtenOk hpkgs h (by simp) fun _ => .inl rfl⟩

/-! ## The stanzas that are kept -/

/-- A file whose stanzas are accepted, with a blank line behind each. -/
def GoodFile (ss : List Stanza) : Prop := ∀ s ∈ ss, s.Ok ∧ 0 < s.gap ∧ Good s.texts

theorem statusIn_line (hnl : '\n' ∉ l) (h : l = statusLabel ++ v) :
    statusIn (l ++ ['\n']) = some v := by
  subst h
  exact statusIn_status fun hmem => hnl (List.mem_append_right _ hmem)

theorem noteLine_no_status (h : ¬ statusLabel <+: l) (e : Note) : (noteLine e l).2.1 = e.2.1 := by
  rw [noteLine]
  split
  · rfl
  · rw [if_neg (by rwa [List.isPrefixOf_iff_prefix])]
    split <;> rfl

theorem foldl_noteLine_full (hls : ∀ l ∈ ls, '\n' ∉ l ∧ LineOk (l ++ ['\n'])) {e : Note}
    (h : e.2.1.Full ∨ ∃ l ∈ ls, statusLabel <+: l) : (ls.foldl noteLine e).2.1.Full := by
  induction ls generalizing e with
  | nil => exact h.resolve_right (by simp)
  | cons l ls ih =>
      obtain ⟨⟨hnl, hok⟩, hls⟩ := List.forall_mem_cons.mp hls
      refine ih hls ?_
      by_cases hstatus : statusLabel <+: l
      · obtain ⟨v, rfl⟩ := hstatus
        obtain ⟨s, hs, hfull⟩ := hok.status v (statusIn_line hnl rfl)
        rw [noteLine_status, hs]
        exact .inl hfull
      · rw [noteLine_no_status hstatus]
        refine h.imp_right ?_
        rintro ⟨l', hl', hbegins⟩
        rcases List.mem_cons.mp hl' with rfl | hmem
        · exact absurd hbegins hstatus
        · exact ⟨l', hmem, hbegins⟩

theorem Stanza.lineOk (h : Good s.texts) : ∀ l ∈ s.lines, LineOk (l ++ ['\n']) :=
  fun _ hl => h.lines _ (List.mem_map_of_mem hl)

theorem note_full (hs : s.Ok) (hgood : Good s.texts) : s.note.2.1.Full := by
  refine foldl_noteLine_full (fun l hl => ⟨(hs.lines l hl).newline, Stanza.lineOk hgood l hl⟩) (.inr ?_)
  obtain ⟨l, hl, hstatus⟩ := hgood.status
  obtain ⟨l', hl', rfl⟩ := List.mem_map.mp hl
  refine ⟨l', hl', by_contra fun hbegins => hstatus (statusIn_other fun hp => ?_)⟩
  -- the label has no newline
  rcases List.prefix_concat_iff.mp hp with heq | hp
  · have hmem : '\n' ∈ statusLabel := heq ▸ List.mem_append_right _ (List.mem_singleton.mpr rfl)
    exact newline_not_mem_label .status hmem
  · exact hbegins hp

theorem insertNote_full {tree : Tree} (htree : ∀ n st, tree n = some st → st.Full) {e : Note}
    (he : e.2.1.Full) (n : Text) (st : Status) (h : insertNote tree e n = some st) : st.Full := by
  obtain ⟨name, status, provides⟩ := e
  have hupdate : ∀ {tree : Tree} (name : Text), (∀ n st, tree n = some st → st.Full) →
      ∀ n st, Function.update tree name (some status) n = some st → st.Full := by
    intro tree name htree n st hst
    by_cases hn : n = name
    · subst hn
      rw [Function.update_self] at hst
      cases hst
      exact he
    · rw [Function.update_of_ne hn] at hst
      exact htree n st hst
  cases name with
  | none => exact htree n st h
  | some name =>
      have hname := hupdate name htree
      cases provides with
      | none => exact hname n st h
      | some provides =>
          rw [insertNote] at h
          dsimp only at h
          split at h
          · exact hupdate provides hname n st h
          · exact hname n st h

theorem treeOf_full {ss : List Stanza} (hss : ∀ s ∈ ss, s.note.2.1.Full) (n : Text) (st : Status)
    (h : treeOf ss n = some st) : st.Full := by
  have hfold : ∀ tree : Tree, (∀ n st, tree n = some st → st.Full) →
      ∀ n st, ss.foldl (fun tree s => insertNote tree s.note) tree n = some st → st.Full := by
    clear h
    induction ss with
    | nil => exact fun _ htree => htree
    | cons s ss ih =>
        obtain ⟨hs, hss⟩ := List.forall_mem_cons.mp hss
        intro tree htree
        exact ih hss _ (insertNote_full htree hs)
  exact hfold _ (fun _ _ hnone => by cases hnone) n st h

theorem rewrite_good {tree : Tree} (htree : ∀ n st, tree n = some st → st.Full) (hs : s.Ok)
    (hgood : Good s.texts) : Good (s.rewrite tree).texts := by
  have hnew : ∀ {st}, tree s.name = some st →
      statusLabel ++ printed ((tree s.name).bind statusPrint) ++ ['\n'] = statusLine st := by
    intro st hst
    rw [hst]
    rfl
  refine ⟨fun l hl => ?_, ⟨nameLine s.name, List.mem_cons_self, ?_⟩, ?_⟩
  · obtain ⟨l₁, hl₁, rfl⟩ := List.mem_map.mp hl
    rcases List.mem_cons.mp hl₁ with rfl | hl₁
    · exact Stanza.lineOk hgood _ List.mem_cons_self
    · obtain ⟨l', hl', rfl⟩ := List.mem_map.mp hl₁
      split
      · next h =>
          obtain ⟨st, hst⟩ := Option.ne_none_iff_exists'.mp h.2
          rw [hnew hst]
          exact (lineOk_statusLine st).mpr (htree _ _ hst)
      · exact Stanza.lineOk hgood _ (List.mem_cons_of_mem _ hl')
  · rw [nameLine, nameIn_package (newline_not_mem_name hs)]
    exact nofun
  · obtain ⟨l, hl, hstatus⟩ := hgood.status
    obtain ⟨l₁, hl₁, rfl⟩ := List.mem_map.mp hl
    rcases List.mem_cons.mp hl₁ with rfl | hl₁
    · rw [List.append_assoc, statusIn_package] at hstatus
      exact absurd rfl hstatus
    · refine ⟨_, List.mem_map_of_mem (List.mem_cons_of_mem _ (List.mem_map_of_mem hl₁)), ?_⟩
      split
      · next h =>
          obtain ⟨st, hst⟩ := Option.ne_none_iff_exists'.mp h.2
          rw [hnew hst, statusLine, statusIn_status (printed_fits st).1]
          exact nofun
      · exact hstatus

theorem statusMerge_good_iff (hpkgs : ∀ p ∈ pkgs, Processed p) (blanks : ℕ) {ss : List Stanza}
    (hss : GoodFile ss) :
    (∀ s ∈ stanzas (statusMerge (treeOf ss) pkgs (render blanks ss)), Good s) ↔ WrittenOk pkgs := by
  have hkept : ∀ s ∈ (ss.filter fun s => !listed pkgs s.name).map (Stanza.rewrite (treeOf ss)),
      ∃ s' ∈ ss, s = s'.rewrite (treeOf ss) := by
    intro s hs
    obtain ⟨s', hs', rfl⟩ := List.mem_map.mp hs
    exact ⟨s', (List.mem_filter.mp hs').1, rfl⟩
  have hstanzas : stanzas (statusMerge (treeOf ss) pkgs (render blanks ss)) =
      ((ss.filter fun s => !listed pkgs s.name).map (Stanza.rewrite (treeOf ss))).map Stanza.texts ++
        stanzas (pkgs.flatMap writeStanza) := by
    rw [statusMerge_render _ _ _ fun s hs => (hss s hs).1]
    refine stanzas_render blanks (fun s hs => ?_) (fun s hs => ?_) _
    · obtain ⟨s', hs', rfl⟩ := hkept s hs
      exact Stanza.rewrite_lines _ (hss s' hs').1
    · obtain ⟨s', hs', rfl⟩ := hkept s hs
      exact (hss s' hs').2.1
  have htree := treeOf_full fun s hs => note_full (hss s hs).1 (hss s hs).2.2
  rw [hstanzas, ← written_good_iff hpkgs]
  refine ⟨fun h s hs => h s (List.mem_append_right _ hs), fun h s hs => ?_⟩
  rcases List.mem_append.mp hs with hs | hs
  · obtain ⟨s₁, hs₁, rfl⟩ := List.mem_map.mp hs
    obtain ⟨s', hs', rfl⟩ := hkept s₁ hs₁
    exact rewrite_good htree (hss s' hs').1 (hss s' hs').2.2
  · exact h s hs

end DebianInstaller.Udpkg
