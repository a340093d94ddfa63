import DebianInstaller.Udpkg.Accepted
import Mathlib.Data.List.Nodup

/-!
# Tidy status files

In a tidy file each stanza has one status, which is accepted, and no two stanzas have the
same name. The tree that is read of it has the status of each package, and the status of a
package is written back by a merge with a tree whose statuses have three words.
-/

namespace DebianInstaller.Udpkg

open Text Lib

variable {name : Text} {news ss : List Stanza} {ps : List PackageT} {s : Stanza} {tree : Tree}

variable {l v : Text} {ls post pre : List Text}

/-! ## The status of a package -/

/-- The status in the stanza of a package. -/
def statusOf (file name : Text) : Option Status :=
  ((stanzas file).find? fun s => packageOf s = some name).bind fun s =>
    (s.findSome? statusIn).bind statusParse

/-- The lines of a stanza without its status. -/
def body (s : List Text) : List Text := s.filter fun l => !statusLabel.isPrefixOf l

/-- A stanza with one status. -/
structure Tidy (s : Stanza) : Prop where
  ok : s.Ok
  closed : 0 < s.gap
  status : ∃ pre v post, s.fields = pre ++ (statusLabel ++ v) :: post ∧
    (∀ l ∈ pre ++ post, ¬ statusLabel <+: l) ∧ Accepted v

/-- Tidy stanzas with different names. -/
structure TidyFile (ss : List Stanza) : Prop where
  tidy : ∀ s ∈ ss, Tidy s
  names : (ss.map Stanza.name).Nodup

/-- The status that is read of a stanza. -/
def Stanza.status (s : Stanza) : Status := s.note.2.1

theorem foldl_noteLine_no_status (h : ∀ l ∈ ls, ¬ statusLabel <+: l) (e : Note) :
    (ls.foldl noteLine e).2.1 = e.2.1 := by
  induction ls generalizing e with
  | nil => rfl
  | cons l ls ih =>
      obtain ⟨hl, hls⟩ := List.forall_mem_cons.mp h
      rw [List.foldl_cons, ih hls, noteLine_no_status hl]

theorem foldl_noteLine_name (h : ∀ l ∈ ls, ¬ packageLabel <+: l) (e : Note) :
    (ls.foldl noteLine e).1 = e.1 := by
  induction ls generalizing e with
  | nil => rfl
  | cons l ls ih =>
      obtain ⟨hl, hls⟩ := List.forall_mem_cons.mp h
      rw [List.foldl_cons, ih hls, noteLine, if_neg (by rwa [List.isPrefixOf_iff_prefix])]
      split
      · rfl
      · split <;> rfl

theorem Stanza.Ok.note_name (hs : s.Ok) : s.note.1 = some s.name := by
  rw [Stanza.note, Stanza.lines, List.foldl_cons, noteLine_package,
    foldl_noteLine_name fun l hl => (hs.fields l hl).2]

theorem Stanza.status_eq (hfields : s.fields = pre ++ (statusLabel ++ v) :: post)
    (hother : ∀ l ∈ pre ++ post, ¬ statusLabel <+: l) : s.status = (statusParse v).getD {} := by
  rw [Stanza.status, Stanza.note, Stanza.lines, List.foldl_cons, hfields, List.foldl_append,
    List.foldl_cons, foldl_noteLine_no_status fun l hl => hother l (List.mem_append_right _ hl),
    noteLine_status]

theorem Tidy.status_full (hs : Tidy s) : s.status.Full := by
  obtain ⟨pre, v, post, hfields, hother, status, hparse, hfull⟩ := hs.status
  rw [Stanza.status_eq hfields hother, hparse]
  exact hfull

theorem statusIn_no_status (h : ¬ statusLabel <+: l) : statusIn (l ++ ['\n']) = none := by
  refine statusIn_other fun hp => ?_
  rcases List.prefix_concat_iff.mp hp with heq | hp
  · have hmem : '\n' ∈ statusLabel := heq ▸ List.mem_append_right _ (List.mem_singleton.mpr rfl)
    exact newline_not_mem_label .status hmem
  · exact h hp

theorem Tidy.status_texts (hs : Tidy s) :
    (s.texts.findSome? statusIn).bind statusParse = some s.status := by
  obtain ⟨pre, v, post, hfields, hother, status, hparse, hfull⟩ := hs.status
  have hnl : '\n' ∉ statusLabel ++ v :=
    (hs.ok.fields _ (by rw [hfields]; simp)).1.newline
  have hpre : (pre.map (· ++ ['\n'])).findSome? statusIn = none := by
    refine List.findSome?_eq_none_iff.mpr fun l hl => ?_
    obtain ⟨l', hl', rfl⟩ := List.mem_map.mp hl
    exact statusIn_no_status (hother l' (List.mem_append_left _ hl'))
  have hname : statusIn (packageLabel ++ s.name ++ ['\n']) = none := by
    rw [List.append_assoc, statusIn_package]
  rw [Stanza.status_eq hfields hother, Stanza.texts, Stanza.lines, hfields, List.map_cons,
    List.findSome?_cons, hname, List.map_append, List.findSome?_append, hpre, List.map_cons,
    List.findSome?_cons, statusIn_line hnl rfl]
  dsimp only [Option.none_or, Option.bind_some]
  rw [hparse]
  rfl

/-! ## The file -/

theorem TidyFile.stanzas (h : TidyFile ss) (blanks : ℕ) (t : Text) :
    stanzas (render blanks ss ++ t) = ss.map Stanza.texts ++ stanzas t :=
  stanzas_render blanks (fun s hs l hl => ⟨((h.tidy s hs).ok.lines l hl).newline,
    ((h.tidy s hs).ok.lines l hl).nonblank⟩) (fun s hs => (h.tidy s hs).closed) t

theorem TidyFile.stanzas_eq (h : TidyFile ss) (blanks : ℕ) :
    Udpkg.stanzas (render blanks ss) = ss.map Stanza.texts := by
  have := h.stanzas blanks []
  rwa [List.append_nil, show Udpkg.stanzas [] = [] from rfl, List.append_nil] at this

theorem TidyFile.read (h : TidyFile ss) (blanks : ℕ) :
    statusRead (render blanks ss) = some (treeOf ss) :=
  statusRead_render blanks (fun s hs => (h.tidy s hs).ok)
    fun s hs => (h.tidy s (List.dropLast_subset _ hs)).closed

theorem TidyFile.statusOf (h : TidyFile ss) (blanks : ℕ) (name : Text) :
    statusOf (render blanks ss) name = (ss.find? (·.name = name)).map Stanza.status := by
  rw [Udpkg.statusOf, h.stanzas_eq blanks]
  have htidy := h.tidy
  clear h
  induction ss with
  | nil => rfl
  | cons s ss ih =>
      obtain ⟨hs, hss⟩ := List.forall_mem_cons.mp htidy
      have hname : packageOf s.texts = some s.name :=
        Stanza.packageOf_texts (newline_not_mem_name hs.ok)
      by_cases heq : s.name = name
      · rw [List.map_cons, List.find?_cons_of_pos (by simp [hname, heq]),
          List.find?_cons_of_pos (by simp [heq]), Option.bind_some, hs.status_texts]
        rfl
      · rw [List.map_cons, List.find?_cons_of_neg (by simp [hname, heq]),
          List.find?_cons_of_neg (by simp [heq]), ih hss]

/-! ## The tree -/

theorem insertNote_keeps {e : Note} (hname : e.1 ≠ some name) (h : tree name ≠ none) :
    insertNote tree e name = tree name := by
  obtain ⟨name', status, provides⟩ := e
  cases name' with
  | none => rfl
  | some name' =>
      have hne : name ≠ name' := fun heq => hname (by rw [heq])
      cases provides with
      | none => exact Function.update_of_ne hne _ _
      | some provides =>
          rw [insertNote]
          dsimp only
          split
          · next hnone =>
              have hne' : name ≠ provides := by
                rintro rfl
                rw [Function.update_of_ne hne] at hnone
                exact h hnone
              rw [Function.update_of_ne hne', Function.update_of_ne hne]
          · exact Function.update_of_ne hne _ _

theorem insertNote_self (tree : Tree) (name : Text) (status : Status) (provides : Option Text) :
    insertNote tree (some name, status, provides) name = some status := by
  cases provides with
  | none => exact Function.update_self _ _ _
  | some provides =>
      rw [insertNote]
      dsimp only
      split
      · next hnone =>
          have hne : name ≠ provides := by
            rintro rfl
            rw [Function.update_self] at hnone
            cases hnone
          rw [Function.update_of_ne hne, Function.update_self]
      · exact Function.update_self _ _ _

theorem foldl_insertNote_keeps (hss : ∀ s ∈ ss, s.Ok) (hname : name ∉ ss.map Stanza.name)
    (h : tree name ≠ none) :
    ss.foldl (fun tree s => insertNote tree s.note) tree name = tree name := by
  induction ss generalizing tree with
  | nil => rfl
  | cons s ss ih =>
      obtain ⟨hs, hss⟩ := List.forall_mem_cons.mp hss
      rw [List.map_cons, List.mem_cons, not_or] at hname
      have hkeeps : insertNote tree s.note name = tree name := by
        refine insertNote_keeps (fun heq => hname.1 ?_) h
        rw [hs.note_name] at heq
        exact (Option.some.inj heq).symm
      rw [List.foldl_cons, ih hss hname.2 (by rwa [hkeeps]), hkeeps]

theorem TidyFile.treeOf (h : TidyFile ss) (hs : s ∈ ss) : treeOf ss s.name = some s.status := by
  obtain ⟨pre, post, rfl⟩ := List.append_of_mem hs
  have hok : ∀ s' ∈ post, s'.Ok := fun s' hs' => (h.tidy s' (by simp [hs'])).ok
  have hnotin : s.name ∉ post.map Stanza.name := by
    have hnames := h.names
    rw [List.map_append, List.map_cons, List.nodup_append] at hnames
    exact (List.nodup_cons.mp hnames.2.1).1
  have hself : ∀ tree, insertNote tree s.note s.name = some s.status := by
    intro tree
    have hnote : s.note = (some s.name, s.status, s.note.2.2) := by
      rw [← (h.tidy s hs).ok.note_name]
      rfl
    rw [hnote]
    exact insertNote_self tree s.name s.status s.note.2.2
  rw [Udpkg.treeOf, List.foldl_append, List.foldl_cons, foldl_insertNote_keeps hok hnotin, hself]
  rw [hself]
  exact nofun

theorem TidyFile.tree_full (h : TidyFile ss) {status : Status}
    (hstatus : Udpkg.treeOf ss name = some status) : status.Full :=
  treeOf_full (fun s hs => (h.tidy s hs).status_full) name status hstatus

/-! ## A merge -/

theorem Stanza.rewrite_name (tree : Tree) (s : Stanza) : (s.rewrite tree).name = s.name := rfl

theorem statusLine_line (status : Status) (hfull : status.Full) :
    Line (statusLabel ++ printed (statusPrint status)) := by
  obtain ⟨hnl, hlen⟩ := printed_fits status
  refine ⟨fun hmem => ?_, ?_, fun h => (by cases h), fun v hv => ?_, show some 'S' ≠ some '\xff' by decide⟩
  · exact (List.mem_append.mp hmem).elim (newline_not_mem_label .status) hnl
  · have hlabel : statusLabel.length = 8 := rfl
    rw [List.length_append, room]
    omega
  · obtain ⟨want, flag, state, rfl⟩ := hfull
    rw [← List.append_cancel_left hv, statusParse_print]
    exact Option.some_ne_none _

theorem Stanza.rewrite_none (h : tree s.name = none) : s.rewrite tree = s := by
  have hmap : (s.fields.map fun l => if statusLabel.isPrefixOf l ∧ tree s.name ≠ none then
      statusLabel ++ printed ((tree s.name).bind statusPrint) else l) = s.fields := by
    refine (List.map_congr_left fun l _ => ?_).trans (List.map_id _)
    rw [if_neg fun hl => hl.2 h]
    rfl
  rw [Stanza.rewrite, hmap]

theorem Stanza.rewrite_some {status : Status} (h : tree s.name = some status)
    (hfields : s.fields = pre ++ (statusLabel ++ v) :: post)
    (hother : ∀ l ∈ pre ++ post, ¬ statusLabel <+: l) :
    (s.rewrite tree).fields = pre ++ (statusLabel ++ printed (statusPrint status)) :: post := by
  have hsame : ∀ ls : List Text, (∀ l ∈ ls, ¬ statusLabel <+: l) →
      (ls.map fun l => if statusLabel.isPrefixOf l ∧ tree s.name ≠ none then
        statusLabel ++ printed ((tree s.name).bind statusPrint) else l) = ls := by
    intro ls hls
    refine (List.map_congr_left fun l hl => ?_).trans (List.map_id _)
    rw [if_neg fun hp => hls l hl (List.isPrefixOf_iff_prefix.mp hp.1)]
    rfl
  rw [Stanza.rewrite]
  dsimp only
  have hsome : tree s.name ≠ none := by
    rw [h]
    exact Option.some_ne_none status
  rw [hfields, List.map_append, List.map_cons, hsame pre fun l hl => hother l (by simp [hl]),
    hsame post fun l hl => hother l (by simp [hl]), if_pos ⟨isPrefixOf_append _ _, hsome⟩, h]
  rfl

theorem Tidy.rewrite (hs : Tidy s) (htree : ∀ status, tree s.name = some status → status.Full) :
    Tidy (s.rewrite tree) ∧ (s.rewrite tree).status = (tree s.name).getD s.status := by
  cases hname : tree s.name with
  | none =>
      rw [Stanza.rewrite_none hname]
      exact ⟨hs, rfl⟩
  | some status =>
      have hfull := htree status hname
      obtain ⟨pre, v, post, hfields, hother, -⟩ := hs.status
      have hnew := Stanza.rewrite_some hname hfields hother
      have hparse : statusParse (printed (statusPrint status)) = some status := by
        obtain ⟨want, flag, state, rfl⟩ := hfull
        exact statusParse_print want flag state
      refine ⟨⟨⟨hs.ok.name, fun l hl => ?_⟩, hs.closed, pre, _, post, hnew, hother, status, hparse,
        hfull⟩, ?_⟩
      · rw [hnew, List.mem_append, List.mem_cons] at hl
        rcases hl with hl | rfl | hl
        · exact hs.ok.fields l (by rw [hfields]; simp [hl])
        · refine ⟨statusLine_line status hfull, fun hp => ?_⟩
          rw [← List.isPrefixOf_iff_prefix] at hp
          exact Bool.false_ne_true hp
        · exact hs.ok.fields l (by rw [hfields]; simp [hl])
      · rw [Stanza.status_eq hnew hother, hparse]
        rfl

theorem body_texts (s : Stanza) :
    body s.texts = nameLine s.name :: body (s.fields.map (· ++ ['\n'])) := by
  have hname : (!statusLabel.isPrefixOf (nameLine s.name)) = true := rfl
  exact List.filter_cons_of_pos hname

theorem body_rewrite (tree : Tree) (s : Stanza) : body (s.rewrite tree).texts = body s.texts := by
  have hfields : ∀ ls : List Text,
      body ((ls.map fun l => if statusLabel.isPrefixOf l ∧ tree s.name ≠ none then
        statusLabel ++ printed ((tree s.name).bind statusPrint) else l).map (· ++ ['\n'])) =
      body (ls.map (· ++ ['\n'])) := by
    intro ls
    induction ls with
    | nil => rfl
    | cons l ls ih =>
        rw [body, body] at ih ⊢
        simp only [List.map_cons, List.filter_cons, ih]
        by_cases hbegins : statusLabel.isPrefixOf l ∧ tree s.name ≠ none
        · have hold : statusLabel.isPrefixOf (l ++ ['\n']) = true :=
            List.isPrefixOf_iff_prefix.mpr
              ((List.isPrefixOf_iff_prefix.mp hbegins.1).trans (List.prefix_append l _))
          rw [if_pos hbegins, hold, List.append_assoc, isPrefixOf_append]
          rfl
        · rw [if_neg hbegins]
  rw [body_texts, body_texts]
  exact congrArg _ (hfields s.fields)

theorem packageOf_body (h : '\n' ∉ s.name) : packageOf (body s.texts) = some s.name := by
  rw [body_texts, packageOf, List.findSome?_cons, nameLine, nameIn_package h]

theorem TidyFile.merge_statuses (h : TidyFile ss)
    (htree : ∀ name status, tree name = some status → status.Full) (blanks : ℕ) :
    statusMerge tree [] (render blanks ss) = render blanks (ss.map (Stanza.rewrite tree)) ∧
      TidyFile (ss.map (Stanza.rewrite tree)) := by
  have hall : (ss.filter fun s => !listed [] s.name) = ss := List.filter_eq_self.mpr fun _ _ => rfl
  refine ⟨?_, fun s hs => ?_, ?_⟩
  · rw [statusMerge_render _ _ _ fun s hs => (h.tidy s hs).ok, hall, List.flatMap_nil, List.append_nil]
  · obtain ⟨s', hs', rfl⟩ := List.mem_map.mp hs
    exact ((h.tidy s' hs').rewrite (htree s'.name)).1
  · rw [List.map_map]
    exact h.names

theorem find_rewrite (tree : Tree) (ss : List Stanza) (name : Text) :
    ((ss.map (Stanza.rewrite tree)).find? (·.name = name)).map Stanza.status =
      (ss.find? (·.name = name)).map fun s => (s.rewrite tree).status := by
  rw [List.find?_map, Option.map_map]
  rfl

theorem TidyFile.statusOf_merge (h : TidyFile ss)
    (htree : ∀ name status, tree name = some status → status.Full) (blanks : ℕ) (name : Text) :
    Udpkg.statusOf (statusMerge tree [] (render blanks ss)) name =
      (Udpkg.statusOf (render blanks ss) name).map fun old => (tree name).getD old := by
  obtain ⟨hmerge, htidy⟩ := h.merge_statuses htree blanks
  rw [hmerge, htidy.statusOf, find_rewrite, h.statusOf]
  cases hfind : ss.find? (·.name = name) with
  | none => rfl
  | some s =>
      have heq : s.name = name := by simpa using List.find?_some hfind
      have hs := h.tidy s (List.mem_of_find?_eq_some hfind)
      rw [Option.map_some, Option.map_some, Option.map_some, (hs.rewrite (htree s.name)).2, heq]

theorem TidyFile.bodies_merge (h : TidyFile ss)
    (htree : ∀ name status, tree name = some status → status.Full) (blanks : ℕ) :
    (Udpkg.stanzas (statusMerge tree [] (render blanks ss))).map body =
      (Udpkg.stanzas (render blanks ss)).map body := by
  obtain ⟨hmerge, htidy⟩ := h.merge_statuses htree blanks
  rw [hmerge, htidy.stanzas_eq, h.stanzas_eq, List.map_map, List.map_map, List.map_map]
  exact List.map_congr_left fun s _ => body_rewrite _ s

theorem TidyFile.treeOf_statusOf (h : TidyFile ss) (blanks : ℕ)
    (hname : Udpkg.statusOf (render blanks ss) name ≠ none) :
    Udpkg.treeOf ss name = Udpkg.statusOf (render blanks ss) name := by
  rw [h.statusOf] at hname ⊢
  cases hfind : ss.find? (·.name = name) with
  | none =>
      rw [hfind] at hname
      exact absurd rfl hname
  | some s =>
      have heq : s.name = name := by simpa using List.find?_some hfind
      rw [← heq, h.treeOf (List.mem_of_find?_eq_some hfind)]
      rfl

/-- The stanza that is written for a package is tidy. -/
structure Writes (p : PackageT) (s : Stanza) : Prop where
  tidy : Tidy s
  name : p.package = some s.name
  text : writeStanza p = unlines '\n' s.allLines

theorem line_eq {m a b : Text} (hl : '\n' ∉ l) (hm : '\n' ∉ m)
    (h : l ++ '\n' :: a = m ++ '\n' :: b) : l = m ∧ a = b := by
  have hcut := congrArg cutLines h
  rw [cutLines_line hl, cutLines_line hm] at hcut
  have heq : l = m := List.append_cancel_right (List.cons.inj hcut).1
  subst heq
  exact ⟨rfl, (List.cons.inj (List.append_cancel_left h)).2⟩

theorem Writes.status {p : PackageT} (h : Writes p s) : s.status = p.status := by
  obtain ⟨pre, v, post, hfields, hother, haccepted⟩ := h.tidy.status
  obtain ⟨rest, hrest⟩ : ∃ rest, writeStanza p = packageLabel ++ s.name ++ '\n' ::
      (statusLabel ++ printed (statusPrint p.status) ++ '\n' :: rest) := by
    have hbegins : writeField "Package: " (some (printed p.package)) ++
        writeField "Status: " (some (printed (statusPrint p.status))) <+: writeStanza p := by
      rw [writeStanza, writeFields]
      simp only [List.append_assoc, List.prefix_append_right_inj, List.prefix_append]
    obtain ⟨rest, hrest⟩ := hbegins
    refine ⟨rest, ?_⟩
    rw [← hrest, h.name]
    simp only [writeField, List.append_assoc]
    rfl
  have htext := h.text
  rw [hrest, Stanza.allLines, Stanza.lines, List.cons_append, unlines_cons] at htext
  obtain ⟨-, hlines⟩ := line_eq h.tidy.ok.name.newline h.tidy.ok.name.newline htext
  have hprinted : '\n' ∉ statusLabel ++ printed (statusPrint p.status) := fun hmem =>
    (List.mem_append.mp hmem).elim (newline_not_mem_label .status) (printed_fits _).1
  cases pre with
  | nil =>
      rw [hfields, List.nil_append, List.cons_append, unlines_cons] at hlines
      have hline := (h.tidy.ok.fields (statusLabel ++ v) (by rw [hfields]; simp)).1
      have hv := List.append_cancel_left (line_eq hprinted hline.newline hlines).1
      subst hv
      obtain ⟨want, flag, state, hfull⟩ := (accepted_printed p.status).mp haccepted
      rw [Stanza.status_eq hfields hother, hfull, statusParse_print]
      rfl
  | cons l pre =>
      rw [hfields, List.cons_append, List.cons_append, unlines_cons] at hlines
      have hline := (h.tidy.ok.fields l (by rw [hfields]; simp)).1
      refine absurd ?_ (hother l (by simp))
      rw [← (line_eq hprinted hline.newline hlines).1]
      exact List.prefix_append _ _

theorem exists_writes (h : ∀ p ∈ ps, ∃ s, Writes p s) : ∃ news, List.Forall₂ Writes ps news := by
  induction ps with
  | nil => exact ⟨[], .nil⟩
  | cons p ps ih =>
      obtain ⟨⟨s, hs⟩, hps⟩ := List.forall_mem_cons.mp h
      obtain ⟨news, hnews⟩ := ih hps
      exact ⟨s :: news, .cons hs hnews⟩

theorem mem_writes (h : List.Forall₂ Writes ps news) (hs : s ∈ news) : ∃ p ∈ ps, Writes p s := by
  induction h with
  | nil => exact absurd hs List.not_mem_nil
  | cons hp _ ih =>
      rcases List.mem_cons.mp hs with rfl | hs
      · exact ⟨_, List.mem_cons_self, hp⟩
      · obtain ⟨p, hmem, hp'⟩ := ih hs
        exact ⟨p, List.mem_cons_of_mem _ hmem, hp'⟩

theorem writes_text (h : List.Forall₂ Writes ps news) : ps.flatMap writeStanza = render 0 news := by
  induction h with
  | nil => rfl
  | cons hp _ ih =>
      rw [List.flatMap_cons, hp.text, ih, render, render, List.flatMap_cons]
      exact (unlines_append '\n' _ _).symm

theorem writes_names (h : List.Forall₂ Writes ps news) :
    ps.map PackageT.package = (news.map Stanza.name).map some := by
  induction h with
  | nil => rfl
  | cons hp _ ih => rw [List.map_cons, ih, hp.name]; rfl

theorem listed_iff (h : List.Forall₂ Writes ps news) (name : Text) :
    listed ps name = true ↔ name ∈ news.map Stanza.name := by
  have hmem : some name ∈ ps.map PackageT.package ↔ name ∈ news.map Stanza.name := by
    rw [writes_names h]
    exact List.mem_map_of_injective fun _ _ heq => Option.some.inj heq
  rw [← hmem, listed, List.any_eq_true, List.mem_map]
  simp

theorem TidyFile.merge_packages (h : TidyFile ss) (hnews : List.Forall₂ Writes ps news)
    (hnames : (ps.map PackageT.package).Nodup) (blanks : ℕ) :
    statusMerge (Udpkg.treeOf ss) ps (render blanks ss) = render blanks
        ((ss.filter fun s => !listed ps s.name).map (Stanza.rewrite (Udpkg.treeOf ss)) ++ news) ∧
      TidyFile ((ss.filter fun s => !listed ps s.name).map (Stanza.rewrite (Udpkg.treeOf ss)) ++
        news) := by
  have hnames' : (news.map Stanza.name).Nodup := by
    rw [writes_names hnews] at hnames
    exact List.Nodup.of_map _ hnames
  refine ⟨?_, fun s hs => ?_, ?_⟩
  · rw [statusMerge_render _ _ _ fun s hs => (h.tidy s hs).ok, writes_text hnews, render, render,
      render, ← unlines_append, List.flatMap_append]
    simp
  · rcases List.mem_append.mp hs with hs | hs
    · obtain ⟨s', hs', rfl⟩ := List.mem_map.mp hs
      exact ((h.tidy s' (List.mem_filter.mp hs').1).rewrite fun _ => h.tree_full).1
    · obtain ⟨p, -, hp⟩ := mem_writes hnews hs
      exact hp.tidy
  · rw [List.map_append, List.map_map, List.nodup_append]
    refine ⟨?_, hnames', ?_⟩
    · exact List.Nodup.sublist (List.Sublist.map _ List.filter_sublist) h.names
    · rintro name hkept _ hnew rfl
      obtain ⟨s, hs, rfl⟩ := List.mem_map.mp hkept
      have hlisted := (listed_iff hnews s.name).mpr hnew
      have hunlisted := (List.mem_filter.mp hs).2
      rw [hlisted] at hunlisted
      cases hunlisted

end DebianInstaller.Udpkg
