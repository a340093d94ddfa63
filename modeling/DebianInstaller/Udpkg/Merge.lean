import DebianInstaller.Udpkg.RoundTrip

/-!
# Reading and merging the status file

`status_read` reads the stanzas of the status file into a search tree that holds a status
for each package name, and for each name that a package provides and no package has.
`status_merge` copies the file line by line. From the line with the name of a processed
package on, lines are left out until the next such line; in what is copied, the status of
a package in the tree is written anew. The stanzas of the processed packages follow at the
end.

A tree is a function from names to statuses. The file is there and can be written, and
the new file takes its place.
-/

namespace DebianInstaller.Udpkg

open Text Lib

variable {l t : Text} {ls : List Text} {n : ℕ}

/-! ## The code -/

/-- The tree of `status_read`. -/
abbrev Tree := Text → Option Status

/-- What `status_read` does with a stanza. -/
def insertStanza (m : PackageT) (tree : Tree) : Tree :=
  match m.package with
  | none => tree
  | some name =>
      let tree := Function.update tree name (some m.status)
      match m.provides with
      | none => tree
      | some provides =>
          if tree provides = none then Function.update tree provides (some m.status) else tree

/-- `status_read`, at most so many stanzas. -/
def statusReadLoop : ℕ → Text → Tree → Option Tree
  | 0, _, tree => some tree
  | n + 1, t, tree =>
      match controlRead t {} with
      | none => none
      | some (m, none) => some (insertStanza m tree)
      | some (m, some rest) => statusReadLoop n rest (insertStanza m tree)

/-- `status_read`. -/
def statusRead (file : Text) : Option Tree := statusReadLoop (file.length + 1) file fun _ => none

/-- `pkg` and `statpkg` in `status_merge`: whether a processed package was found, and the
status in the tree. -/
structure MergeState where
  found : Bool := false
  stat : Option Status := none

/-- A processed package has this name. -/
def listed (pkgs : List PackageT) (name : Text) : Bool := pkgs.any (·.package = some name)

def packageLabel : Text := "Package: "

def statusLabel : Text := "Status: "

/-- The package that a line is about. -/
def mergeState (tree : Tree) (pkgs : List PackageT) (buf : Text) (st : MergeState) : MergeState :=
  if packageLabel.isPrefixOf buf then
    { found := listed pkgs (buf.drop packageLabel.length)
      stat := tree (buf.drop packageLabel.length) }
  else st

/-- What is written for a line. -/
def mergeLine (buf : Text) (st : MergeState) : Text :=
  if st.found then []
  else if statusLabel.isPrefixOf buf ∧ st.stat ≠ none then
    statusLabel ++ printed (st.stat.bind statusPrint) ++ ['\n']
  else buf ++ ['\n']

/-- The copy loop, at most so many lines. -/
def copyLoop (tree : Tree) (pkgs : List PackageT) : ℕ → Text → MergeState → Text
  | 0, _, _ => []
  | n + 1, t, st =>
      if t = [] then []
      else if (piece '\n' room t).2.1 then []
      else
        let buf := (piece '\n' room t).1.dropLast
        let st := mergeState tree pkgs buf st
        mergeLine buf st ++ copyLoop tree pkgs n (piece '\n' room t).2.2 st

/-- `status_merge`: the new status file. -/
def statusMerge (tree : Tree) (pkgs : List PackageT) (file : Text) : Text :=
  copyLoop tree pkgs (file.length + 1) file {} ++ pkgs.flatMap writeStanza

/-! ## Stanzas of a file -/

/-- The lines of a text, each with its newline. -/
def cutLines : Text → List Text
  | [] => []
  | c :: t =>
      if c = '\n' then ['\n'] :: cutLines t
      else
        match cutLines t with
        | [] => [[c]]
        | l :: ls => (c :: l) :: ls

/-- The lines between blank lines, behind those of a stanza that has begun. -/
def stanzasFrom : List Text → List Text → List (List Text)
  | cur, [] => if cur = [] then [] else [cur]
  | cur, l :: ls =>
      if l = ['\n'] then
        if cur = [] then stanzasFrom [] ls else cur :: stanzasFrom [] ls
      else stanzasFrom (cur ++ [l]) ls

/-- The stanzas of a status file. -/
def stanzas (file : Text) : List (List Text) := stanzasFrom [] (cutLines file)

/-- The name in a line. -/
def nameIn (line : Text) : Option Text :=
  if packageLabel.isPrefixOf line then some ((line.drop packageLabel.length).takeWhile (· != '\n'))
  else none

/-- The package of a stanza. -/
def packageOf (s : List Text) : Option Text := s.findSome? nameIn

/-- The stanzas of the packages that are not processed. -/
def others (pkgs : List PackageT) (file : Text) : List (List Text) :=
  (stanzas file).filter fun s => (packageOf s).any fun name => !listed pkgs name

/-- A line that was kept, or the line of a status with what the tree has. -/
def KeptLine (tree : Tree) (name : Option Text) (l l' : Text) : Prop :=
  l' = l ∨ statusLabel <+: l ∧ ∃ s, name.bind tree = some s ∧
    l' = statusLabel ++ printed (statusPrint s) ++ ['\n']

theorem cutLines_line (h : '\n' ∉ l) (t : Text) :
    cutLines (l ++ '\n' :: t) = (l ++ ['\n']) :: cutLines t := by
  induction l with
  | nil => rfl
  | cons c l ih =>
      obtain ⟨hc, hl⟩ := List.ne_and_not_mem_of_not_mem_cons h
      rw [List.cons_append, cutLines, if_neg (Ne.symm hc), ih hl]
      rfl

theorem cutLines_unlines (h : ∀ l ∈ ls, '\n' ∉ l) (t : Text) :
    cutLines (unlines '\n' ls ++ t) = ls.map (· ++ ['\n']) ++ cutLines t := by
  induction ls with
  | nil => rfl
  | cons l ls ih =>
      obtain ⟨hl, hls⟩ := List.forall_mem_cons.mp h
      rw [unlines_cons, List.append_assoc, List.cons_append, cutLines_line hl, ih hls]
      rfl

theorem copyLoop_rounds (tree : Tree) (pkgs : List PackageT) {m : ℕ} (hn : t.length < n)
    (hm : t.length < m) (st : MergeState) :
    copyLoop tree pkgs n t st = copyLoop tree pkgs m t st := by
  induction n generalizing m t st with
  | zero => omega
  | succ n ih =>
      obtain ⟨m, rfl⟩ : ∃ k, m = k + 1 := ⟨m - 1, by omega⟩
      rw [copyLoop, copyLoop]
      split
      · rfl
      · next ht =>
          have hlt := length_rest_lt '\n' (n := room) (by decide) ht
          dsimp only
          rw [ih (m := m) (by omega) (by omega)]

/-- The copy loop from a state on. -/
def copyFrom (tree : Tree) (pkgs : List PackageT) (t : Text) (st : MergeState) : Text :=
  copyLoop tree pkgs (t.length + 1) t st

theorem copyFrom_line (tree : Tree) (pkgs : List PackageT) (h : '\n' ∉ l) (hlen : l.length < room)
    (t : Text) (st : MergeState) :
    copyFrom tree pkgs (l ++ '\n' :: t) st =
      mergeLine l (mergeState tree pkgs l st) ++
        copyFrom tree pkgs t (mergeState tree pkgs l st) := by
  rw [copyFrom, copyLoop, if_neg (by simp), piece_line '\n' h hlen, if_neg (by simp)]
  dsimp only
  rw [List.dropLast_concat, copyFrom]
  refine congrArg _ (copyLoop_rounds tree pkgs ?_ (Nat.lt_succ_self _) _)
  rw [List.length_append, List.length_cons]
  omega

/-! ## Well-formed files -/

/-- A stanza: the name of its package, its other lines, and the blank lines behind it. -/
structure Stanza where
  name : Text
  fields : List Text
  gap : ℕ

variable {s : Stanza} {ss : List Stanza}

/-- A line that `udpkg` reads as it is: it is not blank and fits into the buffer, a status
does not stop the program, and the first character can be put back. -/
structure Line (l : Text) : Prop where
  newline : '\n' ∉ l
  fits : l.length < room
  nonblank : l ≠ []
  status : ∀ v, l = statusLabel ++ v → statusParse v ≠ none
  putBack : l.head? ≠ some '\xff'

namespace Stanza

/-- The line of the name stands first and nowhere else. -/
structure Ok (s : Stanza) : Prop where
  name : Line (packageLabel ++ s.name)
  fields : ∀ l ∈ s.fields, Line l ∧ ¬ packageLabel <+: l

/-- The lines of a stanza. -/
def lines (s : Stanza) : List Text := (packageLabel ++ s.name) :: s.fields

/-- The lines of a stanza in a file, and the blank lines behind it. -/
def allLines (s : Stanza) : List Text := s.lines ++ List.replicate s.gap []

/-- The stanza with its status written anew. -/
def rewrite (tree : Tree) (s : Stanza) : Stanza :=
  { s with fields := s.fields.map fun l =>
      if statusLabel.isPrefixOf l ∧ tree s.name ≠ none then
        statusLabel ++ printed ((tree s.name).bind statusPrint)
      else l }

theorem Ok.lines (h : s.Ok) : ∀ l ∈ s.lines, Line l :=
  List.forall_mem_cons.mpr ⟨h.name, fun l hl => (h.fields l hl).1⟩

end Stanza

/-- A file of stanzas, behind some blank lines. -/
def render (blanks : ℕ) (ss : List Stanza) : Text :=
  unlines '\n' (List.replicate blanks [] ++ ss.flatMap Stanza.allLines)

/-- Blank lines separate the stanzas. -/
def Separated (ss : List Stanza) : Prop := ∀ s ∈ ss.dropLast, 0 < s.gap

instance (ss : List Stanza) : Decidable (Separated ss) :=
  inferInstanceAs (Decidable (∀ s ∈ ss.dropLast, 0 < s.gap))

/-! ## Copying -/

section Copy

variable (tree : Tree) (pkgs : List PackageT)

theorem mergeState_other (h : ¬ packageLabel <+: l) (st : MergeState) :
    mergeState tree pkgs l st = st := by
  rw [mergeState, if_neg (by rwa [List.isPrefixOf_iff_prefix])]

theorem mergeState_package (name : Text) (st : MergeState) :
    mergeState tree pkgs (packageLabel ++ name) st = ⟨listed pkgs name, tree name⟩ := by
  rw [mergeState, if_pos (by simp), List.drop_left]

theorem mergeLine_package (name : Text) (found : Bool) (stat : Option Status) :
    mergeLine (packageLabel ++ name) ⟨found, stat⟩ =
      if found then [] else packageLabel ++ name ++ ['\n'] := by
  have hbegins : ¬ statusLabel.isPrefixOf (packageLabel ++ name) = true := by
    exact Bool.false_ne_true
  rw [mergeLine, if_neg (fun h : _ ∧ _ => hbegins h.1)]

theorem copyFrom_others (hls : ∀ l ∈ ls, '\n' ∉ l ∧ l.length < room ∧ ¬ packageLabel <+: l)
    (t : Text) (st : MergeState) :
    copyFrom tree pkgs (unlines '\n' ls ++ t) st =
      ls.flatMap (mergeLine · st) ++ copyFrom tree pkgs t st := by
  induction ls with
  | nil => rfl
  | cons l ls ih =>
      obtain ⟨⟨hnl, hlen, hother⟩, hls⟩ := List.forall_mem_cons.mp hls
      rw [unlines_cons, List.append_assoc, List.cons_append, copyFrom_line tree pkgs hnl hlen,
        mergeState_other tree pkgs hother, ih hls, List.flatMap_cons, List.append_assoc]

theorem copyFrom_blanks (n : ℕ) (t : Text) (st : MergeState) :
    copyFrom tree pkgs (unlines '\n' (List.replicate n []) ++ t) st =
      (if st.found then [] else unlines '\n' (List.replicate n [])) ++ copyFrom tree pkgs t st := by
  have hblank : mergeLine [] st = if st.found then [] else ['\n'] := by
    rw [mergeLine]
    split
    · rfl
    · rw [if_neg fun h => absurd h.1 (by decide)]
      rfl
  rw [copyFrom_others tree pkgs fun l hl => ?_]
  · refine congrArg (· ++ copyFrom tree pkgs t st) ?_
    induction n with
    | zero => split <;> rfl
    | succ n ih =>
        rw [List.replicate_succ, List.flatMap_cons, ih, hblank, unlines_cons]
        split <;> rfl
  · rw [(List.mem_replicate.mp hl).2]
    exact ⟨List.not_mem_nil, by decide, by decide⟩

theorem copyFrom_stanza (hs : s.Ok) (t : Text) (st : MergeState) :
    copyFrom tree pkgs (unlines '\n' s.allLines ++ t) st =
      (if listed pkgs s.name then [] else unlines '\n' (s.rewrite tree).allLines) ++
        copyFrom tree pkgs t ⟨listed pkgs s.name, tree s.name⟩ := by
  have hfields : ∀ l ∈ s.fields, '\n' ∉ l ∧ l.length < room ∧ ¬ packageLabel <+: l :=
    fun l hl => ⟨(hs.fields l hl).1.newline, (hs.fields l hl).1.fits, (hs.fields l hl).2⟩
  have htext : unlines '\n' s.allLines ++ t = packageLabel ++ s.name ++ '\n' ::
      (unlines '\n' s.fields ++ (unlines '\n' (List.replicate s.gap []) ++ t)) := by
    simp [Stanza.allLines, Stanza.lines, unlines_cons, unlines_append]
  rw [htext, copyFrom_line tree pkgs hs.name.newline hs.name.fits, mergeState_package,
    mergeLine_package,
    copyFrom_others tree pkgs hfields, copyFrom_blanks]
  split
  · next hlisted =>
      simp [mergeLine, hlisted]
  · next hlisted =>
      rw [Stanza.allLines, Stanza.lines, List.cons_append, unlines_cons, unlines_append,
        Stanza.rewrite]
      have hmap : s.fields.flatMap (mergeLine · ⟨listed pkgs s.name, tree s.name⟩) =
          unlines '\n' (s.fields.map fun l => if statusLabel.isPrefixOf l ∧ tree s.name ≠ none then
            statusLabel ++ printed ((tree s.name).bind statusPrint) else l) := by
        rw [unlines, List.flatMap_map]
        refine List.flatMap_congr fun l _ => ?_
        rw [mergeLine, if_neg hlisted]
        split <;> rfl
      rw [hmap]
      simp

theorem copyFrom_render (blanks : ℕ) (hss : ∀ s ∈ ss, s.Ok) :
    copyFrom tree pkgs (render blanks ss) {} =
      render blanks ((ss.filter fun s => !listed pkgs s.name).map (Stanza.rewrite tree)) := by
  have hstanzas : ∀ st, copyFrom tree pkgs (unlines '\n' (ss.flatMap Stanza.allLines)) st =
      unlines '\n' (((ss.filter fun s => !listed pkgs s.name).map (Stanza.rewrite tree)).flatMap
        Stanza.allLines) := by
    induction ss with
    | nil => exact fun _ => rfl
    | cons s ss ih =>
        obtain ⟨hs, hss⟩ := List.forall_mem_cons.mp hss
        intro st
        rw [List.flatMap_cons, unlines_append, copyFrom_stanza tree pkgs hs, ih hss]
        by_cases hlisted : listed pkgs s.name = true
        · rw [if_pos hlisted, List.filter_cons_of_neg (by simp [hlisted])]
          rfl
        · rw [if_neg hlisted, List.filter_cons_of_pos (by simp [hlisted]), List.map_cons,
            List.flatMap_cons, unlines_append]
  rw [render, unlines_append, copyFrom_blanks, hstanzas, if_neg (by simp), render, unlines_append]

theorem statusMerge_render (blanks : ℕ) (hss : ∀ s ∈ ss, s.Ok) :
    statusMerge tree pkgs (render blanks ss) =
      render blanks ((ss.filter fun s => !listed pkgs s.name).map (Stanza.rewrite tree)) ++
        pkgs.flatMap writeStanza := by
  rw [← copyFrom_render tree pkgs blanks hss]
  rfl

end Copy

/-! ## The stanzas of a well-formed file -/

theorem stanzasFrom_lines (h : ∀ l ∈ ls, l ≠ ['\n']) (cur rest : List Text) :
    stanzasFrom cur (ls ++ rest) = stanzasFrom (cur ++ ls) rest := by
  induction ls generalizing cur with
  | nil => simp
  | cons l ls ih =>
      obtain ⟨hl, hls⟩ := List.forall_mem_cons.mp h
      rw [List.cons_append, stanzasFrom, if_neg hl, ih hls]
      simp

theorem stanzasFrom_blanks (n : ℕ) (rest : List Text) :
    stanzasFrom [] (List.replicate n ['\n'] ++ rest) = stanzasFrom [] rest := by
  induction n with
  | zero => rfl
  | succ n ih =>
      rw [List.replicate_succ, List.cons_append, stanzasFrom, if_pos rfl, if_pos rfl, ih]

theorem stanzasFrom_stanza (h : ∀ l ∈ ls, l ≠ ['\n']) (hne : ls ≠ []) (hn : 0 < n)
    (rest : List Text) :
    stanzasFrom [] (ls ++ (List.replicate n ['\n'] ++ rest)) = ls :: stanzasFrom [] rest := by
  obtain ⟨n, rfl⟩ : ∃ m, n = m + 1 := ⟨n - 1, by omega⟩
  rw [stanzasFrom_lines h, List.nil_append, List.replicate_succ, List.cons_append, stanzasFrom,
    if_pos rfl, if_neg hne, stanzasFrom_blanks]

namespace Stanza

/-- The lines of a stanza as they stand in a file. -/
def texts (s : Stanza) : List Text := s.lines.map (· ++ ['\n'])

theorem texts_ne_nil (s : Stanza) : s.texts ≠ [] := nofun

theorem texts_nonblank (h : ∀ l ∈ s.lines, l ≠ []) : ∀ l ∈ s.texts, l ≠ ['\n'] := by
  intro l hl hblank
  obtain ⟨l', hl', rfl⟩ := List.mem_map.mp hl
  exact h l' hl' (by simpa using hblank)

end Stanza

theorem allLines_map (s : Stanza) :
    s.allLines.map (· ++ ['\n']) = s.texts ++ List.replicate s.gap ['\n'] := by
  rw [Stanza.allLines, List.map_append, List.map_replicate]
  rfl

theorem stanzas_render (blanks : ℕ) {ss : List Stanza}
    (hss : ∀ s ∈ ss, ∀ l ∈ s.lines, '\n' ∉ l ∧ l ≠ []) (hgap : ∀ s ∈ ss, 0 < s.gap) (t : Text) :
    stanzas (render blanks ss ++ t) = ss.map Stanza.texts ++ stanzas t := by
  have hnl : ∀ l ∈ List.replicate blanks [] ++ ss.flatMap Stanza.allLines, '\n' ∉ l := by
    intro l hl
    rcases List.mem_append.mp hl with h | h
    · rw [(List.mem_replicate.mp h).2]
      exact List.not_mem_nil
    · obtain ⟨s, hs, h⟩ := List.mem_flatMap.mp h
      rcases List.mem_append.mp h with h | h
      · exact (hss s hs l h).1
      · rw [(List.mem_replicate.mp h).2]
        exact List.not_mem_nil
  rw [stanzas, stanzas, render, cutLines_unlines hnl, List.map_append, List.map_replicate,
    List.append_assoc, List.nil_append, stanzasFrom_blanks]
  clear hnl
  induction ss with
  | nil => rfl
  | cons s ss ih =>
      obtain ⟨hs, hss⟩ := List.forall_mem_cons.mp hss
      obtain ⟨hg, hgap⟩ := List.forall_mem_cons.mp hgap
      rw [List.flatMap_cons, List.map_append, allLines_map, List.append_assoc, List.append_assoc,
        stanzasFrom_stanza (Stanza.texts_nonblank fun l hl => (hs l hl).2) s.texts_ne_nil hg,
        ih hss hgap]
      rfl

theorem stanzas_render_last (blanks : ℕ) (hss : ∀ s ∈ ss, ∀ l ∈ s.lines, '\n' ∉ l ∧ l ≠ [])
    (hgap : Separated ss) : stanzas (render blanks ss) = ss.map Stanza.texts := by
  rcases List.eq_nil_or_concat ss with rfl | ⟨init, s, rfl⟩
  · have h := @stanzas_render blanks [] (by simp) (by simp) []
    simpa [show stanzas [] = [] from rfl] using h
  · rw [List.concat_eq_append] at hss hgap ⊢
    rw [Separated, List.dropLast_concat] at hgap
    have hs := hss s (by simp)
    have hlast : stanzas (unlines '\n' s.allLines) = [s.texts] := by
      have hnl : ∀ l ∈ s.allLines, '\n' ∉ l := by
        intro l hl
        rcases List.mem_append.mp hl with h | h
        · exact (hs l h).1
        · rw [(List.mem_replicate.mp h).2]
          exact List.not_mem_nil
      have hcut := cutLines_unlines hnl []
      rw [List.append_nil] at hcut
      rw [stanzas, hcut, allLines_map, show cutLines [] = [] from rfl, List.append_nil]
      have hblank := Stanza.texts_nonblank fun l hl => (hs l hl).2
      cases hg : s.gap with
      | zero =>
          have h := stanzasFrom_lines hblank [] []
          rw [List.replicate_zero, h, List.nil_append, stanzasFrom, if_neg s.texts_ne_nil]
      | succ n =>
          have h := stanzasFrom_stanza hblank s.texts_ne_nil n.succ_pos []
          rwa [List.append_nil] at h
    have hrender : render blanks (init ++ [s]) = render blanks init ++ unlines '\n' s.allLines := by
      simp [render, unlines_append]
    rw [hrender, stanzas_render blanks (fun s' hs' => hss s' (by simp [hs'])) hgap, hlast]
    simp

/-! ## Reading -/

/-- What `status_read` uses of a stanza: the name, the status and what is provided. -/
abbrev Note := Option Text × Status × Option Text

def PackageT.note (m : PackageT) : Note := (m.package, m.status, m.provides)

/-- What a line says. -/
def noteLine (e : Note) (l : Text) : Note :=
  if packageLabel.isPrefixOf l then (some (l.drop packageLabel.length), e.2)
  else if statusLabel.isPrefixOf l then
    (e.1, (statusParse (l.drop statusLabel.length)).getD {}, e.2.2)
  else if Key.provides.label.isPrefixOf l then
    (e.1, e.2.1, some (l.drop Key.provides.label.length))
  else e

theorem begins_exact {buf : Text} {k : Key} (h : keyOf buf = some k)
    (hk : k = .package ∨ k = .status ∨ k = .provides) : k.label <+: buf := by
  obtain ⟨exact, hmem, hbegins⟩ := keyOf_begins h
  have hexact : exact = true := by
    cases exact
    · rcases hk with rfl | rfl | rfl <;> exact absurd hmem (by decide)
    · rfl
  subst hexact
  exact List.isPrefixOf_iff_prefix.mp hbegins

theorem noteLine_other {e : Note} (h₁ : ¬ packageLabel <+: l) (h₂ : ¬ statusLabel <+: l)
    (h₃ : ¬ Key.provides.label <+: l) : noteLine e l = e := by
  rw [noteLine, if_neg (by rwa [List.isPrefixOf_iff_prefix]),
    if_neg (by rwa [List.isPrefixOf_iff_prefix]), if_neg (by rwa [List.isPrefixOf_iff_prefix])]

theorem isPrefixOf_append (label v : Text) : label.isPrefixOf (label ++ v) = true :=
  List.isPrefixOf_iff_prefix.mpr (List.prefix_append label v)

theorem noteLine_package (e : Note) (v : Text) :
    noteLine e (packageLabel ++ v) = (some v, e.2) := by
  rw [noteLine, if_pos (isPrefixOf_append _ v), List.drop_left]

theorem noteLine_status (e : Note) (v : Text) :
    noteLine e (statusLabel ++ v) = (e.1, (statusParse v).getD {}, e.2.2) := by
  rw [noteLine, if_neg (show ¬ packageLabel.isPrefixOf (statusLabel ++ v) = true from
    Bool.false_ne_true), if_pos (isPrefixOf_append _ v), List.drop_left]

theorem noteLine_provides (e : Note) (v : Text) :
    noteLine e (Key.provides.label ++ v) = (e.1, e.2.1, some v) := by
  rw [noteLine, if_neg (show ¬ packageLabel.isPrefixOf (Key.provides.label ++ v) = true from
    Bool.false_ne_true), if_neg (show ¬ statusLabel.isPrefixOf (Key.provides.label ++ v) = true from
    Bool.false_ne_true), if_pos (isPrefixOf_append _ v), List.drop_left]

theorem controlLine_note (hl : ∀ v, l = statusLabel ++ v → statusParse v ≠ none) (rest : Text)
    (p : PackageT) :
    ∃ q rest', controlLine l rest p = some (q, rest') ∧ q.note = noteLine p.note l ∧
      (rest' = rest ∨ rest' = (readBlock rest).2) := by
  have hfield : ∀ (k : Key) (v : Text), controlLine (k.label ++ v) rest p = setField k v rest p := by
    intro k v
    rw [controlLine, keyOf_label]
    dsimp only
    rw [List.drop_left]
  by_cases h₁ : packageLabel <+: l
  · obtain ⟨v, rfl⟩ := h₁
    exact ⟨_, _, hfield .package v, (noteLine_package p.note v).symm, .inl rfl⟩
  · by_cases h₂ : statusLabel <+: l
    · obtain ⟨v, rfl⟩ := h₂
      obtain ⟨s, hs⟩ := Option.ne_none_iff_exists'.mp (hl v rfl)
      refine ⟨{ p with status := s }, rest, ?_, ?_, .inl rfl⟩
      · exact (hfield .status v).trans (by rw [setField, hs]; rfl)
      · rw [noteLine_status, hs]
        rfl
    · by_cases h₃ : Key.provides.label <+: l
      · obtain ⟨v, rfl⟩ := h₃
        exact ⟨_, _, hfield .provides v, (noteLine_provides p.note v).symm, .inl rfl⟩
      · rw [noteLine_other h₁ h₂ h₃, controlLine]
        cases hkey : keyOf l with
        | none => exact ⟨p, rest, rfl, rfl, .inl rfl⟩
        | some k =>
            cases k with
            | package => exact absurd (begins_exact hkey (.inl rfl)) h₁
            | status => exact absurd (begins_exact hkey (.inr (.inl rfl))) h₂
            | provides => exact absurd (begins_exact hkey (.inr (.inr rfl))) h₃
            | description => exact ⟨_, _, rfl, rfl, .inr rfl⟩
            | conffiles => exact ⟨_, _, rfl, rfl, .inr rfl⟩
            | _ => exact ⟨_, _, rfl, rfl, .inl rfl⟩

theorem foldl_noteLine_block (h : ∀ l ∈ ls, l.head? = some ' ') (e : Note) :
    ls.foldl noteLine e = e := by
  induction ls with
  | nil => rfl
  | cons l ls ih =>
      obtain ⟨hl, hls⟩ := List.forall_mem_cons.mp h
      have hhead : ∀ label : Text, label.head? ≠ some ' ' → label ≠ [] → ¬ label <+: l := by
        rintro label hne hnil ⟨v, rfl⟩
        rw [List.head?_append_of_ne_nil _ hnil] at hl
        exact hne hl
      rw [List.foldl_cons, noteLine_other (hhead _ (by decide) (by decide))
        (hhead _ (by decide) (by decide)) (hhead _ (by decide) (by decide))]
      exact ih hls

/-- The end of the file, or of the stanza. -/
def AtEnd (t : Text) : Prop := t = [] ∨ ∃ r, t = '\n' :: r

theorem readBlock_unlines (hls : ∀ l ∈ ls, Line l) (ht : AtEnd t) :
    ∃ ls₁ ls₂, ls = ls₁ ++ ls₂ ∧ (∀ l ∈ ls₁, l.head? = some ' ') ∧
      (readBlock (unlines '\n' ls ++ t)).2 = unlines '\n' ls₂ ++ t := by
  induction ls with
  | nil =>
      refine ⟨[], [], rfl, by simp, ?_⟩
      rcases ht with rfl | ⟨r, rfl⟩
      · rfl
      · rw [show unlines '\n' [] ++ '\n' :: r = '\n' :: r from rfl,
          readBlock_stop (by decide) (by decide)]
  | cons l ls ih =>
      obtain ⟨hl, hlater⟩ := List.forall_mem_cons.mp hls
      cases l with
      | nil => exact absurd rfl hl.nonblank
      | cons c l =>
          by_cases hc : c = ' '
          · subst hc
            obtain ⟨ls₁, ls₂, rfl, h₁, h₂⟩ := ih hlater
            have hnl : '\n' ∉ l := fun h => hl.newline (List.mem_cons_of_mem _ h)
            have hlen : l.length < room := Nat.lt_of_succ_lt hl.fits
            refine ⟨(' ' :: l) :: ls₁, ls₂, rfl, List.forall_mem_cons.mpr ⟨rfl, h₁⟩, ?_⟩
            rw [unlines_cons, List.append_assoc, List.cons_append, List.cons_append,
              readBlock_blank (by simp), piece_line '\n' hnl hlen]
            exact h₂
          · refine ⟨[], (c :: l) :: ls, rfl, by simp, ?_⟩
            have hput : c ≠ '\xff' := fun h => hl.putBack (by rw [h]; rfl)
            rw [unlines_cons, List.append_assoc, List.cons_append, readBlock_stop hc hput]

/-- What is left behind the end of a stanza. -/
def behindEnd : Text → Option Text
  | [] => none
  | _ :: r => some r

theorem controlRead_lines (hls : ∀ l ∈ ls, Line l) (ht : AtEnd t) (p : PackageT) :
    ∃ q, controlRead (unlines '\n' ls ++ t) p = some (q, behindEnd t) ∧
      q.note = ls.foldl noteLine p.note := by
  induction hn : ls.length using Nat.strong_induction_on generalizing ls p with
  | _ n ih =>
      cases ls with
      | nil =>
          refine ⟨p, ?_, rfl⟩
          rcases ht with rfl | ⟨r, rfl⟩
          · rfl
          · exact (controlRead_line (l := []) List.not_mem_nil (by decide) r p).trans (if_pos rfl)
      | cons l ls =>
          obtain ⟨hl, hls⟩ := List.forall_mem_cons.mp hls
          obtain ⟨q, rest, hline, hnote, hrest⟩ := controlLine_note hl.status (unlines '\n' ls ++ t) p
          rw [List.length_cons] at hn
          rw [unlines_cons, List.append_assoc, List.cons_append, controlRead_line hl.newline hl.fits,
            if_neg hl.nonblank, hline, Option.bind_some, List.foldl_cons, ← hnote]
          rcases hrest with rfl | rfl
          · exact ih ls.length (by omega) hls q rfl
          · obtain ⟨ls₁, ls₂, rfl, h₁, h₂⟩ := readBlock_unlines hls ht
            rw [List.foldl_append, foldl_noteLine_block h₁, h₂]
            refine ih ls₂.length ?_ (fun l hl => hls l (List.mem_append_right _ hl)) q rfl
            rw [List.length_append] at hn
            omega

theorem controlRead_rest_lt {rest : Text} {p q : PackageT}
    (h : controlRead t p = some (q, some rest)) : rest.length < t.length := by
  induction hn : t.length using Nat.strong_induction_on generalizing t p with
  | _ n ih =>
      by_cases ht : t = []
      · subst ht
        cases h
      · have hlt := length_rest_lt '\n' (n := room) (by decide) ht
        rcases hpiece : piece '\n' room t with ⟨buf, eof, rest'⟩
        rw [hpiece] at hlt
        dsimp only at hlt
        cases eof with
        | true =>
            rw [controlRead, controlReadLoop, if_neg ht, hpiece, if_pos rfl] at h
            cases h
        | false =>
            rw [controlRead_piece ht hpiece] at h
            split at h
            · cases h
              omega
            · obtain ⟨⟨p', rest''⟩, hline, hread⟩ := Option.bind_eq_some_iff.mp h
              have hle := controlLine_length_le hline
              dsimp only at hle
              have := ih rest''.length (by omega) hread rfl
              omega

theorem statusReadLoop_rounds {m : ℕ} (hn : t.length < n) (hm : t.length < m) (tree : Tree) :
    statusReadLoop n t tree = statusReadLoop m t tree := by
  induction n generalizing m t tree with
  | zero => omega
  | succ n ih =>
      obtain ⟨m, rfl⟩ : ∃ k, m = k + 1 := ⟨m - 1, by omega⟩
      rw [statusReadLoop, statusReadLoop]
      split
      · rfl
      · rfl
      · next heq =>
          have hlt := controlRead_rest_lt heq
          exact ih (by omega) (by omega) _

/-- `status_read` from a tree on. -/
def statusReadFrom (t : Text) (tree : Tree) : Option Tree := statusReadLoop (t.length + 1) t tree

theorem statusReadFrom_more {rest : Text} {m : PackageT}
    (h : controlRead t {} = some (m, some rest)) (tree : Tree) :
    statusReadFrom t tree = statusReadFrom rest (insertStanza m tree) := by
  have hlt := controlRead_rest_lt h
  rw [statusReadFrom, statusReadLoop, h]
  exact statusReadLoop_rounds (by omega) (by omega) _

theorem statusReadFrom_last {m : PackageT} (h : controlRead t {} = some (m, none)) (tree : Tree) :
    statusReadFrom t tree = some (insertStanza m tree) := by
  rw [statusReadFrom, statusReadLoop, h]

theorem statusReadFrom_blanks (n : ℕ) (t : Text) (tree : Tree) :
    statusReadFrom (unlines '\n' (List.replicate n []) ++ t) tree = statusReadFrom t tree := by
  induction n with
  | zero => rfl
  | succ n ih =>
      have hblank : controlRead ([] ++ '\n' :: (unlines '\n' (List.replicate n []) ++ t)) {} =
          some ({}, some (unlines '\n' (List.replicate n []) ++ t)) :=
        (controlRead_line List.not_mem_nil (by decide) _ _).trans (if_pos rfl)
      rw [List.replicate_succ, unlines_cons, List.append_assoc, List.cons_append,
        statusReadFrom_more hblank]
      exact ih

/-- A note goes into the tree. -/
def insertNote (tree : Tree) (e : Note) : Tree :=
  match e.1 with
  | none => tree
  | some name =>
      let tree := Function.update tree name (some e.2.1)
      match e.2.2 with
      | none => tree
      | some provides =>
          if tree provides = none then Function.update tree provides (some e.2.1) else tree

theorem insertStanza_note (m : PackageT) (tree : Tree) :
    insertStanza m tree = insertNote tree m.note := rfl

namespace Stanza

/-- What a stanza says. -/
def note (s : Stanza) : Note := s.lines.foldl noteLine (none, {}, none)

end Stanza

/-- The tree of a list of stanzas. -/
def treeOf (ss : List Stanza) : Tree :=
  ss.foldl (fun tree s => insertNote tree s.note) fun _ => none

theorem statusReadFrom_stanzas (hss : ∀ s ∈ ss, s.Ok) (hgap : Separated ss) (tree : Tree) :
    statusReadFrom (unlines '\n' (ss.flatMap Stanza.allLines)) tree =
      some (ss.foldl (fun tree s => insertNote tree s.note) tree) := by
  induction ss generalizing tree with
  | nil => rfl
  | cons s ss ih =>
      obtain ⟨hs, hlater⟩ := List.forall_mem_cons.mp hss
      have htext : unlines '\n' ((s :: ss).flatMap Stanza.allLines) = unlines '\n' s.lines ++
          (unlines '\n' (List.replicate s.gap []) ++ unlines '\n' (ss.flatMap Stanza.allLines)) := by
        simp [Stanza.allLines, unlines_append]
      rw [htext, List.foldl_cons]
      cases hg : s.gap with
      | zero =>
          -- only the last stanza has no blank line behind it
          have hnil : ss = [] := by
            cases ss with
            | nil => rfl
            | cons s' ss => exact absurd (hgap s (by simp)) (by omega)
          subst hnil
          obtain ⟨q, hread, hnote⟩ := controlRead_lines hs.lines (.inl rfl) {}
          rw [List.append_nil] at hread
          rw [List.replicate_zero, show unlines '\n' s.lines ++ (unlines '\n' [] ++ unlines '\n' ([].flatMap
            Stanza.allLines)) = unlines '\n' s.lines by simp [unlines], statusReadFrom_last hread,
            insertStanza_note, hnote]
          rfl
      | succ n =>
          obtain ⟨q, hread, hnote⟩ := controlRead_lines hs.lines (t := '\n' ::
            (unlines '\n' (List.replicate n []) ++ unlines '\n' (ss.flatMap Stanza.allLines))) (.inr ⟨_, rfl⟩) {}
          rw [List.replicate_succ, unlines_cons, List.nil_append, List.cons_append,
            statusReadFrom_more hread, statusReadFrom_blanks, insertStanza_note, hnote]
          refine ih hlater (fun s' hs' => hgap s' ?_) _
          cases ss with
          | nil => exact absurd hs' List.not_mem_nil
          | cons _ _ => exact List.mem_cons_of_mem _ hs'

theorem statusRead_render (blanks : ℕ) (hss : ∀ s ∈ ss, s.Ok) (hgap : Separated ss) :
    statusRead (render blanks ss) = some (treeOf ss) := by
  show statusReadFrom (render blanks ss) (fun _ => none) = _
  rw [render, unlines_append, statusReadFrom_blanks]
  exact statusReadFrom_stanzas hss hgap _

end DebianInstaller.Udpkg
