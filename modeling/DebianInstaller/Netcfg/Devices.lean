import DebianInstaller.Lib.Lines
import DebianInstaller.Netcfg.Hostname
import DebianInstaller.Netcfg.Inet

/-!
# The interfaces in the lists of devices

Three lists are searched for the name of an interface: the one of hotpluggable interfaces, which
are its lines, the one of PCMCIA cards, where it is the fifth field, and the one with descriptions,
where it stands in front of a colon. Each is read with `fgets`, and what is read only has to begin
with the name. So the line of `eth10` is taken for the one of `eth1`, and the rest of a line that
is longer than the buffer for a line.
-/

namespace DebianInstaller.Netcfg

open Text Lib

variable {file left r stab : Text} {size : ℕ}

/-! ## The code -/

/-- The name of an interface. It has nothing in it that ends a string or separates fields. -/
structure IfName where
  text : Text
  ne_nil : text ≠ []
  clean : ∀ c ∈ text, c ≠ nul ∧ c ≠ '\n' ∧ c ≠ '\t' ∧ c ≠ ':'

/-- What `fgets` has put into a buffer of so many bytes, as a C string. -/
def fgets (size : ℕ) (file : Text) : Text :=
  (piece '\n' (size - 1) file).1.takeWhile (· ≠ nul)

/-- Each time `fgets` reads from a file, what is left of it. -/
def positions (size : ℕ) (file : Text) : List Text := reads '\n' (size - 1) file.length file

/-- `while (fgets (buf, size, f)) if (!strncmp (buf, if_name, len)) return 1;` -/
def begins (size : ℕ) (ifName file : Text) : Bool :=
  (positions size file).any fun left => ifName.isPrefixOf (fgets size left)

/-- `iface_is_hotpluggable`, with what is in `DEVHOTPLUG`. -/
def ifaceIsHotpluggable (ifName : Text) (devhotplug : Option Text) : Bool :=
  match devhotplug with
  | none => false
  | some file => begins 256 ifName file

/-- The lines that busybox reads: a zero ends one too. -/
def busyboxLines (file : Text) : List Text :=
  let ls := file.splitOnP fun c => c == '\n' || c == nul
  if ls.getLast? = some [] then ls.dropLast else ls

/-- `grep -v '^Socket'` -/
def isNoSocket (l : Text) : Bool := !"Socket".toList.isPrefixOf l

/-- `cut -f5`: a line without a delimiter is printed as it is. -/
def cutField (l : Text) : Text :=
  if '\t' ∈ l then (l.splitOn '\t')[4]?.getD [] else l

/-- What is printed for `STAB`. -/
def stabOutput (stab : Text) : List Text := ((busyboxLines stab).filter isNoSocket).map cutField

/-- `find_in_stab` -/
def findInStab (ifName : Text) (stab : Option Text) : Bool :=
  match stab with
  | none => false
  | some file => begins 128 ifName (unlines '\n' (stabOutput file))

/-- The loop of `find_in_devnames`: where in the file it has found the interface. -/
def devnamesLoop (iface : Text) : List Text → Option Text
  | [] => none
  | left :: rest =>
      let buf := fgets 512 left
      if ':' ∉ buf then none
      else if iface.isPrefixOf buf then some left else devnamesLoop iface rest

/-- What is behind the colon. -/
def description (left : Text) : Text := ((fgets 512 left).dropWhile (· ≠ ':')).tail

/-- `find_in_devnames`. The last character of a description without characters is looked for in
front of it. -/
def findInDevnames (iface : Text) (devnames : Option Text) : Except Fault (Option Text) :=
  match devnames.bind fun file => devnamesLoop iface (positions 512 file) with
  | none => .ok none
  | some left =>
      let result := description left
      if result = [] then .error .outside
      else .ok (some (if result.getLast? = some '\n' then result.dropLast else result))

/-! ## The lines of an interface -/

/-- What is behind each end of a line. -/
def behindNewlines : Text → List Text
  | [] => []
  | c :: t => if c = '\n' then t :: behindNewlines t else behindNewlines t

/-- The first line with the name in front of a colon, and the lines behind it. -/
def lineAt (name file : Text) : Option Text :=
  (file :: behindNewlines file).find? fun left => (name ++ [':']).isPrefixOf left

/-- The name is the fifth field of a line that is not one for a socket. -/
def InStab (name stab : Text) : Prop :=
  ∃ l ∈ busyboxLines stab, isNoSocket l = true ∧ (l.splitOn '\t')[4]? = some name

/-- A name that has a line fits into the buffer, and one that has none begins no line, nor what is
left of one behind as much as fits into the buffer, or a multiple of that. -/
def Clear (size : ℕ) (name : Text) (has : Prop) (lines : List Text) : Prop :=
  (has → name.length < size) ∧
    (¬ has → name.length < size → ∀ l ∈ lines, ∀ k, ¬ name <+: l.drop ((size - 1) * k))

/-- If the interface has a line, its name and a character of the description fit into the buffer,
and all that is read before it has a colon but does not begin with the name. If it has none,
nothing begins with the name as long as there is a colon in what is read. -/
def ClearDevnames (name file : Text) : Prop :=
  match lineAt name file with
  | some left =>
      name.length + 1 < 511 ∧ (∃ c ∈ (left.drop (name.length + 1)).head?, c ≠ nul) ∧
        ∀ left' ∈ (positions 512 file).takeWhile (· ≠ left),
          ':' ∈ fgets 512 left' ∧ ¬ name <+: fgets 512 left'
  | none =>
      ∀ left' ∈ (positions 512 file).takeWhile (fun left => decide (':' ∈ fgets 512 left)),
        ¬ name <+: fgets 512 left'

/-! ## Lists of names -/

variable (name : IfName)

theorem IfName.nul_not_mem : nul ∉ name.text := fun h => (name.clean nul h).1 rfl

theorem IfName.newline_not_mem : '\n' ∉ name.text := fun h => (name.clean '\n' h).2.1 rfl

theorem IfName.colon_not_mem : ':' ∉ name.text := fun h => (name.clean ':' h).2.2.2 rfl

theorem prefix_takeWhile_iff {w t : Text} (hw : nul ∉ w) :
    w <+: t.takeWhile (· ≠ nul) ↔ w <+: t := by
  refine ⟨fun h => h.trans (List.takeWhile_prefix _), ?_⟩
  rintro ⟨r, rfl⟩
  have hall : ∀ c ∈ w, decide (c ≠ nul) = true := by
    intro c hc
    refine decide_eq_true ?_
    rintro rfl
    exact hw hc
  rw [List.takeWhile_append_of_pos hall]
  exact List.prefix_append w _

theorem prefix_fgets_iff (hsize : 0 < size) :
    name.text <+: fgets size file ↔ name.text.length < size ∧ name.text <+: file := by
  rw [fgets, prefix_takeWhile_iff name.nul_not_mem]
  constructor
  · intro h
    have hle := h.length_le.trans (length_piece_le '\n' (size - 1) file)
    refine ⟨by omega, h.trans ⟨_, piece_append '\n' (size - 1) file⟩⟩
  · rintro ⟨hlt, r, rfl⟩
    rw [piece_isPrefix '\n' name.newline_not_mem (by omega)]
    exact List.prefix_append _ _

theorem begins_iff (hsize : 1 < size) :
    begins size name.text file = true ↔ name.text.length < size ∧
      ∃ l ∈ file.splitOn '\n', ∃ k, name.text <+: l.drop ((size - 1) * k) := by
  rw [begins, List.any_eq_true, ← exists_mem_reads_iff '\n' (by omega) name.ne_nil
    name.newline_not_mem le_rfl]
  simp only [List.isPrefixOf_iff_prefix, prefix_fgets_iff name (show 0 < size by omega)]
  constructor
  · rintro ⟨left, hmem, hlt, hprefix⟩
    exact ⟨hlt, left, hmem, hprefix⟩
  · rintro ⟨hlt, left, hmem, hprefix⟩
    exact ⟨left, hmem, hlt, hprefix⟩

theorem begins_right_iff (hsize : 1 < size) {lines : List Text}
    (hlines : ∀ l ≠ [], l ∈ file.splitOn '\n' ↔ l ∈ lines) {has : Prop}
    (hhas : has → name.text ∈ lines) :
    (begins size name.text file = true ↔ has) ↔ Clear size name.text has lines := by
  have hne : ∀ {l : Text} {k : ℕ}, name.text <+: l.drop k → l ≠ [] := by
    rintro l k hprefix rfl
    rw [List.drop_nil] at hprefix
    exact name.ne_nil (List.prefix_nil.1 hprefix)
  rw [begins_iff name hsize]
  constructor
  · intro hiff
    refine ⟨fun h => (hiff.2 h).1, fun hno hlt l hl k hprefix => hno ?_⟩
    exact hiff.1 ⟨hlt, l, (hlines l (hne hprefix)).2 hl, k, hprefix⟩
  · rintro ⟨hfits, hno⟩
    constructor
    · rintro ⟨hlt, l, hl, k, hprefix⟩
      by_contra hhas'
      exact hno hhas' hlt l ((hlines l (hne hprefix)).1 hl) k hprefix
    · intro h
      exact ⟨hfits h, name.text, (hlines _ name.ne_nil).2 (hhas h), 0, List.prefix_rfl⟩

theorem mem_stabOutput (h : InStab name.text stab) : name.text ∈ stabOutput stab := by
  obtain ⟨l, hl, hsocket, hfield⟩ := h
  refine List.mem_map.2 ⟨l, List.mem_filter.2 ⟨hl, hsocket⟩, ?_⟩
  have htab : '\t' ∈ l := by
    by_contra htab
    rw [List.splitOn_eq_singleton htab] at hfield
    nomatch hfield
  rw [cutField, if_pos htab, hfield]
  rfl

theorem newline_not_mem_stabOutput {l : Text} (h : l ∈ stabOutput stab) : '\n' ∉ l := by
  obtain ⟨line, hline, rfl⟩ := List.mem_map.1 h
  have hmem : line ∈ stab.splitOnP fun c => c == '\n' || c == nul := by
    have hline := (List.mem_filter.1 hline).1
    unfold busyboxLines at hline
    dsimp only at hline
    split at hline
    · exact List.mem_of_mem_dropLast hline
    · exact hline
  have hnewline : '\n' ∉ line := fun hc => absurd ((mem_of_mem_splitOnP hmem).1 _ hc) (by decide)
  rw [cutField]
  split
  · intro hc
    cases hfield : (line.splitOn '\t')[4]? with
    | none =>
        rw [hfield] at hc
        nomatch hc
    | some field =>
        rw [hfield] at hc
        rw [List.splitOn_eq_splitOnP] at hfield
        exact hnewline ((mem_of_mem_splitOnP (List.mem_of_getElem? hfield)).2 _ hc)
  · exact hnewline

theorem mem_splitOn_stabOutput {l : Text} (hl : l ≠ []) :
    l ∈ (unlines '\n' (stabOutput stab)).splitOn '\n' ↔ l ∈ stabOutput stab := by
  have hsplit := splitOn_unlines '\n' (fun _ => @newline_not_mem_stabOutput stab _) []
  rw [List.append_nil, List.splitOn_nil] at hsplit
  rw [hsplit, List.mem_append, List.mem_singleton, or_iff_left hl]

theorem hotpluggable_right_iff (devhotplug : Option Text) :
    (ifaceIsHotpluggable name.text devhotplug = true ↔
      ∃ file ∈ devhotplug, name.text ∈ file.splitOn '\n') ↔
      ∀ file ∈ devhotplug,
        Clear 256 name.text (name.text ∈ file.splitOn '\n') (file.splitOn '\n') := by
  cases devhotplug with
  | none => simp [ifaceIsHotpluggable]
  | some file =>
      simp only [Option.mem_def, Option.some.injEq, exists_eq_left', forall_eq']
      exact begins_right_iff name (by omega) (fun _ _ => Iff.rfl) id

theorem stab_right_iff (stab : Option Text) :
    (findInStab name.text stab = true ↔ ∃ file ∈ stab, InStab name.text file) ↔
      ∀ file ∈ stab, Clear 128 name.text (InStab name.text file) (stabOutput file) := by
  cases stab with
  | none => simp [findInStab]
  | some file =>
      simp only [Option.mem_def, Option.some.injEq, exists_eq_left', forall_eq']
      exact begins_right_iff name (by omega) (fun l hl => mem_splitOn_stabOutput hl)
        (mem_stabOutput name)

/-! ## Descriptions -/

theorem mem_behindNewlines (h : left ∈ behindNewlines file) : ∃ b, file = b ++ '\n' :: left := by
  induction file with
  | nil => nomatch h
  | cons c t ih =>
      have hlater : left ∈ behindNewlines t → ∃ b, c :: t = b ++ '\n' :: left := by
        intro h
        obtain ⟨b, rfl⟩ := ih h
        exact ⟨c :: b, rfl⟩
      rw [behindNewlines] at h
      split at h
      · next hc =>
          rcases List.mem_cons.1 h with rfl | h
          · exact ⟨[], by rw [hc]; rfl⟩
          · exact hlater h
      · exact hlater h

theorem lineAt_spec (h : lineAt name.text file = some left) :
    left ∈ positions 512 file ∧ ∃ r, left = name.text ++ ':' :: r := by
  obtain ⟨r, hr⟩ := List.isPrefixOf_iff_prefix.1 (List.find?_some h)
  have hleft : left = name.text ++ ':' :: r := by rw [← hr, List.append_assoc]; rfl
  have hne : left ≠ [] := by rw [hleft]; simp
  refine ⟨?_, r, hleft⟩
  rcases List.mem_cons.1 (List.mem_of_find?_eq_some h) with rfl | hmem
  · obtain ⟨fuel, -, hreads⟩ := reads_cons '\n' (n := 511) hne le_rfl
    rw [positions, hreads]
    exact List.mem_cons_self
  · obtain ⟨b, rfl⟩ := mem_behindNewlines hmem
    exact mem_reads '\n' (by omega) hne le_rfl

theorem fgets_line (hfits : name.text.length + 1 ≤ 511) :
    fgets 512 (name.text ++ ':' :: r) = name.text ++ ':' ::
      (piece '\n' (511 - (name.text.length + 1)) r).1.takeWhile (· ≠ nul) := by
  have hnewline : '\n' ∉ name.text ++ [':'] := by simp [name.newline_not_mem]
  have hpiece := piece_isPrefix '\n' hnewline (n := 511) (by simpa using hfits) r
  have hall : ∀ c ∈ name.text ++ [':'], decide (c ≠ nul) = true := by
    intro c hc
    refine decide_eq_true ?_
    rintro rfl
    rcases List.mem_append.1 hc with hc | hc
    · exact name.nul_not_mem hc
    · exact absurd hc (by decide)
  rw [List.append_assoc, List.singleton_append, List.length_append, List.length_singleton]
    at hpiece
  rw [fgets, hpiece, List.takeWhile_append_of_pos hall, List.append_assoc]
  rfl

theorem colon_not_mem_fgets (hfits : 511 < name.text.length + 1) :
    ':' ∉ fgets 512 (name.text ++ ':' :: r) := by
  have htake : (name.text.take 511).length = 511 := by
    rw [List.length_take]
    omega
  have hpiece := piece_full '\n' (fun h => name.newline_not_mem (List.mem_of_mem_take h)) htake
    (name.text.drop 511 ++ ':' :: r)
  rw [← List.append_assoc, List.take_append_drop] at hpiece
  intro hc
  have hmem := (List.takeWhile_prefix _).subset hc
  rw [hpiece] at hmem
  exact name.colon_not_mem (List.mem_of_mem_take hmem)

theorem takeWhile_piece_ne_nil_iff {n : ℕ} :
    (piece '\n' n r).1.takeWhile (· ≠ nul) ≠ [] ↔ 0 < n ∧ ∃ c ∈ r.head?, c ≠ nul := by
  cases n with
  | zero => simp [piece]
  | succ n =>
      cases r with
      | nil => simp [piece]
      | cons c r =>
          have hhead : ∃ t, (piece '\n' (n + 1) (c :: r)).1 = c :: t := by
            rw [piece]
            split
            · exact ⟨[], rfl⟩
            · exact ⟨_, rfl⟩
          obtain ⟨t, ht⟩ := hhead
          rw [ht]
          by_cases hc : c = nul <;> simp [hc]

theorem devnamesLoop_eq_some_iff {iface : Text} {rest : List Text} :
    devnamesLoop iface rest = some left ↔ left ∈ rest ∧ ':' ∈ fgets 512 left ∧
      iface <+: fgets 512 left ∧ ∀ left' ∈ rest.takeWhile (· ≠ left),
        ':' ∈ fgets 512 left' ∧ ¬ iface <+: fgets 512 left' := by
  induction rest with
  | nil => simp [devnamesLoop]
  | cons first rest ih =>
      rw [devnamesLoop]
      by_cases heq : first = left
      · subst heq
        rw [List.takeWhile_cons_of_neg (by simp)]
        by_cases hcolon : ':' ∈ fgets 512 first
        · rw [if_neg (not_not_intro hcolon)]
          by_cases hprefix : iface <+: fgets 512 first
          · rw [if_pos (List.isPrefixOf_iff_prefix.2 hprefix)]
            simp [hcolon, hprefix]
          · rw [if_neg (mt List.isPrefixOf_iff_prefix.1 hprefix), ih]
            exact iff_of_false (fun h => hprefix h.2.2.1) fun h => hprefix h.2.2.1
        · rw [if_pos hcolon]
          exact iff_of_false (by simp) fun h => hcolon h.2.1
      · have hmem : left ∈ first :: rest ↔ left ∈ rest := by
          rw [List.mem_cons, or_iff_right (Ne.symm heq)]
        rw [List.takeWhile_cons_of_pos (by simpa using heq), List.forall_mem_cons, hmem]
        by_cases hcolon : ':' ∈ fgets 512 first
        · rw [if_neg (not_not_intro hcolon)]
          by_cases hprefix : iface <+: fgets 512 first
          · rw [if_pos (List.isPrefixOf_iff_prefix.2 hprefix)]
            exact iff_of_false (by simpa using heq) fun h => h.2.2.2.1.2 hprefix
          · rw [if_neg (mt List.isPrefixOf_iff_prefix.1 hprefix), ih]
            simp only [hcolon, hprefix, not_false_eq_true, and_self, true_and]
        · rw [if_pos hcolon]
          exact iff_of_false (by simp) fun h => hcolon h.2.2.2.1.1

theorem devnamesLoop_eq_none_iff {iface : Text} {rest : List Text} :
    devnamesLoop iface rest = none ↔
      ∀ left ∈ rest.takeWhile (fun left => decide (':' ∈ fgets 512 left)),
        ¬ iface <+: fgets 512 left := by
  induction rest with
  | nil => simp [devnamesLoop]
  | cons first rest ih =>
      rw [devnamesLoop]
      by_cases hcolon : ':' ∈ fgets 512 first
      · rw [if_neg (not_not_intro hcolon), List.takeWhile_cons_of_pos (by simpa using hcolon),
          List.forall_mem_cons, ← ih]
        by_cases hprefix : iface <+: fgets 512 first
        · rw [if_pos (List.isPrefixOf_iff_prefix.2 hprefix)]
          exact iff_of_false (by simp) fun h => h.1 hprefix
        · rw [if_neg (mt List.isPrefixOf_iff_prefix.1 hprefix)]
          exact (and_iff_right hprefix).symm
      · rw [if_pos hcolon, List.takeWhile_cons_of_neg (by simpa using hcolon)]
        simp

/-- The loop ends at the line of the interface if it has one, and its description is defined. -/
structure DevnamesRight (name file : Text) : Prop where
  line : devnamesLoop name (positions 512 file) = lineAt name file
  defined : ∃ result, findInDevnames name (some file) = .ok result

theorem findInDevnames_none (h : devnamesLoop name.text (positions 512 file) = none) :
    findInDevnames name.text (some file) = .ok none := by
  rw [findInDevnames, Option.bind_some, h]

theorem findInDevnames_defined_iff (h : devnamesLoop name.text (positions 512 file) = some left) :
    (∃ result, findInDevnames name.text (some file) = .ok result) ↔ description left ≠ [] := by
  rw [findInDevnames, Option.bind_some, h]
  dsimp only
  split
  · next hempty => exact iff_of_false (fun ⟨_, hr⟩ => nomatch hr) fun hne => hne hempty
  · next hne => exact iff_of_true ⟨_, rfl⟩ hne

theorem devnames_right_iff_clear : DevnamesRight name.text file ↔ ClearDevnames name.text file := by
  rw [ClearDevnames]
  cases hline : lineAt name.text file with
  | none =>
      have hright : DevnamesRight name.text file ↔
          devnamesLoop name.text (positions 512 file) = none :=
        ⟨fun h => h.line.trans hline, fun h => ⟨h.trans hline.symm, none, findInDevnames_none name h⟩⟩
      rw [hright, devnamesLoop_eq_none_iff]
  | some left =>
      obtain ⟨hmem, r, rfl⟩ := lineAt_spec name hline
      have hright : DevnamesRight name.text file ↔
          devnamesLoop name.text (positions 512 file) = some (name.text ++ ':' :: r) ∧
            description (name.text ++ ':' :: r) ≠ [] := by
        constructor
        · intro h
          have hloop := h.line.trans hline
          exact ⟨hloop, (findInDevnames_defined_iff name hloop).1 h.defined⟩
        · rintro ⟨hloop, hne⟩
          exact ⟨hloop.trans hline.symm, (findInDevnames_defined_iff name hloop).2 hne⟩
      have hdrop : (name.text ++ ':' :: r).drop (name.text.length + 1) = r := by simp
      dsimp only
      rw [hright, devnamesLoop_eq_some_iff, and_iff_right hmem, hdrop]
      by_cases hfits : name.text.length + 1 ≤ 511
      · have hread := fgets_line name (r := r) hfits
        have hcolon : ':' ∈ fgets 512 (name.text ++ ':' :: r) := by
          rw [hread]
          exact List.mem_append_right _ List.mem_cons_self
        have hprefix : name.text <+: fgets 512 (name.text ++ ':' :: r) := by
          rw [hread]
          exact List.prefix_append _ _
        have hdesc : description (name.text ++ ':' :: r)
            = (piece '\n' (511 - (name.text.length + 1)) r).1.takeWhile (· ≠ nul) := by
          have hall : ∀ c ∈ name.text, decide (c ≠ ':') = true := fun c hc =>
            decide_eq_true (name.clean c hc).2.2.2
          rw [description, hread, List.dropWhile_append_of_pos hall,
            List.dropWhile_cons_of_neg (by simp), List.tail_cons]
        rw [hdesc, takeWhile_piece_ne_nil_iff, and_iff_right hcolon, and_iff_right hprefix,
          and_comm, and_assoc, Nat.sub_pos_iff_lt]
      · refine iff_of_false (fun h => ?_) fun h => hfits h.1.le
        exact colon_not_mem_fgets name (by omega) h.1.1

/-- For each of the lists, exactly when the answer is the one for the line of the interface. -/
theorem devices_right_iff (devhotplug stab devnames : Option Text) :
    ((ifaceIsHotpluggable name.text devhotplug = true ↔
        ∃ file ∈ devhotplug, name.text ∈ file.splitOn '\n') ↔
      ∀ file ∈ devhotplug,
        Clear 256 name.text (name.text ∈ file.splitOn '\n') (file.splitOn '\n')) ∧
    ((findInStab name.text stab = true ↔ ∃ file ∈ stab, InStab name.text file) ↔
      ∀ file ∈ stab, Clear 128 name.text (InStab name.text file) (stabOutput file)) ∧
    ((∀ file ∈ devnames, DevnamesRight name.text file) ↔
      ∀ file ∈ devnames, ClearDevnames name.text file) :=
  ⟨hotpluggable_right_iff name devhotplug, stab_right_iff name stab,
    forall₂_congr fun _ _ => devnames_right_iff_clear name⟩

/-- The first ethernet card but one. -/
def eth1 : IfName := ⟨"eth1", by decide, by simp [nul]⟩

/-- It is found in lists that have only the eleventh. -/
theorem eth1_found :
    ifaceIsHotpluggable eth1.text (some "eth10\n".toList) = true ∧
      findInStab eth1.text (some "0\tnetwork\tpcnet_cs\t0\teth10\n".toList) = true ∧
      findInDevnames eth1.text (some "eth10:Tulip\n".toList) = .ok (some "Tulip".toList) ∧
      eth1.text ∉ "eth10\n".toList.splitOn '\n' ∧
      lineAt eth1.text "eth10:Tulip\n" = none ∧
      ¬ InStab eth1.text "0\tnetwork\tpcnet_cs\t0\teth10\n" := by
  refine ⟨by decide, by decide, by decide, by decide, by decide, ?_⟩
  rintro ⟨l, hl, -, hfield⟩
  have hlines : busyboxLines "0\tnetwork\tpcnet_cs\t0\teth10\n"
      = ["0\tnetwork\tpcnet_cs\t0\teth10".toList] := by decide
  rw [hlines, List.mem_singleton] at hl
  rw [hl] at hfield
  revert hfield
  decide

end DebianInstaller.Netcfg
