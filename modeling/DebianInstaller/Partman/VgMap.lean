import DebianInstaller.Text
import DebianInstaller.Lib.Buckets

/-!
# Which physical volumes a volume group gets

`auto_lvm_create_vg_map` has a file for each volume group, with a line for each physical volume
it is made on. A line of the recipe gets the first device its name occurs in, whether or not
another line has that device already, and the devices that are in no file then go to the default
volume group. A file whose name begins with a dot is not looked at, and a dot in the name of a
device stands for any character.
-/

namespace DebianInstaller.Partman.AutoLvm

open Text Lib Buckets

variable {before : List Text} {d line : Text}

/-! ## The code -/

/-- Where `key{ name }` stands at the beginning of a text, the name. -/
def itemAt (key line : Text) : Option Text :=
  if key.isPrefixOf line then
    let rest := (line.drop key.length).dropWhile (· == ' ')
    let name := rest.takeWhile fun c => c != ' ' && c != '\x7d'
    if (((rest.drop name.length).dropWhile (· == ' ')).head? = some '\x7d') then some name else none
  else none

/-- `sed -n -e 's!.*key{ *\([^ }]*\) *}.*!\1!p'`: the last one, and nothing without one. -/
def item (key line : Text) : Text := (line.tails.reverse.filterMap (itemAt key)).headD []

def DEFAULT_VG : Text := "@DEFAULT@"

def inVg (line : Text) : Text := item "in_vg\x7b" line

def vgName (line : Text) : Text := item "vg_name\x7b" line

def device (line : Text) : Text := item "device\x7b" line

def orDefault (vg_name : Text) : Text := if vg_name = [] then DEFAULT_VG else vg_name

/-- A character of a pattern: the dot stands for any one. -/
def matchesChar (p c : Char) : Bool := p == '.' || p == c

def matchesStart : Text → Text → Bool
  | [], _ => true
  | _ :: _, [] => false
  | p :: ps, c :: cs => matchesChar p c && matchesStart ps cs

/-- `grep -q "$recipe_device[[:digit:]]*"`: the digits may be none, and what is before and behind
may be anything. -/
def occurs (recipe_device pv_device : Text) : Bool := pv_device.tails.any (matchesStart recipe_device)

/-- `grep -q "^$pv_device$"`, for one line. -/
def matchesLine (pv_device line : Text) : Bool :=
  pv_device.length == line.length && matchesStart pv_device line

/-- What the names of volume groups and the paths of devices are made of: the characters that
the shell takes as they are, and of those that `grep` does not only the dot. -/
def isNameChar (c : Char) : Bool := c.isAlphanum || "+_.-@".toList.contains c

def isPathChar (c : Char) : Bool := c.isAlphanum || "/_.:+-@,=%".toList.contains c

def IsPath (t : Text) : Prop := t.head? = some '/' ∧ ∀ c ∈ t, isPathChar c = true

/-- The lines of `$lvmscheme` and `$pvscheme`, and the devices. -/
structure Scheme where
  lvmscheme : List Text
  pvscheme : List Text
  main_pv : Text
  pv_devices : List Text
  lvm_names : ∀ line ∈ lvmscheme, ∀ c ∈ inVg line, isNameChar c = true
  pv_names : ∀ line ∈ pvscheme, ∀ c ∈ vgName line, isNameChar c = true
  recipe_devices : ∀ line ∈ pvscheme, device line ≠ [] → IsPath (device line)
  main_path : IsPath main_pv
  paths : ∀ pv_device ∈ pv_devices, IsPath pv_device
  distinct : pv_devices.Nodup

/-- The files in `VG_MAP_DIR`. -/
abbrev VgMap := Buckets Text Text

/-- `$VG_MAP_DIR/*` has no names that begin with a dot. -/
def visible (name : Text) : Bool := name.head? != some '.'

/-- `grep -q "^$pv_device$" $VG_MAP_DIR/*` -/
def listed (pv_device : Text) (m : VgMap) : Bool :=
  m.any fun file => visible file.1 && file.2.any (matchesLine pv_device)

namespace Scheme

variable (s : Scheme)

/-- The device of a line: the first one that is found. -/
def find (line : Text) : Option Text :=
  s.pv_devices.find? (occurs (if device line = [] then s.main_pv else device line))

/-- The loop over `$pvscheme`, which bails out where no device is found. -/
def place : List Text → VgMap → Option VgMap
  | [], m => some m
  | line :: lines, m =>
      match s.find line with
      | some pv_device => place lines (put (orDefault (vgName line)) pv_device m)
      | none => none

end Scheme

/-- The loop for the devices that are not used. -/
def addUnused : List Text → VgMap → VgMap
  | [], m => m
  | pv_device :: pv_devices, m =>
      addUnused pv_devices (if listed pv_device m then m else put DEFAULT_VG pv_device m)

/-- Each file has a line. Where there is no file, the pattern itself is taken for one. -/
def ensured (m : VgMap) : Bool :=
  let files := m.filter fun file => visible file.1
  !files.isEmpty && files.all fun file => !file.2.isEmpty

/-- `auto_lvm_create_vg_map`, which leaves a map if it does not bail out. -/
def Scheme.createVgMap (s : Scheme) : Option VgMap :=
  match s.place s.pvscheme (touchAll (s.lvmscheme.map fun line => orDefault (inVg line)) []) with
  | none => none
  | some m =>
      let m := addUnused s.pv_devices m
      if ensured m then some m else none

/-! ## What the map is to be -/

/-- A partition of the disk, or the device itself. -/
def LiesOn (device pv_device : Text) : Prop :=
  ∃ rest, pv_device = device ++ rest ∧ ((∀ c ∈ rest, c.isDigit = true) ∨
    ∃ number, rest = 'p' :: number ∧ isNumber number = true)

namespace Scheme

variable (s : Scheme)

/-- What another line than this one was given. -/
def takenElsewhere (i : Nat) (pv_device : Text) : Prop :=
  ∃ j line, j ≠ i ∧ s.pvscheme[j]? = some line ∧ s.find line = some pv_device

/-- A device stands in one file and there once, a volume group of the recipe has one, and a
line that has a device item has put one of that device into its volume group that no other
line has. -/
structure Ok (m : VgMap) : Prop where
  once : ∀ d ∈ s.pv_devices, m.items.count d = 1
  needed : ∀ line ∈ s.lvmscheme, ∃ d, m.Holds (orDefault (inVg line)) d
  own : ∀ i line, s.pvscheme[i]? = some line → device line ≠ [] →
    ∃ d, s.find line = some d ∧ m.Holds (orDefault (vgName line)) d ∧ LiesOn (device line) d ∧
      ¬ s.takenElsewhere i d

/-- The volume groups and devices of the lines. -/
def taken : List (Text × Text) :=
  s.pvscheme.filterMap fun line => (s.find line).map (Prod.mk (orDefault (vgName line)))

def takenDevices : List Text := s.taken.map Prod.snd

/-- A file that is looked at has a line for this device, or one that the name of the device
stands for as well, when its turn comes. -/
def Seen (before : List Text) (d : Text) : Prop :=
  (∃ p ∈ s.taken, visible p.1 = true ∧ matchesLine d p.2 = true) ∨
    ∃ e ∈ before, e ∉ s.takenDevices ∧ matchesLine d e = true

/-- No two lines are given the same device, and a line with a device item is given one that lies
on it. Besides, the devices that are seen are those that are taken, and a volume group with a
hidden file has a line. -/
structure Apart : Prop where
  distinct : s.takenDevices.Nodup
  lies : ∀ line ∈ s.pvscheme, device line ≠ [] → ∀ d, s.find line = some d → LiesOn (device line) d
  seen : ∀ before d after, s.pv_devices = before ++ d :: after →
    (d ∈ s.takenDevices ↔ s.Seen before d)
  hidden : ∀ line ∈ s.lvmscheme, visible (orDefault (inVg line)) = false →
    orDefault (inVg line) ∈ s.taken.map Prod.fst

end Scheme

/-! ## The lines -/

theorem matchesStart_self (t : Text) : matchesStart t t = true := by
  induction t with
  | nil => rfl
  | cons c t ih => simp [matchesStart, matchesChar, ih]

theorem matchesLine_self (t : Text) : matchesLine t t = true := by
  rw [matchesLine, matchesStart_self, beq_self_eq_true]
  rfl

theorem listed_iff {m : VgMap} : listed d m = true ↔
    ∃ k e, visible k = true ∧ m.Holds k e ∧ matchesLine d e = true := by
  simp only [listed, List.any_eq_true, Bool.and_eq_true]
  constructor
  · rintro ⟨file, hfile, hvisible, e, he, hmatch⟩
    exact ⟨file.1, e, hvisible, ⟨file, hfile, rfl, he⟩, hmatch⟩
  · rintro ⟨k, e, hvisible, ⟨file, hfile, rfl, he⟩, hmatch⟩
    exact ⟨file, hfile, hvisible, e, he, hmatch⟩

namespace Scheme

variable {s : Scheme} {m m' : VgMap}

theorem place_eq {lines : List Text} (h : s.place lines m = some m') :
    m' = putAll (lines.filterMap fun line =>
      (s.find line).map (Prod.mk (orDefault (vgName line)))) m ∧
      ∀ line ∈ lines, ∃ d, s.find line = some d := by
  induction lines generalizing m with
  | nil =>
      rw [place] at h
      exact ⟨(Option.some.inj h).symm, fun line hline => absurd hline List.not_mem_nil⟩
  | cons line lines ih =>
      rw [place] at h
      cases hfind : s.find line with
      | none =>
          rw [hfind] at h
          cases h
      | some d =>
          rw [hfind] at h
          obtain ⟨hm', hlines⟩ := ih h
          refine ⟨?_, List.forall_mem_cons.mpr ⟨⟨d, hfind⟩, hlines⟩⟩
          rw [hm', List.filterMap_cons, hfind]
          rfl

theorem find_mem (h : s.find line = some d) : d ∈ s.pv_devices :=
  List.mem_of_find?_eq_some h

theorem mem_taken {p : Text × Text} : p ∈ s.taken ↔
    ∃ line ∈ s.pvscheme, s.find line = some p.2 ∧ orDefault (vgName line) = p.1 := by
  simp only [taken, List.mem_filterMap, Option.map_eq_some_iff]
  constructor
  · rintro ⟨line, hline, d, hd, rfl⟩
    exact ⟨line, hline, hd, rfl⟩
  · rintro ⟨line, hline, hd, hname⟩
    exact ⟨line, hline, p.2, hd, by rw [hname]⟩

theorem takenDevices_mem (h : d ∈ s.takenDevices) : d ∈ s.pv_devices := by
  obtain ⟨p, hp, rfl⟩ := List.mem_map.mp h
  obtain ⟨line, -, hfind, -⟩ := mem_taken.mp hp
  exact find_mem hfind

end Scheme

/-! ## The devices that are left -/

/-- The devices that come to the default volume group. -/
def unused : List Text → VgMap → List Text
  | [], _ => []
  | d :: ds, m => if listed d m then unused ds m else d :: unused ds (put DEFAULT_VG d m)

theorem addUnused_eq (ds : List Text) (m : VgMap) :
    addUnused ds m = putAll ((unused ds m).map (Prod.mk DEFAULT_VG)) m := by
  induction ds generalizing m with
  | nil => rfl
  | cons d ds ih =>
      rw [addUnused, ih, unused]
      split
      · rfl
      · rfl

theorem unused_sublist (ds : List Text) (m : VgMap) : (unused ds m).Sublist ds := by
  induction ds generalizing m with
  | nil => exact List.Sublist.refl _
  | cons d ds ih =>
      rw [unused]
      split
      · exact (ih m).cons d
      · exact (ih _).cons_cons d

theorem unused_append (ds ds' : List Text) (m : VgMap) :
    unused (ds ++ ds') m = unused ds m ++ unused ds' (addUnused ds m) := by
  induction ds generalizing m with
  | nil => rfl
  | cons d ds ih =>
      rw [List.cons_append, unused, unused, addUnused]
      split
      · rw [ih]
      · rw [ih, List.cons_append]

/-! ## The map -/

namespace Scheme

variable (s : Scheme)

/-- The files before the first device is put into one, and after the loop over the lines. -/
def touched : VgMap := touchAll (s.lvmscheme.map fun line => orDefault (inVg line)) []

def placed : VgMap := putAll s.taken s.touched

def left (ds : List Text) : List Text := unused ds s.placed

variable {s} {m : VgMap}

theorem createVgMap_eq (h : s.createVgMap = some m) : m = addUnused s.pv_devices s.placed ∧
    ensured m = true ∧ ∀ line ∈ s.pvscheme, ∃ d, s.find line = some d := by
  unfold createVgMap at h
  split at h
  · cases h
  · next m' hplace =>
      obtain ⟨rfl, hlines⟩ := place_eq hplace
      dsimp only at h
      split at h
      · next hensured =>
          obtain rfl := Option.some.inj h
          exact ⟨rfl, hensured, hlines⟩
      · cases h

theorem items_touched : s.touched.items = [] := items_touchAll

theorem holds_after {ds : List Text} {k : Text} : (addUnused ds s.placed).Holds k d ↔
    (k, d) ∈ s.taken ∨ (k = DEFAULT_VG ∧ d ∈ s.left ds) := by
  have hnone : ¬ s.touched.Holds k d := fun hholds =>
    List.not_mem_nil (s.items_touched ▸ hholds.mem_items)
  rw [addUnused_eq, holds_putAll, placed, holds_putAll, or_iff_right hnone]
  simp [left, placed, eq_comm, and_comm]

theorem items_after (ds : List Text) :
    (addUnused ds s.placed).items.Perm (s.takenDevices ++ s.left ds) := by
  have hdefault : ((s.left ds).map (Prod.mk DEFAULT_VG)).map Prod.snd = s.left ds := by
    rw [List.map_map]
    exact List.map_id _
  have hplaced := items_putAll s.taken s.touched
  rw [items_touched, List.nil_append] at hplaced
  have hafter := items_putAll ((unused ds s.placed).map (Prod.mk DEFAULT_VG)) s.placed
  rw [← addUnused_eq] at hafter
  refine hafter.trans ?_
  rw [← left, hdefault]
  exact hplaced.append_right _

theorem visible_default : visible DEFAULT_VG = true := by decide

theorem listed_after :
    listed d (addUnused before s.placed) = true ↔
      (∃ p ∈ s.taken, visible p.1 = true ∧ matchesLine d p.2 = true) ∨
        ∃ e ∈ s.left before, matchesLine d e = true := by
  rw [listed_iff]
  constructor
  · rintro ⟨k, e, hvisible, hholds, hmatch⟩
    rcases holds_after.mp hholds with htaken | ⟨rfl, hleft⟩
    · exact .inl ⟨(k, e), htaken, hvisible, hmatch⟩
    · exact .inr ⟨e, hleft, hmatch⟩
  · rintro (⟨p, htaken, hvisible, hmatch⟩ | ⟨e, hleft, hmatch⟩)
    · exact ⟨p.1, p.2, hvisible, holds_after.mpr (.inl htaken), hmatch⟩
    · exact ⟨DEFAULT_VG, e, visible_default, holds_after.mpr (.inr ⟨rfl, hleft⟩), hmatch⟩

section

variable {before after : List Text} {d : Text} (hsplit : s.pv_devices = before ++ d :: after)
include hsplit

theorem not_mem_before : d ∉ before := by
  have hnodup := s.distinct
  rw [hsplit, List.nodup_middle, List.nodup_cons] at hnodup
  exact fun hmem => hnodup.1 (List.mem_append_left _ hmem)

theorem mem_left_iff : d ∈ s.left s.pv_devices ↔
    listed d (addUnused before s.placed) = false := by
  have hnodup := s.distinct
  rw [hsplit, List.nodup_middle, List.nodup_cons] at hnodup
  have hbefore : d ∉ unused before s.placed := fun hmem =>
    hnodup.1 (List.mem_append_left _ ((unused_sublist _ _).subset hmem))
  have hafter : ∀ m, d ∉ unused after m := fun m hmem =>
    hnodup.1 (List.mem_append_right _ ((unused_sublist _ _).subset hmem))
  rw [left, hsplit, unused_append, List.mem_append, or_iff_right hbefore, unused]
  cases hlisted : listed d (addUnused before s.placed) with
  | true => exact iff_of_false (hafter _) (by decide)
  | false => exact iff_of_true List.mem_cons_self rfl

theorem mem_left_before {e : Text} (he : e ∈ before) :
    e ∈ s.left before ↔ e ∈ s.left s.pv_devices := by
  obtain ⟨before', after', rfl⟩ := List.append_of_mem he
  have hwhole : s.pv_devices = before' ++ e :: (after' ++ d :: after) := by
    rw [hsplit, List.append_assoc, List.cons_append]
  have hnodup := s.distinct
  rw [hwhole, List.nodup_middle, List.nodup_cons] at hnodup
  have hlater : ∀ m, e ∉ unused (d :: after) m := fun m hmem =>
    hnodup.1 (List.mem_append_right _ (List.mem_append_right _ ((unused_sublist _ _).subset hmem)))
  rw [left, left, hsplit, unused_append (before' ++ e :: after'), List.mem_append,
    or_iff_left (hlater _)]

end

/-- If exactly the devices that are not taken are left, those that are listed are those that are
seen. -/
theorem listed_iff_seen (h : ∀ e ∈ before, e ∈ s.left before ↔ e ∉ s.takenDevices) :
    listed d (addUnused before s.placed) = true ↔ s.Seen before d := by
  rw [listed_after, Seen]
  refine or_congr_right ⟨?_, ?_⟩
  · rintro ⟨e, hleft, hmatch⟩
    have hbefore := (unused_sublist _ _).subset hleft
    exact ⟨e, hbefore, (h e hbefore).mp hleft, hmatch⟩
  · rintro ⟨e, hbefore, htaken, hmatch⟩
    exact ⟨e, (h e hbefore).mpr htaken, hmatch⟩

/-- A device stands in one file and there once exactly if it is taken once and not left, or left
and not taken. -/
theorem once_iff : (∀ d ∈ s.pv_devices, (addUnused s.pv_devices s.placed).items.count d = 1) ↔
    s.takenDevices.Nodup ∧ ∀ d ∈ s.pv_devices, (d ∈ s.left s.pv_devices ↔ d ∉ s.takenDevices) := by
  have hcount : ∀ d, (addUnused s.pv_devices s.placed).items.count d =
      s.takenDevices.count d + (s.left s.pv_devices).count d := fun d => by
    rw [(items_after s.pv_devices).count_eq, List.count_append]
  have hleft : (s.left s.pv_devices).Nodup := s.distinct.sublist (unused_sublist _ _)
  constructor
  · intro h
    have hone : ∀ d ∈ s.pv_devices, s.takenDevices.count d + (s.left s.pv_devices).count d = 1 :=
      fun d hd => (hcount d).symm.trans (h d hd)
    refine ⟨List.nodup_iff_count_le_one.mpr fun d => ?_, fun d hd => ?_⟩
    · by_cases hd : d ∈ s.takenDevices
      · have hsum := hone d (takenDevices_mem hd)
        omega
      · rw [List.count_eq_zero_of_not_mem hd]
        exact Nat.zero_le 1
    · have hsum := hone d hd
      rw [← List.count_pos_iff, ← List.count_pos_iff]
      omega
  · rintro ⟨htaken, h⟩ d hd
    rw [hcount]
    by_cases hmem : d ∈ s.takenDevices
    · rw [List.count_eq_one_of_mem htaken hmem,
        List.count_eq_zero_of_not_mem fun hl => (h d hd).mp hl hmem]
    · rw [List.count_eq_zero_of_not_mem hmem,
        List.count_eq_one_of_mem hleft ((h d hd).mpr hmem)]

/-- The devices that are left are those that are not taken exactly if those that are taken are
seen. -/
theorem left_iff_seen : (∀ d ∈ s.pv_devices, (d ∈ s.left s.pv_devices ↔ d ∉ s.takenDevices)) ↔
    ∀ before d after, s.pv_devices = before ++ d :: after →
      (d ∈ s.takenDevices ↔ s.Seen before d) := by
  constructor
  · intro h before d after hsplit
    have hbefore : ∀ e ∈ before, e ∈ s.left before ↔ e ∉ s.takenDevices := by
      intro e he
      rw [mem_left_before hsplit he]
      exact h e (hsplit ▸ List.mem_append_left _ he)
    have hd := h d (hsplit ▸ List.mem_append_right _ List.mem_cons_self)
    rw [← listed_iff_seen hbefore, ← not_iff_not, ← hd, mem_left_iff hsplit, Bool.not_eq_true]
  · intro h
    -- the induction is on the devices whose turn has come
    have hprefix : ∀ before after, s.pv_devices = before ++ after →
        ∀ e ∈ before, e ∈ s.left s.pv_devices ↔ e ∉ s.takenDevices := by
      intro before
      induction before using List.reverseRecOn with
      | nil => exact fun _ _ e he => absurd he List.not_mem_nil
      | append_singleton before d ih =>
          intro after hwhole
          have hsplit : s.pv_devices = before ++ d :: after := by
            rw [hwhole, List.append_assoc, List.singleton_append]
          have hearlier := ih (d :: after) hsplit
          have hbefore : ∀ e ∈ before, e ∈ s.left before ↔ e ∉ s.takenDevices := fun e he =>
            (mem_left_before hsplit he).trans (hearlier e he)
          intro e he
          rcases List.mem_append.mp he with he | he
          · exact hearlier e he
          · rw [List.mem_singleton.mp he, mem_left_iff hsplit, h before d after hsplit,
              ← listed_iff_seen hbefore, Bool.not_eq_true]
    exact hprefix s.pv_devices [] (List.append_nil _).symm

theorem needed_iff (h : s.createVgMap = some m) :
    (∀ line ∈ s.lvmscheme, ∃ d, m.Holds (orDefault (inVg line)) d) ↔
      ∀ line ∈ s.lvmscheme, visible (orDefault (inVg line)) = false →
        orDefault (inVg line) ∈ s.taken.map Prod.fst := by
  obtain ⟨rfl, hensured, -⟩ := createVgMap_eq h
  refine forall₂_congr fun line hline => ?_
  generalize hk : orDefault (inVg line) = k
  have htouched : k ∈ s.touched.names := mem_names_touchAll.mpr
    (.inr (List.mem_map.mpr ⟨line, hline, hk⟩))
  have hname : k ∈ (addUnused s.pv_devices s.placed).names := by
    rw [addUnused_eq]
    exact mem_names_putAll.mpr (.inl (mem_names_putAll.mpr (.inl htouched)))
  by_cases hvisible : visible k = true
  · refine iff_of_true ?_ fun hhidden => by rw [hvisible] at hhidden; cases hhidden
    obtain ⟨file, hfile, hfk⟩ := List.mem_map.mp hname
    unfold ensured at hensured
    have hall := List.all_eq_true.mp (Bool.and_eq_true_iff.mp hensured).2 file
      (List.mem_filter.mpr ⟨hfile, by rw [hfk]; exact hvisible⟩)
    obtain ⟨d, hd⟩ := List.exists_mem_of_ne_nil file.2 (by simpa using hall)
    exact ⟨d, file, hfile, hfk, hd⟩
  · rw [Bool.not_eq_true] at hvisible
    rw [imp_iff_right hvisible]
    constructor
    · rintro ⟨d, hholds⟩
      rcases holds_after.mp hholds with htaken | ⟨rfl, -⟩
      · exact List.mem_map.mpr ⟨_, htaken, rfl⟩
      · rw [visible_default] at hvisible
        cases hvisible
    · intro hmem
      obtain ⟨p, hp, rfl⟩ := List.mem_map.mp hmem
      exact ⟨p.2, holds_after.mpr (.inl hp)⟩

theorem not_takenElsewhere (hdistinct : s.takenDevices.Nodup) {i : Nat}
    (hline : s.pvscheme[i]? = some line) (hd : s.find line = some d) : ¬ s.takenElsewhere i d := by
  rintro ⟨j, line', hij, hline', hd'⟩
  have hpairwise : s.pvscheme.Pairwise fun a b => ∀ e, s.find a = some e → s.find b ≠ some e := by
    rw [takenDevices, taken, List.map_filterMap, List.Nodup, List.pairwise_filterMap] at hdistinct
    refine hdistinct.imp fun hne e ha hb => ?_
    exact hne e (by rw [ha]; rfl) e (by rw [hb]; rfl) rfl
  rw [List.pairwise_iff_getElem] at hpairwise
  obtain ⟨hi, rfl⟩ := List.getElem?_eq_some_iff.mp hline
  obtain ⟨hj, rfl⟩ := List.getElem?_eq_some_iff.mp hline'
  rcases Nat.lt_or_gt_of_ne hij with hlt | hgt
  · exact hpairwise j i hj hi hlt d hd' hd
  · exact hpairwise i j hi hj hgt d hd hd'

/-- Where it does not bail out the map is as it should be exactly if the lines are given different
devices, and one of its own where a line names one, provided that no name with a dot gets in the
way. -/
theorem createVgMap_ok_iff (h : s.createVgMap = some m) : s.Ok m ↔ s.Apart := by
  have hneeded := needed_iff h
  obtain ⟨rfl, -, hlines⟩ := createVgMap_eq h
  constructor
  · intro hok
    obtain ⟨hdistinct, hleft⟩ := once_iff.mp hok.once
    refine ⟨hdistinct, fun line hline hne d hd => ?_, left_iff_seen.mp hleft,
      hneeded.mp hok.needed⟩
    obtain ⟨i, hi⟩ := List.mem_iff_getElem?.mp hline
    obtain ⟨d', hd', -, hlies, -⟩ := hok.own i line hi hne
    obtain rfl := Option.some.inj (hd.symm.trans hd')
    exact hlies
  · intro hapart
    refine ⟨once_iff.mpr ⟨hapart.distinct, left_iff_seen.mpr hapart.seen⟩,
      hneeded.mpr hapart.hidden, fun i line hi hne => ?_⟩
    have hline := List.mem_of_getElem? hi
    obtain ⟨d, hd⟩ := hlines line hline
    have htaken : (orDefault (vgName line), d) ∈ s.taken := mem_taken.mpr ⟨line, hline, hd, rfl⟩
    exact ⟨d, hd, holds_after.mpr (.inl htaken), hapart.lies line hline hne d hd,
      not_takenElsewhere hapart.distinct hi hd⟩

/-- No file is hidden, and the name of a device stands for no other. -/
structure Plain (s : Scheme) : Prop where
  lvm : ∀ line ∈ s.lvmscheme, visible (orDefault (inVg line)) = true
  pv : ∀ line ∈ s.pvscheme, visible (orDefault (vgName line)) = true
  devices : ∀ d ∈ s.pv_devices, ∀ e ∈ s.pv_devices, matchesLine d e = true → d = e

theorem Plain.apart_iff (hplain : s.Plain) : s.Apart ↔ s.takenDevices.Nodup ∧
    ∀ line ∈ s.pvscheme, device line ≠ [] → ∀ d, s.find line = some d →
      LiesOn (device line) d := by
  refine ⟨fun h => ⟨h.distinct, h.lies⟩, fun h => ⟨h.1, h.2, ?_, fun line hline hhidden => ?_⟩⟩
  · intro before d after hsplit
    have hd : d ∈ s.pv_devices := hsplit ▸ List.mem_append_right _ List.mem_cons_self
    constructor
    · intro htaken
      obtain ⟨p, hp, rfl⟩ := List.mem_map.mp htaken
      obtain ⟨line, hline, -, hname⟩ := mem_taken.mp hp
      exact .inl ⟨p, hp, hname ▸ hplain.pv line hline, matchesLine_self p.2⟩
    · rintro (⟨p, hp, -, hmatch⟩ | ⟨e, he, -, hmatch⟩)
      · have hmem : p.2 ∈ s.takenDevices := List.mem_map.mpr ⟨p, hp, rfl⟩
        rwa [hplain.devices d hd p.2 (takenDevices_mem hmem) hmatch]
      · have heq := hplain.devices d hd e (hsplit ▸ List.mem_append_left _ he) hmatch
        exact absurd (heq ▸ he) (not_mem_before hsplit)
  · rw [hplain.lvm line hline] at hhidden
    cases hhidden

/-! ## Two disks, and one -/

def isPath (t : Text) : Bool := t.head? == some '/' && t.all isPathChar

theorem isPath_spec {t : Text} (h : isPath t = true) : IsPath t := by
  obtain ⟨hhead, hall⟩ := Bool.and_eq_true_iff.mp h
  exact ⟨eq_of_beq hhead, List.all_eq_true.mp hall⟩

/-- Two volume groups. -/
def groups : List Text := ["in_vg\x7b a \x7d", "in_vg\x7b b \x7d"]

/-- One physical volume for each of them, on these devices. -/
def volumes (first second : Text) : List Text :=
  ["device\x7b " ++ first ++ " \x7d vg_name\x7b a \x7d",
    "device\x7b " ++ second ++ " \x7d vg_name\x7b b \x7d"]

/-- Two volume groups, one physical volume for each of them on the first and on the second disk,
and two devices. -/
def twoGroups (first second pv pv' : Text)
    (hdisks : ∀ line ∈ volumes first second, (vgName line).all isNameChar = true ∧
      isPath (device line) = true)
    (hmain : isPath first = true) (hpvs : ∀ t ∈ [pv, pv'], isPath t = true) (hne : [pv, pv'].Nodup) :
    Scheme where
  lvmscheme := groups
  pvscheme := volumes first second
  main_pv := first
  pv_devices := [pv, pv']
  lvm_names line hline := List.all_eq_true.mp (List.all_eq_true.mp
    (by decide : groups.all (fun line => (inVg line).all isNameChar) = true) line hline)
  pv_names line hline := List.all_eq_true.mp (hdisks line hline).1
  recipe_devices line hline _ := isPath_spec (hdisks line hline).2
  main_path := isPath_spec hmain
  paths t ht := isPath_spec (hpvs t ht)
  distinct := hne

/-- Each on its disk. -/
def twoDisks : Scheme :=
  twoGroups "/dev/sda" "/dev/sdb" "/dev/sda5" "/dev/sdb1"
    (by decide) (by decide) (by decide) (by decide)

theorem twoDisks_ok : ∃ m, twoDisks.createVgMap = some m ∧ twoDisks.Ok m := by
  have hmap : twoDisks.createVgMap = some [("a".toList, ["/dev/sda5".toList]),
      ("b".toList, ["/dev/sdb1".toList])] := by decide
  refine ⟨_, hmap, (createVgMap_ok_iff hmap).mpr ?_⟩
  have hplain : twoDisks.Plain := by
    refine ⟨List.all_eq_true.mp (by decide), List.all_eq_true.mp (by decide), fun d hd e he h => ?_⟩
    have hall := List.all_eq_true.mp (List.all_eq_true.mp (by decide : twoDisks.pv_devices.all
      (fun d => twoDisks.pv_devices.all fun e => !matchesLine d e || d == e) = true) d hd) e he
    rw [h] at hall
    exact eq_of_beq hall
  refine hplain.apart_iff.mpr ⟨by decide, fun line hline _ d hd => ?_⟩
  have hline : line = twoDisks.pvscheme[0] ∨ line = twoDisks.pvscheme[1] := by
    simpa [twoDisks, twoGroups, volumes] using hline
  rcases hline with rfl | rfl
  · obtain rfl : "/dev/sda5".toList = d := Option.some.inj
      ((by decide : twoDisks.find twoDisks.pvscheme[0] = some "/dev/sda5".toList).symm.trans hd)
    exact ⟨"5".toList, by decide, .inl (List.all_eq_true.mp (by decide))⟩
  · obtain rfl : "/dev/sdb1".toList = d := Option.some.inj
      ((by decide : twoDisks.find twoDisks.pvscheme[1] = some "/dev/sdb1".toList).symm.trans hd)
    exact ⟨"1".toList, by decide, .inl (List.all_eq_true.mp (by decide))⟩

/-- Both on one. -/
def oneDisk : Scheme :=
  twoGroups "/dev/sda" "/dev/sda" "/dev/sda5" "/dev/sda6"
    (by decide) (by decide) (by decide) (by decide)

/-- The first of the two devices is given to both of the lines. -/
theorem oneDisk_shared : oneDisk.createVgMap = some [("a".toList, ["/dev/sda5".toList]),
      ("b".toList, ["/dev/sda5".toList]), (DEFAULT_VG, ["/dev/sda6".toList])] ∧
    ¬ oneDisk.Ok [("a", ["/dev/sda5"]), ("b", ["/dev/sda5"]),
      (DEFAULT_VG, ["/dev/sda6"])] := by
  refine ⟨by decide, fun h => ?_⟩
  have hcount := h.once "/dev/sda5" List.mem_cons_self
  revert hcount
  decide

end Scheme

end DebianInstaller.Partman.AutoLvm
