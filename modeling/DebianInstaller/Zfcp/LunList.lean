import DebianInstaller.Packages.Tree
import DebianInstaller.Zfcp.DeviceForms

/-!
# The list of LUNs that is offered

`build_lun_list` is called for each LUN in the tree and adds it to a text in a buffer of
`MAX_LUN_LIST_SIZE` bytes. `snprintf` is given the space that is left. `strncat` is given the
size of the whole buffer; that number bounds what is appended and not where it goes, so once the
text fills the buffer the comma takes the place of the byte that ended it and a zero byte is
written behind the buffer.
-/

namespace DebianInstaller.Zfcp

open Packages (DiTree)
open Text

variable {luns : List ZfcpLunDevid} {pieces : List Text} {t : Text}

/-! ## Memory -/

/-- The memory from the buffer on, and the places in it that have been written to. -/
structure Memory where
  bytes : Text
  written : List ℕ

variable {m : Memory}

namespace Memory

def put (m : Memory) (i : ℕ) (c : Char) : Memory :=
  { bytes := m.bytes.set i c, written := i :: m.written }

def store (m : Memory) (i : ℕ) : Text → Memory
  | [] => m
  | c :: t => (m.put i c).store (i + 1) t

/-- The string that is in the buffer. -/
def string (m : Memory) : Text := m.bytes.takeWhile (· ≠ nul)

def strnlen (m : Memory) (maxlen : ℕ) : ℕ := ((m.bytes.take maxlen).takeWhile (· ≠ nul)).length

def strncat (m : Memory) (src : Text) (n : ℕ) : Memory :=
  m.store m.string.length (src.take n ++ [nul])

/-- `snprintf (list + len, size, …)` -/
def snprintf (m : Memory) (len size : ℕ) (text : Text) : Memory :=
  if size = 0 then m else m.store len (text.take (size - 1) ++ [nul])

end Memory

/-! ## zfcp-config.c -/

def maxLunListSize : ℕ := 2048

/-- The text of one LUN in the list. -/
def lunEntry (lun : ZfcpLunDevid) : Text := zfcpLunToStr lun.wwpn lun.lun

/-- `build_lun_list` -/
def buildLunList (list : Memory) (lun : ZfcpLunDevid) : Memory :=
  let list := if list.bytes.head? = some nul then list else list.strncat [','] maxLunListSize
  let len := list.strnlen maxLunListSize
  if len = maxLunListSize then list
  else list.snprintf len (maxLunListSize - len) (lunEntry lun)

/-- The bytes of an id, from the first one on. -/
def ZfcpLunDevid.number (d : ZfcpLunDevid) : ℕ :=
  (d.fcpDev.cssid ++ d.fcpDev.ssid ++ d.fcpDev.devno ++ d.wwpn ++ d.lun).toNat

/-- `zfcp_lun_cmp_devids`, which is `memcmp` on the packed ids. -/
def zfcpLunCmpDevids (a b : ZfcpLunDevid) : ℤ :=
  if a.number = b.number then 0 else if a.number < b.number then -1 else 1

variable {ν : Type}

/-- The list that `add_zfcp_luns_user` makes for the question, with other memory behind it. -/
def lunList (tree : DiTree ZfcpLunDevid ν) (beyond : Text) : Memory :=
  tree.foreach.foldl (fun list entry => buildLunList list entry.1)
    { bytes := List.replicate maxLunListSize nul ++ beyond, written := [] }

/-- The choices that a text with commas stands for. -/
def choices (list : Text) : List Text := if list = [] then [] else list.splitOn ','

/-- Nothing has been written behind the buffer. -/
def Memory.Inside (m : Memory) : Prop := ∀ i ∈ m.written, i < maxLunListSize

/-- Each choice is a LUN of the tree, from its first digit to its last. -/
def Complete (tree : DiTree ZfcpLunDevid ν) (list : Text) : Prop :=
  ∀ e ∈ choices list, ∃ lun ∈ tree.foreach.map Prod.fst, e = lunEntry lun

/-! ## Writing -/

theorem Memory.written_store (m : Memory) (i : ℕ) (t : Text) (j : ℕ) :
    j ∈ (m.store i t).written ↔ j ∈ m.written ∨ i ≤ j ∧ j < i + t.length := by
  induction t generalizing m i with
  | nil => exact ⟨.inl, fun h => h.elim id fun h => absurd h.2 (by simpa using h.1)⟩
  | cons c t ih =>
      have harith : j = i ∨ i + 1 ≤ j ∧ j < i + 1 + t.length ↔
          i ≤ j ∧ j < i + (t.length + 1) := by
        omega
      rw [Memory.store, ih, Memory.put, List.mem_cons, List.length_cons, ← harith]
      tauto

theorem Memory.bytes_store (m : Memory) {a old b : Text} (h : m.bytes = a ++ (old ++ b))
    (hlength : old.length = t.length) : (m.store a.length t).bytes = a ++ (t ++ b) := by
  induction t generalizing m a old with
  | nil =>
      obtain rfl := List.length_eq_zero_iff.1 hlength
      exact h
  | cons c t ih =>
      match old, hlength with
      | d :: old, hlength =>
          have hput : (m.put a.length c).bytes = (a ++ [c]) ++ (old ++ b) := by
            rw [Memory.put, h]
            simp
          have hrest := ih (m.put a.length c) hput (Nat.succ.inj hlength)
          rw [List.length_append, List.length_singleton] at hrest
          rw [Memory.store, hrest]
          simp

/-- The buffer holds this string, and the bytes that follow are still zero. -/
structure Holds (m : Memory) (t : Text) : Prop where
  bytes : ∃ beyond, m.bytes = t ++ (List.replicate (maxLunListSize - t.length) nul ++ beyond)
  short : t.length < maxLunListSize
  ends : nul ∉ t
  inside : m.Inside

theorem Holds.bytes_nul (h : Holds m t) : ∃ rest, m.bytes = t ++ nul :: rest := by
  obtain ⟨beyond, hbytes⟩ := h.bytes
  obtain ⟨k, hk⟩ : ∃ k, maxLunListSize - t.length = k + 1 :=
    ⟨maxLunListSize - t.length - 1, by have := h.short; omega⟩
  rw [hk, List.replicate_succ] at hbytes
  exact ⟨_, hbytes⟩

theorem takeWhile_nul (h : nul ∉ t) (rest : Text) : (t ++ nul :: rest).takeWhile (· ≠ nul) = t := by
  rw [List.takeWhile_append_of_pos fun c hc => by
    simpa using fun heq : c = nul => h (heq ▸ hc)]
  simp

theorem Holds.string (h : Holds m t) : m.string = t := by
  obtain ⟨rest, hbytes⟩ := h.bytes_nul
  rw [Memory.string, hbytes, takeWhile_nul h.ends]

theorem Holds.strnlen (h : Holds m t) : m.strnlen maxLunListSize = t.length := by
  obtain ⟨rest, hbytes⟩ := h.bytes_nul
  have hshort := h.short
  obtain ⟨k, hk⟩ : ∃ k, maxLunListSize - t.length = k + 1 :=
    ⟨maxLunListSize - t.length - 1, by omega⟩
  rw [Memory.strnlen, hbytes, List.take_append, List.take_of_length_le (by omega), hk,
    List.take_succ_cons, takeWhile_nul h.ends]

theorem Holds.store {u : Text} (h : Holds m t) (hu : nul ∉ u)
    (hfits : t.length + u.length < maxLunListSize) :
    Holds (m.store t.length (u ++ [nul])) (t ++ u) := by
  obtain ⟨beyond, hbytes⟩ := h.bytes
  have hzeros : List.replicate (maxLunListSize - t.length) nul =
      List.replicate (u.length + 1) nul ++
        List.replicate (maxLunListSize - t.length - (u.length + 1)) nul := by
    rw [List.replicate_append_replicate]
    congr 1
    omega
  rw [hzeros, List.append_assoc] at hbytes
  have hstore := m.bytes_store hbytes (t := u ++ [nul]) (by simp)
  refine ⟨⟨beyond, ?_⟩, ?_, ?_, fun i hi => ?_⟩
  · rw [hstore, List.length_append]
    have hsub : maxLunListSize - (t.length + u.length) =
        (maxLunListSize - t.length - (u.length + 1)) + 1 := by omega
    rw [hsub, List.replicate_succ]
    simp
  · rw [List.length_append]
    exact hfits
  · exact fun hmem => (List.mem_append.1 hmem).elim h.ends hu
  · rcases (m.written_store _ _ i).1 hi with hi | ⟨-, hi⟩
    · exact h.inside i hi
    · rw [List.length_append, List.length_singleton] at hi
      omega

/-! ## One LUN -/

theorem lunEntry_chars (lun : ZfcpLunDevid) : ∀ c ∈ lunEntry lun, c ≠ nul ∧ c ≠ ',' := by
  obtain ⟨-, hwwpn, -⟩ := padded_spec (n := 16) lun.wwpn.isLt (by decide)
  obtain ⟨-, hlun, -⟩ := padded_spec (n := 16) lun.lun.isLt (by decide)
  have hhex : ∀ {c : Char}, Netcfg.isHex c = true → c ≠ nul ∧ c ≠ ',' := by
    intro c hc
    refine ⟨?_, ?_⟩
    · rintro rfl
      exact absurd hc (by decide)
    · rintro rfl
      exact absurd hc (by decide)
  intro c hc
  simp only [lunEntry, zfcpLunToStr, List.mem_cons, List.mem_append] at hc
  rcases hc with rfl | rfl | hc | rfl | rfl | rfl | hc
  · exact ⟨by decide, by decide⟩
  · exact ⟨by decide, by decide⟩
  · exact hhex (hwwpn c hc)
  · exact ⟨by decide, by decide⟩
  · exact ⟨by decide, by decide⟩
  · exact ⟨by decide, by decide⟩
  · exact hhex (hlun c hc)

theorem length_lunEntry (lun : ZfcpLunDevid) : (lunEntry lun).length = 37 := by
  obtain ⟨hwwpn, -, -⟩ := padded_spec (n := 16) lun.wwpn.isLt (by decide)
  obtain ⟨hlun, -, -⟩ := padded_spec (n := 16) lun.lun.isLt (by decide)
  simp only [lunEntry, zfcpLunToStr, List.length_cons, List.length_append, hwwpn, hlun]

theorem lunEntry_ne_nil (lun : ZfcpLunDevid) : lunEntry lun ≠ [] := by
  rw [← List.length_pos_iff_ne_nil, length_lunEntry]
  decide

/-- What stands before the next entry. -/
def separated (t : Text) : Text := if t = [] then [] else t ++ [',']

theorem Holds.head (h : Holds m t) : m.bytes.head? = some nul ↔ t = [] := by
  obtain ⟨rest, hbytes⟩ := h.bytes_nul
  rw [hbytes]
  cases t with
  | nil => exact iff_of_true rfl rfl
  | cons c t =>
      refine iff_of_false (fun hc => ?_) (by simp)
      have hnul : c = nul := Option.some.inj hc
      exact h.ends (hnul ▸ List.mem_cons_self)

theorem Holds.comma (h : Holds m t) (hroom : t.length + 1 < maxLunListSize) :
    Holds (if m.bytes.head? = some nul then m else m.strncat [','] maxLunListSize)
      (separated t) := by
  unfold separated
  by_cases ht : t = []
  · rw [if_pos (h.head.2 ht), if_pos ht, ← ht]
    exact h
  · rw [if_neg fun hnul => ht (h.head.1 hnul), if_neg ht, Memory.strncat, h.string]
    exact h.store (by decide) hroom

theorem Holds.buildLunList (h : Holds m t) (lun : ZfcpLunDevid)
    (hroom : t.length + 1 < maxLunListSize) :
    Holds (buildLunList m lun)
      (separated t ++ (lunEntry lun).take (maxLunListSize - (separated t).length - 1)) := by
  have hcomma := h.comma hroom
  have hlen := hcomma.strnlen
  have hshort := hcomma.short
  unfold Zfcp.buildLunList
  simp only [hlen]
  rw [if_neg (by omega), Memory.snprintf, if_neg (by omega)]
  refine hcomma.store (fun hmem => ?_) ?_
  · exact (lunEntry_chars lun _ (List.mem_of_mem_take hmem)).1 rfl
  · have hle := List.length_take_le (maxLunListSize - (separated t).length - 1) (lunEntry lun)
    omega

theorem Holds.overrun (h : Holds m t) (lun : ZfcpLunDevid) (hfull : t.length + 1 = maxLunListSize) :
    maxLunListSize ∈ (Zfcp.buildLunList m lun).written := by
  have hne : t ≠ [] := by
    rintro rfl
    exact absurd hfull (by decide)
  have hcat : maxLunListSize ∈ (m.strncat [','] maxLunListSize).written := by
    rw [Memory.strncat, h.string, Memory.written_store]
    right
    rw [List.length_append, List.length_singleton]
    simp only [maxLunListSize] at hfull ⊢
    simp only [List.take_succ_cons, List.take_nil, List.length_singleton]
    omega
  unfold Zfcp.buildLunList
  rw [if_neg fun hnul => hne (h.head.1 hnul)]
  simp only []
  split
  · exact hcat
  · unfold Memory.snprintf
    split
    · exact hcat
    · exact (Memory.written_store _ _ _ _).2 (.inl hcat)

theorem written_buildLunList (m : Memory) (lun : ZfcpLunDevid) {i : ℕ} (h : i ∈ m.written) :
    i ∈ (Zfcp.buildLunList m lun).written := by
  have hfirst : i ∈ (if m.bytes.head? = some nul then m
      else m.strncat [','] maxLunListSize).written := by
    split
    · exact h
    · exact (Memory.written_store _ _ _ _).2 (.inl h)
  unfold Zfcp.buildLunList
  simp only []
  generalize (if m.bytes.head? = some nul then m
    else m.strncat [','] maxLunListSize) = list at hfirst ⊢
  split
  · exact hfirst
  · unfold Memory.snprintf
    split
    · exact hfirst
    · exact (Memory.written_store _ _ _ _).2 (.inl hfirst)

/-! ## All LUNs -/

theorem entries_ne_nil : ∀ p ∈ luns.map lunEntry, p ≠ [] := by
  intro p hp
  obtain ⟨lun, -, rfl⟩ := List.mem_map.1 hp
  exact lunEntry_ne_nil lun

/-- The texts with commas between them. -/
def joined (pieces : List Text) : Text := [','].intercalate pieces

theorem joined_ne_nil (hne : pieces ≠ []) (h : ∀ p ∈ pieces, p ≠ []) : joined pieces ≠ [] := by
  match pieces, hne with
  | [p], _ =>
      rw [joined, List.intercalate_singleton]
      exact h p List.mem_cons_self
  | p :: q :: pieces, _ =>
      rw [joined, List.intercalate_cons_cons]
      simp

theorem joined_append (hne : pieces ≠ []) (p : Text) :
    joined (pieces ++ [p]) = joined pieces ++ ',' :: p := by
  induction pieces with
  | nil => exact absurd rfl hne
  | cons q pieces ih =>
      by_cases hnil : pieces = []
      · rw [hnil]
        simp [joined]
      · have hrest := ih hnil
        unfold joined at hrest ⊢
        rw [List.cons_append, List.intercalate_cons_of_ne_nil (by simp), hrest,
          List.intercalate_cons_of_ne_nil hnil, ← List.append_assoc]

theorem joined_concat (h : ∀ p ∈ pieces, p ≠ []) (p : Text) :
    joined (pieces ++ [p]) = separated (joined pieces) ++ p := by
  by_cases hne : pieces = []
  · rw [hne, List.nil_append, joined, List.intercalate_singleton]
    rfl
  · rw [joined_append hne, separated, if_neg (joined_ne_nil hne h), List.append_assoc]
    rfl

theorem choices_joined (h : ∀ p ∈ pieces, p ≠ []) (hcomma : ∀ p ∈ pieces, ',' ∉ p) :
    choices (joined pieces) = pieces := by
  by_cases hne : pieces = []
  · rw [hne]
    rfl
  · rw [choices, if_neg (joined_ne_nil hne h), joined, List.splitOn_intercalate ',' hcomma hne]

theorem comma_not_mem_entries : ∀ p ∈ luns.map lunEntry, ',' ∉ p := by
  intro p hp
  obtain ⟨lun, -, rfl⟩ := List.mem_map.1 hp
  exact fun hc => (lunEntry_chars lun _ hc).2 rfl

theorem length_joined (luns : List ZfcpLunDevid) :
    (joined (luns.map lunEntry)).length = 38 * luns.length - 1 := by
  induction luns using List.reverseRecOn with
  | nil => rfl
  | append_singleton luns lun ih =>
      rw [List.map_append, List.map_singleton, joined_concat entries_ne_nil, List.length_append,
        length_lunEntry, List.length_append, List.length_singleton, separated]
      cases luns with
      | nil => rfl
      | cons first luns =>
          rw [if_neg (joined_ne_nil (by simp) entries_ne_nil), List.length_append, ih,
            List.length_singleton, List.length_cons]
          omega

theorem holds_entries (h : Holds m []) (luns : List ZfcpLunDevid) (hroom : luns.length ≤ 53) :
    Holds (luns.foldl buildLunList m) (joined (luns.map lunEntry)) := by
  induction luns using List.reverseRecOn with
  | nil => exact h
  | append_singleton luns lun ih =>
      rw [List.length_append, List.length_singleton] at hroom
      have hbefore := ih (by omega)
      have hlength := length_joined luns
      have hsep : (separated (joined (luns.map lunEntry))).length ≤ 38 * luns.length := by
        unfold separated
        split
        · exact Nat.zero_le _
        · next hne =>
            have hpos := List.length_pos_iff_ne_nil.2 hne
            rw [List.length_append, List.length_singleton, hlength]
            omega
      have hstep := hbefore.buildLunList lun (by simp only [maxLunListSize]; omega)
      rw [List.take_of_length_le (by rw [length_lunEntry]; simp only [maxLunListSize]; omega),
        ← joined_concat entries_ne_nil] at hstep
      rw [List.foldl_append, List.map_append, List.map_singleton]
      exact hstep

theorem holds_cut (h : Holds m []) (hlength : luns.length = 53) (lun : ZfcpLunDevid) :
    Holds ((luns ++ [lun]).foldl buildLunList m)
      (joined (luns.map lunEntry ++ [(lunEntry lun).take 33])) := by
  have hbefore := holds_entries h luns (by omega)
  have hjoined := length_joined luns
  rw [hlength] at hjoined
  have hne : joined (luns.map lunEntry) ≠ [] := by
    rw [← List.length_pos_iff_ne_nil, hjoined]
    decide
  have hsep : (separated (joined (luns.map lunEntry))).length = 2014 := by
    rw [separated, if_neg hne, List.length_append, List.length_singleton, hjoined]
  have hstep := hbefore.buildLunList lun (by rw [hjoined]; decide)
  rw [hsep] at hstep
  rw [joined_concat entries_ne_nil, List.foldl_append]
  exact hstep

theorem written_foldl (luns : List ZfcpLunDevid) (m : Memory) {i : ℕ} (h : i ∈ m.written) :
    i ∈ (luns.foldl buildLunList m).written := by
  induction luns generalizing m with
  | nil => exact h
  | cons lun luns ih => exact ih _ (written_buildLunList m lun h)

theorem holds_empty (beyond : Text) :
    Holds { bytes := List.replicate maxLunListSize nul ++ beyond, written := [] } [] :=
  ⟨⟨beyond, rfl⟩, by decide, by simp, fun i hi => absurd hi List.not_mem_nil⟩

theorem lunList_eq (tree : DiTree ZfcpLunDevid ν) (beyond : Text) :
    lunList tree beyond = (tree.foreach.map Prod.fst).foldl buildLunList
      { bytes := List.replicate maxLunListSize nul ++ beyond, written := [] } := by
  rw [lunList, List.foldl_map]

theorem choices_cut (luns : List ZfcpLunDevid) (lun : ZfcpLunDevid) :
    choices (joined (luns.map lunEntry ++ [(lunEntry lun).take 33])) =
      luns.map lunEntry ++ [(lunEntry lun).take 33] := by
  refine choices_joined (fun p hp => ?_) fun p hp => ?_
  · rcases List.mem_append.1 hp with hp | hp
    · exact entries_ne_nil p hp
    · obtain rfl := List.mem_singleton.1 hp
      intro hnil
      have hlen := congrArg List.length hnil
      rw [List.length_take, length_lunEntry] at hlen
      exact absurd hlen (by decide)
  · rcases List.mem_append.1 hp with hp | hp
    · exact comma_not_mem_entries p hp
    · obtain rfl := List.mem_singleton.1 hp
      exact fun hc => (lunEntry_chars lun _ (List.mem_of_mem_take hc)).2 rfl

theorem lunList_few {tree : DiTree ZfcpLunDevid ν} (hfew : tree.foreach.length ≤ 53)
    (beyond : Text) :
    (lunList tree beyond).Inside ∧ Complete tree (lunList tree beyond).string := by
  have hholds := holds_entries (holds_empty beyond) (tree.foreach.map Prod.fst) (by simpa)
  rw [lunList_eq]
  refine ⟨hholds.inside, ?_⟩
  rw [hholds.string, Complete, choices_joined entries_ne_nil comma_not_mem_entries]
  intro e he
  obtain ⟨lun, hlun, rfl⟩ := List.mem_map.1 he
  exact ⟨lun, hlun, rfl⟩

theorem lunList_many {tree : DiTree ZfcpLunDevid ν} (hmany : 53 < tree.foreach.length)
    (beyond : Text) :
    ¬ ((lunList tree beyond).Inside ∧ Complete tree (lunList tree beyond).string) := by
  rw [lunList_eq, Complete]
  rw [← List.length_map (f := Prod.fst)] at hmany
  generalize tree.foreach.map Prod.fst = luns at hmany ⊢
  rintro ⟨hinside, hcomplete⟩
  -- The first 53, the one that is cut, and those behind it.
  obtain ⟨lun, rest, hdrop⟩ : ∃ lun rest, luns.drop 53 = lun :: rest := by
    cases hd : luns.drop 53 with
    | nil => exact absurd (List.drop_eq_nil_iff.1 hd) (by omega)
    | cons lun rest => exact ⟨lun, rest, rfl⟩
  have hluns : luns = (luns.take 53 ++ [lun]) ++ rest := by
    rw [List.append_assoc, List.singleton_append, ← hdrop, List.take_append_drop]
  have htake : (luns.take 53).length = 53 := List.length_take_of_le (by omega)
  have hcut := holds_cut (holds_empty beyond) htake lun
  rw [hluns, List.foldl_append] at hinside hcomplete
  cases rest with
  | nil =>
      -- The last choice is not an entry.
      rw [List.foldl_nil, hcut.string, choices_cut] at hcomplete
      obtain ⟨l, -, hl⟩ := hcomplete _ (List.mem_append_right _ (List.mem_singleton.2 rfl))
      have hlen := congrArg List.length hl
      rw [List.length_take, length_lunEntry, length_lunEntry] at hlen
      exact absurd hlen (by decide)
  | cons next rest =>
      -- The next one writes behind the buffer.
      have hne : luns.take 53 ≠ [] := by
        rw [← List.length_pos_iff_ne_nil, htake]
        decide
      have hfull : (joined ((luns.take 53).map lunEntry ++ [(lunEntry lun).take 33])).length + 1
          = maxLunListSize := by
        rw [joined_append (by simpa using hne), List.length_append, length_joined, htake,
          List.length_cons, List.length_take, length_lunEntry]
        rfl
      have hover := hinside _ (written_foldl rest _ (hcut.overrun next hfull))
      exact absurd hover (lt_irrefl _)

/-- The list is made without writing behind it and offers whole entries only, if and only if there
are no more than 53 LUNs. -/
theorem lunList_inside (tree : DiTree ZfcpLunDevid ν) (beyond : Text) :
    (lunList tree beyond).Inside ∧ Complete tree (lunList tree beyond).string ↔
      tree.foreach.length ≤ 53 := by
  constructor
  · intro h
    by_contra hmany
    exact lunList_many (by omega) beyond h
  · exact fun hfew => lunList_few hfew beyond

/-- Of 54 LUNs of one port the last is cut. -/
theorem lunList_cut : ∃ tree : DiTree ZfcpLunDevid Unit,
    DiTree.inserts zfcpLunCmpDevids {}
      ((List.range 54).map fun i => (⟨⟨0, 0, 0x1700⟩, 0x500507630300c562, i⟩, ())) = some tree ∧
    ¬ ((lunList tree []).Inside ∧ Complete tree (lunList tree []).string) := by
  have hlength : ((DiTree.inserts zfcpLunCmpDevids {}
      ((List.range 54).map fun i => (⟨⟨0, 0, 0x1700⟩, 0x500507630300c562, i⟩, ()))).map
        fun tree => tree.foreach.length) = some 54 := by
    decide +kernel
  obtain ⟨tree, htree, hlen⟩ := Option.map_eq_some_iff.1 hlength
  exact ⟨tree, htree, lunList_many (by rw [hlen]; decide) []⟩

end DebianInstaller.Zfcp
