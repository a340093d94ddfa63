import DebianInstaller.Udpkg.Merge

/-!
# The lines of a stanza that is written

The stanza of a processed package begins with the lines of its name and its status. Behind
them are lines of other fields, the lines of the two blocks, which begin with a blank, and
blank lines: one at the end, if the last line of the long description is complete, and one
behind the list of configuration files, if its last line is complete.
-/

namespace DebianInstaller.Udpkg

open Text Lib

variable {b l label x : Text} {p : PackageT}

/-! ## Lines of text -/

theorem cutLines_newline (t : Text) : cutLines ('\n' :: t) = ['\n'] :: cutLines t := by
  rw [cutLines, if_pos rfl]

theorem cutLines_cons {c : Char} (hc : c ≠ '\n') (t : Text) :
    ∃ l, cutLines (c :: t) = (c :: l) :: (cutLines t).tail := by
  rw [cutLines, if_neg hc]
  split
  · next h => exact ⟨[], by rw [h]; rfl⟩
  · next l ls h => exact ⟨l, by rw [h]; rfl⟩

theorem cutLines_tail (h : '\n' ∉ x) (t : Text) : (cutLines (x ++ t)).tail = (cutLines t).tail := by
  induction x with
  | nil => rfl
  | cons c x ih =>
      obtain ⟨hc, hx⟩ := List.ne_and_not_mem_of_not_mem_cons h
      obtain ⟨l, hl⟩ := cutLines_cons (Ne.symm hc) (x ++ t)
      rw [List.cons_append, hl]
      exact ih hx

/-- Text that ends at the end of a line. -/
def Complete (x : Text) : Prop := x = [] ∨ x.getLast? = some '\n'

instance (x : Text) : Decidable (Complete x) := inferInstanceAs (Decidable (_ ∨ _))

theorem Complete.cutLines_append (h : Complete x) (t : Text) :
    cutLines (x ++ t) = cutLines x ++ cutLines t := by
  induction x with
  | nil => rfl
  | cons c x ih =>
      have hx : x ≠ [] → Complete x := by
        intro hne
        rcases h with h | h
        · cases h
        · exact .inr (by rwa [List.getLast?_cons_of_ne_nil hne] at h)
      by_cases hnil : x = []
      · subst hnil
        rcases h with h | h
        · cases h
        · cases h
          exact cutLines_newline t
      · rw [List.cons_append, cutLines, cutLines, ih (hx hnil)]
        split
        · rfl
        · cases hcut : cutLines x with
          | nil =>
              exfalso
              cases x with
              | nil => exact hnil rfl
              | cons d x =>
                  rw [cutLines] at hcut
                  split at hcut
                  · cases hcut
                  · split at hcut <;> cases hcut
          | cons l ls => rfl

/-- Each line begins with a blank. -/
def Indented (x : Text) : Prop := ∀ l ∈ cutLines x, l.head? = some ' '

theorem indented_nil : Indented [] := fun _ hl => absurd hl List.not_mem_nil

theorem Indented.cons (hl : '\n' ∉ l) (hx : Indented x) : Indented (' ' :: (l ++ x)) := by
  obtain ⟨l', hcut⟩ := cutLines_cons (c := ' ') (by decide) (l ++ x)
  intro l'' hl''
  rw [hcut, cutLines_tail hl] at hl''
  rcases List.mem_cons.mp hl'' with rfl | hmem
  · rfl
  · exact hx l'' (List.mem_of_mem_tail hmem)

theorem Indented.line (hl : '\n' ∉ l) (hx : Indented x) : Indented (' ' :: l ++ '\n' :: x) := by
  have hnl : '\n' ∉ ' ' :: l := List.not_mem_cons_of_ne_of_not_mem (by decide) hl
  intro l' hl'
  rw [cutLines_line hnl] at hl'
  rcases List.mem_cons.mp hl' with rfl | hmem
  · rfl
  · exact hx l' hmem

theorem Pieces.indented (h : Pieces b) (hx : Indented x) : Indented (b ++ x) := by
  induction h with
  | nil => exact hx
  | line hl _ _ ih =>
      rw [List.append_assoc]
      exact Indented.line hl ih
  | full hl _ _ ih =>
      rw [List.append_assoc]
      exact Indented.cons hl ih

theorem Block.indented (h : Block b) : Indented b := by
  rcases h with h | ⟨b₀, l, hb₀, -, hl, -, rfl⟩
  · simpa using h.indented indented_nil
  · exact hb₀.indented (by simpa using Indented.cons hl indented_nil)

theorem exists_complete_append (x : Text) : ∃ y z, x = y ++ z ∧ Complete y ∧ '\n' ∉ z := by
  induction x with
  | nil => exact ⟨[], [], rfl, .inl rfl, List.not_mem_nil⟩
  | cons c x ih =>
      obtain ⟨y, z, rfl, hy, hz⟩ := ih
      by_cases hnil : y = []
      · subst hnil
        by_cases hc : c = '\n'
        · subst hc
          exact ⟨['\n'], z, rfl, .inr rfl, hz⟩
        · exact ⟨[], c :: z, rfl, .inl rfl, List.not_mem_cons_of_ne_of_not_mem (Ne.symm hc) hz⟩
      · refine ⟨c :: y, z, rfl, .inr ?_, hz⟩
        rw [List.getLast?_cons_of_ne_nil hnil]
        exact hy.resolve_left hnil

/-- Indented text before the end of a line, which is a line of its own if the text is
complete. -/
theorem Indented.cutLines_line (h : Indented x) {m : Text} (hm : '\n' ∉ m) :
    ∃ ls : List Text, (∀ l ∈ ls, l.head? = some ' ') ∧ ∀ t, cutLines (x ++ m ++ '\n' :: t) =
      ls ++ (if Complete x then [m ++ ['\n']] else []) ++ cutLines t := by
  by_cases hx : Complete x
  · refine ⟨cutLines x, h, fun t => ?_⟩
    rw [List.append_assoc, hx.cutLines_append, Udpkg.cutLines_line hm, if_pos hx, List.append_assoc]
    rfl
  · obtain ⟨y, z, rfl, hy, hz⟩ := exists_complete_append x
    have hne : z ≠ [] := by
      rintro rfl
      exact hx (by rwa [List.append_nil])
    obtain ⟨c, z, rfl⟩ := List.exists_cons_of_ne_nil hne
    have hc : c = ' ' := by
      obtain ⟨l, hl⟩ := cutLines_cons (List.ne_of_not_mem_cons hz).symm z
      have hhead := h (c :: l) (by rw [hy.cutLines_append, hl]; simp)
      exact Option.some.inj hhead
    subst hc
    have hnl : '\n' ∉ ' ' :: z ++ m := fun hmem => (List.mem_append.mp hmem).elim hz hm
    refine ⟨cutLines y ++ [' ' :: z ++ m ++ ['\n']], fun l hl => ?_, fun t => ?_⟩
    · rcases List.mem_append.mp hl with hl | hl
      · exact h l (by rw [hy.cutLines_append]; exact List.mem_append_left _ hl)
      · rw [List.mem_singleton.mp hl]
        rfl
    · rw [List.append_assoc, List.append_assoc, ← List.append_assoc (' ' :: z), hy.cutLines_append,
        Udpkg.cutLines_line hnl, if_neg hx]
      simp

/-! ## Plain lines -/

/-- A line that is not blank and has neither a name nor a status. -/
structure Plain (l : Text) : Prop where
  nonblank : l ≠ ['\n']
  package : ¬ packageLabel <+: l
  status : ¬ statusLabel <+: l

theorem plain_of_blank (h : l.head? = some ' ') : Plain l := by
  have hhead : ∀ label : Text, label.head? ≠ some ' ' → label ≠ [] → ¬ label <+: l := by
    rintro label hne hnil ⟨v, rfl⟩
    rw [List.head?_append_of_ne_nil _ hnil] at h
    exact hne h
  refine ⟨?_, hhead _ (by decide) (by decide), hhead _ (by decide) (by decide)⟩
  rintro rfl
  exact absurd h (by decide)

/-- What other fields begin with. -/
structure PlainLabel (label : Text) : Prop where
  newline : '\n' ∉ label
  nonempty : label ≠ []
  package : ∀ x, packageLabel.isPrefixOf (label ++ x) = false
  status : ∀ x, statusLabel.isPrefixOf (label ++ x) = false

theorem PlainLabel.plain (h : PlainLabel label) (x : Text) : Plain (label ++ x ++ ['\n']) := by
  refine ⟨fun hnil => ?_, fun hp => ?_, fun hp => ?_⟩
  · have hlen := congrArg List.length hnil
    have hpos := List.length_pos_iff.mpr h.nonempty
    rw [List.length_append, List.length_append, List.length_singleton] at hlen
    omega
  · rw [List.append_assoc, ← List.isPrefixOf_iff_prefix, h.package] at hp
    cases hp
  · rw [List.append_assoc, ← List.isPrefixOf_iff_prefix, h.status] at hp
    cases hp

/-- Plain lines. -/
def PlainText (x : Text) : Prop :=
  ∃ ls : List Text, (∀ l ∈ ls, Plain l) ∧ ∀ t, cutLines (x ++ t) = ls ++ cutLines t

theorem plainText_nil : PlainText [] := ⟨[], by simp, fun _ => rfl⟩

theorem PlainText.append {y : Text} (hx : PlainText x) (hy : PlainText y) : PlainText (x ++ y) := by
  obtain ⟨ls, hls, hcut⟩ := hx
  obtain ⟨ls', hls', hcut'⟩ := hy
  refine ⟨ls ++ ls', fun l hl => (List.mem_append.mp hl).elim (hls l) (hls' l), fun t => ?_⟩
  rw [List.append_assoc, hcut, hcut', List.append_assoc]

theorem plainText_line {v : Text} (h : PlainLabel label) (hv : '\n' ∉ v) :
    PlainText (label ++ v ++ ['\n']) := by
  have hnl : '\n' ∉ label ++ v := fun hmem => (List.mem_append.mp hmem).elim h.newline hv
  refine ⟨[label ++ v ++ ['\n']], fun l hl => ?_, fun t => ?_⟩
  · rw [List.mem_singleton.mp hl]
    exact h.plain v
  · rw [List.append_assoc, List.singleton_append, cutLines_line hnl]
    rfl

theorem plainText_writeField (h : PlainLabel label) {v : Option Text}
    (hv : ∀ x, v = some x → '\n' ∉ x) : PlainText (writeField label v) := by
  cases v with
  | none => exact plainText_nil
  | some v => exact plainText_line h (hv v rfl)

/-! ## The fields -/

theorem plainLabel_key {k : Key} (h : k ≠ .package) (h' : k ≠ .status) : PlainLabel k.label := by
  cases k with
  | package => exact absurd rfl h
  | status => exact absurd rfl h'
  | _ => exact ⟨by decide, by decide, fun _ => rfl, fun _ => rfl⟩

theorem plainText_key (hp : Filled p) {k : Key} (h : k ≠ .package) (h' : k ≠ .status) :
    PlainText (writeField k.label (p.text k)) :=
  plainText_writeField (plainLabel_key h h') fun x hx => (hp.fits k x h hx).1

/-- The fields behind the status. -/
def laterFields (p : PackageT) : Text :=
  writeField Key.priority.label p.priority ++ writeField Key.sectionName.label p.sectionName ++
    writeField Key.installedSize.label (p.priority.map fun _ => printed p.installedSize) ++
    writeField Key.maintainer.label p.maintainer ++ writeField Key.version.label p.version ++
    writeField Key.depends.label p.depends ++ writeField Key.recommends.label p.recommends ++
    writeField Key.suggests.label p.suggests ++ writeField Key.provides.label p.provides

theorem writeFields_eq (hp : Filled p) :
    writeFields p = packageLabel ++ printed p.package ++ '\n' ::
      (statusLabel ++ printed (statusPrint p.status) ++ '\n' :: laterFields p) := by
  obtain ⟨hsource, hpre, hreplaces, hconflicts⟩ := hp.unread
  have hnone : ∀ label, writeField label none = [] := fun _ => rfl
  have hsome : ∀ label v, writeField label (some v) = label ++ v ++ ['\n'] := fun _ _ => rfl
  rw [writeFields, hsource, hpre, hreplaces, hconflicts, hnone, hnone, hnone, hnone, hsome, hsome]
  simp only [laterFields, List.append_assoc, List.nil_append, List.append_nil, List.cons_append]
  rfl

theorem laterFields_plain (hp : Filled p) : PlainText (laterFields p) := by
  have hkey : ∀ k : Key, k ≠ .package → k ≠ .status → PlainText (writeField k.label (p.text k)) :=
    fun _ h h' => plainText_key hp h h'
  have hsize : PlainText (writeField Key.installedSize.label
      (p.priority.map fun _ => printed p.installedSize)) := by
    refine plainText_writeField (plainLabel_key (by decide) (by decide)) fun x hx => ?_
    obtain ⟨priority, -, rfl⟩ := Option.map_eq_some_iff.mp hx
    cases hs : p.installedSize with
    | none => exact show '\n' ∉ null by decide
    | some size => exact (hp.fits .installedSize size (by decide) hs).1
  refine .append (.append (.append (.append (.append (.append (.append (.append ?_ ?_) hsize)
    ?_) ?_) ?_) ?_) ?_) ?_
  · exact hkey .priority (by decide) (by decide)
  · exact hkey .sectionName (by decide) (by decide)
  · exact hkey .maintainer (by decide) (by decide)
  · exact hkey .version (by decide) (by decide)
  · exact hkey .depends (by decide) (by decide)
  · exact hkey .recommends (by decide) (by decide)
  · exact hkey .suggests (by decide) (by decide)
  · exact hkey .provides (by decide) (by decide)

/-! ## The blocks -/

/-- The list of configuration files ends in a blank line. -/
def Gap (p : PackageT) : Prop := ∃ b, p.conffiles = some b ∧ b.getLast? = some '\n'

/-- There are lines behind the list of configuration files. -/
def Described (p : PackageT) : Prop := p.description ≠ none ∨ p.installerMenuItem ≠ 0

/-- No blank line ends the stanza. -/
def Unclosed (p : PackageT) : Prop :=
  p.installerMenuItem = 0 ∧ ∃ b, p.longDescription = some b ∧ ¬ Complete b

theorem writeConffiles_lines (hp : Filled p) :
    ∃ ls : List Text, (∀ l ∈ ls, Plain l) ∧ ∃ n, (0 < n ↔ Gap p) ∧ ∀ t,
      cutLines (writeConffiles p ++ t) = ls ++ List.replicate n ['\n'] ++ cutLines t := by
  cases hconf : p.conffiles with
  | none =>
      refine ⟨[], by simp, 0, ⟨fun h => absurd h (by decide), ?_⟩, fun t => ?_⟩
      · rintro ⟨b, hb, -⟩
        rw [hconf] at hb
        cases hb
      · rw [writeConffiles, hconf]
        rfl
  | some b =>
      have hindented : Indented (' ' :: b) := by
        exact Indented.cons (l := []) List.not_mem_nil (hp.conffiles b hconf).indented
      obtain ⟨ls, hls, hcut⟩ := hindented.cutLines_line (m := []) List.not_mem_nil
      have htext : ∀ t, writeConffiles p ++ t =
          "Conffiles:" ++ '\n' :: (' ' :: b ++ '\n' :: t) := by
        intro t
        rw [writeConffiles, hconf]
        simp only [List.append_assoc]
        rfl
      have hgap : Complete (' ' :: b) ↔ Gap p := by
        have hlast : Complete (' ' :: b) ↔ b.getLast? = some '\n' := by
          cases b with
          | nil => decide
          | cons c b =>
              rw [Complete, List.getLast?_cons_cons]
              exact ⟨fun h => h.resolve_left (List.cons_ne_nil _ _), .inr⟩
        rw [hlast]
        refine ⟨fun h => ⟨b, hconf, h⟩, ?_⟩
        rintro ⟨b', hb', h⟩
        rw [hconf] at hb'
        cases hb'
        exact h
      refine ⟨("Conffiles:" ++ ['\n']) :: ls, ?_, if Complete (' ' :: b) then 1 else 0,
        ?_, fun t => ?_⟩
      · refine List.forall_mem_cons.mpr ⟨⟨by decide, by decide, by decide⟩, fun l hl => ?_⟩
        exact plain_of_blank (hls l hl)
      · rw [← hgap]
        split
        · next h => exact ⟨fun _ => h, fun _ => Nat.one_pos⟩
        · next h => exact ⟨fun h0 => absurd h0 (by decide), fun h' => absurd h' h⟩
      · rw [List.append_nil] at hcut
        rw [htext, cutLines_line (by decide), hcut]
        split <;> rfl

theorem writeMenuItem_zero (h : p.installerMenuItem = 0) : writeMenuItem p = ['\n'] := by
  rw [writeMenuItem, if_neg (by simpa using h)]
  rfl

theorem writeMenuItem_nonzero (h : p.installerMenuItem ≠ 0) (t : Text) :
    writeMenuItem p ++ t =
      Key.installerMenuItem.label ++ ofInt p.installerMenuItem ++ '\n' :: '\n' :: t := by
  rw [writeMenuItem, if_pos h]
  simp only [List.append_assoc]
  rfl

theorem writeMenuItem_plain (p : PackageT) :
    '\n' ∉ Key.installerMenuItem.label ++ ofInt p.installerMenuItem ∧
      Plain (Key.installerMenuItem.label ++ ofInt p.installerMenuItem ++ ['\n']) := by
  have hlabel : PlainLabel Key.installerMenuItem.label := plainLabel_key (by decide) (by decide)
  refine ⟨fun hmem => ?_, hlabel.plain _⟩
  exact (List.mem_append.mp hmem).elim hlabel.newline (newline_not_mem_ofInt _)

/-- The long description and the menu item: the blank line at the end is there unless the
last line of the description takes its newline. -/
theorem cutLines_description (hb : Block b) (hlong : p.longDescription = some b) :
    ∃ ls : List Text, (∀ l ∈ ls, Plain l) ∧ ∃ n, (n = 0 ↔ Unclosed p) ∧ ∀ t,
      cutLines (b ++ writeMenuItem p ++ t) = ls ++ List.replicate n ['\n'] ++ cutLines t := by
  by_cases hitem : p.installerMenuItem = 0
  · obtain ⟨ls, hls, hcut⟩ := hb.indented.cutLines_line (m := []) List.not_mem_nil
    refine ⟨ls, fun l hl => plain_of_blank (hls l hl), if Complete b then 1 else 0, ?_, fun t => ?_⟩
    · have hunclosed : Unclosed p ↔ ¬ Complete b := by
        refine ⟨?_, fun h => ⟨hitem, b, hlong, h⟩⟩
        rintro ⟨-, b', hb', h⟩
        rw [hlong] at hb'
        cases hb'
        exact h
      rw [hunclosed]
      split
      · next h => exact ⟨fun h0 => absurd h0 (by decide), fun h' => absurd h h'⟩
      · next h => exact ⟨fun _ => h, fun _ => rfl⟩
    · rw [writeMenuItem_zero hitem, List.append_assoc]
      rw [List.append_nil] at hcut
      exact (hcut t).trans (by split <;> rfl)
  · obtain ⟨hm, hplain⟩ := writeMenuItem_plain p
    obtain ⟨ls, hls, hcut⟩ := hb.indented.cutLines_line hm
    refine ⟨ls ++ if Complete b then [Key.installerMenuItem.label ++ ofInt p.installerMenuItem ++
      ['\n']] else [], fun l hl => ?_, 1, ⟨nofun, fun h => absurd h.1 hitem⟩, fun t => ?_⟩
    · rcases List.mem_append.mp hl with hl | hl
      · exact plain_of_blank (hls l hl)
      · split at hl
        · rw [List.mem_singleton.mp hl]
          exact hplain
        · exact absurd hl List.not_mem_nil
    · rw [List.append_assoc, writeMenuItem_nonzero hitem, ← List.append_assoc, hcut,
        cutLines_newline, List.append_assoc]
      simp

theorem writeDescription_lines (hp : Filled p) :
    ∃ ls : List Text, (∀ l ∈ ls, Plain l) ∧ (ls ≠ [] ↔ Described p) ∧
      ∃ n, (n = 0 ↔ Unclosed p) ∧ ∀ t, cutLines (writeDescription p ++ t) =
        ls ++ List.replicate n ['\n'] ++ cutLines t := by
  rw [writeDescription_eq, Described]
  cases hdesc : p.description with
  | none =>
      have hclosed : ¬ Unclosed p := by
        rintro ⟨-, b, hb, -⟩
        rw [hp.described.mp hdesc] at hb
        cases hb
      by_cases hitem : p.installerMenuItem = 0
      · refine ⟨[], by simp, by simp [hitem], 1, ⟨nofun, fun h => absurd h hclosed⟩, fun t => ?_⟩
        rw [writeMenuItem_zero hitem]
        exact cutLines_newline t
      · obtain ⟨hm, hplain⟩ := writeMenuItem_plain p
        refine ⟨[Key.installerMenuItem.label ++ ofInt p.installerMenuItem ++ ['\n']], fun l hl => ?_,
          by simp [hitem], 1, ⟨nofun, fun h => absurd h hclosed⟩, fun t => ?_⟩
        · rw [List.mem_singleton.mp hl]
          exact hplain
        · rw [List.nil_append, writeMenuItem_nonzero hitem, cutLines_line hm, cutLines_newline]
          rfl
  | some description =>
      obtain ⟨b, hb⟩ := Option.ne_none_iff_exists'.mp fun hnone => by
        rw [hp.described.mpr hnone] at hdesc
        cases hdesc
      obtain ⟨ls, hls, n, hn, hcut⟩ := cutLines_description (hp.block b hb) hb
      have hlabel : PlainLabel Key.description.label := plainLabel_key (by decide) (by decide)
      have hv : '\n' ∉ description := (hp.fits .description description (by decide) hdesc).1
      have hnl : '\n' ∉ Key.description.label ++ description :=
        fun hmem => (List.mem_append.mp hmem).elim hlabel.newline hv
      refine ⟨(Key.description.label ++ description ++ ['\n']) :: ls,
        List.forall_mem_cons.mpr ⟨hlabel.plain description, hls⟩,
        ⟨fun _ => .inl nofun, fun _ => nofun⟩, n, hn, fun t => ?_⟩
      have htext : "Description: " ++ description ++ ['\n'] ++ printed p.longDescription ++
          writeMenuItem p ++ t = Key.description.label ++ description ++ '\n' ::
            (b ++ writeMenuItem p ++ t) := by
        rw [hb]
        simp only [List.append_assoc]
        rfl
      dsimp only
      rw [htext, cutLines_line hnl, hcut]
      rfl

/-! ## The stanza -/

/-- The lines of a stanza. The blank lines inside it are there if the list of configuration
files is complete. -/
theorem cutLines_writeStanza (hp : Filled p) {name : Text} (hname : p.package = some name)
    (hnl : '\n' ∉ name) :
    ∃ ls ls' : List Text, (∀ l ∈ ls, Plain l) ∧ (∀ l ∈ ls', Plain l) ∧ (ls' ≠ [] ↔ Described p) ∧
      ∃ gap n, (0 < gap ↔ Gap p) ∧ (n = 0 ↔ Unclosed p) ∧ ∀ t, cutLines (writeStanza p ++ t) =
        (packageLabel ++ name ++ ['\n']) ::
          (statusLabel ++ printed (statusPrint p.status) ++ ['\n']) ::
          (ls ++ List.replicate gap ['\n'] ++ ls' ++ List.replicate n ['\n'] ++ cutLines t) := by
  obtain ⟨ls₁, hls₁, hcut₁⟩ := laterFields_plain hp
  obtain ⟨ls₂, hls₂, gap, hgap, hcut₂⟩ := writeConffiles_lines hp
  obtain ⟨ls₃, hls₃, hdesc, n, hn, hcut₃⟩ := writeDescription_lines hp
  refine ⟨ls₁ ++ ls₂, ls₃, fun l hl => (List.mem_append.mp hl).elim (hls₁ l) (hls₂ l), hls₃, hdesc,
    gap, n, hgap, hn, fun t => ?_⟩
  have hpackage : '\n' ∉ packageLabel ++ name :=
    fun hmem => (List.mem_append.mp hmem).elim (newline_not_mem_label .package) hnl
  have hstatus : '\n' ∉ statusLabel ++ printed (statusPrint p.status) :=
    fun hmem => (List.mem_append.mp hmem).elim (newline_not_mem_label .status) (printed_fits _).1
  have htext : writeStanza p ++ t = packageLabel ++ name ++ '\n' ::
      (statusLabel ++ printed (statusPrint p.status) ++ '\n' ::
        (laterFields p ++ (writeConffiles p ++ (writeDescription p ++ t)))) := by
    rw [writeStanza, writeFields_eq hp, hname]
    simp only [List.append_assoc, List.cons_append]
    rfl
  rw [htext, cutLines_line hpackage, cutLines_line hstatus, hcut₁, hcut₂, hcut₃]
  simp only [List.append_assoc]

end DebianInstaller.Udpkg
