import DebianInstaller.Udpkg.Control

/-!
# A stanza read back

`status_merge` writes the fields of a package that `control_read` has filled in, and
`control_read` reads them back when the status file is read. The two lists of fields do
not agree: the installed size is written if there is a priority, the list of configuration
files is written in a form that is not recognised, and the long description is followed by
the next line even if it does not end in a newline. Everything else comes back.
-/

namespace DebianInstaller.Udpkg

open Text Lib

variable {b buf l name rest t v : Text} {c : Char} {flag : Flag} {k : Key} {m p : PackageT}
  {r : PackageT × Option Text} {state : State} {want : Want}

/-! ## The fields of a line -/

/-- A value that fits into a line of its field. -/
def Fits (k : Key) (v : Text) : Prop := '\n' ∉ v ∧ k.label.length + v.length < room

theorem keyOf_label (k : Key) (v : Text) : keyOf (k.label ++ v) = some k := by
  cases k <;> rfl

theorem length_label_pos (k : Key) : 0 < k.label.length := by
  cases k <;> decide

theorem newline_not_mem_label (k : Key) : '\n' ∉ k.label := by
  cases k <;> decide

theorem begins_length_le {exact : Bool} {label : Text} (h : begins exact label buf = true) :
    label.length ≤ buf.length := by
  rw [begins] at h
  split at h
  · exact (List.isPrefixOf_iff_prefix.mp h).length_le
  · rw [sameIgnoringCase, beq_iff_eq] at h
    have hlen := congrArg List.length h
    rw [List.length_map, List.length_map, List.length_take] at hlen
    omega

theorem keyOf_begins (h : keyOf buf = some k) :
    ∃ exact, (k, exact) ∈ Key.all ∧ begins exact k.label buf = true := by
  obtain ⟨⟨k', exact⟩, hfind, rfl⟩ := Option.map_eq_some_iff.mp h
  exact ⟨exact, List.mem_of_find?_eq_some hfind,
    List.find?_some (p := fun k : Key × Bool => begins k.2 k.1.label buf) hfind⟩

theorem fits_of_keyOf (h : keyOf buf = some k) (hnl : '\n' ∉ buf) (hlen : buf.length < room) :
    Fits k (buf.drop k.label.length) := by
  obtain ⟨exact, -, hbegins⟩ := keyOf_begins h
  have hle := begins_length_le hbegins
  refine ⟨fun hmem => hnl (List.mem_of_mem_drop hmem), ?_⟩
  rw [List.length_drop]
  omega

theorem controlRead_field (hv : Fits k v) (t : Text) (p : PackageT) :
    controlRead (k.label ++ v ++ '\n' :: t) p =
      (setField k v t p).bind fun r => controlRead r.2 r.1 := by
  have hnl : '\n' ∉ k.label ++ v := by
    rw [List.mem_append]
    rintro (h | h)
    · exact newline_not_mem_label k h
    · exact hv.1 h
  have hne : k.label ++ v ≠ [] := by
    intro h
    have hpos := length_label_pos k
    rw [(List.append_eq_nil_iff.mp h).1] at hpos
    exact absurd hpos (by decide)
  rw [controlRead_line hnl (by rw [List.length_append]; exact hv.2), if_neg hne, controlLine,
    keyOf_label]
  dsimp only
  rw [List.drop_left]

theorem piece_dropLast (h : piece '\n' room t = (buf, false, rest)) :
    '\n' ∉ buf.dropLast ∧ buf.dropLast.length < room := by
  rcases piece_cases '\n' room t with ⟨l, r, hl, hlen, -, hp⟩ | ⟨l, r, hl, hlen, -, hp⟩ |
    ⟨-, -, hp⟩
  · rw [hp] at h
    cases h
    rw [List.dropLast_concat]
    exact ⟨hl, hlen⟩
  · rw [hp] at h
    cases h
    refine ⟨fun hmem => hl (List.mem_of_mem_dropLast hmem), ?_⟩
    rw [List.length_dropLast, hlen]
    decide
  · rw [hp] at h
    cases h

theorem controlRead_cases (t : Text) (p : PackageT) :
    (∃ rest, controlRead t p = some (p, rest)) ∨
      ∃ buf rest, t ≠ [] ∧ piece '\n' room t = (buf, false, rest) ∧ rest.length < t.length ∧
        controlRead t p =
          (controlLine buf.dropLast rest p).bind fun r => controlRead r.2 r.1 := by
  by_cases ht : t = []
  · subst ht
    exact .inl ⟨none, rfl⟩
  · have hlt := length_rest_lt '\n' (n := room) (by decide) ht
    rcases hpiece : piece '\n' room t with ⟨buf, eof, rest⟩
    rw [hpiece] at hlt
    cases eof with
    | true =>
        refine .inl ⟨none, ?_⟩
        rw [controlRead, controlReadLoop, if_neg ht, hpiece, if_pos rfl]
    | false =>
        rw [controlRead_piece ht hpiece]
        split
        · exact .inl ⟨some rest, rfl⟩
        · exact .inr ⟨buf, rest, ht, rfl, hlt, rfl⟩

theorem controlRead_invariant {I : PackageT → Prop}
    (hstep : ∀ k v rest p r, Fits k v → setField k v rest p = some r → I p → I r.1)
    (h : controlRead t p = some r) (hp : I p) : I r.1 := by
  induction hn : t.length using Nat.strong_induction_on generalizing t p with
  | _ n ih =>
      rcases controlRead_cases t p with ⟨rest, hend⟩ | ⟨buf, rest, -, hpiece, hlt, hline⟩
      · rw [hend] at h
        cases h
        exact hp
      · rw [hline] at h
        obtain ⟨⟨p', rest'⟩, hline, hread⟩ := Option.bind_eq_some_iff.mp h
        have hle := controlLine_length_le hline
        dsimp only at hle
        refine ih rest'.length (by omega) hread ?_ rfl
        rw [controlLine] at hline
        split at hline
        · cases hline
          exact hp
        · next k hk =>
            obtain ⟨hnl, hlen⟩ := piece_dropLast hpiece
            exact hstep k _ rest p _ (fits_of_keyOf hk hnl hlen) hline hp

/-! ## Packages that were read -/

/-- The fields that are one line of text. -/
def PackageT.text (p : PackageT) : Key → Option Text
  | .package => p.package
  | .depends => p.depends
  | .provides => p.provides
  | .description => p.description
  | .priority => p.priority
  | .sectionName => p.sectionName
  | .installedSize => p.installedSize
  | .maintainer => p.maintainer
  | .version => p.version
  | .suggests => p.suggests
  | .recommends => p.recommends
  | .status | .installerMenuItem | .conffiles => none

/-- Lines of a block: each begins with a blank and ends in a newline or fills the buffer. -/
inductive Pieces : Text → Prop where
  | nil : Pieces []
  | line {l b : Text} : '\n' ∉ l → l.length < room → Pieces b → Pieces (' ' :: l ++ '\n' :: b)
  | full {l b : Text} : '\n' ∉ l → l.length = room → Pieces b → Pieces (' ' :: l ++ b)

/-- Lines of a block, and perhaps a last one that the end of the file has cut off. -/
def Block (b : Text) : Prop :=
  Pieces b ∨ ∃ b₀ l, Pieces b₀ ∧ l ≠ [] ∧ '\n' ∉ l ∧ l.length < room ∧ b = b₀ ++ ' ' :: l

theorem Block.line (hl : '\n' ∉ l) (hlen : l.length < room) (h : Block b) :
    Block (' ' :: l ++ '\n' :: b) := by
  rcases h with h | ⟨b₀, l', hb₀, hne, hl', hlen', rfl⟩
  · exact .inl (.line hl hlen h)
  · exact .inr ⟨_, l', .line hl hlen hb₀, hne, hl', hlen', by simp⟩

theorem Block.full (hl : '\n' ∉ l) (hlen : l.length = room) (h : Block b) :
    Block (' ' :: l ++ b) := by
  rcases h with h | ⟨b₀, l', hb₀, hne, hl', hlen', rfl⟩
  · exact .inl (.full hl hlen h)
  · exact .inr ⟨_, l', .full hl hlen hb₀, hne, hl', hlen', by simp⟩

theorem readBlock_block (t : Text) : Block (readBlock t).1 := by
  induction hn : t.length using Nat.strong_induction_on generalizing t with
  | _ n ih =>
      cases t with
      | nil => exact .inl .nil
      | cons c t =>
          by_cases hc : c = ' '
          · subst hc
            by_cases ht : t = []
            · subst ht
              exact .inl .nil
            · have hlt := length_rest_lt '\n' (n := room) (by decide) ht
              have hrest := ih (piece '\n' room t).2.2.length
                (by rw [← hn, List.length_cons]; omega) _ rfl
              rw [readBlock_blank ht]
              rcases piece_cases '\n' room t with ⟨l, r, hl, hlen, -, hp⟩ |
                ⟨l, r, hl, hlen, -, hp⟩ | ⟨hl, hlen, hp⟩
              · rw [hp] at hrest ⊢
                have hline := Block.line hl hlen hrest
                simpa using hline
              · rw [hp] at hrest ⊢
                exact Block.full hl hlen hrest
              · rw [hp]
                refine .inr ⟨[], t, .nil, ht, hl, hlen, ?_⟩
                simp [readBlock_nil]
          · rw [readBlock, readBlockLoop, if_neg hc]
            split <;> exact .inl .nil

/-- What `control_read` leaves in a package. -/
structure Filled (p : PackageT) : Prop where
  fits : ∀ k v, k ≠ .package → p.text k = some v → Fits k v
  unread : p.source = none ∧ p.preDepends = none ∧ p.replaces = none ∧ p.conflicts = none
  described : p.description = none ↔ p.longDescription = none
  block : ∀ b, p.longDescription = some b → Block b
  conffiles : ∀ b, p.conffiles = some b → Block b
  menuItem : -2 ^ 31 ≤ p.installerMenuItem ∧ p.installerMenuItem < 2 ^ 31

theorem atoi_range (t : Text) : -2 ^ 31 ≤ atoi t ∧ atoi t < 2 ^ 31 := by
  have hrange : ∀ n : Int, -2 ^ 31 ≤ n.bmod (2 ^ 32) ∧ n.bmod (2 ^ 32) < 2 ^ 31 := by
    intro n
    have h₁ := Int.le_bmod (x := n) (m := 2 ^ 32) (by decide)
    have h₂ := Int.bmod_lt (x := n) (m := 2 ^ 32) (by decide)
    exact ⟨h₁, h₂⟩
  exact hrange _

theorem setField_text {r : PackageT × Text} (h : setField k v rest p = some r) (k' : Key) :
    r.1.text k' = p.text k' ∨ k' = k ∧ r.1.text k' = some v := by
  cases k with
  | status =>
      obtain ⟨s, -, rfl⟩ := Option.map_eq_some_iff.mp h
      cases k' <;> exact .inl rfl
  | _ =>
      cases h
      cases k' <;> first | exact .inl rfl | exact .inr ⟨rfl, rfl⟩

theorem setField_filled {r : PackageT × Text} (hv : Fits k v) (h : setField k v rest p = some r)
    (hp : Filled p) : Filled r.1 := by
  have hfits : ∀ k' v', k' ≠ .package → r.1.text k' = some v' → Fits k' v' := by
    intro k' v' hne hk'
    rcases setField_text h k' with hsame | ⟨rfl, hnew⟩
    · exact hp.fits k' v' hne (hsame.symm.trans hk')
    · rw [hnew] at hk'
      cases hk'
      exact hv
  cases k with
  | status =>
      obtain ⟨s, -, rfl⟩ := Option.map_eq_some_iff.mp h
      exact ⟨hfits, hp.unread, hp.described, hp.block, hp.conffiles, hp.menuItem⟩
  | description =>
      cases h
      refine ⟨hfits, hp.unread, by simp, fun b hb => ?_, hp.conffiles, hp.menuItem⟩
      cases hb
      exact readBlock_block rest
  | conffiles =>
      cases h
      refine ⟨hfits, hp.unread, hp.described, hp.block, fun b hb => ?_, hp.menuItem⟩
      cases hb
      exact readBlock_block rest
  | installerMenuItem =>
      cases h
      exact ⟨hfits, hp.unread, hp.described, hp.block, hp.conffiles, atoi_range v⟩
  | _ =>
      cases h
      exact ⟨hfits, hp.unread, hp.described, hp.block, hp.conffiles, hp.menuItem⟩

theorem setField_file {r : PackageT × Text} (h : setField k v rest p = some r) :
    r.1.file = p.file := by
  cases k with
  | status =>
      obtain ⟨s, -, rfl⟩ := Option.map_eq_some_iff.mp h
      rfl
  | _ =>
      cases h
      rfl

theorem filled_new (file : Text) (package : Option Text) :
    Filled { file := file, package := package } := by
  refine ⟨fun k v hk hv => ?_, by simp, by simp, nofun, nofun, ?_, ?_⟩
  · cases k <;> first | exact absurd rfl hk | cases hv
  · exact show -2 ^ 31 ≤ (0 : Int) by decide
  · exact show (0 : Int) < 2 ^ 31 by decide

theorem controlRead_filled (h : controlRead t p = some r) (hp : Filled p) : Filled r.1 :=
  controlRead_invariant (I := Filled) (fun _ _ _ _ _ hv hset hp => setField_filled hv hset hp) h hp

theorem controlRead_file (h : controlRead t p = some r) : r.1.file = p.file :=
  controlRead_invariant (I := fun q => q.file = p.file)
    (fun _ _ _ _ _ _ hset hq => (setField_file hset).trans hq) h rfl

theorem controlRead_named (h : controlRead t p = some r) (hp : p.package ≠ none) :
    r.1.package ≠ none := by
  refine controlRead_invariant (I := fun q => q.package ≠ none)
    (fun k v rest q r hv hset hq => ?_) h hp
  rcases setField_text hset .package with hsame | ⟨-, hnew⟩
  · exact fun hnone => hq (hsame.symm.trans hnone)
  · exact fun hnone => by cases hnew.symm.trans hnone

theorem controlRead_fits {file : Text} (h : controlRead t { file := file } = some r) (k : Key)
    (v : Text) (hv : r.1.text k = some v) : Fits k v := by
  refine controlRead_invariant (I := fun p => ∀ k v, p.text k = some v → Fits k v)
    (fun k v rest p r hfits hset hp k' v' hk' => ?_) h ?_ k v hv
  · rcases setField_text hset k' with hsame | ⟨rfl, hnew⟩
    · exact hp k' v' (hsame.symm.trans hk')
    · rw [hnew] at hk'
      cases hk'
      exact hfits
  · intro k v hv
    cases k <;> cases hv

/-! ## Blocks read back -/

theorem mem_readBlock_rest (h : c ∈ (readBlock t).2) : c ∈ t := by
  induction hn : t.length using Nat.strong_induction_on generalizing t with
  | _ n ih =>
      cases t with
      | nil => exact h
      | cons d t =>
          by_cases hd : d = ' '
          · subst hd
            by_cases ht : t = []
            · subst ht
              exact h
            · have hlt := length_rest_lt '\n' (n := room) (by decide) ht
              rw [readBlock_blank ht] at h
              have hmem := ih _ (by rw [← hn, List.length_cons]; omega) h rfl
              rw [← piece_append '\n' room t]
              exact List.mem_cons_of_mem _ (List.mem_append_right _ hmem)
          · rw [readBlock, readBlockLoop, if_neg hd] at h
            split at h
            · exact List.mem_cons_of_mem _ h
            · exact h

theorem readBlock_append (h : Pieces b) (t : Text) :
    readBlock (b ++ t) = (b ++ (readBlock t).1, (readBlock t).2) := by
  induction h with
  | nil => rfl
  | @line l b hl hlen _ ih =>
      rw [show ' ' :: l ++ '\n' :: b ++ t = ' ' :: (l ++ '\n' :: (b ++ t)) by simp,
        readBlock_blank (by simp), piece_line '\n' hl hlen, ih]
      simp
  | @full l b hl hlen _ ih =>
      have hne : l ++ (b ++ t) ≠ [] := by
        intro hnil
        rw [(List.append_eq_nil_iff.mp hnil).1] at hlen
        exact absurd hlen (by decide)
      rw [show ' ' :: l ++ b ++ t = ' ' :: (l ++ (b ++ t)) by simp, readBlock_blank hne,
        piece_full '\n' hl hlen, ih]
      simp

theorem readBlock_cut (hl : '\n' ∉ l) (hlen : l.length < room) (c : Char) (t : Text) :
    (' ' :: l).length < (readBlock (' ' :: l ++ c :: t)).1.length ∧
      ∀ d ∈ (readBlock (' ' :: l ++ c :: t)).2, d ∈ c :: t := by
  rw [show ' ' :: l ++ c :: t = ' ' :: (l ++ c :: t) from rfl, readBlock_blank (by simp),
    piece_isPrefix '\n' hl hlen.le]
  refine ⟨?_, fun d hd => ?_⟩
  · have hmore : 0 < (piece '\n' (room - l.length) (c :: t)).1.length := by
      obtain ⟨n, hn⟩ : ∃ n, room - l.length = n + 1 := ⟨room - l.length - 1, by omega⟩
      rw [hn, piece]
      split <;> exact Nat.succ_pos _
    simp only [List.length_cons, List.length_append]
    omega
  · rw [← piece_append '\n' (room - l.length) (c :: t)]
    exact List.mem_append_right _ (mem_readBlock_rest hd)

/-- The characters behind the last newline. -/
def behindNewline (b : Text) : Text := b.reverse.takeWhile (· != '\n')

theorem behindNewline_line (x b : Text) : behindNewline (x ++ '\n' :: b) = behindNewline b := by
  have htake : ∀ y r : Text, (y ++ '\n' :: r).takeWhile (· != '\n') = y.takeWhile (· != '\n') := by
    intro y r
    induction y with
    | nil => rfl
    | cons c y ih =>
        rw [List.cons_append, List.takeWhile_cons, List.takeWhile_cons, ih]
  rw [behindNewline, List.reverse_append, List.reverse_cons, List.append_assoc]
  exact htake _ _

theorem behindNewline_plain {x : Text} (h : '\n' ∉ x) (b : Text) :
    behindNewline (x ++ b) = behindNewline b ∨
      '\n' ∉ b ∧ (behindNewline (x ++ b)).length = x.length + b.length ∧
        (behindNewline b).length = b.length := by
  have hall : ∀ {y : Text}, '\n' ∉ y → behindNewline y = y.reverse := by
    intro y hy
    refine List.takeWhile_eq_self_iff.mpr fun c hc => ?_
    simp only [bne_iff_ne, ne_eq]
    rintro rfl
    exact hy (List.mem_reverse.mp hc)
  by_cases hb : '\n' ∈ b
  · obtain ⟨y, z, rfl⟩ := List.append_of_mem hb
    refine .inl ?_
    rw [← List.append_assoc, behindNewline_line, behindNewline_line]
  · refine .inr ⟨hb, ?_, ?_⟩
    · rw [hall (by simp [h, hb]), List.length_reverse, List.length_append]
    · rw [hall hb, List.length_reverse]

theorem behindNewline_last {y : Text} (h : '\n' ∉ y) (b : Text) :
    behindNewline (b ++ y) = y.reverse ++ behindNewline b := by
  rw [behindNewline, List.reverse_append, List.takeWhile_append_of_pos]
  · rfl
  · intro c hc
    simp only [bne_iff_ne, ne_eq]
    rintro rfl
    exact h (List.mem_reverse.mp hc)

theorem Pieces.behindNewline (h : Pieces b) : (behindNewline b).length % (room + 1) = 0 := by
  induction h with
  | nil => rfl
  | line _ _ _ ih => rwa [behindNewline_line]
  | @full l b hl hlen _ ih =>
      rcases behindNewline_plain (x := ' ' :: l) (by simpa using hl) b with hsame | ⟨-, h₁, h₂⟩
      · rwa [hsame]
      · rw [h₁, ← h₂, List.length_cons, hlen, Nat.add_mod_left]
        exact ih

theorem Block.pieces_iff (h : Block b) :
    Pieces b ↔ (Udpkg.behindNewline b).length % (room + 1) = 0 := by
  refine ⟨Pieces.behindNewline, fun hmod => ?_⟩
  rcases h with h | ⟨b₀, l, hb₀, hne, hl, hlen, rfl⟩
  · exact h
  · -- the rest of a line is not empty and does not fill the buffer
    exfalso
    have hpos : 0 < l.length := List.length_pos_iff.mpr hne
    have hb₀' := hb₀.behindNewline
    rw [behindNewline_last (y := ' ' :: l) (by simpa using hl), List.length_append,
      List.length_reverse, List.length_cons] at hmod
    rw [room] at hlen hb₀' hmod
    omega

/-! ## The menu item -/

theorem length_ofInt_le {n : Int} (h : -2 ^ 31 ≤ n ∧ n < 2 ^ 31) : (ofInt n).length ≤ 11 := by
  have hdigits : ∀ m : ℕ, m ≤ 2 ^ 31 → (Nat.toDigits 10 m).length ≤ 10 := by
    intro m hm
    refine (Nat.length_toDigits_le_iff (by decide) (by decide)).mpr ?_
    exact Nat.lt_of_le_of_lt hm (by decide)
  rw [ofInt_eq]
  split
  · exact (hdigits _ (by omega)).trans (by decide)
  · exact Nat.succ_le_succ (hdigits _ (by omega))

theorem takeWhile_toDigits (n : ℕ) : (Nat.toDigits 10 n).takeWhile Char.isDigit = Nat.toDigits 10 n :=
  List.takeWhile_eq_self_iff.mpr fun _ hc => Nat.isDigit_of_mem_toDigits (by decide) (by decide) hc

theorem atoi_ofInt {n : Int} (h : -2 ^ 31 ≤ n ∧ n < 2 ^ 31) : atoi (ofInt n) = n := by
  have hnumber : ∀ m : ℕ, number (Nat.toDigits 10 m) = m := fun m =>
    Nat.ofDigitChars_ten_toDigits
  have hint : ∀ m : Int, -2 ^ 31 ≤ m ∧ m < 2 ^ 31 →
      (max (-2 ^ 63) (min (2 ^ 63 - 1) m)).bmod (2 ^ 32) = m := by
    intro m hm
    rw [Int.min_eq_right (by omega), Int.max_eq_right (by omega)]
    exact Int.bmod_eq_of_le (by omega) (by omega)
  have hdigit : ∀ {c : Char}, c.isDigit = true → isSpace c = false ∧ c ≠ '-' ∧ c ≠ '+' := by
    intro c hc
    refine ⟨?_, ?_, ?_⟩
    · by_contra hs
      rw [Bool.not_eq_false, isSpace] at hs
      simp only [Bool.or_eq_true, beq_iff_eq] at hs
      rcases hs with ((((rfl | rfl) | rfl) | rfl) | rfl) | rfl <;> exact absurd hc (by decide)
    · rintro rfl
      exact absurd hc (by decide)
    · rintro rfl
      exact absurd hc (by decide)
  rw [ofInt_eq]
  split
  · next hpos =>
      cases hd : Nat.toDigits 10 n.toNat with
      | nil => exact absurd hd Nat.toDigits_ne_nil
      | cons c ds =>
          obtain ⟨hspace, hminus, hplus⟩ := hdigit (c := c)
            (Nat.isDigit_of_mem_toDigits (b := 10) (n := n.toNat) (by decide) (by decide) (by simp [hd]))
          have hvalue : number ((c :: ds).takeWhile Char.isDigit) = n.toNat := by
            rw [← hd, takeWhile_toDigits, hnumber]
          simp only [atoi, List.dropWhile_cons, hspace, Bool.false_eq_true, if_false, List.head?_cons,
            Option.some.injEq, hminus, hplus, or_self, hvalue, Int.toNat_of_nonneg hpos]
          exact hint n h
  · next hneg =>
      have hspace : isSpace '-' = false := by decide
      simp only [atoi, List.dropWhile_cons, hspace, Bool.false_eq_true, if_false, List.head?_cons,
        if_true, true_or, List.tail_cons, takeWhile_toDigits, hnumber]
      rw [Int.toNat_of_nonneg (by omega), Int.neg_neg]
      exact hint n h

/-! ## The fields read back -/

/-- A line of text, if there is one. -/
def PackageT.put (p : PackageT) (k : Key) (v : Option Text) : PackageT :=
  match k with
  | .package => { p with package := v.or p.package }
  | .depends => { p with depends := v.or p.depends }
  | .provides => { p with provides := v.or p.provides }
  | .priority => { p with priority := v.or p.priority }
  | .sectionName => { p with sectionName := v.or p.sectionName }
  | .installedSize => { p with installedSize := v.or p.installedSize }
  | .maintainer => { p with maintainer := v.or p.maintainer }
  | .version => { p with version := v.or p.version }
  | .suggests => { p with suggests := v.or p.suggests }
  | .recommends => { p with recommends := v.or p.recommends }
  | .status | .description | .installerMenuItem | .conffiles => p

/-- The fields that `control_read` stores as they are. -/
def Key.plain : Key → Bool
  | .status | .description | .installerMenuItem | .conffiles => false
  | _ => true

theorem setField_plain (hk : k.plain = true) (v rest : Text) (p : PackageT) :
    setField k v rest p = some (p.put k (some v), rest) := by
  cases k <;> first | rfl | cases hk

theorem controlRead_writeField (hk : k.plain = true) {v : Option Text}
    (hv : ∀ w, v = some w → Fits k w) (t : Text) (p : PackageT) :
    controlRead (writeField k.label v ++ t) p = controlRead t (p.put k v) := by
  cases v with
  | none =>
      have hput : p.put k none = p := by cases k <;> rfl
      rw [hput]
      rfl
  | some v =>
      rw [writeField, List.append_assoc, List.singleton_append, controlRead_field (hv v rfl),
        setField_plain hk]
      rfl

theorem controlRead_writeStatus (want : Want) (flag : Flag) (state : State) (t : Text)
    (p : PackageT) :
    controlRead (writeField Key.status.label
        (some (printed (statusPrint (.full want flag state)))) ++ t) p =
      controlRead t { p with status := .full want flag state } := by
  have hfits : Fits .status (printed (statusPrint (.full want flag state))) := by
    obtain ⟨hnl, hlen⟩ := printed_fits (.full want flag state)
    refine ⟨hnl, ?_⟩
    have hlabel : Key.status.label.length = 8 := rfl
    rw [room]
    omega
  rw [writeField, List.append_assoc, List.singleton_append, controlRead_field hfits, setField,
    statusParse_print]
  rfl

/-- What is read of the lines before the list of configuration files. -/
def heads (p : PackageT) : PackageT where
  package := p.package
  status := p.status
  priority := p.priority
  sectionName := p.sectionName
  installedSize := p.priority.map fun _ => printed p.installedSize
  maintainer := p.maintainer
  version := p.version
  depends := p.depends
  recommends := p.recommends
  suggests := p.suggests
  provides := p.provides

theorem controlRead_writeFields (hp : Filled p) (hname : p.package = some name)
    (hfits : Fits .package name) (hstatus : p.status = .full want flag state) (t : Text) :
    controlRead (writeFields p ++ t) {} = controlRead t (heads p) := by
  obtain ⟨hsource, hpre, hreplaces, hconflicts⟩ := hp.unread
  have htext : ∀ k, k ≠ .package → ∀ w, p.text k = some w → Fits k w :=
    fun k hk w hw => hp.fits k w hk hw
  have hsize : ∀ w, (p.priority.map fun _ => printed p.installedSize) = some w →
      Fits .installedSize w := by
    intro w hw
    obtain ⟨-, -, rfl⟩ := Option.map_eq_some_iff.mp hw
    cases hsize : p.installedSize with
    | none => exact ⟨by decide, by decide⟩
    | some size => exact htext .installedSize nofun size hsize
  have hpackage : ∀ w, some (printed p.package) = some w → Fits .package w := by
    rintro w hw
    cases hw
    rw [hname]
    exact hfits
  rw [writeFields, hsource, hpre, hreplaces, hconflicts, hstatus]
  simp only [show ∀ label, writeField label none = [] from fun _ => rfl, List.append_nil,
    List.append_assoc]
  change controlRead (writeField Key.package.label _ ++ (writeField Key.status.label _ ++
    (writeField Key.priority.label _ ++ (writeField Key.sectionName.label _ ++
    (writeField Key.installedSize.label _ ++ (writeField Key.maintainer.label _ ++
    (writeField Key.version.label _ ++ (writeField Key.depends.label _ ++
    (writeField Key.recommends.label _ ++ (writeField Key.suggests.label _ ++
    (writeField Key.provides.label _ ++ t))))))))))) {} = _
  rw [controlRead_writeField (k := .package) rfl hpackage, controlRead_writeStatus,
    controlRead_writeField (k := .priority) (v := p.priority) rfl (htext .priority nofun),
    controlRead_writeField (k := .sectionName) (v := p.sectionName) rfl (htext .sectionName nofun),
    controlRead_writeField (k := .installedSize) rfl hsize,
    controlRead_writeField (k := .maintainer) (v := p.maintainer) rfl (htext .maintainer nofun),
    controlRead_writeField (k := .version) (v := p.version) rfl (htext .version nofun),
    controlRead_writeField (k := .depends) (v := p.depends) rfl (htext .depends nofun),
    controlRead_writeField (k := .recommends) (v := p.recommends) rfl (htext .recommends nofun),
    controlRead_writeField (k := .suggests) (v := p.suggests) rfl (htext .suggests nofun),
    controlRead_writeField (k := .provides) (v := p.provides) rfl (htext .provides nofun)]
  simp only [PackageT.put, Option.or_none, heads, hname, hstatus]
  rfl

/-! ## The descriptions read back -/

/-- The menu item and the blank line. -/
def writeMenuItem (p : PackageT) : Text :=
  (if p.installerMenuItem ≠ 0 then
    "Installer-Menu-Item: " ++ ofInt p.installerMenuItem ++ ['\n'] else []) ++ ['\n']

theorem writeMenuItem_cons (p : PackageT) :
    ∃ c t, writeMenuItem p = c :: t ∧ c ≠ ' ' ∧ c ≠ '\xff' := by
  rw [writeMenuItem]
  split
  · exact ⟨_, _, rfl, by decide, by decide⟩
  · exact ⟨_, _, rfl, by decide, by decide⟩

theorem controlRead_writeMenuItem (hp : Filled p) (hm : m.installerMenuItem = 0) :
    controlRead (writeMenuItem p) m =
      some ({ m with installerMenuItem := p.installerMenuItem }, some []) := by
  have hblank : ∀ q, controlRead ['\n'] q = some (q, some []) := by
    intro q
    exact (controlRead_line (l := []) List.not_mem_nil (by decide) [] q).trans (if_pos rfl)
  rw [writeMenuItem]
  split
  · have hfits : Fits .installerMenuItem (ofInt p.installerMenuItem) := by
      have hlen := length_ofInt_le hp.menuItem
      refine ⟨fun hmem => ?_, ?_⟩
      · rcases mem_ofInt hmem with h | h
        · exact absurd h (by decide)
        · exact absurd h (by decide)
      · have hlabel : Key.installerMenuItem.label.length = 21 := rfl
        rw [room]
        omega
    rw [List.append_assoc, show ['\n'] ++ ['\n'] = '\n' :: ['\n'] from rfl]
    refine (controlRead_field hfits ['\n'] m).trans ?_
    rw [setField, atoi_ofInt hp.menuItem]
    exact hblank _
  · next hzero =>
      rw [not_not] at hzero
      rw [List.nil_append, hblank, hzero, ← hm]

theorem writeDescription_eq (p : PackageT) :
    writeDescription p =
      (match p.description with
        | none => []
        | some description => "Description: " ++ description ++ ['\n'] ++
            printed p.longDescription) ++ writeMenuItem p :=
  List.append_assoc _ _ _

theorem controlRead_writeDescription (hp : Filled p)
    (hpieces : ∀ b, p.longDescription = some b → Pieces b)
    (hm : m.installerMenuItem = 0 ∧ m.description = none ∧ m.longDescription = none) :
    controlRead (writeDescription p) m =
      some ({ m with description := p.description, longDescription := p.longDescription
                     installerMenuItem := p.installerMenuItem }, some []) := by
  obtain ⟨c, t, hmenu, hc, hc'⟩ := writeMenuItem_cons p
  rw [writeDescription_eq]
  cases hdesc : p.description with
  | none =>
      rw [hp.described.mp hdesc]
      refine (controlRead_writeMenuItem hp hm.1).trans ?_
      obtain ⟨-, hm₁, hm₂⟩ := hm
      cases m
      dsimp only at hm₁ hm₂
      rw [hm₁, hm₂]
  | some description =>
      cases hlong : p.longDescription with
      | none => exact absurd (hp.described.mpr hlong) (by rw [hdesc]; exact nofun)
      | some b =>
          dsimp only
          rw [List.append_assoc, List.append_assoc _ ['\n'], List.singleton_append,
            show "Description: " = Key.description.label from rfl,
            controlRead_field (hp.fits .description description nofun hdesc), setField,
            show printed (some b) = b from rfl, readBlock_append (hpieces b hlong), hmenu,
            readBlock_stop hc hc', List.append_nil, ← hmenu]
          exact controlRead_writeMenuItem hp hm.1

/-! ## What is not read back -/

theorem mem_controlLine_rest {r : PackageT × Text} (h : controlLine buf rest p = some r)
    (hc : c ∈ r.2) : c ∈ rest := by
  rw [controlLine] at h
  split at h
  · cases h
    exact hc
  · next k _ =>
      cases k with
      | status =>
          obtain ⟨s, -, rfl⟩ := Option.map_eq_some_iff.mp h
          exact hc
      | description =>
          cases h
          exact mem_readBlock_rest hc
      | conffiles =>
          cases h
          exact mem_readBlock_rest hc
      | _ =>
          cases h
          exact hc

theorem controlRead_keeps {γ : Type} {f : PackageT → γ}
    (hf : ∀ k' v rest p r, k' ≠ k → setField k' v rest p = some r → f r.1 = f p)
    (hk : ∀ buf : Text, (∀ c ∈ buf, c ∈ t) → keyOf buf ≠ some k) (h : controlRead t p = some r) :
    f r.1 = f p := by
  induction hn : t.length using Nat.strong_induction_on generalizing t p with
  | _ n ih =>
      rcases controlRead_cases t p with ⟨rest, hend⟩ | ⟨buf, rest, -, hpiece, hlt, hline⟩
      · rw [hend] at h
        cases h
        rfl
      · rw [hline] at h
        obtain ⟨⟨p', rest'⟩, hline, hread⟩ := Option.bind_eq_some_iff.mp h
        have hle := controlLine_length_le hline
        dsimp only at hle
        have happ := piece_append '\n' room t
        rw [hpiece] at happ
        have hrest : ∀ c ∈ rest', c ∈ t := by
          intro c hc
          rw [← happ]
          exact List.mem_append_right _ (mem_controlLine_rest hline hc)
        have hbuf : ∀ c ∈ buf.dropLast, c ∈ t := by
          intro c hc
          rw [← happ]
          exact List.mem_append_left _ (List.mem_of_mem_dropLast hc)
        refine (ih rest'.length (by omega) (fun b hb => hk b fun c hc => hrest c (hb c hc)) hread
          rfl).trans ?_
        rw [controlLine] at hline
        split at hline
        · cases hline
          rfl
        · next k' hk' =>
            refine hf k' _ rest p _ (fun heq => hk _ hbuf ?_) hline
            rw [hk', heq]

/-- A letter that is neither of these. -/
def quiet (c : Char) : Bool := c != 'D' && c.toLower != 'c'

theorem quiet_of_all (h : t.all quiet = true) (hc : c ∈ t) : c ≠ 'D' ∧ c.toLower ≠ 'c' := by
  simpa [quiet] using List.all_eq_true.mp h c hc

theorem quiet_of_isDigit (h : c.isDigit = true) : c ≠ 'D' ∧ c.toLower ≠ 'c' := by
  simp only [Char.isDigit, Bool.and_eq_true, decide_eq_true_eq] at h
  have h0 : '0'.toNat = 48 := rfl
  have h9 : '9'.toNat = 57 := rfl
  have hlo : '0'.toNat ≤ c.toNat := h.1
  have hhi : c.toNat ≤ '9'.toNat := h.2
  have hall : ∀ n < 58, 48 ≤ n → Char.ofNat n ∈ "0123456789".toList := by decide
  have hmem := hall c.toNat (by omega) (by omega)
  rw [Char.ofNat_toNat] at hmem
  exact quiet_of_all (by decide) hmem

theorem mem_writeMenuItem (h : c ∈ writeMenuItem p) : c ≠ 'D' ∧ c.toLower ≠ 'c' := by
  rw [writeMenuItem, List.mem_append] at h
  rcases h with h | h
  · split at h
    · rw [List.mem_append, List.mem_append] at h
      rcases h with (h | h) | h
      · exact quiet_of_all (by decide) h
      · rcases mem_ofInt h with h | h
        · rw [h]
          decide
        · exact quiet_of_isDigit h
      · exact quiet_of_all (by decide) h
    · exact absurd h List.not_mem_nil
  · exact quiet_of_all (by decide) h

theorem keyOf_description (h : keyOf buf = some .description) : 'D' ∈ buf := by
  obtain ⟨exact, hmem, hbegins⟩ := keyOf_begins h
  have hexact : exact = true := by
    cases exact
    · exact absurd hmem (by decide)
    · rfl
  subst hexact
  have hbegins := List.isPrefixOf_iff_prefix.mp hbegins
  exact hbegins.subset (by decide)

theorem keyOf_conffiles (h : keyOf buf = some .conffiles) : ∃ c ∈ buf, c.toLower = 'c' := by
  obtain ⟨exact, hmem, hbegins⟩ := keyOf_begins h
  have hexact : exact = false := by
    cases exact
    · rfl
    · exact absurd hmem (by decide)
  subst hexact
  have hsame : (buf.take Key.conffiles.label.length).map Char.toLower =
      Key.conffiles.label.map Char.toLower := by
    simpa [begins, sameIgnoringCase] using hbegins
  cases buf with
  | nil => exact absurd hsame (by decide)
  | cons c buf =>
      have hhead := congrArg List.head? hsame
      exact ⟨c, List.mem_cons_self, Option.some.inj hhead⟩

theorem readBlock_within (hc : c ≠ ' ') (hc' : c ≠ '\xff') (t x : Text) :
    (readBlock (x ++ '\n' :: c :: t)).1.length ≤ x.length + 1 ∧
      ((∃ y : Text, y.length ≤ x.length ∧ (readBlock (x ++ '\n' :: c :: t)).2 = y ++ '\n' :: c :: t) ∨
        (readBlock (x ++ '\n' :: c :: t)).2 = c :: t) := by
  induction hn : x.length using Nat.strong_induction_on generalizing x with
  | _ n ih =>
      cases x with
      | nil =>
          rw [List.nil_append, readBlock_stop (by decide) (by decide)]
          exact ⟨Nat.zero_le _, .inl ⟨[], Nat.zero_le _, rfl⟩⟩
      | cons d x =>
          rw [List.length_cons] at hn
          by_cases hd : d = ' '
          · subst hd
            rw [List.cons_append, readBlock_blank (by simp)]
            rcases piece_within '\n' room x (c :: t) with ⟨l₁, l₂, hx, hp⟩ | hp
            · have hlen := congrArg List.length hx
              rw [List.length_append] at hlen
              obtain ⟨h₁, h₂⟩ := ih l₂.length (by omega) l₂ rfl
              rw [hp]
              refine ⟨?_, ?_⟩
              · simp only [List.length_append, List.length_cons] at h₁ ⊢
                omega
              · rcases h₂ with ⟨y, hy, hrest⟩ | hrest
                · exact .inl ⟨y, by omega, hrest⟩
                · exact .inr hrest
            · rw [hp, readBlock_stop hc hc']
              refine ⟨?_, .inr rfl⟩
              simp only [List.length_append, List.length_cons, List.length_nil]
              omega
          · rw [List.cons_append, readBlock, readBlockLoop, if_neg hd]
            split
            · exact ⟨Nat.zero_le _, .inl ⟨x, by omega, rfl⟩⟩
            · exact ⟨Nat.zero_le _, .inl ⟨d :: x, by rw [List.length_cons]; omega, rfl⟩⟩

/-- No list of configuration files that is as long as `n`. -/
def Shorter (n : ℕ) (p : PackageT) : Prop := ∀ b, p.conffiles = some b → b.length < n

theorem setField_conffiles {r : PackageT × Text} (hk : k ≠ .conffiles)
    (h : setField k v rest p = some r) : r.1.conffiles = p.conffiles := by
  cases k with
  | status =>
      obtain ⟨s, -, rfl⟩ := Option.map_eq_some_iff.mp h
      rfl
  | conffiles => exact absurd rfl hk
  | _ =>
      cases h
      rfl

theorem setField_rest {r : PackageT × Text} (h : setField k v rest p = some r) :
    r.2 = rest ∨ r.2 = (readBlock rest).2 := by
  cases k with
  | status =>
      obtain ⟨s, -, rfl⟩ := Option.map_eq_some_iff.mp h
      exact .inl rfl
  | description =>
      cases h
      exact .inr rfl
  | conffiles =>
      cases h
      exact .inr rfl
  | _ =>
      cases h
      exact .inl rfl

/-- A text of at most `n + 1` characters in front of such a line does not hold a list of
configuration files of `n` characters. -/
theorem controlRead_within (hc : c ≠ ' ') (hc' : c ≠ '\xff') (t : Text) {n : ℕ} (x : Text)
    (hx : x.length ≤ n + 1) (hp : Shorter n p) (h : controlRead (x ++ '\n' :: c :: t) p = some r) :
    Shorter n r.1 ∨ ∃ q, Shorter n q ∧ controlRead (c :: t) q = some r := by
  induction hm : x.length using Nat.strong_induction_on generalizing x p with
  | _ m ih =>
      rcases controlRead_cases (x ++ '\n' :: c :: t) p with
        ⟨rest, hend⟩ | ⟨buf, rest, -, hpiece, hlt, hline⟩
      · rw [hend] at h
        cases h
        exact .inl hp
      · rw [hline] at h
        obtain ⟨⟨q, rest'⟩, hline, hread⟩ := Option.bind_eq_some_iff.mp h
        -- where the line ends
        have hplace : (∃ y : Text, rest = y ++ '\n' :: c :: t ∧ buf.length + y.length = x.length ∧
            0 < buf.length) ∨ rest = c :: t ∧ buf = x ++ ['\n'] := by
          rcases piece_within '\n' room x (c :: t) with ⟨l₁, l₂, hx', hp'⟩ | hp'
          · rw [hp'] at hpiece
            cases hpiece
            refine .inl ⟨l₂, rfl, by rw [hx', List.length_append], ?_⟩
            rw [hx'] at hlt
            simp only [List.length_append] at hlt
            omega
          · rw [hp'] at hpiece
            cases hpiece
            exact .inr ⟨rfl, rfl⟩
        have hnext : ∀ y : Text, y.length < x.length → Shorter n q →
            controlRead (y ++ '\n' :: c :: t) q = some r →
            Shorter n r.1 ∨ ∃ q, Shorter n q ∧ controlRead (c :: t) q = some r :=
          fun y hy hq hr => ih y.length (by omega) y (by omega) hq hr rfl
        have hblock := readBlock_within hc hc' t
        rw [controlLine] at hline
        split at hline
        · cases hline
          rcases hplace with ⟨y, rfl, hlen, hpos⟩ | ⟨rfl, -⟩
          · exact hnext y (by omega) hp hread
          · exact .inr ⟨_, hp, hread⟩
        · next k hk =>
            have hq : Shorter n q := by
              by_cases hkey : k = .conffiles
              · subst hkey
                cases hline
                intro b hb
                cases hb
                obtain ⟨exact, -, hbegins⟩ := keyOf_begins hk
                have hlabel := begins_length_le hbegins
                have helen : Key.conffiles.label.length = 11 := rfl
                rw [List.length_dropLast] at hlabel
                rcases hplace with ⟨y, rfl, hlen, hpos⟩ | ⟨rfl, rfl⟩
                · have := (hblock y).1
                  omega
                · rw [readBlock_stop hc hc', List.length_nil]
                  rw [List.length_append, List.length_singleton] at hlabel
                  omega
              · intro b hb
                rw [setField_conffiles hkey hline] at hb
                exact hp b hb
            have hrest : (∃ y : Text, y.length < x.length ∧ rest' = y ++ '\n' :: c :: t) ∨
                rest' = c :: t := by
              rcases hplace with ⟨y, rfl, hlen, hpos⟩ | ⟨rfl, -⟩
              · rcases setField_rest hline with hr | hr
                · exact .inl ⟨y, by omega, hr⟩
                · rcases (hblock y).2 with ⟨z, hz, hz'⟩ | hz'
                  · exact .inl ⟨z, by omega, hr.trans hz'⟩
                  · exact .inr (hr.trans hz')
              · rcases setField_rest hline with hr | hr
                · exact .inr hr
                · rw [readBlock_stop hc hc'] at hr
                  exact .inr hr
            rcases hrest with ⟨y, hy, rfl⟩ | rfl
            · exact hnext y hy hq hread
            · exact .inr ⟨q, hq, hread⟩

/-! ## The stanza -/

theorem controlRead_described (hp : Filled p) {description : Text}
    (hdesc : p.description = some description) (hlong : p.longDescription = some b) (m : PackageT) :
    controlRead (writeDescription p) m =
      controlRead (readBlock (b ++ writeMenuItem p)).2
        { m with description := some description
                 longDescription := some (readBlock (b ++ writeMenuItem p)).1 } := by
  rw [writeDescription_eq, hdesc, hlong]
  dsimp only
  rw [List.append_assoc, List.append_assoc _ ['\n'], List.singleton_append]
  exact controlRead_field (k := .description) (hp.fits .description description nofun hdesc) _ m

theorem mem_readBlock_described (hb : Block b) (p : PackageT) {d : Char}
    (h : d ∈ (readBlock (b ++ writeMenuItem p)).2) : d ∈ writeMenuItem p := by
  obtain ⟨c, t, hmenu, -, -⟩ := writeMenuItem_cons p
  rcases hb with hb | ⟨b₀, l, hb₀, -, hl, hlen, rfl⟩
  · rw [readBlock_append hb] at h
    exact mem_readBlock_rest h
  · rw [List.append_assoc, readBlock_append hb₀, hmenu] at h
    rw [hmenu]
    exact (readBlock_cut hl hlen c t).2 d h

theorem controlRead_writeDescription_conffiles (hp : Filled p)
    (h : controlRead (writeDescription p) m = some r) : r.1.conffiles = m.conffiles := by
  have hkey : ∀ {t : Text}, (∀ d ∈ t, d ∈ writeMenuItem p) → ∀ buf : Text, (∀ c ∈ buf, c ∈ t) →
      keyOf buf ≠ some .conffiles := by
    intro t ht buf hbuf hk
    obtain ⟨c, hc, hlower⟩ := keyOf_conffiles hk
    exact (mem_writeMenuItem (ht c (hbuf c hc))).2 hlower
  have hkeeps : ∀ {t : Text} {q : PackageT}, (∀ d ∈ t, d ∈ writeMenuItem p) →
      controlRead t q = some r → r.1.conffiles = q.conffiles := by
    intro t q ht hr
    exact controlRead_keeps (f := PackageT.conffiles)
      (fun k' v rest p r hk' hset => setField_conffiles hk' hset) (hkey ht) hr
  cases hdesc : p.description with
  | none =>
      rw [writeDescription_eq, hdesc] at h
      exact hkeeps (fun _ hd => hd) h
  | some description =>
      cases hlong : p.longDescription with
      | none => exact absurd (hp.described.mpr hlong) (by rw [hdesc]; exact nofun)
      | some b =>
          rw [controlRead_described hp hdesc hlong] at h
          have hsame := hkeeps (fun d hd => mem_readBlock_described (hp.block b hlong) p hd) h
          exact hsame

theorem controlRead_writeStanza (hp : Filled p) (hname : p.package = some name)
    (hfits : Fits .package name) (hstatus : p.status = .full want flag state) (hfile : p.file = [])
    (hconffiles : p.conffiles = none) (hpieces : ∀ b, p.longDescription = some b → Pieces b) :
    controlRead (writeStanza p) {} =
      some ({ p with installedSize := p.priority.map fun _ => printed p.installedSize },
        some []) := by
  obtain ⟨hsource, hpre, hreplaces, hconflicts⟩ := hp.unread
  rw [writeStanza, writeConffiles, hconffiles, List.append_assoc, List.nil_append,
    controlRead_writeFields hp hname hfits hstatus,
    controlRead_writeDescription hp hpieces ⟨rfl, rfl, rfl⟩]
  cases p
  dsimp only at hfile hsource hpre hreplaces hconflicts hconffiles
  subst hfile hsource hpre hreplaces hconflicts hconffiles
  rfl

theorem conffiles_none_of_read (hp : Filled p) (hname : p.package = some name)
    (hfits : Fits .package name) (hstatus : p.status = .full want flag state) {rest : Option Text}
    (h : controlRead (writeStanza p) {} = some (p, rest)) : p.conffiles = none := by
  by_contra hsome
  obtain ⟨b, hb⟩ := Option.ne_none_iff_exists'.mp hsome
  obtain ⟨c, t, hdesc, hc, hc'⟩ : ∃ c t, writeDescription p = c :: t ∧ c ≠ ' ' ∧ c ≠ '\xff' := by
    rw [writeDescription_eq]
    split
    · exact writeMenuItem_cons p
    · exact ⟨_, _, rfl, by decide, by decide⟩
  have hlonger : ¬ Shorter b.length p := fun hs => lt_irrefl _ (hs b hb)
  rw [writeStanza, writeConffiles, hb, List.append_assoc, controlRead_writeFields hp hname hfits
    hstatus] at h
  dsimp only at h
  rw [show "Conffiles:\n " ++ b ++ ['\n'] ++ writeDescription p =
      "Conffiles:" ++ '\n' :: (' ' :: b ++ '\n' :: writeDescription p) by simp,
    controlRead_line (by decide) (by decide), if_neg (by decide), controlLine,
    show keyOf "Conffiles:" = none by decide] at h
  dsimp only [Option.bind_some] at h
  rw [hdesc] at h
  rcases controlRead_within hc hc' t (n := b.length) (' ' :: b) le_rfl (fun _ hnone => by cases hnone)
    h with hs | ⟨q, hq, hread⟩
  · exact hlonger hs
  · rw [← hdesc] at hread
    have hsame := controlRead_writeDescription_conffiles hp hread
    exact hlonger fun b' hb' => hq b' (hsame.symm.trans hb')

theorem pieces_of_read (hp : Filled p) (hname : p.package = some name) (hfits : Fits .package name)
    (hstatus : p.status = .full want flag state) (hconffiles : p.conffiles = none)
    {rest : Option Text} (h : controlRead (writeStanza p) {} = some (p, rest))
    (hlong : p.longDescription = some b) : Pieces b := by
  rcases hp.block b hlong with hb | ⟨b₀, l, hb₀, -, hl, hlen, hb⟩
  · exact hb
  · exfalso
    obtain ⟨description, hdesc⟩ : ∃ d, p.description = some d := by
      refine Option.ne_none_iff_exists'.mp fun hnone => ?_
      rw [hp.described.mp hnone] at hlong
      cases hlong
    rw [writeStanza, writeConffiles, hconffiles, List.append_assoc, List.nil_append,
      controlRead_writeFields hp hname hfits hstatus, controlRead_described hp hdesc hlong] at h
    have hkey : ∀ buf : Text, (∀ c ∈ buf, c ∈ (readBlock (b ++ writeMenuItem p)).2) →
        keyOf buf ≠ some .description := by
      intro buf hbuf hk
      have hmem := hbuf _ (keyOf_description hk)
      exact (mem_writeMenuItem (mem_readBlock_described (hp.block b hlong) p hmem)).1 rfl
    have hsame := controlRead_keeps (f := PackageT.longDescription) (fun k' v rest p r hk' hset => by
      cases k' with
      | status =>
          obtain ⟨s, -, rfl⟩ := Option.map_eq_some_iff.mp hset
          rfl
      | description => exact absurd rfl hk'
      | _ =>
          cases hset
          rfl) hkey h
    rw [hlong] at hsame
    have hmore := congrArg List.length (Option.some.inj hsame)
    obtain ⟨c, t, hmenu, -, -⟩ := writeMenuItem_cons p
    have hcut := (readBlock_cut hl hlen c t).1
    rw [hb, List.append_assoc, readBlock_append hb₀, hmenu, List.length_append,
      List.length_append] at hmore
    omega

/-- The package comes back: the name fits into a line, there is a priority if and only if
there is an installed size, there is no list of configuration files, and the lines of the
long description are complete. -/
structure Restorable (p : PackageT) : Prop where
  name : ∀ name, p.package = some name → Fits .package name
  size : p.priority = none ↔ p.installedSize = none
  conffiles : p.conffiles = none
  long : ∀ b, p.longDescription = some b → (behindNewline b).length % (room + 1) = 0

/-- The stanza of `p`, with a status of three words, is read back. -/
def RoundTrip (p : PackageT) (want : Want) (flag : Flag) (state : State) : Prop :=
  ∃ rest, controlRead (writeStanza { p with status := .full want flag state }) {} =
    some ({ p with status := .full want flag state }, rest)

/-- A package that was read from a control file comes back from its stanza exactly if it is
restorable. -/
theorem writeStanza_roundTrip_iff {t name : Text} {p : PackageT} {rest : Option Text}
    (h : controlRead t { package := some name } = some (p, rest)) (want : Want) (flag : Flag)
    (state : State) : RoundTrip p want flag state ↔ Restorable p := by
  have hfilled := controlRead_filled h (filled_new [] (some name))
  have hfile : p.file = [] := controlRead_file h
  obtain ⟨n, hn⟩ := Option.ne_none_iff_exists'.mp (controlRead_named h nofun)
  have hp : Filled { p with status := .full want flag state } := by
    refine ⟨fun k v hk hv => hfilled.fits k v hk ?_, hfilled.unread, hfilled.described,
      hfilled.block, hfilled.conffiles, hfilled.menuItem⟩
    cases k <;> exact hv
  refine ⟨fun ⟨rest, hread⟩ => ?_, fun hr => ?_⟩
  · have hfits : Fits .package n := controlRead_fits hread .package n hn
    have hconffiles := conffiles_none_of_read hp hn hfits rfl hread
    have hpieces : ∀ b, p.longDescription = some b → Pieces b :=
      fun b hb => pieces_of_read hp hn hfits rfl hconffiles hread hb
    rw [controlRead_writeStanza hp hn hfits rfl hfile hconffiles hpieces] at hread
    have hsize : (p.priority.map fun _ => printed p.installedSize) = p.installedSize :=
      congrArg (fun r : PackageT × Option Text => r.1.installedSize) (Option.some.inj hread)
    refine ⟨fun name hname => ?_, ?_, hconffiles, fun b hb => (hpieces b hb).behindNewline⟩
    · rw [hn] at hname
      cases hname
      exact hfits
    · rw [← hsize, Option.map_eq_none_iff]
  · have hpieces : ∀ b, p.longDescription = some b → Pieces b :=
      fun b hb => (hfilled.block b hb).pieces_iff.mpr (hr.long b hb)
    refine ⟨some [], ?_⟩
    rw [controlRead_writeStanza hp hn (hr.name n hn) rfl hfile hr.conffiles hpieces]
    have hsize : (p.priority.map fun _ => printed p.installedSize) = p.installedSize := by
      cases hprio : p.priority with
      | none => exact (hr.size.mp hprio).symm
      | some priority =>
          cases hs : p.installedSize with
          | none => exact absurd (hr.size.mpr hs) (by rw [hprio]; exact nofun)
          | some size => rfl
    dsimp only
    rw [hsize]

/-- A control file with a priority and no installed size, and what is read of it. -/
def unsizedControl : Text := "Package: netcfg\nPriority: standard\n"

def unsizedPackage : PackageT where
  package := some "netcfg"
  priority := some "standard"

/-- The stanza has an installed size, which is `(null)`. -/
theorem writeStanza_unsized :
    ¬ ∀ (t name : Text) (p : PackageT) (rest : Option Text),
      controlRead t { package := some name } = some (p, rest) →
        ∀ want flag state, RoundTrip p want flag state := by
  intro h
  obtain ⟨rest, hread⟩ := h unsizedControl "netcfg" unsizedPackage none (by decide) .install .ok
    .unpacked
  have hsize : (controlRead (writeStanza { unsizedPackage with status := .full .install .ok .unpacked })
      {}).map (fun r => r.1.installedSize) = some (some null) := by decide
  rw [hread] at hsize
  cases Option.some.inj hsize

/-- With its installed size the package is read back. -/
def sizedControl : Text :=
  "Package: netcfg\nPriority: standard\nInstalled-Size: 92\nDescription: Network\n Configures it.\n"

def sizedPackage : PackageT where
  package := some "netcfg"
  priority := some "standard"
  installedSize := some "92"
  description := some "Network"
  longDescription := some " Configures it.\n"

theorem writeStanza_roundTrip_sized :
    RoundTrip sizedPackage .install .ok .unpacked ↔ Restorable sizedPackage :=
  @writeStanza_roundTrip_iff sizedControl "netcfg_1.udeb" sizedPackage none (by decide)
    .install .ok .unpacked

end DebianInstaller.Udpkg
