import DebianInstaller.Zfcp.DeviceIds

/-!
# Device ids that are read

Which texts the parser takes for the id of a LUN, and which of them have the form that is
documented. The id of the device consists of one hexadecimal number or of three with dots between
them; the WWPN and the LUN have sixteen digits each.

Every text that the parser reads is made of the parts that `sscanf` allows for, so what is more
than the form can be seen from the characters alone: a blank, a sign, or `0x` where no digits
follow or where they follow only after another one.
-/

namespace DebianInstaller.Zfcp

open Text
open Netcfg (digitValue numeral isHex)

variable {lone : Bool}

variable {a b id rest t w zero : Text} {c : Char} {format : List Directive} {n width : ℕ} {v : ℤ}

/-! ## What the parser reads -/

/-- A number with blanks before it. -/
def Spaced (lone : Bool) (width : ℕ) (t : Text) (v : ℤ) : Prop :=
  ∃ blanks w, t = blanks ++ w ∧ Blank blanks ∧ Number lone w v ∧ w.length ≤ width

theorem scanHex_spaced (h : Spaced lone width t v) (hrest : Ends rest) :
    scanHex lone width (t ++ rest) = some (v, rest) := by
  obtain ⟨blanks, w, rfl, hblanks, hw, hlength⟩ := h
  rw [List.append_assoc, scanHex_number hblanks hw hlength hrest]

theorem spaced_of_scanHex (hwidth : 3 ≤ width) (h : scanHex lone width t = some (v, rest)) :
    ∃ u, t = u ++ rest ∧ Spaced lone width u v := by
  obtain ⟨blanks, w, rfl, hblanks, hw, hlength⟩ := number_of_scanHex hwidth h
  exact ⟨blanks ++ w, (List.append_assoc _ _ _).symm, blanks, w, rfl, hblanks, hw, hlength⟩

theorem ends_dot (t : Text) : Ends ('.' :: t) := fun _ hc =>
  Option.some.inj hc ▸ ⟨by decide, by decide, by decide⟩

theorem ends_blank (h : Blank t) : Ends t := by
  intro c hc
  have hspace := h c (List.mem_of_mem_head? hc)
  refine ⟨Netcfg.isHex_of_isSpace hspace, ?_, ?_⟩
  · rintro rfl
    exact absurd hspace (by decide)
  · rintro rfl
    exact absurd hspace (by decide)

theorem blank_nil : Blank [] := fun _ hc => absurd hc List.not_mem_nil

theorem dropWhile_blank : t.dropWhile isSpace = [] ↔ Blank t :=
  List.dropWhile_eq_nil_iff

theorem sscanf_blanks (t : Text) : sscanf lone [.blanks, .any] t = [] ↔ Blank t := by
  rw [← dropWhile_blank]
  unfold sscanf
  cases t.dropWhile isSpace with
  | nil => exact iff_of_true rfl rfl
  | cons c u => exact iff_of_false (by simp [sscanf]) (by simp)

theorem sscanf_hex {vs : List ℤ} (hwidth : 3 ≤ width)
    (h : sscanf lone (.hex width :: format) t = v :: vs) :
    ∃ u rest, t = u ++ rest ∧ Spaced lone width u v ∧ sscanf lone format rest = vs := by
  rw [sscanf] at h
  cases hscan : scanHex lone width t with
  | none =>
      rw [hscan] at h
      cases h
  | some r =>
      obtain ⟨v', rest⟩ := r
      rw [hscan] at h
      obtain ⟨rfl, hvs⟩ := List.cons.inj h
      obtain ⟨u, ht, hu⟩ := spaced_of_scanHex hwidth hscan
      exact ⟨u, rest, ht, hu, hvs⟩

theorem sscanf_spaced (h : Spaced lone width t v) (hrest : Ends rest) :
    sscanf lone (.hex width :: format) (t ++ rest) = v :: sscanf lone format rest := by
  rw [sscanf, scanHex_spaced h hrest]

theorem sscanf_char {vs : List ℤ} (h : sscanf lone (.char c :: format) t = v :: vs) :
    ∃ u, t = c :: u ∧ sscanf lone format u = v :: vs := by
  cases t with
  | nil => cases h
  | cons d t =>
      rw [sscanf] at h
      split at h
      · next hd => exact ⟨t, by rw [hd], h⟩
      · cases h

theorem sscanf_one (hwidth : 3 ≤ width) :
    sscanf lone [.hex width, .blanks, .any] t = [v] ↔
      ∃ u blanks, t = u ++ blanks ∧ Spaced lone width u v ∧ Blank blanks := by
  constructor
  · intro h
    obtain ⟨u, rest, ht, hu, hrest⟩ := sscanf_hex hwidth h
    exact ⟨u, rest, ht, hu, (sscanf_blanks rest).1 hrest⟩
  · rintro ⟨u, blanks, rfl, hu, hblanks⟩
    rw [sscanf_spaced hu (ends_blank hblanks), (sscanf_blanks blanks).2 hblanks]

theorem sscanf_three {a b d : ℤ} :
    sscanf lone devidFormat t = [a, b, d] ↔
      ∃ ta tb td blanks, t = ta ++ '.' :: (tb ++ '.' :: (td ++ blanks)) ∧
        Spaced lone 8 ta a ∧ Spaced lone 8 tb b ∧ Spaced lone 8 td d ∧ Blank blanks := by
  constructor
  · intro h
    obtain ⟨ta, rest, rfl, ha, h⟩ := sscanf_hex (by decide) h
    obtain ⟨rest, rfl, h⟩ := sscanf_char h
    obtain ⟨tb, rest, rfl, hb, h⟩ := sscanf_hex (by decide) h
    obtain ⟨rest, rfl, h⟩ := sscanf_char h
    obtain ⟨td, rest, rfl, hd, h⟩ := sscanf_hex (by decide) h
    exact ⟨ta, tb, td, rest, rfl, ha, hb, hd, (sscanf_blanks rest).1 h⟩
  · rintro ⟨ta, tb, td, blanks, rfl, ha, hb, hd, hblanks⟩
    rw [devidFormat, sscanf_spaced ha (ends_dot _), sscanf, if_pos rfl,
      sscanf_spaced hb (ends_dot _), sscanf, if_pos rfl, sscanf_spaced hd (ends_blank hblanks),
      (sscanf_blanks blanks).2 hblanks]

/-- What is taken for the id of a device: one number or three, with blanks and signs and `0x`. -/
inductive LooseCcw (lone : Bool) : Text → Prop where
  | devno {t blanks : Text} {v : ℤ} (ht : Spaced lone 8 t v) (hblanks : Blank blanks)
      (hlone : ¬ sameIgnoringCase (t ++ blanks) ['0', 'x'] = true)
      (hdevno : (BitVec.ofInt 32 v).toNat ≤ devnoMax) : LooseCcw lone (t ++ blanks)
  | devid {ta tb td blanks : Text} {a b d : ℤ} (ha : Spaced lone 8 ta a)
      (hb : Spaced lone 8 tb b) (hd : Spaced lone 8 td d) (hblanks : Blank blanks)
      (hcssid : (BitVec.ofInt 32 a).toNat ≤ cssidMax)
      (hssid : (BitVec.ofInt 32 b).toNat ≤ ssidMax)
      (hdevno : (BitVec.ofInt 32 d).toNat ≤ devnoMax) :
      LooseCcw lone (ta ++ '.' :: (tb ++ '.' :: (td ++ blanks)))

theorem checkRanges_ok {cssid ssid devno : BitVec 32} {devid : CcwDevid} :
    checkRanges cssid ssid devno = .ok devid ↔
      (cssid.toNat ≤ cssidMax ∧ ssid.toNat ≤ ssidMax ∧ devno.toNat ≤ devnoMax) ∧
        devid = ⟨cssid.setWidth 8, ssid.setWidth 8, devno.setWidth 16⟩ := by
  unfold checkRanges
  split
  · next h => exact iff_of_false (by simp) fun hall => by omega
  · split
    · next h => exact iff_of_false (by simp) fun hall => by omega
    · split
      · next h => exact iff_of_false (by simp) fun hall => by omega
      · next hc hs hd =>
          rw [Except.ok.injEq, eq_comm]
          exact ⟨fun h => ⟨⟨by omega, by omega, by omega⟩, h⟩, fun h => h.2⟩

theorem not_one {ta : Text} {a : ℤ} (ha : Spaced lone 8 ta a) :
    sscanf lone devnoFormat (ta ++ '.' :: rest) ≠ [v] := by
  rw [devnoFormat, sscanf_spaced ha (ends_dot _)]
  intro h
  have hblank := (sscanf_blanks _).1 (List.cons.inj h).2 '.' List.mem_cons_self
  exact absurd hblank (by decide)

theorem ccwParseDevid_three {ta tb td blanks : Text} {a b d : ℤ} (ha : Spaced lone 8 ta a)
    (hb : Spaced lone 8 tb b) (hd : Spaced lone 8 td d) (hblanks : Blank blanks) :
    ccwParseDevid lone (ta ++ '.' :: (tb ++ '.' :: (td ++ blanks))) =
      checkRanges (BitVec.ofInt 32 a) (BitVec.ofInt 32 b) (BitVec.ofInt 32 d) := by
  unfold ccwParseDevid
  split
  · next h => exact absurd h (not_one ha)
  · rw [sscanf_three.2 ⟨ta, tb, td, blanks, rfl, ha, hb, hd, hblanks⟩]

theorem ccwParseDevid_ok : (∃ devid, ccwParseDevid lone id = .ok devid) ↔ LooseCcw lone id := by
  constructor
  · rintro ⟨devid, h⟩
    unfold ccwParseDevid at h
    split at h
    · next v hone =>
        split at h
        · cases h
        · next hlone =>
            obtain ⟨u, blanks, rfl, hu, hblanks⟩ := (sscanf_one (by decide)).1 hone
            exact .devno hu hblanks hlone (checkRanges_ok.1 h).1.2.2
    · split at h
      · next a b d hthree =>
          obtain ⟨ta, tb, td, blanks, rfl, ha, hb, hd, hblanks⟩ := sscanf_three.1 hthree
          obtain ⟨⟨hcssid, hssid, hdevno⟩, -⟩ := checkRanges_ok.1 h
          exact .devid ha hb hd hblanks hcssid hssid hdevno
      · cases h
  · rintro (⟨ht, hblanks, hlone, hdevno⟩ | ⟨ha, hb, hd, hblanks, hcssid, hssid, hdevno⟩)
    · next t blanks v =>
      refine ⟨⟨0, 0, (BitVec.ofInt 32 v).setWidth 16⟩, ?_⟩
      unfold ccwParseDevid
      have hone : sscanf lone devnoFormat (t ++ blanks) = [v] :=
        (sscanf_one (by decide)).2 ⟨t, blanks, rfl, ht, hblanks⟩
      rw [hone]
      simp only [if_neg hlone]
      exact checkRanges_ok.2 ⟨⟨Nat.zero_le _, Nat.zero_le _, hdevno⟩, rfl⟩
    · rw [ccwParseDevid_three ha hb hd hblanks]
      exact ⟨_, checkRanges_ok.2 ⟨⟨hcssid, hssid, hdevno⟩, rfl⟩⟩

theorem cutColon_append (h : ':' ∉ a) (b : Text) : cutColon (a ++ ':' :: b) = some (a, b) := by
  induction a with
  | nil => exact if_pos rfl
  | cons c a ih =>
      have hne : c ≠ ':' := fun heq => h (heq ▸ List.mem_cons_self)
      rw [List.cons_append, cutColon, if_neg hne, ih fun hmem => h (List.mem_cons_of_mem _ hmem)]
      rfl

theorem cutColon_spec (h : cutColon t = some (a, b)) : t = a ++ ':' :: b := by
  induction t generalizing a with
  | nil => cases h
  | cons c t ih =>
      rw [cutColon] at h
      split at h
      · next hc =>
          obtain ⟨rfl, rfl⟩ := Prod.mk.inj (Option.some.inj h)
          rw [hc]
          rfl
      · obtain ⟨⟨a', b'⟩, hcut, heq⟩ := Option.map_eq_some_iff.1 h
        obtain ⟨rfl, rfl⟩ := Prod.mk.inj heq
        rw [ih hcut]
        rfl

/-- Sixteen characters, with `0x` before them or not, in which there is a number. -/
def LooseWide (lone : Bool) (t : Text) : Prop :=
  ∃ zero u blanks v, t = zero ++ (u ++ blanks) ∧ IsPrefix zero ∧
    (zero = [] → ∀ x rest, t = '0' :: x :: rest → x ≠ 'x' ∧ x ≠ 'X') ∧
    (u ++ blanks).length = 16 ∧ Spaced lone 16 u v ∧ Blank blanks

/-- What is taken for the id of a LUN. -/
def LooseForm (lone : Bool) (id : Text) : Prop :=
  ∃ c w l, id = c ++ ':' :: (w ++ ':' :: l) ∧ LooseCcw lone c ∧ LooseWide lone w ∧
    LooseWide lone l

theorem parseWide_ok (len invalid : Result) :
    (∃ v, parseWide lone len invalid t = .ok v) ↔ LooseWide lone t := by
  constructor
  · rintro ⟨v, h⟩
    obtain ⟨hzero, ht⟩ := scanPrefix_spec t
    unfold parseWide at h
    simp only [] at h
    split at h
    · cases h
    · next hlength =>
        split at h
        · next w hone =>
            obtain ⟨u, blanks, hu, hspaced, hblanks⟩ := (sscanf_one (by decide)).1 hone
            refine ⟨(scanPrefix t).1, u, blanks, w, ?_, hzero, fun hnone x rest heq => ?_, ?_,
              hspaced, hblanks⟩
            · rw [← hu]
              exact ht
            · by_contra hx
              have htaken : scanPrefix t = (['0', x], rest) := by
                rw [heq]
                refine if_pos ?_
                by_contra hnot
                exact hx ⟨fun h => hnot (.inl h), fun h => hnot (.inr h)⟩
              rw [htaken] at hnone
              cases hnone
            · rw [← hu]
              exact not_not.1 hlength
        · cases h
  · rintro ⟨zero, u, blanks, v, ht, hzero, hnone, hlength, hspaced, hblanks⟩
    have hscan : (scanPrefix t).2 = u ++ blanks := by
      by_cases hz : zero = []
      · rw [scanPrefix_none (hnone hz), ht, hz]
        rfl
      · rw [ht, scanPrefix_append hzero hz]
    have hone : sscanf lone wideFormat (u ++ blanks) = [v] :=
      (sscanf_one (by decide)).2 ⟨u, blanks, rfl, hspaced, hblanks⟩
    unfold parseWide
    simp only [hscan, hlength, ne_eq, not_true_eq_false, if_false, hone]
    exact ⟨_, rfl⟩

theorem prefix_chars (hzero : IsPrefix zero) (hc : c ∈ zero) : c = '0' ∨ c = 'x' ∨ c = 'X' := by
  rcases hzero with rfl | rfl | rfl
  · cases hc
  · simp only [List.mem_cons, List.not_mem_nil, or_false] at hc
    exact hc.imp_right .inl
  · simp only [List.mem_cons, List.not_mem_nil, or_false] at hc
    exact hc.imp_right .inr

theorem number_chars (h : Number lone w v) : ∀ c ∈ w, c ≠ ':' ∧ c ≠ '.' := by
  obtain ⟨hsign, hzero, hdigits, -⟩ := h
  intro c hc
  rcases List.mem_append.1 hc with hc | hc
  · rcases hsign with rfl | rfl | rfl
    · cases hc
    · exact List.mem_singleton.1 hc ▸ ⟨by decide, by decide⟩
    · exact List.mem_singleton.1 hc ▸ ⟨by decide, by decide⟩
  · rcases List.mem_append.1 hc with hc | hc
    · rcases prefix_chars hzero hc with rfl | rfl | rfl <;> exact ⟨by decide, by decide⟩
    · have hhex := hdigits c hc
      refine ⟨?_, ?_⟩
      · rintro rfl
        exact absurd hhex (by decide)
      · rintro rfl
        exact absurd hhex (by decide)

theorem blank_chars (h : Blank t) : ∀ c ∈ t, c ≠ ':' ∧ c ≠ '.' := by
  intro c hc
  have hspace := h c hc
  refine ⟨?_, ?_⟩
  · rintro rfl
    exact absurd hspace (by decide)
  · rintro rfl
    exact absurd hspace (by decide)

theorem spaced_chars (h : Spaced lone width t v) : ∀ c ∈ t, c ≠ ':' ∧ c ≠ '.' := by
  obtain ⟨blanks, w, rfl, hblanks, hw, -⟩ := h
  intro c hc
  rcases List.mem_append.1 hc with hc | hc
  · exact blank_chars hblanks c hc
  · exact number_chars hw c hc

theorem LooseCcw.colon (h : LooseCcw lone id) : ':' ∉ id := by
  have hdot : ¬ ':' = '.' := by decide
  rcases h with ⟨ht, hblanks, -, -⟩ | ⟨ha, hb, hd, hblanks, -, -, -⟩
  · intro hmem
    rcases List.mem_append.1 hmem with hc | hc
    · exact (spaced_chars ht _ hc).1 rfl
    · exact (blank_chars hblanks _ hc).1 rfl
  · intro hmem
    simp only [List.mem_append, List.mem_cons, hdot, false_or] at hmem
    rcases hmem with hc | hc | hc | hc
    · exact (spaced_chars ha _ hc).1 rfl
    · exact (spaced_chars hb _ hc).1 rfl
    · exact (spaced_chars hd _ hc).1 rfl
    · exact (blank_chars hblanks _ hc).1 rfl

theorem LooseWide.colon (h : LooseWide lone t) : ':' ∉ t := by
  obtain ⟨zero, u, blanks, v, rfl, hzero, -, -, hspaced, hblanks⟩ := h
  intro hmem
  rcases List.mem_append.1 hmem with hc | hc
  · rcases hzero with rfl | rfl | rfl
    · cases hc
    · exact absurd hc (by decide)
    · exact absurd hc (by decide)
  · rcases List.mem_append.1 hc with hc | hc
    · exact (spaced_chars hspaced _ hc).1 rfl
    · exact (blank_chars hblanks _ hc).1 rfl

theorem zfcpLunParseDevid_parts {c w l : Text} (hc : ':' ∉ c) (hw : ':' ∉ w) :
    zfcpLunParseDevid lone (c ++ ':' :: (w ++ ':' :: l)) =
      match ccwParseDevid lone c with
      | .error _ => .error .exitInvalidId
      | .ok fcpDev =>
          (parseWide lone .resultInvalidWwpnLen .resultInvalidWwpn w).bind fun wwpn =>
            (parseWide lone .resultInvalidLunLen .resultInvalidLun l).bind fun lun =>
              .ok ⟨fcpDev, wwpn, lun⟩ := by
  unfold zfcpLunParseDevid
  rw [cutColon_append hc]
  simp only [cutColon_append hw]
  rfl

theorem zfcpLunParseDevid_ok : (∃ d, zfcpLunParseDevid lone id = .ok d) ↔ LooseForm lone id := by
  constructor
  · rintro ⟨d, h⟩
    unfold zfcpLunParseDevid at h
    cases hcut : cutColon id with
    | none =>
        rw [hcut] at h
        cases h
    | some r =>
        obtain ⟨c, curr⟩ := r
        rw [hcut] at h
        simp only [] at h
        cases hccw : ccwParseDevid lone c with
        | error e =>
            rw [hccw] at h
            cases h
        | ok fcpDev =>
            rw [hccw] at h
            simp only [] at h
            cases hcut' : cutColon curr with
            | none =>
                rw [hcut'] at h
                cases h
            | some r =>
                obtain ⟨w, l⟩ := r
                rw [hcut'] at h
                simp only [] at h
                cases hw : parseWide lone .resultInvalidWwpnLen .resultInvalidWwpn w with
                | error e =>
                    rw [hw] at h
                    cases h
                | ok wwpn =>
                    rw [hw] at h
                    cases hl : parseWide lone .resultInvalidLunLen .resultInvalidLun l with
                    | error e =>
                        rw [hl] at h
                        cases h
                    | ok lun =>
                        refine ⟨c, w, l, ?_, ccwParseDevid_ok.1 ⟨_, hccw⟩,
                          (parseWide_ok _ _).1 ⟨_, hw⟩, (parseWide_ok _ _).1 ⟨_, hl⟩⟩
                        rw [cutColon_spec hcut, cutColon_spec hcut']
  · rintro ⟨c, w, l, rfl, hc, hw, hl⟩
    obtain ⟨fcpDev, hccw⟩ := ccwParseDevid_ok.2 hc
    obtain ⟨wwpn, hwwpn⟩ :=
      (parseWide_ok .resultInvalidWwpnLen .resultInvalidWwpn).2 hw
    obtain ⟨lun, hlun⟩ :=
      (parseWide_ok .resultInvalidLunLen .resultInvalidLun).2 hl
    rw [zfcpLunParseDevid_parts hc.colon hw.colon, hccw]
    simp only [hwwpn, hlun]
    exact ⟨_, rfl⟩

/-! ## What is written can be read -/

theorem number_digits (hne : w ≠ []) (hall : ∀ c ∈ w, isHex c = true) :
    Number lone w (numeral 16 w) := by
  have h : Number lone ([] ++ ([] ++ w)) (1 * numeral 16 w) :=
    .mk (.inl rfl) (.inl rfl) hall fun hnil => absurd hnil hne
  rwa [List.nil_append, List.nil_append, one_mul] at h

theorem spaced_digits (width : ℕ) (hne : w ≠ []) (hall : ∀ c ∈ w, isHex c = true)
    (hlength : w.length ≤ width) : Spaced lone width w (numeral 16 w) :=
  ⟨[], w, rfl, blank_nil, number_digits hne hall, hlength⟩

theorem hex_toDigits (n : ℕ) : ∀ c ∈ Nat.toDigits 16 n, isHex c = true := fun _ hc =>
  decide_eq_true (Netcfg.digitValue_lt (by decide) le_rfl hc)

theorem numeral_zeros (k : ℕ) (w : Text) :
    numeral 16 (List.replicate k '0' ++ w) = numeral 16 w := by
  induction k with
  | zero => rfl
  | succ k ih =>
      rw [List.replicate_succ, List.cons_append, ← ih]
      rfl

theorem padded_spec {v : ℕ} (h : v < 16 ^ n) (hn : 0 < n) :
    (padded n v).length = n ∧ (∀ c ∈ padded n v, isHex c = true) ∧
      numeral 16 (padded n v) = v := by
  have hlength := (Nat.length_toDigits_le_iff (b := 16) (by decide) hn).2 h
  unfold padded List.leftpad
  refine ⟨?_, fun c hc => ?_, ?_⟩
  · rw [List.length_append, List.length_replicate]
    omega
  · rcases List.mem_append.1 hc with hc | hc
    · rw [List.eq_of_mem_replicate hc]
      decide
    · exact hex_toDigits v c hc
  · rw [numeral_zeros, Netcfg.numeral_toDigits]

theorem ofInt_numeral (k : ℕ) (v : BitVec n) (hw : numeral 16 w = v.toNat) :
    BitVec.ofInt k (numeral 16 w) = v.setWidth k := by
  rw [hw, BitVec.ofInt_natCast, BitVec.ofNat_toNat]

theorem ccwParseDevid_toStr {d : CcwDevid} (hssid : d.ssid.toNat ≤ ssidMax) :
    ccwParseDevid lone (ccwDevidToStr d) = .ok d := by
  obtain ⟨hlength, hall, hnumeral⟩ := padded_spec (n := 4) d.devno.isLt (by decide)
  have hcssidlength : (Nat.toDigits 16 d.cssid.toNat).length ≤ 2 :=
    (Nat.length_toDigits_le_iff (by decide) (by decide)).2 d.cssid.isLt
  have hssidlength : (Nat.toDigits 16 d.ssid.toNat).length ≤ 2 :=
    (Nat.length_toDigits_le_iff (by decide) (by decide)).2 d.ssid.isLt
  have hne : padded 4 d.devno.toNat ≠ [] := by
    rw [← List.length_pos_iff_ne_nil]
    omega
  have hthree := @ccwParseDevid_three lone _ _ _ [] _ _ _
    (spaced_digits 8 Nat.toDigits_ne_nil (hex_toDigits d.cssid.toNat) (by omega))
    (spaced_digits 8 Nat.toDigits_ne_nil (hex_toDigits d.ssid.toNat) (by omega))
    (spaced_digits 8 hne hall (by omega)) blank_nil
  rw [List.append_nil] at hthree
  rw [ccwDevidToStr, hthree, checkRanges_ok]
  rw [ofInt_numeral 32 d.cssid (Netcfg.numeral_toDigits _),
    ofInt_numeral 32 d.ssid (Netcfg.numeral_toDigits _),
    ofInt_numeral 32 d.devno hnumeral]
  have hcssid := d.cssid.isLt
  have hdevno := d.devno.isLt
  simp only [BitVec.toNat_setWidth, cssidMax, devnoMax]
  refine ⟨⟨by omega, ?_, by omega⟩, ?_⟩
  · exact (Nat.mod_le _ _).trans hssid
  · simp

theorem parseWide_toStr (len invalid : Result) (v : BitVec 64) :
    parseWide lone len invalid ('0' :: 'x' :: padded 16 v.toNat) = .ok v := by
  obtain ⟨hlength, hall, hnumeral⟩ := padded_spec (n := 16) v.isLt (by decide)
  have hne : padded 16 v.toNat ≠ [] := by
    rw [← List.length_pos_iff_ne_nil]
    omega
  have hone : sscanf lone wideFormat (padded 16 v.toNat) = [(numeral 16 (padded 16 v.toNat) : ℤ)] :=
    (sscanf_one (by decide)).2 ⟨_, [], (List.append_nil _).symm,
      spaced_digits 16 hne hall (by omega), blank_nil⟩
  unfold parseWide
  simp only [scanPrefix, true_or, if_true, hlength, ne_eq, not_true_eq_false, if_false, hone]
  rw [ofInt_numeral 64 v hnumeral, BitVec.setWidth_eq]

theorem colon_not_mem_digits (hall : ∀ c ∈ w, isHex c = true) : ':' ∉ w :=
  fun hmem => absurd (hall _ hmem) (by decide)

theorem zfcpLunParseDevid_toStr {d : ZfcpLunDevid} (hssid : d.fcpDev.ssid.toNat ≤ ssidMax) :
    zfcpLunParseDevid lone (zfcpLunDevidToStr d) = .ok d := by
  have hdot : ¬ ':' = '.' := by decide
  have hzero : ¬ ':' = '0' := by decide
  have hx : ¬ ':' = 'x' := by decide
  obtain ⟨-, hdevno, -⟩ := padded_spec (n := 4) d.fcpDev.devno.isLt (by decide)
  obtain ⟨-, hwwpn, -⟩ := padded_spec (n := 16) d.wwpn.isLt (by decide)
  have hccw : ':' ∉ ccwDevidToStr d.fcpDev := by
    simp only [ccwDevidToStr, List.mem_append, List.mem_cons, hdot, false_or, not_or]
    exact ⟨colon_not_mem_digits (hex_toDigits _), colon_not_mem_digits (hex_toDigits _),
      colon_not_mem_digits hdevno⟩
  have hwide : ':' ∉ '0' :: 'x' :: padded 16 d.wwpn.toNat := by
    simp only [List.mem_cons, hzero, hx, false_or]
    exact colon_not_mem_digits hwwpn
  have hparts := @zfcpLunParseDevid_parts lone _ _ ('0' :: 'x' :: padded 16 d.lun.toNat)
    hccw hwide
  rw [zfcpLunDevidToStr, zfcpLunToStr]
  refine hparts.trans ?_
  rw [ccwParseDevid_toStr hssid]
  simp only [parseWide_toStr]
  rfl

/-! ## The documented form -/

/-- A hexadecimal number. -/
def Hex (w : Text) (n : ℕ) : Prop :=
  ∃ zero digits, w = zero ++ digits ∧ IsPrefix zero ∧ digits ≠ [] ∧
    (∀ c ∈ digits, isHex c = true) ∧ n = numeral 16 digits

inductive CcwForm : Text → Prop where
  | devno {w : Text} {n : ℕ} (h : Hex w n) (hdevno : n ≤ devnoMax) : CcwForm w
  | devid {wa wb wd : Text} {a b d : ℕ} (ha : Hex wa a) (hb : Hex wb b) (hd : Hex wd d)
      (hcssid : a ≤ cssidMax) (hssid : b ≤ ssidMax) (hdevno : d ≤ devnoMax) :
      CcwForm (wa ++ '.' :: (wb ++ '.' :: wd))

def Sixteen (t : Text) : Prop :=
  ∃ zero digits, t = zero ++ digits ∧ IsPrefix zero ∧ digits.length = 16 ∧
    ∀ c ∈ digits, isHex c = true

/-- An id as it is documented. -/
def Documented (id : Text) : Prop :=
  ∃ c w l, id = c ++ ':' :: (w ++ ':' :: l) ∧ CcwForm c ∧ Sixteen w ∧ Sixteen l

/-! ## What is read besides -/

def isX (c : Char) : Bool := c == 'x' || c == 'X'

/-- No digits come now, or they come behind another `0x`. -/
def misplaced : Text → Bool
  | '.' :: _ => true
  | ':' :: _ => true
  | '0' :: c :: _ => isX c
  | _ => false

/-- There is an `x` without digits behind it, or with `0x` behind it. -/
def oddMark : Text → Bool
  | [] => false
  | c :: t => isX c && misplaced t || oddMark t

/-- A character of which there is none in any text of the documented form, or an `x` that is in
a place where there is none. -/
def Odd (id : Text) : Prop :=
  (∃ c ∈ id, isSpace c = true ∨ c = '+' ∨ c = '-') ∨ oddMark id = true

/-- A numeral in the id of the device is longer than `%8x` allows for. -/
def Long (id : Text) : Prop := ∃ w ∈ (id.takeWhile (· ≠ ':')).splitOn '.', 8 < w.length

theorem isX_of_hex (h : isHex c = true) : isX c = false := by
  obtain ⟨-, ⟨hx, hX⟩, -⟩ := hex_ne h
  simp [isX, hx, hX]

theorem oddMark_append_of (h : oddMark t = true) (p : Text) : oddMark (p ++ t) = true := by
  induction p with
  | nil => exact h
  | cons c p ih => rw [List.cons_append, oddMark, ih, Bool.or_true]

theorem oddMark_skip {p : Text} (h : ∀ c ∈ p, isX c = false) (t : Text) :
    oddMark (p ++ t) = oddMark t := by
  induction p with
  | nil => rfl
  | cons c p ih =>
      rw [List.cons_append, oddMark, h c List.mem_cons_self, Bool.false_and, Bool.false_or,
        ih fun d hd => h d (List.mem_cons_of_mem _ hd)]

theorem misplaced_digits {digits : Text} (hne : digits ≠ [])
    (hdigits : ∀ c ∈ digits, isHex c = true) (hrest : ∀ c, rest.head? = some c → isX c = false) :
    misplaced (digits ++ rest) = false := by
  match digits, hne with
  | d :: digits, _ =>
      have hd := hdigits d List.mem_cons_self
      unfold misplaced
      split
      · next heq =>
          rw [(List.cons.inj heq).1] at hd
          exact absurd hd (by decide)
      · next heq =>
          rw [(List.cons.inj heq).1] at hd
          exact absurd hd (by decide)
      · next c u heq =>
          have htail : digits ++ rest = c :: u := (List.cons.inj heq).2
          cases digits with
          | nil => exact hrest c (congrArg List.head? htail)
          | cons e digits =>
              rw [← (List.cons.inj htail).1]
              exact isX_of_hex (hdigits e (by simp))
      · rfl

theorem oddMark_hex {digits : Text} (hzero : IsPrefix zero) (hne : digits ≠ [])
    (hdigits : ∀ c ∈ digits, isHex c = true) (hrest : ∀ c, rest.head? = some c → isX c = false) :
    oddMark (zero ++ digits ++ rest) = oddMark rest := by
  have hskip := oddMark_skip (fun c hc => isX_of_hex (hdigits c hc)) rest
  have hmis := misplaced_digits hne hdigits hrest
  rcases hzero with rfl | rfl | rfl
  · exact hskip
  · change (isX '0' && _ || (isX 'x' && misplaced (digits ++ rest) || oddMark (digits ++ rest))) = _
    rw [hmis, hskip, Bool.and_false, Bool.false_or]
    rfl
  · change (isX '0' && _ || (isX 'X' && misplaced (digits ++ rest) || oddMark (digits ++ rest))) = _
    rw [hmis, hskip, Bool.and_false, Bool.false_or]
    rfl

theorem Sixteen.ne_nil {digits : Text} (h : digits.length = 16) : digits ≠ [] := by
  rw [← List.length_pos_iff_ne_nil]
  omega

theorem oddMark_separated (hc : isX c = false) (t : Text) : oddMark (c :: t) = oddMark t := by
  rw [oddMark, hc, Bool.false_and, Bool.false_or]

theorem head_separator (hc : isX c = false) (t : Text) :
    ∀ d, (c :: t).head? = some d → isX d = false := fun _ hd => Option.some.inj hd ▸ hc

theorem oddMark_ccw {c : Text} (h : CcwForm c) (hrest : ∀ d, rest.head? = some d → isX d = false) :
    oddMark (c ++ rest) = oddMark rest := by
  have hdot : isX '.' = false := by decide
  rcases h with ⟨⟨zero, digits, rfl, hzero, hne, hdigits, -⟩, -⟩ |
    ⟨⟨za, da, rfl, hza, hnea, hda, -⟩, ⟨zb, db, rfl, hzb, hneb, hdb, -⟩,
      ⟨zd, dd, rfl, hzd, hned, hdd, -⟩, -, -, -⟩
  · exact oddMark_hex hzero hne hdigits hrest
  · have heq : za ++ da ++ '.' :: (zb ++ db ++ '.' :: (zd ++ dd)) ++ rest =
        za ++ da ++ '.' :: (zb ++ db ++ '.' :: (zd ++ dd ++ rest)) := by
      simp only [List.append_assoc, List.cons_append]
    rw [heq, oddMark_hex hza hnea hda (head_separator hdot _), oddMark_separated hdot,
      oddMark_hex hzb hneb hdb (head_separator hdot _), oddMark_separated hdot,
      oddMark_hex hzd hned hdd hrest]

theorem oddMark_sixteen (h : Sixteen t) (hrest : ∀ d, rest.head? = some d → isX d = false) :
    oddMark (t ++ rest) = oddMark rest := by
  obtain ⟨zero, digits, rfl, hzero, hlength, hdigits⟩ := h
  exact oddMark_hex hzero (Sixteen.ne_nil hlength) hdigits hrest

theorem plain_chars {digits : Text} (hzero : IsPrefix zero)
    (hdigits : ∀ c ∈ digits, isHex c = true) :
    ∀ c ∈ zero ++ digits, ¬ (isSpace c = true ∨ c = '+' ∨ c = '-') := by
  intro c hc
  rcases List.mem_append.1 hc with hc | hc
  · rcases prefix_chars hzero hc with rfl | rfl | rfl <;> decide
  · obtain ⟨⟨hplus, hminus⟩, -, hspace⟩ := hex_ne (hdigits c hc)
    simp [hplus, hminus, hspace]

/-- Neither a blank nor a sign. -/
def Plain (t : Text) : Prop := ∀ c ∈ t, ¬ (isSpace c = true ∨ c = '+' ∨ c = '-')

theorem Plain.append (ha : Plain a) (hb : Plain b) : Plain (a ++ b) := fun c hc =>
  (List.mem_append.1 hc).elim (ha c) (hb c)

theorem Plain.of_append (h : Plain (a ++ b)) : Plain a ∧ Plain b :=
  ⟨fun c hc => h c (List.mem_append_left _ hc), fun c hc => h c (List.mem_append_right _ hc)⟩

theorem Plain.cons {c : Char} {t : Text} (hc : ¬ (isSpace c = true ∨ c = '+' ∨ c = '-'))
    (ht : Plain t) : Plain (c :: t) := fun d hd =>
  (List.mem_cons.1 hd).elim (fun heq => heq ▸ hc) (ht d)

theorem Plain.of_cons (h : Plain (c :: t)) : Plain t := fun d hd =>
  h d (List.mem_cons_of_mem _ hd)

theorem Plain.blank (h : Plain t) (hblank : Blank t) : t = [] := by
  cases t with
  | nil => rfl
  | cons c t => exact absurd (.inl (hblank c List.mem_cons_self)) (h c List.mem_cons_self)

theorem Hex.plain (h : Hex w n) : Plain w := by
  obtain ⟨zero, digits, rfl, hzero, -, hdigits, -⟩ := h
  exact plain_chars hzero hdigits

theorem CcwForm.plain {c : Text} (h : CcwForm c) : Plain c := by
  rcases h with ⟨h, -⟩ | ⟨ha, hb, hd, -, -, -⟩
  · exact h.plain
  · exact ha.plain.append (.cons (by decide) (hb.plain.append (.cons (by decide) hd.plain)))

theorem Sixteen.plain (h : Sixteen t) : Plain t := by
  obtain ⟨zero, digits, rfl, hzero, -, hdigits⟩ := h
  exact plain_chars hzero hdigits

theorem Documented.not_odd (h : Documented id) : ¬ Odd id := by
  have hcolon : isX ':' = false := by decide
  obtain ⟨c, w, l, rfl, hc, hw, hl⟩ := h
  rintro (⟨d, hd, hodd⟩ | hmark)
  · have hplain : Plain (c ++ ':' :: (w ++ ':' :: l)) :=
      hc.plain.append (.cons (by decide) (hw.plain.append (.cons (by decide) hl.plain)))
    exact hplain d hd hodd
  · rw [oddMark_ccw hc (head_separator hcolon _), oddMark_separated hcolon,
      oddMark_sixteen hw (head_separator hcolon _), oddMark_separated hcolon,
      ← List.append_nil l, oddMark_sixteen hl (fun _ hd => absurd hd (by simp))] at hmark
    exact absurd hmark (by decide)

/-! ### Documented and read -/

theorem numeral_lt_pow (h : ∀ c ∈ w, isHex c = true) : numeral 16 w < 16 ^ w.length := by
  induction w using List.reverseRecOn with
  | nil => decide
  | append_singleton w c ih =>
      have hc : digitValue c < 16 := of_decide_eq_true (h c (by simp))
      have hw := ih fun d hd => h d (List.mem_append_left _ hd)
      rw [Netcfg.numeral_append, List.length_append, List.length_singleton, Nat.pow_succ]
      omega

theorem Hex.spaced (h : Hex w n) (hlength : w.length ≤ width) : Spaced lone width w n := by
  obtain ⟨zero, digits, rfl, hzero, hne, hdigits, rfl⟩ := h
  have hnumber : Number lone ([] ++ (zero ++ digits)) (1 * numeral 16 digits) :=
    .mk (.inl rfl) hzero hdigits fun h => absurd h hne
  rw [List.nil_append, one_mul] at hnumber
  exact ⟨[], _, rfl, blank_nil, hnumber, hlength⟩

theorem ofInt_le {k : ℕ} (h : n ≤ k) : (BitVec.ofInt 32 (n : ℤ)).toNat ≤ k := by
  rw [BitVec.ofInt_natCast, BitVec.toNat_ofNat]
  exact (Nat.mod_le _ _).trans h

theorem Hex.not_lone (h : Hex w n) : ¬ sameIgnoringCase w ['0', 'x'] = true := by
  obtain ⟨zero, digits, rfl, hzero, hne, hdigits, -⟩ := h
  intro hsame
  have hmap : (zero ++ digits).map Char.toLower = ['0', 'x'] := by
    simpa [sameIgnoringCase, show Char.toLower '0' = '0' by decide,
      show Char.toLower 'x' = 'x' by decide] using hsame
  have hlength := congrArg List.length hmap
  simp only [List.length_map, List.length_append, List.length_cons, List.length_nil] at hlength
  have hpos := List.length_pos_iff_ne_nil.2 hne
  rcases hzero with rfl | rfl | rfl
  · match digits, hlength with
    | [a, b], _ =>
        have hb : b.toLower = 'x' := (List.cons.inj (List.cons.inj hmap).2).1
        have hhex : digitValue b < 16 := of_decide_eq_true (hdigits b (by simp))
        rw [digitValue, hb] at hhex
        exact absurd hhex (by decide)
  · simp only [List.length_cons, List.length_nil] at hlength
    omega
  · simp only [List.length_cons, List.length_nil] at hlength
    omega

theorem Sixteen.loose (h : Sixteen t) : LooseWide lone t := by
  obtain ⟨zero, digits, rfl, hzero, hlength, hdigits⟩ := h
  refine ⟨zero, digits, [], numeral 16 digits, by rw [List.append_nil], hzero, ?_,
    by rw [List.append_nil, hlength], spaced_digits 16 (Sixteen.ne_nil hlength) hdigits (by omega),
    blank_nil⟩
  rintro rfl x rest heq
  have hx : x ∈ digits := by
    rw [show digits = '0' :: x :: rest from heq]
    simp
  exact (hex_ne (hdigits x hx)).2.1

theorem hex_dot (h : Hex w n) : '.' ∉ w := by
  obtain ⟨blanks, u, rfl, hblanks, hu, -⟩ : Spaced true w.length w n := h.spaced le_rfl
  intro hmem
  rcases List.mem_append.1 hmem with hc | hc
  · exact (blank_chars hblanks _ hc).2 rfl
  · exact (number_chars hu _ hc).2 rfl

theorem splitOn_dots {d : Text} (ha : '.' ∉ a) (hb : '.' ∉ b) (hd : '.' ∉ d) :
    (a ++ '.' :: (b ++ '.' :: d)).splitOn '.' = [a, b, d] := by
  rw [List.splitOn_append_cons_self_of_not_mem ha, List.splitOn_append_cons_self_of_not_mem hb,
    List.splitOn_eq_singleton hd]

theorem CcwForm.loose {c : Text} (h : CcwForm c) (hshort : ∀ w ∈ c.splitOn '.', w.length ≤ 8) :
    LooseCcw lone c := by
  rcases h with ⟨h, hn⟩ | ⟨ha, hb, hd, hcssid, hssid, hdevno⟩
  · rw [List.splitOn_eq_singleton (hex_dot h)] at hshort
    have hlone : ¬ sameIgnoringCase (c ++ []) ['0', 'x'] = true := by
      rw [List.append_nil]
      exact h.not_lone
    have hloose : LooseCcw lone (c ++ []) :=
      .devno (h.spaced (hshort c (by simp))) blank_nil hlone (ofInt_le hn)
    rwa [List.append_nil] at hloose
  · next wa wb wd a b d =>
    rw [splitOn_dots (hex_dot ha) (hex_dot hb) (hex_dot hd)] at hshort
    have hloose : LooseCcw lone (wa ++ '.' :: (wb ++ '.' :: (wd ++ []))) :=
      .devid (ha.spaced (hshort wa (by simp))) (hb.spaced (hshort wb (by simp)))
        (hd.spaced (hshort wd (by simp))) blank_nil (ofInt_le hcssid) (ofInt_le hssid)
        (ofInt_le hdevno)
    rwa [List.append_nil] at hloose

theorem takeWhile_colon {c : Text} (h : ':' ∉ c) (t : Text) :
    (c ++ ':' :: t).takeWhile (· ≠ ':') = c := by
  rw [List.takeWhile_append_of_pos fun d hd => by
    simpa using fun heq : d = ':' => h (heq ▸ hd)]
  simp

theorem CcwForm.colon {c : Text} (h : CcwForm c) : ':' ∉ c := by
  have hhex : ∀ {w : Text} {n : ℕ}, Hex w n → ':' ∉ w := by
    rintro w n ⟨zero, digits, rfl, hzero, -, hdigits, -⟩ hmem
    rcases List.mem_append.1 hmem with hc | hc
    · rcases prefix_chars hzero hc with h | h | h <;> exact absurd h (by decide)
    · exact colon_not_mem_digits hdigits hc
  rcases h with ⟨h, -⟩ | ⟨ha, hb, hd, -, -, -⟩
  · exact hhex h
  · have hdot : ¬ ':' = '.' := by decide
    simp only [List.mem_append, List.mem_cons, hdot, false_or, not_or]
    exact ⟨hhex ha, hhex hb, hhex hd⟩

theorem Documented.loose (h : Documented id) (hshort : ¬ Long id) : LooseForm lone id := by
  obtain ⟨c, w, l, rfl, hc, hw, hl⟩ := h
  refine ⟨c, w, l, rfl, hc.loose fun u hu => ?_, hw.loose, hl.loose⟩
  by_contra hlong
  refine hshort ⟨u, ?_, by omega⟩
  rwa [takeWhile_colon hc.colon]

/-! ### Read and documented -/

theorem Spaced.digits {width : ℕ} {t : Text} {v : ℤ} (h : Spaced lone width t v)
    (hplain : Plain t) : ∃ zero digits, t = zero ++ digits ∧ IsPrefix zero ∧
      (∀ c ∈ digits, isHex c = true) ∧ (digits = [] → zero ≠ []) ∧ v = numeral 16 digits ∧
      t.length ≤ width := by
  obtain ⟨blanks, w, rfl, hblanks, hw, hlength⟩ := h
  obtain rfl := hplain.of_append.1.blank hblanks
  obtain ⟨hsign, hzero, hdigits, hsome⟩ := hw
  next sign zero digits =>
  have hnone : sign = [] := by
    rcases hsign with h | rfl | rfl
    · exact h
    · exact absurd (.inr (.inl rfl)) (hplain '+' (by simp))
    · exact absurd (.inr (.inr rfl)) (hplain '-' (by simp))
  subst hnone
  exact ⟨zero, digits, rfl, hzero, hdigits, fun h => (hsome h).1, one_mul _, hlength⟩

theorem oddMark_lone (hzero : IsPrefix zero) (hne : zero ≠ []) (hc : c = '.' ∨ c = ':') :
    oddMark (zero ++ c :: rest) = true := by
  rcases hzero with rfl | rfl | rfl
  · exact absurd rfl hne
  · rcases hc with rfl | rfl <;> rfl
  · rcases hc with rfl | rfl <;> rfl

theorem Spaced.hex (h : Spaced lone 8 t v) (hplain : Plain t) (hc : c = '.' ∨ c = ':')
    (hodd : ¬ oddMark (t ++ c :: rest) = true) : ∃ n, Hex t n ∧ (BitVec.ofInt 32 v).toNat = n := by
  obtain ⟨zero, digits, rfl, hzero, hdigits, hsome, rfl, hlength⟩ := h.digits hplain
  have hne : digits ≠ [] := by
    rintro rfl
    rw [List.append_nil] at hodd
    exact hodd (oddMark_lone hzero (hsome rfl) hc)
  refine ⟨_, ⟨zero, digits, rfl, hzero, hne, hdigits, rfl⟩, ?_⟩
  have hlt := numeral_lt_pow hdigits
  rw [List.length_append] at hlength
  have hpow : 16 ^ digits.length ≤ 16 ^ 8 := Nat.pow_le_pow_right (by decide) (by omega)
  rw [BitVec.ofInt_natCast, BitVec.toNat_ofNat]
  exact Nat.mod_eq_of_lt (by omega)

theorem LooseCcw.documented {c : Text} (h : LooseCcw lone c) (hplain : Plain c)
    (hodd : ¬ oddMark (c ++ ':' :: rest) = true) : CcwForm c := by
  rcases h with ⟨ht, hblanks, -, hdevno⟩ | ⟨ha, hb, hd, hblanks, hcssid, hssid, hdevno⟩
  · obtain ⟨hp, hpb⟩ := hplain.of_append
    obtain rfl := hpb.blank hblanks
    rw [List.append_nil] at hodd ⊢
    obtain ⟨n, hn, hval⟩ := ht.hex hp (.inr rfl) hodd
    exact .devno hn (hval ▸ hdevno)
  · next ta tb td blanks a b d =>
    obtain ⟨hpa, hplain⟩ := hplain.of_append
    obtain ⟨hpb, hplain⟩ := hplain.of_cons.of_append
    obtain ⟨hpd, hpblank⟩ := hplain.of_cons.of_append
    obtain rfl := hpblank.blank hblanks
    rw [List.append_nil] at hodd ⊢
    simp only [List.append_assoc, List.cons_append] at hodd
    -- What is odd in a part is odd in the whole.
    have htail : ∀ (p : Text) {u : Text}, oddMark u = true → oddMark (p ++ '.' :: u) = true := by
      intro p u hu
      exact oddMark_append_of (t := '.' :: u) (by rw [oddMark, hu, Bool.or_true]) p
    obtain ⟨na, hna, hva⟩ := ha.hex hpa (.inl rfl) hodd
    obtain ⟨nb, hnb, hvb⟩ := hb.hex hpb (.inl rfl) fun h => hodd (htail _ h)
    obtain ⟨nd, hnd, hvd⟩ := hd.hex hpd (.inr rfl) fun h => hodd (htail _ (htail _ h))
    exact .devid hna hnb hnd (hva ▸ hcssid) (hvb ▸ hssid) (hvd ▸ hdevno)

theorem LooseWide.documented (h : LooseWide lone t) (hplain : Plain t)
    (hodd : ¬ oddMark (t ++ rest) = true) : Sixteen t := by
  obtain ⟨zero, u, blanks, v, rfl, hzero, hnone, hlength, hspaced, hblanks⟩ := h
  obtain ⟨-, hplain⟩ := hplain.of_append
  obtain ⟨hpu, hpb⟩ := hplain.of_append
  obtain rfl := hpb.blank hblanks
  rw [List.append_nil] at hodd hlength hnone ⊢
  obtain ⟨zero', digits, rfl, hzero', hdigits, -, -, -⟩ := hspaced.digits hpu
  have hempty : zero' = [] := by
    rcases hzero' with h | rfl | rfl
    · exact h
    all_goals
      rcases hzero with rfl | rfl | rfl
      · have hx := hnone rfl _ _ rfl
        simp at hx
      · exact absurd rfl hodd
      · exact absurd rfl hodd
  subst hempty
  exact ⟨zero, digits, rfl, hzero, hlength, hdigits⟩

theorem LooseForm.documented (h : LooseForm lone id) (hodd : ¬ Odd id) : Documented id := by
  obtain ⟨c, w, l, rfl, hc, hw, hl⟩ := h
  have hplain : Plain (c ++ ':' :: (w ++ ':' :: l)) := fun d hd h => hodd (.inl ⟨d, hd, h⟩)
  have hmark : ¬ oddMark (c ++ ':' :: (w ++ ':' :: l)) = true := fun h => hodd (.inr h)
  obtain ⟨hpc, hplain⟩ := hplain.of_append
  obtain ⟨hpw, hplain⟩ := hplain.of_cons.of_append
  have hcolon : isX ':' = false := by decide
  have htail : ∀ (p : Text) {u : Text}, oddMark u = true → oddMark (p ++ ':' :: u) = true := by
    intro p u hu
    exact oddMark_append_of (t := ':' :: u) (by rw [oddMark_separated hcolon, hu]) p
  refine ⟨c, w, l, rfl, hc.documented hpc hmark,
    hw.documented hpw fun h => hmark (htail _ h), ?_⟩
  have hl' : ¬ oddMark (l ++ []) = true := fun h => hmark (htail _ (htail _ (by
    rwa [List.append_nil] at h)))
  exact hl.documented hplain.of_cons hl'

theorem LooseForm.short (h : LooseForm lone id) (hplain : Plain id) : ¬ Long id := by
  obtain ⟨c, w, l, rfl, hc, -, -⟩ := h
  rintro ⟨u, hu, hlong⟩
  rw [takeWhile_colon hc.colon] at hu
  obtain ⟨hplain, -⟩ := hplain.of_append
  have hdot : ∀ {t : Text} {v : ℤ}, Spaced lone 8 t v → '.' ∉ t := fun h hmem =>
    (spaced_chars h _ hmem).2 rfl
  rcases hc with ⟨ht, hblanks, -, -⟩ | ⟨ha, hb, hd, hblanks, -, -, -⟩
  · obtain ⟨hp, hpb⟩ := hplain.of_append
    obtain rfl := hpb.blank hblanks
    rw [List.append_nil, List.splitOn_eq_singleton (hdot ht)] at hu
    obtain rfl := List.mem_singleton.1 hu
    obtain ⟨-, -, -, -, -, -, -, hlength⟩ := ht.digits hp
    omega
  · next ta tb td blanks a b d =>
    obtain ⟨hpa, hplain⟩ := hplain.of_append
    obtain ⟨hpb, hplain⟩ := hplain.of_cons.of_append
    obtain ⟨hpd, hpblank⟩ := hplain.of_cons.of_append
    obtain rfl := hpblank.blank hblanks
    rw [List.append_nil, splitOn_dots (hdot ha) (hdot hb) (hdot hd)] at hu
    obtain ⟨-, -, -, -, -, -, -, hla⟩ := ha.digits hpa
    obtain ⟨-, -, -, -, -, -, -, hlb⟩ := hb.digits hpb
    obtain ⟨-, -, -, -, -, -, -, hld⟩ := hd.digits hpd
    simp only [List.mem_cons, List.not_mem_nil, or_false] at hu
    rcases hu with rfl | rfl | rfl <;> omega

theorem Documented.plain (h : Documented id) : Plain id := fun d hd hodd =>
  h.not_odd (.inl ⟨d, hd, hodd⟩)

/-- An id is read as it was written. A text is read exactly if it is documented, unless it is read
in spite of a blank, a sign or an `x` without digits, or is documented with a numeral that is too
long for the format. -/
theorem zfcpLunParseDevid_documented (lone : Bool) :
    (∀ d : ZfcpLunDevid, d.fcpDev.ssid.toNat ≤ ssidMax →
      zfcpLunParseDevid lone (zfcpLunDevidToStr d) = .ok d) ∧
    ∀ id : Text, ((∃ d, zfcpLunParseDevid lone id = .ok d) ↔ Documented id) ↔
      ¬ (LooseForm lone id ∧ Odd id ∨ Documented id ∧ Long id) := by
  refine ⟨fun d hssid => zfcpLunParseDevid_toStr hssid, fun id => ?_⟩
  rw [zfcpLunParseDevid_ok]
  constructor
  · rintro hiff (⟨hloose, hodd⟩ | ⟨hdocumented, hlong⟩)
    · exact (hiff.1 hloose).not_odd hodd
    · exact (hiff.2 hdocumented).short hdocumented.plain hlong
  · intro hnot
    constructor
    · intro hloose
      exact hloose.documented fun hodd => hnot (.inl ⟨hloose, hodd⟩)
    · intro hdocumented
      exact hdocumented.loose fun hlong => hnot (.inr ⟨hdocumented, hlong⟩)

/-- A blank before the number of the device is not noticed, whatever the library makes of `0x`. -/
theorem zfcpLunParseDevid_blank :
    ¬ ∃ lone, ∀ id, (∃ d, zfcpLunParseDevid lone id = .ok d) ↔ Documented id := by
  rintro ⟨lone, h⟩
  let zeros : Text := List.replicate 16 '0'
  have hread : zfcpLunParseDevid lone (' ' :: '7' :: ':' :: (zeros ++ ':' :: zeros)) =
      .ok ⟨⟨0, 0, 7⟩, 0, 0⟩ := by
    cases lone <;> rfl
  have hdocumented := (h _).1 ⟨_, hread⟩
  exact hdocumented.plain ' ' (by simp) (.inl rfl)

end DebianInstaller.Zfcp
