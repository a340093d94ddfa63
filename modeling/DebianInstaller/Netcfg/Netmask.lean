import DebianInstaller.Netcfg.Canonical

/-!
# The length of a mask

`inet_ptom` reads a mask and counts the bits it begins with. It is to return one for a mask and
zero for anything else. But `inet_pton` returns a negative number only for a family that it does
not know, and zero for a text that it cannot read, and only the negative number is taken for a
failure. So of the two families one is returned for every text: for a text that is no address, and
for the empty one, which is not read at all, the bits that are counted are those that happen to be
on the stack. Nor is a mask told from an address with more bits behind its first zero.
-/

namespace DebianInstaller.Netcfg

open Lib

/-! ## The code -/

theorem and_msb {num : BitVec 32} : num &&& 0x80000000#32 ≠ 0#32 ↔ num.getMsbD 0 = true := by
  have htwo : 0x80000000#32 = BitVec.twoPow 32 31 := by decide
  rw [htwo, BitVec.and_twoPow, BitVec.getMsbD_eq_getLsbD]
  cases num.getLsbD 31 <;> simp [BitVec.twoPow_eq]

/-- `count_bits` -/
def countBits (num : BitVec 32) : ℕ :=
  if h : num &&& 0x80000000#32 ≠ 0#32 then countBits (num <<< 1) + 1 else 0
termination_by num.toNat
decreasing_by
  -- The bit that is shifted out was worth more than the others gain.
  have hmsb : num.msb = true := and_msb.1 h
  rw [BitVec.msb_eq_decide, decide_eq_true_iff] at hmsb
  rw [BitVec.toNat_shiftLeft, Nat.shiftLeft_eq]
  omega

/-- `union inX_addr` has room for both; an address of IPv4 is written to its first word. -/
def storeIn4 (addr : Address .inet6) (in4 : Address .inet) : Address .inet6 :=
  Octets.ofWords fun k => if k = 0 then in4.word 0 else addr.word k

/-- What `inet_pton` leaves in the union. -/
def ptonInto (inet : Inet) (addr : Address .inet6) (src : Text) : Family → Address .inet6
  | .inet => (inet.pton .inet src).elim addr (storeIn4 addr)
  | .inet6 => (inet.pton .inet6 src).getD addr

/-- The loop over the words: it ends with the first one that is not full. -/
def ptomLoop (addr : Address .inet6) : List (Fin 4) → ℕ → ℕ
  | [], dst => dst
  | i :: is, dst =>
      let count := countBits (Octets.swap (addr.word i))
      if count ≠ 32 then dst + count else ptomLoop addr is (dst + count)

/-- `inet_ptom`, with what is on the stack where the address will be. A family that is neither of
the two is `none`, and only then `inet_pton` returns a negative number. -/
def inetPtom (inet : Inet) (af : Option Family) (src : Text) (addr : Address .inet6) : Bool × ℕ :=
  match af with
  | none => (false, 0)
  | some af =>
      let addr := if src ≠ [] then ptonInto inet addr src af else addr
      match af with
      | .inet => (true, countBits (Octets.swap (addr.word 0)))
      | .inet6 => (true, ptomLoop addr (List.finRange 4) 0)

/-! ## What is counted -/

theorem countBits_eq {num : BitVec 32} {m : ℕ} (hm : m ≤ 32)
    (h : ∀ i < 32, num.getMsbD i = decide (i < m)) : countBits num = m := by
  induction m generalizing num with
  | zero =>
      have hzero : ¬ num &&& 0x80000000#32 ≠ 0#32 := by
        rw [and_msb, h 0 (by omega)]
        decide
      rw [countBits, dif_neg hzero]
  | succ m ih =>
      have hone : num &&& 0x80000000#32 ≠ 0#32 := by
        rw [and_msb, h 0 (by omega)]
        exact decide_eq_true (Nat.succ_pos m)
      have hshift : ∀ i < 32, (num <<< 1).getMsbD i = decide (i < m) := by
        intro i hi
        rw [BitVec.getMsbD_shiftLeft]
        by_cases hlast : i + 1 < 32
        · rw [h (i + 1) hlast]
          simp
        · rw [BitVec.getMsbD_of_ge _ _ (by omega), decide_eq_false (by omega)]
      rw [countBits, dif_pos hone, ih (by omega) hshift]

theorem countBits_word {n m : ℕ} {a : Octets (4 * n)} (hmask : Octets.IsMask m a) (k : Fin n) :
    countBits (Octets.swap (a.word k)) = min 32 (m - 32 * k) := by
  refine countBits_eq (by omega) fun i hi => ?_
  rw [Octets.getMsbD_swap_word a k hi, hmask _ (by omega)]
  refine decide_eq_decide.2 ?_
  omega

theorem ptomLoop_eq {m : ℕ} (hm : m ≤ 128) {addr : Address .inet6}
    (hmask : Octets.IsMask m addr) : ptomLoop addr (List.finRange 4) 0 = m := by
  have hcount := countBits_word (n := 4) hmask
  have h0 : countBits (Octets.swap (addr.word 0)) = min 32 m := hcount 0
  have h1 : countBits (Octets.swap (addr.word 1)) = min 32 (m - 32) := hcount 1
  have h2 : countBits (Octets.swap (addr.word 2)) = min 32 (m - 64) := hcount 2
  have h3 : countBits (Octets.swap (addr.word 3)) = min 32 (m - 96) := hcount 3
  have hlist : List.finRange 4 = [0, 1, 2, 3] := rfl
  simp only [hlist, ptomLoop, h0, h1, h2, h3]
  split_ifs <;> omega

theorem word_storeIn4 (addr : Address .inet6) (in4 : Address .inet) :
    (storeIn4 addr in4).word 0 = in4.word 0 := by
  rw [storeIn4, Octets.word_ofWords, if_pos rfl]

/-! ## Masks and other texts -/

/-- The text is an address of this family, of so many ones and nothing else. -/
def MaskText (inet : Inet) (af : Family) (src : Text) (m : ℕ) : Prop :=
  m ≤ af.bits ∧ ∃ addr, inet.pton af src = some addr ∧ Octets.IsMask m addr

/-- One for a mask, with its length, and zero for every other text. -/
def TellsMasks (inet : Inet) (af : Family) (src : Text) (run : Bool × ℕ) : Prop :=
  (run.1 = true ↔ ∃ m, MaskText inet af src m) ∧ (run.1 = true → MaskText inet af src run.2)

theorem inetPtom_accepts (inet : Inet) (af : Family) (src : Text) (addr : Address .inet6) :
    (inetPtom inet (some af) src addr).1 = true := by
  cases af <;> rfl

theorem inetPtom_mask {inet : Inet} {af : Family} {src : Text} {m : ℕ} (hne : src ≠ [])
    (hmask : MaskText inet af src m) (addr : Address .inet6) :
    (inetPtom inet (some af) src addr).2 = m := by
  obtain ⟨hle, a, hpton, hbits⟩ := hmask
  cases af with
  | inet =>
      have hle : m ≤ 32 := hle
      have hword := countBits_word (n := 1) hbits 0
      simp only [inetPtom, if_pos hne, ptonInto, hpton, Option.elim_some, word_storeIn4]
      rw [hword]
      simp only [Fin.val_zero]
      omega
  | inet6 =>
      simp only [inetPtom, if_pos hne, ptonInto, hpton, Option.getD_some]
      exact ptomLoop_eq hle hbits

/-- Masks are told from other texts where the text is a mask. -/
theorem inetPtom_tells_iff {inet : Inet} (hempty : ∀ af, inet.pton af [] = none) (af : Family)
    (src : Text) (addr : Address .inet6) :
    TellsMasks inet af src (inetPtom inet (some af) src addr) ↔ ∃ m, MaskText inet af src m := by
  have haccepts := inetPtom_accepts inet af src addr
  constructor
  · intro h
    exact h.1.1 haccepts
  · intro h
    refine ⟨⟨fun _ => h, fun _ => haccepts⟩, fun _ => ?_⟩
    obtain ⟨m, hmask⟩ := h
    have hne : src ≠ [] := by
      rintro rfl
      obtain ⟨-, a, hpton, -⟩ := hmask
      nomatch (hempty af).symm.trans hpton
    rw [inetPtom_mask hne hmask addr]
    exact hmask

theorem inetPtom_tells_24 :
    TellsMasks canonical .inet "255.255.255.0"
      (inetPtom canonical (some .inet) "255.255.255.0" fun _ => 0#8) := by
  have hempty : ∀ af, canonical.pton af [] = none := by
    intro af
    cases af <;> rfl
  have htext : "255.255.255.0"
      = canonical.ntop .inet fun i => if i < 3 then 255#8 else 0#8 := by decide
  refine (inetPtom_tells_iff hempty _ _ _).2 ⟨24, by decide,
    fun i => if i < 3 then 255#8 else 0#8, ?_, ?_⟩
  · rw [htext]
    exact canonical_pton_ntop _ _
  · unfold Octets.IsMask
    decide

/-- A word that is no address at all is accepted. -/
theorem inetPtom_banana :
    ¬ ∀ (af : Family) (src : Text) (addr : Address .inet6),
      TellsMasks canonical af src (inetPtom canonical (some af) src addr) := by
  intro hall
  have hone := inetPtom_accepts canonical .inet "banana" fun _ => 0#8
  obtain ⟨m, -, a, hpton, -⟩ := (hall .inet "banana" fun _ => 0#8).1.1 hone
  have hnone : canonical.pton .inet "banana" = none := by decide
  nomatch hnone.symm.trans hpton

/-! ## Lengths and texts -/

theorem isMask_unique {n m : ℕ} {a b : Octets n} (ha : Octets.IsMask m a)
    (hb : Octets.IsMask m b) : a = b := by
  refine Octets.ext_bit fun i hi => ?_
  rw [ha i hi, hb i hi]

/-- A length that fits is read back of the text of its mask, and a mask that was read, whatever
its text, is the one that is made of its length. -/
theorem inetMton_inetPtom {inet : Inet}
    (hntop : ∀ (af : Family) (a : Address af), inet.pton af (inet.ntop af a) = some a)
    (hempty : ∀ af, inet.pton af [] = none) {af : Family} {src : BitVec 32}
    (h : src.toNat ≤ af.bits) (addr : Address .inet6) :
    ∃ mask, inetMton af src = .ok mask ∧
      (af = .inet → inetMtop inet .inet src = .ok (inet.ntop af mask)) ∧
      inetPtom inet (some af) (inet.ntop af mask) addr = (true, src.toNat) ∧
      ∀ text, MaskText inet af text src.toNat → inet.pton af text = some mask := by
  obtain ⟨mask, hmton, hmask⟩ := inetMton_eq h
  have hne : inet.ntop af mask ≠ [] := by
    intro hnil
    have hread := hntop af mask
    rw [hnil, hempty af] at hread
    exact absurd hread.symm (Option.some_ne_none mask)
  refine ⟨mask, hmton, ?_, Prod.ext (inetPtom_accepts inet af _ addr) ?_, ?_⟩
  · rintro rfl
    rw [inetMtop, hmton]
    rfl
  · exact inetPtom_mask hne ⟨h, mask, hntop af mask, hmask⟩ addr
  · rintro text ⟨-, a, hpton, ha⟩
    rw [hpton, isMask_unique ha hmask]

theorem inetMton_inetPtom_19 :
    ∃ mask, inetMton .inet 19#32 = .ok mask ∧
      inetMtop canonical .inet 19#32 = .ok (canonical.ntop .inet mask) ∧
      inetPtom canonical (some .inet) (canonical.ntop .inet mask) (fun _ => 0#8) = (true, 19) := by
  have hempty : ∀ af, canonical.pton af [] = none := by
    intro af
    cases af <;> rfl
  have h : (19#32).toNat ≤ Family.inet.bits := by decide
  obtain ⟨mask, hmton, hmtop, hptom, -⟩ :=
    inetMton_inetPtom canonical_pton_ntop hempty h fun _ => 0#8
  exact ⟨mask, hmton, hmtop rfl, hptom⟩

end DebianInstaller.Netcfg
