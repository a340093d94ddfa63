import DebianInstaller.Lib.Octets
import DebianInstaller.Text

/-!
# Internet addresses and masks

`inet_pton` and `inet_ntop` are the C library's and stay parameters. `inet_mton` makes a mask
from its length: for IPv4 as a number that is shifted together and then stored in the byte
order of the network, for IPv6 byte by byte. Nothing in it looks at how long the mask is. With a
length above 32 the first shift is by an amount that no `int` has, and above 128 a byte behind
the address is written, so both are outcomes here. For any other length the mask is right.
-/

namespace DebianInstaller.Netcfg

open Lib

variable {byte src : ℕ}

/-- `AF_INET` and `AF_INET6`. -/
inductive Family where
  | inet
  | inet6
  deriving DecidableEq, Repr

variable {af : Family}

/-- How many words of four bytes an address has. -/
@[reducible]
def Family.words : Family → ℕ
  | .inet => 1
  | .inet6 => 4

/-- How many bits. -/
def Family.bits : Family → ℕ
  | .inet => 32
  | .inet6 => 128

/-- `struct in_addr` and `struct in6_addr`: bytes, the first to be sent first. -/
abbrev Address (af : Family) := Octets (4 * af.words)

/-- The functions of the C library that read and write addresses. -/
structure Inet where
  pton : (af : Family) → Text → Option (Address af)
  ntop : (af : Family) → Address af → Text

/-- What C leaves undefined. -/
inductive Fault where
  | shift
  | outside
  | unset
  deriving DecidableEq, Repr

/-! ## The code -/

/-- `1 << (n - src)`: the difference of two unsigned numbers is unsigned. -/
def oneShifted (n src : BitVec 32) : Except Fault (BitVec 32) :=
  if (n - src).toNat < 32 then .ok (1#32 <<< (n - src).toNat) else .error .shift

/-- `for(; src; src--) mask |= 1 << (32 - src);` -/
def maskLoop : ℕ → BitVec 32 → Except Fault (BitVec 32)
  | 0, mask => .ok mask
  | src + 1, mask => do
      let one ← oneShifted 32#32 (BitVec.ofNat 32 (src + 1))
      maskLoop src (mask ||| one)

/-- A write to `addr6->s6_addr[byte]`. -/
def store (addr6 : Address .inet6) (byte : ℕ) (f : BitVec 8 → BitVec 8) :
    Except Fault (Address .inet6) :=
  if h : byte < 16 then .ok (Function.update addr6 ⟨byte, h⟩ (f (addr6 ⟨byte, h⟩)))
  else .error .outside

/-- `for (; src; src--) addr6->s6_addr[byte] |= 1 << (8 - src);` -/
def bitLoop (byte : ℕ) : ℕ → Address .inet6 → Except Fault (Address .inet6)
  | 0, addr6 => .ok addr6
  | src + 1, addr6 => do
      let one ← oneShifted 8#32 (BitVec.ofNat 32 (src + 1))
      let addr6 ← store addr6 byte (· ||| one.setWidth 8)
      bitLoop byte src addr6

/-- `while (src > 7)`, and then the bits that are left. -/
def byteLoop : ℕ → ℕ → Address .inet6 → Except Fault (Address .inet6)
  | src + 8, byte, addr6 => do
      let addr6 ← store addr6 byte fun _ => 0xff#8
      byteLoop src (byte + 1) addr6
  | src, byte, addr6 => bitLoop byte src addr6

/-- `inet_mton` -/
def inetMton : (af : Family) → BitVec 32 → Except Fault (Address af)
  | .inet, src => do
      let mask ← maskLoop src.toNat 0#32
      return Octets.ofWords fun _ => Octets.swap mask
  | .inet6, src => byteLoop src.toNat 0 fun _ => 0#8

/-- `inet_mtop`: the mask is always one of IPv4. -/
def inetMtop (inet : Inet) (af : Family) (src : BitVec 32) : Except Fault Text := do
  let addr ← inetMton .inet src
  match af with
  | .inet => return inet.ntop .inet addr
  | .inet6 => .error .outside

/-! ## Masks of IPv4 -/

theorem oneShifted_eq {n : ℕ} (hn : n ≤ 32) (hsrc : 0 < src) (hle : src ≤ n) :
    oneShifted (BitVec.ofNat 32 n) (BitVec.ofNat 32 src) = .ok (BitVec.twoPow 32 (n - src)) := by
  have hsub : (BitVec.ofNat 32 n - BitVec.ofNat 32 src).toNat = n - src := by
    rw [BitVec.toNat_sub, BitVec.toNat_ofNat, BitVec.toNat_ofNat]
    omega
  rw [oneShifted, hsub, if_pos (by omega), BitVec.twoPow_eq]

theorem oneShifted_fault (hlt : 32 < src) (hsrc : src < 2 ^ 32) :
    oneShifted 32#32 (BitVec.ofNat 32 src) = .error .shift := by
  have hsub : (32#32 - BitVec.ofNat 32 src).toNat = 2 ^ 32 + 32 - src := by
    rw [BitVec.toNat_sub, BitVec.toNat_ofNat, BitVec.toNat_ofNat]
    omega
  rw [oneShifted, hsub, if_neg (by omega)]

theorem maskLoop_eq (h : src ≤ 32) (mask : BitVec 32) :
    ∃ mask', maskLoop src mask = .ok mask' ∧
      ∀ i < 32, mask'.getMsbD i = (mask.getMsbD i || decide (i < src)) := by
  induction src generalizing mask with
  | zero => exact ⟨mask, rfl, fun i _ => by simp⟩
  | succ src ih =>
      obtain ⟨mask', hloop, hbits⟩ := ih (by omega) (mask ||| BitVec.twoPow 32 (32 - (src + 1)))
      refine ⟨mask', ?_, fun i hi => ?_⟩
      · rw [maskLoop, oneShifted_eq (n := 32) (by omega) (by omega) h]
        exact hloop
      · rw [hbits i hi, BitVec.getMsbD_or, BitVec.getMsbD_eq_getLsbD (BitVec.twoPow _ _),
          BitVec.getLsbD_twoPow]
        have hone : (32 - (src + 1) = 32 - 1 - i) ↔ i = src := by omega
        grind

theorem maskLoop_fault (h : 32 < src) (hsrc : src < 2 ^ 32) (mask : BitVec 32) :
    maskLoop src mask = .error .shift := by
  obtain ⟨n, rfl⟩ : ∃ n, src = n + 1 := ⟨src - 1, by omega⟩
  rw [maskLoop, oneShifted_fault h hsrc]
  rfl

/-! ## Masks of IPv6 -/

theorem bit_inet6 (addr6 : Address .inet6) {i : ℕ} (hi : i < 128) :
    addr6.bit i = (addr6 ⟨i / 8, show i / 8 < 16 by omega⟩).getMsbD (i % 8) :=
  Octets.bit_of_lt addr6 (show i / 8 < 16 by omega)

theorem store_eq (addr6 : Address .inet6) (h : byte < 16) (f : BitVec 8 → BitVec 8) :
    ∃ a, store addr6 byte f = .ok a ∧ ∀ i < 128, a.bit i =
      if i / 8 = byte then (f (addr6 ⟨byte, h⟩)).getMsbD (i % 8) else addr6.bit i := by
  refine ⟨_, dif_pos h, fun i hi => ?_⟩
  rw [bit_inet6 _ hi, bit_inet6 _ hi]
  by_cases hbyte : i / 8 = byte
  · subst hbyte
    rw [if_pos rfl, Function.update_self]
  · rw [if_neg hbyte, Function.update_of_ne fun heq => hbyte (congrArg Fin.val heq)]

theorem store_fault (addr6 : Address .inet6) (h : ¬ byte < 16) (f : BitVec 8 → BitVec 8) :
    store addr6 byte f = .error .outside := dif_neg h

theorem bitLoop_eq (hbyte : byte < 16) (h : src ≤ 8) (addr6 : Address .inet6) :
    ∃ a, bitLoop byte src addr6 = .ok a ∧ ∀ i < 128, a.bit i =
      (addr6.bit i || decide (8 * byte ≤ i ∧ i < 8 * byte + src)) := by
  induction src generalizing addr6 with
  | zero =>
      refine ⟨addr6, rfl, fun i _ => ?_⟩
      rw [decide_eq_false (by omega), Bool.or_false]
  | succ src ih =>
      obtain ⟨a, hstore, hbits⟩ := store_eq addr6 hbyte
        (· ||| (BitVec.twoPow 32 (8 - (src + 1))).setWidth 8)
      obtain ⟨a', hloop, hbits'⟩ := ih (by omega) a
      refine ⟨a', ?_, fun i hi => ?_⟩
      · rw [bitLoop, oneShifted_eq (n := 8) (by omega) (by omega) h]
        change (store addr6 byte _ >>= _) = _
        rw [hstore]
        exact hloop
      · rw [hbits' i hi, hbits i hi]
        by_cases hin : i / 8 = byte
        · have hsame : (addr6 ⟨byte, hbyte⟩).getMsbD (i % 8) = addr6.bit i := by
            rw [bit_inet6 _ hi]
            simp only [hin]
          rw [if_pos hin, BitVec.getMsbD_or, hsame,
            BitVec.getMsbD_eq_getLsbD (BitVec.setWidth _ _), BitVec.getLsbD_setWidth,
            BitVec.getLsbD_twoPow]
          have hone : (8 - (src + 1) = 8 - 1 - i % 8) ↔ i = 8 * byte + src := by omega
          grind
        · rw [if_neg hin, decide_eq_false (by omega), decide_eq_false (by omega)]

theorem byteLoop_eq (h : 8 * byte + src ≤ 128) (addr6 : Address .inet6) :
    ∃ a, byteLoop src byte addr6 = .ok a ∧ ∀ i < 128, a.bit i =
      (addr6.bit i || decide (8 * byte ≤ i ∧ i < 8 * byte + src)) := by
  induction src, byte, addr6 using byteLoop.induct with
  | case1 src byte addr6 ih =>
      obtain ⟨a, hstore, hbits⟩ := store_eq addr6 (show byte < 16 by omega) fun _ => 0xff#8
      obtain ⟨a', hloop, hbits'⟩ := ih a (by omega)
      refine ⟨a', ?_, fun i hi => ?_⟩
      · rw [byteLoop, hstore]
        exact hloop
      · rw [hbits' i hi, hbits i hi]
        by_cases hin : i / 8 = byte
        · have hone : (0xff#8).getMsbD (i % 8) = true := by
            have hlt : i % 8 < 8 := by omega
            generalize i % 8 = r at hlt
            revert r
            decide
          rw [if_pos hin, hone, decide_eq_true (p := 8 * byte ≤ i ∧ _) (by omega), Bool.or_true,
            Bool.true_or]
        · rw [if_neg hin]
          congr 2
          refine propext ?_
          omega
  | case2 src byte addr6 hsmall =>
      have hlt : src < 8 := by
        by_contra hge
        exact hsmall (src - 8) (by omega)
      have heq : byteLoop src byte addr6 = bitLoop byte src addr6 := by
        rw [byteLoop]
        exact hsmall
      rw [heq]
      rcases Nat.eq_zero_or_pos src with rfl | hpos
      · refine ⟨addr6, rfl, fun i _ => ?_⟩
        rw [decide_eq_false (by omega), Bool.or_false]
      · exact bitLoop_eq (by omega) (by omega) addr6

theorem byteLoop_fault (h : 128 < 8 * byte + src) (hbyte : byte ≤ 16) (addr6 : Address .inet6) :
    byteLoop src byte addr6 = .error .outside := by
  induction src, byte, addr6 using byteLoop.induct with
  | case1 src byte addr6 ih =>
      rw [byteLoop]
      by_cases hin : byte < 16
      · obtain ⟨a, hstore, -⟩ := store_eq addr6 hin fun _ => 0xff#8
        rw [hstore]
        exact ih a (by omega) (by omega)
      · rw [store_fault _ hin]
        rfl
  | case2 src byte addr6 hsmall =>
      have hlt : src < 8 := by
        by_contra hge
        exact hsmall (src - 8) (by omega)
      rw [byteLoop]
      · obtain ⟨n, rfl⟩ : ∃ n, src = n + 1 := ⟨src - 1, by omega⟩
        rw [bitLoop, oneShifted_eq (n := 8) (by omega) (by omega) (by omega)]
        change (store addr6 byte _ >>= _) = _
        rw [store_fault _ (by omega)]
        rfl
      · exact hsmall

/-! ## Masks -/

theorem inetMton_eq {src : BitVec 32} (h : src.toNat ≤ af.bits) :
    ∃ mask, inetMton af src = .ok mask ∧ Octets.IsMask src.toNat mask := by
  cases af with
  | inet =>
      obtain ⟨mask, hloop, hbits⟩ := maskLoop_eq h 0#32
      refine ⟨_, by rw [inetMton, hloop]; rfl, fun i hi => ?_⟩
      have hi : i < 32 := hi
      rw [Octets.bit_ofWords _ hi, Nat.mod_eq_of_lt hi, Octets.getLsbD_swap _ hi, hbits i hi]
      simp
  | inet6 =>
      have hle : 8 * 0 + src.toNat ≤ 128 := by
        rw [Nat.mul_zero, Nat.zero_add]
        exact h
      obtain ⟨a, hloop, hbits⟩ := byteLoop_eq hle fun _ => 0#8
      refine ⟨a, hloop, fun i hi => ?_⟩
      have hi : i < 128 := hi
      rw [hbits i hi, bit_inet6 _ hi]
      simp

theorem inetMton_fault {src : BitVec 32} (h : af.bits < src.toNat) :
    ∃ fault, inetMton af src = .error fault ∧ fault ≠ .unset := by
  cases af with
  | inet =>
      refine ⟨.shift, ?_, by decide⟩
      rw [inetMton, maskLoop_fault h src.isLt]
      rfl
  | inet6 =>
      refine ⟨.outside, byteLoop_fault ?_ (by decide) _, by decide⟩
      have : 128 < src.toNat := h
      omega

theorem inetMtop_eq (inet : Inet) {src : BitVec 32} (h : src.toNat ≤ 32) :
    ∃ mask, inetMtop inet .inet src = .ok (inet.ntop .inet mask) ∧
      Octets.IsMask src.toNat mask := by
  have hbits : src.toNat ≤ Family.inet.bits := h
  obtain ⟨mask, hmton, hmask⟩ := inetMton_eq hbits
  refine ⟨mask, ?_, hmask⟩
  rw [inetMtop, hmton]
  rfl

theorem inetMtop_fault (inet : Inet) {src : BitVec 32} (h : 32 < src.toNat) (af : Family) :
    ∃ fault, inetMtop inet af src = .error fault ∧ fault ≠ .unset := by
  have hbits : Family.inet.bits < src.toNat := h
  obtain ⟨fault, hmton, hfault⟩ := inetMton_fault hbits
  refine ⟨fault, ?_, hfault⟩
  rw [inetMtop, hmton]
  rfl

end DebianInstaller.Netcfg
