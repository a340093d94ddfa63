import Mathlib.Algebra.Order.Group.Nat

/-!
# Addresses as bytes and as words

An address is so many bytes, in the order in which they are sent; its first bit is the highest
one of its first byte. A machine that is little endian reads four bytes at a time as a word, and
in that word the bits of an address are not in order. But what is done to words bit by bit is
done to the address bit by bit, wherever a bit is put. Only where a word is made or read as a
number do the bytes have to be swapped.
-/

namespace DebianInstaller.Lib

variable {i m : ℕ}

/-- `n` bytes of memory. -/
abbrev Octets (n : ℕ) := Fin n → BitVec 8

namespace Octets

variable {n : ℕ}

/-- The bit `i` of an address, from its beginning. -/
def bit (a : Octets n) (i : ℕ) : Bool :=
  if h : i / 8 < n then (a ⟨i / 8, h⟩).getMsbD (i % 8) else false

/-- Where the bit `i` of four bytes is in the word that a little-endian machine reads. -/
def place (i : ℕ) : ℕ := 8 * (i / 8) + (7 - i % 8)

/-- The four bytes from `4 * k` on, as a little-endian machine reads them. -/
def word (a : Octets (4 * n)) (k : Fin n) : BitVec 32 :=
  a ⟨4 * k + 3, by omega⟩ ++ a ⟨4 * k + 2, by omega⟩ ++ a ⟨4 * k + 1, by omega⟩
    ++ a ⟨4 * k, by omega⟩

/-- The bytes in which these words are stored. -/
def ofWords (w : Fin n → BitVec 32) : Octets (4 * n) := fun i =>
  (w ⟨i / 4, by omega⟩).extractLsb' (8 * (i % 4)) 8

/-- `htonl` and `ntohl`, on a little-endian machine. -/
def swap (w : BitVec 32) : BitVec 32 :=
  w.extractLsb' 0 8 ++ w.extractLsb' 8 8 ++ w.extractLsb' 16 8 ++ w.extractLsb' 24 8

/-- `ntohs`, on a little-endian machine. -/
def swapShort (w : BitVec 16) : BitVec 16 := w.extractLsb' 0 8 ++ w.extractLsb' 8 8

/-! ## Bits -/

theorem bit_of_lt (a : Octets n) (h : i / 8 < n) :
    a.bit i = (a ⟨i / 8, h⟩).getMsbD (i % 8) := dif_pos h

theorem ext_bit {a b : Octets n} (h : ∀ i < 8 * n, a.bit i = b.bit i) : a = b := by
  funext k
  refine BitVec.eq_of_getMsbD_eq fun i hi => ?_
  have hdiv : (8 * k + i) / 8 = k := by omega
  have hmod : (8 * k + i) % 8 = i := by omega
  have hbit := h (8 * k + i) (by omega)
  rw [bit_of_lt a (by omega), bit_of_lt b (by omega)] at hbit
  simpa only [hdiv, hmod] using hbit

theorem place_lt (hi : i < 32) : place i < 32 := by
  unfold place
  omega

theorem place_place : place (place i) = i := by
  unfold place
  omega

theorem getLsbD_word_byte (a : Octets (4 * n)) (k : Fin n) {q r : ℕ} (hq : q < 4) (hr : r < 8) :
    (a.word k).getLsbD (8 * q + r) = (a ⟨4 * k + q, by omega⟩).getLsbD r := by
  unfold word
  simp only [BitVec.getLsbD_append]
  obtain rfl | rfl | rfl | rfl : q = 0 ∨ q = 1 ∨ q = 2 ∨ q = 3 := by omega
  · rw [if_pos (by omega)]
    congr 1
    omega
  · rw [if_neg (by omega), if_pos (by omega)]
    congr 1
    omega
  · rw [if_neg (by omega), if_neg (by omega), if_pos (by omega)]
    congr 1
    omega
  · rw [if_neg (by omega), if_neg (by omega), if_neg (by omega)]
    congr 1
    omega

theorem getLsbD_word (a : Octets (4 * n)) (k : Fin n) (hi : i < 32) :
    (a.word k).getLsbD (place i) = a.bit (32 * k + i) := by
  have hbyte := getLsbD_word_byte a k (q := i / 8) (r := 7 - i % 8) (by omega) (by omega)
  rw [place, hbyte, bit_of_lt a (by omega), BitVec.getMsbD_eq_getLsbD]
  have hdiv : (32 * (k : ℕ) + i) / 8 = 4 * k + i / 8 := by omega
  have hmod : (32 * (k : ℕ) + i) % 8 = i % 8 := by omega
  simp only [hdiv, hmod, show i % 8 < 8 by omega, decide_true, Bool.true_and]

theorem bit_ofWords (w : Fin n → BitVec 32) (hi : i < 8 * (4 * n)) :
    (ofWords w).bit i = (w ⟨i / 32, by omega⟩).getLsbD (place (i % 32)) := by
  rw [bit_of_lt _ (by omega), BitVec.getMsbD_eq_getLsbD, ofWords, BitVec.getLsbD_extractLsb']
  have hword : i / 8 / 4 = i / 32 := by omega
  have hplace : 8 * (i / 8 % 4) + (8 - 1 - i % 8) = place (i % 32) := by
    unfold place
    omega
  simp only [hword, hplace, show i % 8 < 8 by omega, show 8 - 1 - i % 8 < 8 by omega,
    decide_true, Bool.true_and]

theorem word_ofWords (w : Fin n → BitVec 32) (k : Fin n) : (ofWords w).word k = w k := by
  refine BitVec.eq_of_getLsbD_eq fun i hi => ?_
  rw [← place_place (i := i), getLsbD_word _ _ (place_lt hi), bit_ofWords _ (by
    have := place_lt hi
    omega)]
  have hdiv : (32 * (k : ℕ) + place i) / 32 = k := by
    have := place_lt hi
    omega
  have hmod : (32 * (k : ℕ) + place i) % 32 = place i := by
    have := place_lt hi
    omega
  simp only [hdiv, hmod]

theorem word_injective {a b : Octets (4 * n)} (h : ∀ k, a.word k = b.word k) : a = b := by
  refine ext_bit fun i hi => ?_
  have hsplit : 32 * (i / 32) + i % 32 = i := Nat.div_add_mod i 32
  have ha := getLsbD_word a ⟨i / 32, by omega⟩ (i := i % 32) (by omega)
  have hb := getLsbD_word b ⟨i / 32, by omega⟩ (i := i % 32) (by omega)
  simp only [hsplit] at ha hb
  rw [← ha, ← hb, h]

/-! ## Bytes swapped -/

theorem getLsbD_swap (w : BitVec 32) (hi : i < 32) : (swap w).getLsbD (place i) = w.getMsbD i := by
  unfold swap place
  rw [BitVec.getMsbD_eq_getLsbD]
  simp only [BitVec.getLsbD_append, BitVec.getLsbD_extractLsb']
  obtain h | h | h | h : i / 8 = 0 ∨ i / 8 = 1 ∨ i / 8 = 2 ∨ i / 8 = 3 := by omega
  · rw [h, if_pos (by omega)]
    simp only [show 8 * 0 + (7 - i % 8) < 8 by omega, hi, decide_true, Bool.true_and]
    congr 1
    omega
  · rw [h, if_neg (by omega), if_pos (by omega)]
    simp only [show 8 * 1 + (7 - i % 8) - 8 < 8 by omega, hi, decide_true, Bool.true_and]
    congr 1
    omega
  · rw [h, if_neg (by omega), if_neg (by omega), if_pos (by omega)]
    simp only [show 8 * 2 + (7 - i % 8) - 8 - 8 < 8 by omega, hi, decide_true, Bool.true_and]
    congr 1
    omega
  · rw [h, if_neg (by omega), if_neg (by omega), if_neg (by omega)]
    simp only [show 8 * 3 + (7 - i % 8) - 8 - 8 - 8 < 8 by omega, hi, decide_true, Bool.true_and]
    congr 1
    omega

theorem getMsbD_swap_word (a : Octets (4 * n)) (k : Fin n) (hi : i < 32) :
    (swap (a.word k)).getMsbD i = a.bit (32 * k + i) := by
  have hlt : place (31 - i) < 32 := place_lt (by omega)
  have hplace : 32 - 1 - place (31 - i) = place i := by
    unfold place
    omega
  rw [BitVec.getMsbD_eq_getLsbD, show 32 - 1 - i = place (place (31 - i)) by rw [place_place],
    getLsbD_swap _ hlt, BitVec.getMsbD_eq_getLsbD, hplace, getLsbD_word a k hi]
  simp only [hi, hlt, decide_true, Bool.true_and]

theorem getMsbD_swapShort (a : Octets (4 * n)) (h : 0 < n) (hi : i < 16) :
    (swapShort ((a.word ⟨0, h⟩).setWidth 16)).getMsbD i = a.bit i := by
  have hbit := getLsbD_word a ⟨0, h⟩ (i := i) (by omega)
  rw [show 32 * ((⟨0, h⟩ : Fin n) : ℕ) + i = i by simp] at hbit
  rw [← hbit, BitVec.getMsbD_eq_getLsbD]
  unfold swapShort place
  simp only [BitVec.getLsbD_append, BitVec.getLsbD_extractLsb', BitVec.getLsbD_setWidth]
  obtain h | h : i / 8 = 0 ∨ i / 8 = 1 := by omega
  · rw [h, if_neg (by omega)]
    have hplace : 0 + (16 - 1 - i - 8) = 8 * 0 + (7 - i % 8) := by omega
    simp only [hi, show 16 - 1 - i - 8 < 8 by omega, show 8 * 0 + (7 - i % 8) < 16 by omega,
      hplace, decide_true, Bool.true_and]
  · rw [h, if_pos (by omega)]
    have hplace : 8 + (16 - 1 - i) = 8 * 1 + (7 - i % 8) := by omega
    simp only [hi, show 16 - 1 - i < 8 by omega, show 8 * 1 + (7 - i % 8) < 16 by omega,
      hplace, decide_true, Bool.true_and]

/-! ## The first bits -/

/-- The first `m` bits are set and no other. -/
def IsMask (m : ℕ) (a : Octets n) : Prop := ∀ i < 8 * n, a.bit i = decide (i < m)

/-- The first `m` bits of one address are those of another. -/
def Agree (m : ℕ) (a b : Octets n) : Prop := ∀ i < m, a.bit i = b.bit i

/-- The first `m` bits are those of `a`, and the others are all `rest`. -/
def Fills (m : ℕ) (a : Octets n) (rest : Bool) (b : Octets n) : Prop :=
  ∀ i < 8 * n, b.bit i = if i < m then a.bit i else rest

theorem bit_map_word (f : BitVec 32 → BitVec 32 → BitVec 32) (g : Bool → Bool → Bool)
    (hf : ∀ x y i, i < 32 → (f x y).getLsbD i = g (x.getLsbD i) (y.getLsbD i))
    (a b : Octets (4 * n)) (hi : i < 8 * (4 * n)) :
    (ofWords fun k => f (a.word k) (b.word k)).bit i = g (a.bit i) (b.bit i) := by
  have hsplit : 32 * (i / 32) + i % 32 = i := Nat.div_add_mod i 32
  rw [bit_ofWords _ hi, hf _ _ _ (place_lt (by omega)), getLsbD_word _ _ (by omega),
    getLsbD_word _ _ (by omega)]
  simp only [hsplit]

theorem Fills.and {mask : Octets (4 * n)} (hmask : IsMask m mask) (a : Octets (4 * n)) :
    Fills m a false (ofWords fun k => a.word k &&& mask.word k) := by
  intro i hi
  rw [bit_map_word (· &&& ·) (· && ·) (fun x y i _ => BitVec.getLsbD_and) a mask hi, hmask i hi]
  by_cases h : i < m
  · rw [if_pos h, decide_eq_true h, Bool.and_true]
  · rw [if_neg h, decide_eq_false h, Bool.and_false]

theorem Fills.or_not {mask : Octets (4 * n)} (hmask : IsMask m mask) {a net : Octets (4 * n)}
    {rest : Bool} (hnet : Fills m a rest net) :
    Fills m a true (ofWords fun k => net.word k ||| ~~~ mask.word k) := by
  intro i hi
  rw [bit_map_word (fun x y => x ||| ~~~ y) (fun x y => x || !y) (fun x y i hi => by
    rw [BitVec.getLsbD_or, BitVec.getLsbD_not, decide_eq_true hi, Bool.true_and]) net mask hi,
    hmask i hi, hnet i hi]
  by_cases h : i < m
  · rw [if_pos h, if_pos h, decide_eq_true h, Bool.not_true, Bool.or_false]
  · rw [if_neg h, if_neg h, decide_eq_false h, Bool.not_false, Bool.or_true]

theorem agree_iff_words (hm : m ≤ 8 * (4 * n)) {mask : Octets (4 * n)} (hmask : IsMask m mask)
    {a b net : Octets (4 * n)} (hnet : Fills m a false net) :
    (∀ k, b.word k &&& mask.word k = net.word k) ↔ Agree m b a := by
  have hfills := Fills.and hmask b
  constructor
  · intro h i hi
    have hsame : (ofWords fun k => b.word k &&& mask.word k) = net :=
      word_injective fun k => by rw [word_ofWords, h]
    have hbit := hfills i (by omega)
    rw [hsame, hnet i (by omega), if_pos hi, if_pos hi] at hbit
    exact hbit.symm
  · intro h k
    have hsame : (ofWords fun k => b.word k &&& mask.word k) = net := by
      refine ext_bit fun i hi => ?_
      rw [hfills i hi, hnet i hi]
      by_cases hlt : i < m
      · rw [if_pos hlt, if_pos hlt, h i hlt]
      · rw [if_neg hlt, if_neg hlt]
    rw [← hsame, word_ofWords]

theorem words_eq_zero_iff {a : Octets (4 * n)} :
    (∀ k, a.word k = 0#32) ↔ a = fun _ => 0#8 := by
  constructor
  · intro h
    refine word_injective fun k => ?_
    rw [h]
    simp [word]
  · rintro rfl k
    simp [word]

end Octets

end DebianInstaller.Lib
