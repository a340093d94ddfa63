import DebianInstaller.Netcfg.Canonical

/-!
# The address in BOOTIF

`parse_bootif` reads six bytes in hexadecimal with colons between them, each with `strtol`. That
function takes the longest beginning of a text that looks like a number to it: blanks, a sign and
`0x` may stand before the digits, there may be any number of digits, and if there are none the
number is zero. What comes after the sixth number is not looked at. So every address that is
written properly is read as it should be, but many texts that are none are read too.
-/

namespace DebianInstaller.Netcfg

open Text

variable {digits rest s t zero : Text} {einval : Bool}

/-! ## The code -/

def isHex (c : Char) : Bool := digitValue c < 16

/-- What `strtol` returns, whether it has set `errno`, and where it has stopped. -/
structure Strtol where
  value : Int
  errno : Bool
  rest : Text
  deriving DecidableEq

/-- A sign, if there is one. -/
def readSign : Text → Int × Text
  | '-' :: t => (-1, t)
  | '+' :: t => (1, t)
  | t => (1, t)

/-- `0x` counts only if a digit follows. -/
def skipPrefix : Text → Text
  | '0' :: x :: d :: t => if (x = 'x' ∨ x = 'X') ∧ isHex d = true then d :: t else '0' :: x :: d :: t
  | t => t

/-- `strtol` with base 16. Whether a text without a number is an error is left to the C library;
if it is, that is `EINVAL`. -/
def strtol (einval : Bool) (nptr : Text) : Strtol :=
  let (sign, t) := readSign (nptr.dropWhile isSpace)
  let t := skipPrefix t
  let digits := t.takeWhile isHex
  if digits = [] then { value := 0, errno := einval, rest := nptr }
  else
    let value := sign * numeral 16 digits
    { value := saturate value, errno := saturate value ≠ value, rest := t.dropWhile isHex }

/-- `ETH_ALEN` -/
def ethAlen : ℕ := 6

/-- The loop, with so many bytes still to be read. -/
def bootifLoop (einval : Bool) : ℕ → Text → Option (List (BitVec 8))
  | 0, _ => some []
  | n + 1, s =>
      let bootifByte := strtol einval s
      if bootifByte.errno = true ∨ 256 ≤ (BitVec.ofInt 64 bootifByte.value).toNat then none
      else
        let byte := BitVec.ofInt 8 bootifByte.value
        if n = 0 then some [byte]
        else
          match bootifByte.rest with
          | ':' :: s => (bootifLoop einval n s).map (byte :: ·)
          | _ => none

/-- `parse_bootif` -/
def parseBootif (einval : Bool) (bootif : Text) : Option (List (BitVec 8)) :=
  bootifLoop einval ethAlen bootif

/-! ## Numbers for strtol -/

/-- A text of the form that `strtol` expects, and its value. -/
inductive Numeral (einval : Bool) : Text → Int → Prop where
  | nothing (h : einval = false) : Numeral einval [] 0
  | digits {blanks sign zero digits : Text} (hblanks : ∀ c ∈ blanks, isSpace c = true)
      (hsign : sign = [] ∨ sign = ['+'] ∨ sign = ['-'])
      (hzero : zero = [] ∨ zero = ['0', 'x'] ∨ zero = ['0', 'X'])
      (hne : digits ≠ []) (hdigits : ∀ c ∈ digits, isHex c = true) :
      Numeral einval (blanks ++ (sign ++ (zero ++ digits)))
        ((if sign = ['-'] then -1 else 1) * numeral 16 digits)

/-- The text begins with this number, and with no longer one. -/
structure Begins (einval : Bool) (s w : Text) (n : Int) (rest : Text) : Prop where
  append : s = w ++ rest
  numeral : Numeral einval w n
  longest : ∀ v m, v <+: s → Numeral einval v m → v.length ≤ w.length

theorem isHex_of_isSpace {c : Char} (h : isSpace c = true) : isHex c = false := by
  have hcases : ((((c = ' ' ∨ c = '\t') ∨ c = '\n') ∨ c = '\x0b') ∨ c = '\x0c') ∨ c = '\x0d' := by
    simpa [isSpace] using h
  rcases hcases with ((((rfl | rfl) | rfl) | rfl) | rfl) | rfl <;> decide

theorem head_digits (hzero : zero = [] ∨ zero = ['0', 'x'] ∨ zero = ['0', 'X']) (hne : digits ≠ [])
    (hdigits : ∀ c ∈ digits, isHex c = true) :
    ∀ c, (zero ++ (digits ++ t)).head? = some c → isHex c = true := by
  rcases hzero with rfl | rfl | rfl
  · cases digits with
    | nil => exact absurd rfl hne
    | cons d digits =>
        intro c hc
        exact hdigits c (Option.some.inj hc ▸ List.mem_cons_self)
  all_goals
    intro c hc
    obtain rfl := Option.some.inj hc
    decide

theorem readSign_eq {sign : Text} (hsign : sign = [] ∨ sign = ['+'] ∨ sign = ['-'])
    (ht : ∀ c, t.head? = some c → isHex c = true) :
    readSign (sign ++ t) = (if sign = ['-'] then -1 else 1, t) := by
  rcases hsign with rfl | rfl | rfl
  · cases t with
    | nil => rfl
    | cons c t =>
        have hhex := ht c rfl
        rw [List.nil_append]
        unfold readSign
        split
        · next heq =>
            obtain rfl := (List.cons.inj heq).1
            exact absurd hhex (by decide)
        · next heq =>
            obtain rfl := (List.cons.inj heq).1
            exact absurd hhex (by decide)
        · rfl
  · rfl
  · rfl

theorem readSign_spec (t : Text) : ∃ sign, (sign = [] ∨ sign = ['+'] ∨ sign = ['-']) ∧
    t = sign ++ (readSign t).2 := by
  unfold readSign
  split
  · exact ⟨['-'], .inr (.inr rfl), rfl⟩
  · exact ⟨['+'], .inr (.inl rfl), rfl⟩
  · exact ⟨[], .inl rfl, rfl⟩

theorem skipPrefix_spec (t : Text) : ∃ zero, (zero = [] ∨ zero = ['0', 'x'] ∨ zero = ['0', 'X']) ∧
    t = zero ++ skipPrefix t := by
  unfold skipPrefix
  split
  · next x d t =>
      split
      · next h =>
          obtain rfl | rfl := h.1
          · exact ⟨['0', 'x'], .inr (.inl rfl), rfl⟩
          · exact ⟨['0', 'X'], .inr (.inr rfl), rfl⟩
      · exact ⟨[], .inl rfl, rfl⟩
  · exact ⟨[], .inl rfl, rfl⟩

theorem skipPrefix_zero (hzero : zero = ['0', 'x'] ∨ zero = ['0', 'X'])
    (ht : ∃ c u, t = c :: u ∧ isHex c = true) : skipPrefix (zero ++ t) = t := by
  obtain ⟨c, u, rfl, hc⟩ := ht
  rcases hzero with rfl | rfl
  · exact if_pos ⟨.inl rfl, hc⟩
  · exact if_pos ⟨.inr rfl, hc⟩

theorem skipPrefix_digits (hne : digits ≠ []) (hdigits : ∀ c ∈ digits, isHex c = true)
    (h : ∀ x d t, digits = ['0'] → rest = x :: d :: t → (x = 'x' ∨ x = 'X') → ¬ isHex d = true) :
    skipPrefix (digits ++ rest) = digits ++ rest := by
  generalize htext : digits ++ rest = text
  unfold skipPrefix
  split
  · next x d t =>
      refine if_neg fun hcond => ?_
      match digits, hne with
      | [c], _ =>
          have hrest : rest = x :: d :: t := (List.cons.inj htext).2
          obtain rfl := (List.cons.inj htext).1
          exact h x d t rfl hrest hcond.1 hcond.2
      | c :: c' :: digits, _ =>
          have hx : isHex x = true := by
            refine hdigits x ?_
            rw [(List.cons.inj (List.cons.inj htext).2).1]
            exact List.mem_cons_of_mem _ List.mem_cons_self
          obtain rfl | rfl := hcond.1 <;> exact absurd hx (by decide)
  · rfl

/-! ## What strtol reads -/

theorem numeral_of_digits {einval : Bool} {s : Text}
    (h : (skipPrefix (readSign (s.dropWhile isSpace)).2).takeWhile isHex ≠ []) :
    ∃ w n, w <+: s ∧ w ≠ [] ∧ Numeral einval w n := by
  obtain ⟨sign, hsign, hs⟩ := readSign_spec (s.dropWhile isSpace)
  obtain ⟨zero, hzero, ht⟩ := skipPrefix_spec (readSign (s.dropWhile isSpace)).2
  generalize (readSign (s.dropWhile isSpace)).2 = t at h hs ht
  have hblanks : ∀ c ∈ s.takeWhile isSpace, isSpace c = true := fun c hc =>
    List.mem_takeWhile_imp hc
  have hnumeral := @Numeral.digits einval _ _ _ _ hblanks hsign hzero h
    fun c hc => List.mem_takeWhile_imp hc
  refine ⟨_, _, ⟨(skipPrefix t).dropWhile isHex, ?_⟩, fun hnil => ?_, hnumeral⟩
  · simp only [List.append_assoc, List.takeWhile_append_dropWhile]
    rw [← ht, ← hs, List.takeWhile_append_dropWhile]
  · simp only [List.append_eq_nil_iff] at hnil
    exact h hnil.2.2.2

theorem dropWhile_head {p : Char → Bool} (h : ∀ c, t.head? = some c → p c = false) :
    t.takeWhile p = [] ∧ t.dropWhile p = t := by
  cases t with
  | nil => exact ⟨rfl, rfl⟩
  | cons c t =>
      have hc : ¬ p c = true := by
        rw [h c rfl]
        decide
      exact ⟨List.takeWhile_cons_of_neg hc, List.dropWhile_cons_of_neg hc⟩

theorem strtol_digits (einval : Bool) {blanks sign : Text}
    (hblanks : ∀ c ∈ blanks, isSpace c = true) (hsign : sign = [] ∨ sign = ['+'] ∨ sign = ['-'])
    (hzero : zero = [] ∨ zero = ['0', 'x'] ∨ zero = ['0', 'X']) (hne : digits ≠ [])
    (hdigits : ∀ c ∈ digits, isHex c = true) (hrest : ∀ c, rest.head? = some c → isHex c = false)
    (hskip : skipPrefix (zero ++ (digits ++ rest)) = digits ++ rest) {n : Int}
    (hn : n = (if sign = ['-'] then -1 else 1) * numeral 16 digits) :
    strtol einval (blanks ++ (sign ++ (zero ++ (digits ++ rest))))
      = { value := saturate n, errno := saturate n ≠ n, rest := rest } := by
  have hhead := head_digits (t := rest) hzero hne hdigits
  have hdrop : (blanks ++ (sign ++ (zero ++ (digits ++ rest)))).dropWhile isSpace
      = sign ++ (zero ++ (digits ++ rest)) := by
    rw [List.dropWhile_append_of_pos hblanks]
    refine (dropWhile_head fun c hc => ?_).2
    rcases hsign with rfl | rfl | rfl
    · by_contra hspace
      have hnot := isHex_of_isSpace (Bool.eq_true_of_not_eq_false hspace)
      rw [hhead c hc] at hnot
      nomatch hnot
    all_goals
      obtain rfl := Option.some.inj hc
      decide
  have htake : (digits ++ rest).takeWhile isHex = digits := by
    rw [List.takeWhile_append_of_pos hdigits, (dropWhile_head hrest).1, List.append_nil]
  have hdrop' : (digits ++ rest).dropWhile isHex = rest := by
    rw [List.dropWhile_append_of_pos hdigits, (dropWhile_head hrest).2]
  unfold strtol
  simp only [hdrop, readSign_eq hsign hhead, hskip, htake, hdrop', if_neg hne, hn]

theorem strtol_of_begins {w : Text} {n : Int} (h : Begins einval s w n rest) :
    strtol einval s = { value := saturate n, errno := saturate n ≠ n, rest := rest } := by
  obtain ⟨hs, hnumeral, hlongest⟩ := h
  cases hnumeral with
  | nothing heinval =>
      have hnone : (skipPrefix (readSign (s.dropWhile isSpace)).2).takeWhile isHex = [] := by
        by_contra hsome
        obtain ⟨v, m, hprefix, hne, hv⟩ := @numeral_of_digits einval _ hsome
        exact hne (List.length_eq_zero_iff.1 (Nat.le_zero.1 (hlongest v m hprefix hv)))
      obtain rfl : s = rest := hs
      unfold strtol
      simp only [hnone, if_true, heinval]
      rfl
  | @digits blanks sign zero digits hblanks hsign hzero hne hdigits =>
      simp only [List.append_assoc] at hs
      have hlonger : ∀ {v : Text} {m : Int} {t : Text}, Numeral einval v m → s = v ++ t →
          v.length ≤ blanks.length + (sign.length + (zero.length + digits.length)) := by
        intro v m t hv heq
        have hle := hlongest v m ⟨t, heq.symm⟩ hv
        simpa only [List.length_append] using hle
      -- A digit behind the digits would belong to the number.
      have hrest : ∀ c, rest.head? = some c → isHex c = false := by
        intro c hc
        obtain ⟨t, rfl⟩ : ∃ t, rest = c :: t := List.head?_eq_some_iff.1 hc
        by_contra hhex
        have hall : ∀ d ∈ digits ++ [c], isHex d = true := by
          intro d hd
          rcases List.mem_append.1 hd with hd | hd
          · exact hdigits d hd
          · rw [List.mem_singleton.1 hd]
            exact Bool.eq_true_of_not_eq_false hhex
        have hle := hlonger (t := t) (Numeral.digits hblanks hsign hzero (by simp) hall)
          (by simp [hs])
        simp only [List.length_append, List.length_singleton] at hle
        omega
      have hskip : skipPrefix (zero ++ (digits ++ rest)) = digits ++ rest := by
        rcases hzero with rfl | hzero
        · rw [List.nil_append]
          refine skipPrefix_digits hne hdigits fun x d t hdigit ht hx hd => ?_
          -- The zero would be that of a prefix, with a longer number.
          have hzero' : ['0', x] = [] ∨ ['0', x] = ['0', 'x'] ∨ ['0', x] = ['0', 'X'] := by
            rcases hx with rfl | rfl
            · exact .inr (.inl rfl)
            · exact .inr (.inr rfl)
          have hall : ∀ c ∈ [d], isHex c = true := fun c hc => List.mem_singleton.1 hc ▸ hd
          have hle := hlonger (t := t) (Numeral.digits hblanks hsign hzero' (by simp) hall)
            (by simp [hs, hdigit, ht])
          simp only [hdigit, List.length_append, List.length_cons, List.length_nil] at hle
          omega
        · refine skipPrefix_zero hzero ?_
          match digits, hne with
          | d :: digits, _ => exact ⟨d, digits ++ rest, rfl, hdigits d List.mem_cons_self⟩
      rw [hs]
      exact strtol_digits einval hblanks hsign hzero hne hdigits hrest hskip rfl

theorem begins_or (einval : Bool) (s : Text) :
    (∃ w n rest, Begins einval s w n rest) ∨
      (strtol einval s).errno = true ∧ ∀ w n rest, ¬ Begins einval s w n rest := by
  by_cases h : ∃ w n, w <+: s ∧ Numeral einval w n
  · obtain ⟨w, n, hprefix, hnumeral⟩ := h
    -- The longest of them is found among those of each length.
    let has (k : ℕ) : Prop := ∃ v m, v <+: s ∧ Numeral einval v m ∧ v.length = k
    classical
    obtain ⟨v, m, ⟨rest, hrest⟩, hv, hk⟩ : has (Nat.findGreatest has s.length) :=
      Nat.findGreatest_spec hprefix.length_le ⟨w, n, hprefix, hnumeral, rfl⟩
    refine .inl ⟨v, m, rest, hrest.symm, hv, fun v' m' hprefix' hv' => ?_⟩
    rw [hk]
    exact Nat.le_findGreatest hprefix'.length_le ⟨v', m', hprefix', hv', rfl⟩
  · refine .inr ⟨?_, fun w n rest hbegins =>
      h ⟨w, n, ⟨rest, hbegins.append.symm⟩, hbegins.numeral⟩⟩
    have heinval : einval = true := by
      by_contra hfalse
      exact h ⟨[], 0, List.nil_prefix, .nothing (Bool.eq_false_of_not_eq_true hfalse)⟩
    have hnone : (skipPrefix (readSign (s.dropWhile isSpace)).2).takeWhile isHex = [] := by
      by_contra hsome
      obtain ⟨w, n, hprefix, -, hw⟩ := @numeral_of_digits einval _ hsome
      exact h ⟨w, n, hprefix, hw⟩
    unfold strtol
    simp only [hnone, if_true, heinval]

/-! ## Addresses -/

theorem byte_iff (n : Int) :
    (decide (saturate n ≠ n) = true ∨ 256 ≤ (BitVec.ofInt 64 (saturate n)).toNat) ↔
      ¬ (0 ≤ n ∧ n < 256) := by
  rw [decide_eq_true_iff, BitVec.toNat_ofInt]
  unfold saturate
  omega

/-- So many numbers below 256 with a colon behind each but the last. -/
def Lenient (einval : Bool) : ℕ → Text → Prop
  | 0, _ => True
  | n + 1, s => ∃ w v rest, Begins einval s w v rest ∧ (0 ≤ v ∧ v < 256) ∧
      (n ≠ 0 → ∃ t, rest = ':' :: t ∧ Lenient einval n t)

theorem lenient_succ_iff {n : ℕ} {w : Text} {v : Int} (h : Begins einval s w v rest) :
    Lenient einval (n + 1) s ↔
      (0 ≤ v ∧ v < 256) ∧ (n ≠ 0 → ∃ t, rest = ':' :: t ∧ Lenient einval n t) := by
  constructor
  · rintro ⟨w', v', rest', h', hbyte, hnext⟩
    have hsame := (strtol_of_begins h').symm.trans (strtol_of_begins h)
    injection hsame with hvalue herrno hrest
    have hlong : saturate v' = v' := by
      unfold saturate
      omega
    have hlong' : saturate v = v := by
      rw [decide_eq_decide] at herrno
      by_contra hne
      exact herrno.2 hne hlong
    rw [← hlong', ← hvalue, hlong, ← hrest]
    exact ⟨hbyte, hnext⟩
  · rintro ⟨hbyte, hnext⟩
    exact ⟨w, v, rest, h, hbyte, hnext⟩

theorem bootifLoop_isSome {n : ℕ} : (bootifLoop einval n s).isSome = true ↔ Lenient einval n s := by
  induction n generalizing s with
  | zero => exact iff_of_true rfl trivial
  | succ n ih =>
      rcases begins_or einval s with ⟨w, v, rest, h⟩ | ⟨herrno, hnone⟩
      · rw [lenient_succ_iff h, bootifLoop, strtol_of_begins h]
        simp only [byte_iff]
        by_cases hbyte : 0 ≤ v ∧ v < 256
        · rw [if_neg (not_not.2 hbyte)]
          rcases Nat.eq_zero_or_pos n with rfl | hpos
          · simp [hbyte]
          · have hn : n ≠ 0 := by omega
            rw [if_neg hn]
            simp only [hbyte, true_and, hn, ne_eq, not_false_eq_true, true_imp_iff]
            split
            · next t =>
                rw [Option.isSome_map, ih]
                exact ⟨fun ht => ⟨t, rfl, ht⟩, fun ⟨t', heq, ht⟩ => (List.cons.inj heq).2 ▸ ht⟩
            · next hcolon =>
                exact iff_of_false (by decide) fun ⟨t, heq, _⟩ => hcolon t heq
        · rw [if_pos hbyte]
          exact iff_of_false (by decide) fun h => hbyte h.1
      · rw [bootifLoop, if_pos (.inl herrno)]
        exact iff_of_false (by decide) fun ⟨w, v, rest, h, _⟩ => hnone w v rest h

/-- Groups of one or two hexadecimal digits with colons between them, and their values. -/
def LinkLayer (n : ℕ) (s : Text) (bytes : List (BitVec 8)) : Prop :=
  ∃ groups : List Text, groups.length = n ∧
    (∀ g ∈ groups, (g.length = 1 ∨ g.length = 2) ∧ ∀ c ∈ g, isHex c = true) ∧
    s = [':'].intercalate groups ∧
    bytes = groups.map fun g => BitVec.ofNat 8 (numeral 16 g)

theorem numeral_lt {g : Text} (hlength : g.length = 1 ∨ g.length = 2)
    (hhex : ∀ c ∈ g, isHex c = true) : numeral 16 g < 256 := by
  have hdigit : ∀ c ∈ g, digitValue c < 16 := fun c hc => of_decide_eq_true (hhex c hc)
  match g, hlength with
  | [a], _ =>
      have ha := hdigit a List.mem_cons_self
      change 16 * 0 + digitValue a < 256
      omega
  | [a, b], _ =>
      have ha := hdigit a List.mem_cons_self
      have hb := hdigit b (List.mem_cons_of_mem _ List.mem_cons_self)
      change 16 * (16 * 0 + digitValue a) + digitValue b < 256
      omega

theorem strtol_group (einval : Bool) {g : Text} (hlength : g.length = 1 ∨ g.length = 2)
    (hhex : ∀ c ∈ g, isHex c = true) (hrest : rest = [] ∨ ∃ t, rest = ':' :: t) :
    strtol einval (g ++ rest) = { value := numeral 16 g, errno := false, rest := rest } := by
  have hne : g ≠ [] := by
    rintro rfl
    rcases hlength with h | h <;> nomatch h
  have hcolon : ∀ c, rest.head? = some c → c = ':' := by
    rintro c hc
    rcases hrest with rfl | ⟨t, rfl⟩
    · nomatch hc
    · exact (Option.some.inj hc).symm
  have hlt := numeral_lt hlength hhex
  have hlong : saturate (numeral 16 g) = numeral 16 g := by
    unfold saturate
    omega
  have hskip : skipPrefix ([] ++ (g ++ rest)) = g ++ rest := by
    rw [List.nil_append]
    refine skipPrefix_digits hne hhex fun x d t _ ht hx => ?_
    have hx' : x = ':' := hcolon x (congrArg List.head? ht)
    rcases hx with rfl | rfl <;> exact absurd hx' (by decide)
  have hrun := strtol_digits einval (n := numeral 16 g) (fun c hc => absurd hc List.not_mem_nil)
    (.inl rfl) (.inl rfl) hne hhex (fun c hc => hcolon c hc ▸ (by decide : isHex ':' = false)) hskip
    (by simp)
  rw [hlong, decide_eq_false (not_not.2 rfl)] at hrun
  exact hrun

theorem bootifLoop_groups (einval : Bool) {groups : List Text}
    (h : ∀ g ∈ groups, (g.length = 1 ∨ g.length = 2) ∧ ∀ c ∈ g, isHex c = true) :
    bootifLoop einval groups.length ([':'].intercalate groups)
      = some (groups.map fun g => BitVec.ofNat 8 (numeral 16 g)) := by
  induction groups with
  | nil => rfl
  | cons g groups ih =>
      obtain ⟨hlength, hhex⟩ := h g List.mem_cons_self
      have ih := ih fun g' hg' => h g' (List.mem_cons_of_mem _ hg')
      have hlt := numeral_lt hlength hhex
      have hbyte : ¬ (false = true ∨ 256 ≤ (BitVec.ofInt 64 (numeral 16 g : Int)).toNat) := by
        rintro (h | h)
        · nomatch h
        · rw [BitVec.toNat_ofInt] at h
          omega
      cases groups with
      | nil =>
          have hrun := strtol_group einval hlength hhex (.inl rfl)
          have htext : [':'].intercalate [g] = g ++ [] := by simp
          rw [htext, List.length_singleton, bootifLoop, hrun]
          simp only [if_neg hbyte, if_true]
          rw [BitVec.ofInt_natCast]
          rfl
      | cons g' groups =>
          have hcolon : ∃ t, ':' :: [':'].intercalate (g' :: groups) = ':' :: t := ⟨_, rfl⟩
          have hrun := strtol_group einval hlength hhex (.inr hcolon)
          have htext : [':'].intercalate (g :: g' :: groups)
              = g ++ ':' :: [':'].intercalate (g' :: groups) := by
            rw [List.intercalate_cons_cons, List.append_assoc, List.singleton_append]
          rw [htext, List.length_cons, bootifLoop, hrun]
          simp only [if_neg hbyte, List.length_cons, Nat.add_one_ne_zero, if_false]
          rw [List.length_cons] at ih
          rw [ih, BitVec.ofInt_natCast]
          rfl

/-- A text is read right if it is an address, or if it has no numbers to read. -/
theorem parseBootif_iff (einval : Bool) (s : Text) :
    (∀ bytes, parseBootif einval s = some bytes ↔ LinkLayer ethAlen s bytes) ↔
      (∃ bytes, LinkLayer ethAlen s bytes) ∨ ¬ Lenient einval ethAlen s := by
  have hread : ∀ bytes, LinkLayer ethAlen s bytes → parseBootif einval s = some bytes := by
    rintro bytes ⟨groups, hlength, hgroups, rfl, rfl⟩
    rw [parseBootif, ← hlength]
    exact bootifLoop_groups einval hgroups
  constructor
  · intro h
    by_cases hlenient : Lenient einval ethAlen s
    · obtain ⟨bytes, hbytes⟩ := Option.isSome_iff_exists.1 (bootifLoop_isSome.2 hlenient)
      exact .inl ⟨bytes, (h bytes).1 hbytes⟩
    · exact .inr hlenient
  · rintro (⟨bytes, hbytes⟩ | hlenient) bytes'
    · refine ⟨fun hparse => ?_, hread bytes'⟩
      rw [hread bytes hbytes] at hparse
      exact Option.some.inj hparse ▸ hbytes
    · refine ⟨fun hparse => ?_, hread bytes'⟩
      exact absurd (bootifLoop_isSome.1 (Option.isSome_iff_exists.2 ⟨bytes', hparse⟩)) hlenient

/-- Something behind the address. -/
theorem parseBootif_behind :
    ¬ ∀ (einval : Bool) (s : Text) (bytes : List (BitVec 8)),
      parseBootif einval s = some bytes ↔ LinkLayer ethAlen s bytes := by
  intro hall
  have hparse : parseBootif false "00:11:22:33:44:55-eth0"
      = some [0x00#8, 0x11#8, 0x22#8, 0x33#8, 0x44#8, 0x55#8] := by decide +kernel
  obtain ⟨groups, hlength, hgroups, htext, -⟩ := (hall _ _ _).1 hparse
  have hsplit : "00:11:22:33:44:55-eth0".toList.splitOn ':' = groups := by
    rw [htext]
    refine List.splitOn_intercalate ':' (fun g hg hcolon => ?_) ?_
    · exact absurd ((hgroups g hg).2 ':' hcolon) (by decide)
    · rintro rfl
      nomatch hlength
  have hlast := hgroups "55-eth0" (by
    rw [← hsplit]
    decide +kernel)
  revert hlast
  decide +kernel

end DebianInstaller.Netcfg
