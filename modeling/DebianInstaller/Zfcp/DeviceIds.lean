import DebianInstaller.Netcfg.Bootif

/-!
# Device ids

`s390-dev.c` writes the id of a LUN with `asprintf` and reads it with `sscanf`. A number that
`sscanf` reads may stand behind blanks and a sign and behind `0x`, and the parser takes `0x` away
from a WWPN before `sscanf` gets it. So besides the texts of the form that the comment gives
there are others that are read: those in which a number has a blank or a sign, or `0x` twice, or
`0x` and no digits. On the other side `%8x` stops after eight characters, and a numeral that is
longer, with zeros before it, is refused.
-/

namespace DebianInstaller.Zfcp

open Text
open Netcfg (digitValue numeral isHex)

variable {digits rest t zero : Text} {v : ℤ} {width : ℕ}

/-! ## sscanf -/

/-- What a format consists of, as far as it is used here. -/
inductive Directive where
  | hex (width : ℕ)
  | blanks
  | char (c : Char)
  | any

def scanSign : Text → Text × Text
  | '-' :: t => (['-'], t)
  | '+' :: t => (['+'], t)
  | t => ([], t)

def scanPrefix : Text → Text × Text
  | '0' :: x :: t => if x = 'x' ∨ x = 'X' then (['0', x], t) else ([], '0' :: x :: t)
  | t => ([], t)

/-- `%x` with a width, which does not count the blanks. If `0x` is there and no digit behind it,
that is zero in some C libraries and an error in others. -/
def scanHex (lone : Bool) (width : ℕ) (t : Text) : Option (ℤ × Text) :=
  let (sign, t) := scanSign (t.dropWhile isSpace)
  let (zero, t) := scanPrefix t
  let digits := (t.take (width - sign.length - zero.length)).takeWhile isHex
  if digits = [] ∧ (zero = [] ∨ lone = false) then none
  else some ((if sign = ['-'] then -1 else 1) * numeral 16 digits, t.drop digits.length)

/-- What is assigned until the text is at its end or does not fit. The length of the list is what
`sscanf` returns. -/
def sscanf (lone : Bool) : List Directive → Text → List ℤ
  | [], _ => []
  | .hex width :: format, t =>
      match scanHex lone width t with
      | none => []
      | some (v, t) => v :: sscanf lone format t
  | .blanks :: format, t => sscanf lone format (t.dropWhile isSpace)
  | .char _ :: _, [] => []
  | .char c :: format, d :: t => if d = c then sscanf lone format t else []
  | .any :: _, [] => []
  | .any :: format, d :: t => d.toNat :: sscanf lone format t

/-! ## s390-dev.c -/

inductive Result where
  | exitInvalidId
  | resultInvalidHexnum
  | resultInvalidDevidFmt
  | resultInvalidCssidRange
  | resultInvalidSsidRange
  | resultInvalidDevnoRange
  | resultInvalidLunFmt
  | resultInvalidWwpnLen
  | resultInvalidWwpn
  | resultInvalidLunLen
  | resultInvalidLun
  deriving DecidableEq

structure CcwDevid where
  cssid : BitVec 8
  ssid : BitVec 8
  devno : BitVec 16
  deriving DecidableEq

structure ZfcpLunDevid where
  fcpDev : CcwDevid
  wwpn : BitVec 64
  lun : BitVec 64
  deriving DecidableEq

def cssidMax : ℕ := 0xff

def ssidMax : ℕ := 0xf

def devnoMax : ℕ := 0xffff

/-- The end of `ccw_parse_devid`. -/
def checkRanges (cssid ssid devno : BitVec 32) : Except Result CcwDevid :=
  if cssidMax < cssid.toNat then .error .resultInvalidCssidRange
  else if ssidMax < ssid.toNat then .error .resultInvalidSsidRange
  else if devnoMax < devno.toNat then .error .resultInvalidDevnoRange
  else .ok ⟨cssid.setWidth 8, ssid.setWidth 8, devno.setWidth 16⟩

/-- `"%8x %c"` -/
def devnoFormat : List Directive := [.hex 8, .blanks, .any]

/-- `"%8x.%8x.%8x %c"` -/
def devidFormat : List Directive :=
  [.hex 8, .char '.', .hex 8, .char '.', .hex 8, .blanks, .any]

/-- `ccw_parse_devid` -/
def ccwParseDevid (lone : Bool) (id : Text) : Except Result CcwDevid :=
  match sscanf lone devnoFormat id with
  | [devno] =>
      if sameIgnoringCase id ['0', 'x'] = true then .error .resultInvalidHexnum
      else checkRanges 0 0 (BitVec.ofInt 32 devno)
  | _ =>
      match sscanf lone devidFormat id with
      | [cssid, ssid, devno] =>
          checkRanges (BitVec.ofInt 32 cssid) (BitVec.ofInt 32 ssid) (BitVec.ofInt 32 devno)
      | _ => .error .resultInvalidDevidFmt

/-- What is before the first colon and what is behind it. -/
def cutColon : Text → Option (Text × Text)
  | [] => none
  | c :: t => if c = ':' then some ([], t) else (cutColon t).map fun (a, b) => (c :: a, b)

/-- `"%16" SCNx64 " %c"` -/
def wideFormat : List Directive := [.hex 16, .blanks, .any]

/-- A WWPN or a LUN, where `len` is the error for a length that is not 16. -/
def parseWide (lone : Bool) (len invalid : Result) (curr : Text) : Except Result (BitVec 64) :=
  let curr := (scanPrefix curr).2
  if curr.length ≠ 16 then .error len
  else
    match sscanf lone wideFormat curr with
    | [v] => .ok (BitVec.ofInt 64 v)
    | _ => .error invalid

/-- `zfcp_lun_parse_devid` -/
def zfcpLunParseDevid (lone : Bool) (id : Text) : Except Result ZfcpLunDevid :=
  match cutColon id with
  | none => .error .resultInvalidLunFmt
  | some (copy, curr) =>
      match ccwParseDevid lone copy with
      -- The first value of `result` is kept.
      | .error _ => .error .exitInvalidId
      | .ok fcpDev =>
          match cutColon curr with
          | none => .error .resultInvalidLunFmt
          | some (wwpn, lun) => do
              let wwpn ← parseWide lone .resultInvalidWwpnLen .resultInvalidWwpn wwpn
              let lun ← parseWide lone .resultInvalidLunLen .resultInvalidLun lun
              pure ⟨fcpDev, wwpn, lun⟩

/-- `%0nx` -/
def padded (n v : ℕ) : Text := (Nat.toDigits 16 v).leftpad n '0'

/-- `ccw_devid_to_str` -/
def ccwDevidToStr (devid : CcwDevid) : Text :=
  Nat.toDigits 16 devid.cssid.toNat ++
    '.' :: (Nat.toDigits 16 devid.ssid.toNat ++ '.' :: padded 4 devid.devno.toNat)

/-- `zfcp_lun_to_str` -/
def zfcpLunToStr (wwpn lun : BitVec 64) : Text :=
  '0' :: 'x' :: (padded 16 wwpn.toNat ++ ':' :: '0' :: 'x' :: padded 16 lun.toNat)

/-- `zfcp_lun_devid_to_str` -/
def zfcpLunDevidToStr (devid : ZfcpLunDevid) : Text :=
  ccwDevidToStr devid.fcpDev ++ ':' :: zfcpLunToStr devid.wwpn devid.lun

/-! ## What sscanf reads -/

def Blank (t : Text) : Prop := ∀ c ∈ t, isSpace c = true

def IsPrefix (zero : Text) : Prop := zero = [] ∨ zero = ['0', 'x'] ∨ zero = ['0', 'X']

def IsSign (sign : Text) : Prop := sign = [] ∨ sign = ['+'] ∨ sign = ['-']

/-- A number as it is for `%x`. -/
inductive Number (lone : Bool) : Text → ℤ → Prop where
  | mk {sign zero digits : Text} (hsign : IsSign sign) (hzero : IsPrefix zero)
      (hdigits : ∀ c ∈ digits, isHex c = true) (hsome : digits = [] → zero ≠ [] ∧ lone = true) :
      Number lone (sign ++ (zero ++ digits))
        ((if sign = ['-'] then -1 else 1) * numeral 16 digits)

/-- No character of a number, nor the `x` of a prefix. -/
def Ends (t : Text) : Prop := ∀ c, t.head? = some c → isHex c = false ∧ c ≠ 'x' ∧ c ≠ 'X'

variable {lone : Bool}

theorem scanSign_eq {sign : Text} (hsign : IsSign sign)
    (ht : ∀ c, t.head? = some c → c ≠ '+' ∧ c ≠ '-') : scanSign (sign ++ t) = (sign, t) := by
  rcases hsign with rfl | rfl | rfl
  · cases t with
    | nil => rfl
    | cons c t =>
        obtain ⟨hplus, hminus⟩ := ht c rfl
        rw [List.nil_append]
        unfold scanSign
        split
        · next heq => exact absurd (List.cons.inj heq).1 hminus
        · next heq => exact absurd (List.cons.inj heq).1 hplus
        · rfl
  · rfl
  · rfl

theorem scanSign_spec (t : Text) :
    IsSign (scanSign t).1 ∧ t = (scanSign t).1 ++ (scanSign t).2 := by
  unfold scanSign
  split
  · exact ⟨.inr (.inr rfl), rfl⟩
  · exact ⟨.inr (.inl rfl), rfl⟩
  · exact ⟨.inl rfl, rfl⟩

theorem scanPrefix_spec (t : Text) :
    IsPrefix (scanPrefix t).1 ∧ t = (scanPrefix t).1 ++ (scanPrefix t).2 := by
  unfold scanPrefix
  split
  · next x t =>
      split
      · next h =>
          rcases h with rfl | rfl
          · exact ⟨.inr (.inl rfl), rfl⟩
          · exact ⟨.inr (.inr rfl), rfl⟩
      · exact ⟨.inl rfl, rfl⟩
  · exact ⟨.inl rfl, rfl⟩

theorem scanPrefix_append (hzero : IsPrefix zero) (hne : zero ≠ []) :
    scanPrefix (zero ++ t) = (zero, t) := by
  rcases hzero with rfl | rfl | rfl
  · exact absurd rfl hne
  · rfl
  · rfl

theorem scanPrefix_none (h : ∀ x u, t = '0' :: x :: u → x ≠ 'x' ∧ x ≠ 'X') :
    scanPrefix t = ([], t) := by
  unfold scanPrefix
  split
  · next x u =>
      obtain ⟨hx, hX⟩ := h x u rfl
      rw [if_neg (by simp [hx, hX])]
  · rfl

theorem hex_ne {c : Char} (h : isHex c = true) :
    (c ≠ '+' ∧ c ≠ '-') ∧ (c ≠ 'x' ∧ c ≠ 'X') ∧ isSpace c = false := by
  refine ⟨⟨?_, ?_⟩, ⟨?_, ?_⟩, ?_⟩
  · rintro rfl
    exact absurd h (by decide)
  · rintro rfl
    exact absurd h (by decide)
  · rintro rfl
    exact absurd h (by decide)
  · rintro rfl
    exact absurd h (by decide)
  · by_contra hspace
    rw [Netcfg.isHex_of_isSpace (Bool.eq_true_of_not_eq_false hspace)] at h
    exact absurd h (by decide)

theorem head_number (rest : Text) (hzero : IsPrefix zero) (hdigits : ∀ c ∈ digits, isHex c = true)
    (hsome : digits = [] → zero ≠ []) :
    ∃ c t, zero ++ (digits ++ rest) = c :: t ∧ isHex c = true := by
  rcases hzero with rfl | rfl | rfl
  · cases digits with
    | nil => exact absurd rfl (hsome rfl)
    | cons d digits => exact ⟨d, digits ++ rest, rfl, hdigits d List.mem_cons_self⟩
  · exact ⟨'0', _, rfl, by decide⟩
  · exact ⟨'0', _, rfl, by decide⟩

theorem scanPrefix_number (hzero : IsPrefix zero) (hdigits : ∀ c ∈ digits, isHex c = true)
    (hsome : digits = [] → zero ≠ []) (hrest : Ends rest) :
    scanPrefix (zero ++ (digits ++ rest)) = (zero, digits ++ rest) := by
  by_cases hne : zero = []
  · subst hne
    refine scanPrefix_none fun x u heq => ?_
    match digits with
    | [] => exact absurd rfl (hsome rfl)
    | [d] =>
        have hcons : rest = x :: u := (List.cons.inj heq).2
        exact (hrest x (congrArg List.head? hcons)).2
    | d :: e :: digits =>
        have hx : e = x := (List.cons.inj (List.cons.inj heq).2).1
        exact hx ▸ (hex_ne (hdigits e (by simp))).2.1
  · exact scanPrefix_append hzero hne

theorem takeWhile_digits {room : ℕ} (hdigits : ∀ c ∈ digits, isHex c = true) (hrest : Ends rest)
    (hroom : digits.length ≤ room) : ((digits ++ rest).take room).takeWhile isHex = digits := by
  have htake : (digits ++ rest).take room = digits ++ rest.take (room - digits.length) := by
    rw [List.take_append, List.take_of_length_le hroom]
  have hnone : (rest.take (room - digits.length)).takeWhile isHex = [] := by
    refine (Netcfg.dropWhile_head fun c hc => ?_).1
    cases rest with
    | nil => simp at hc
    | cons d rest =>
        cases hk : room - digits.length with
        | zero =>
            rw [hk] at hc
            cases hc
        | succ k =>
            rw [hk] at hc
            exact (hrest c hc).1
  rw [htake, List.takeWhile_append_of_pos hdigits, hnone, List.append_nil]

theorem scanHex_number {blanks w : Text} (hblanks : Blank blanks) (hw : Number lone w v)
    (hlength : w.length ≤ width) (hrest : Ends rest) :
    scanHex lone width (blanks ++ (w ++ rest)) = some (v, rest) := by
  obtain ⟨hsign, hzero, hdigits, hsome⟩ := hw
  next sign zero digits =>
  obtain ⟨c, t, hct, hc⟩ := head_number rest hzero hdigits fun h => (hsome h).1
  have hdrop : (blanks ++ ((sign ++ (zero ++ digits)) ++ rest)).dropWhile isSpace
      = sign ++ (zero ++ (digits ++ rest)) := by
    rw [List.dropWhile_append_of_pos hblanks, List.append_assoc, List.append_assoc]
    refine (Netcfg.dropWhile_head fun d hd => ?_).2
    rcases hsign with rfl | rfl | rfl
    · rw [List.nil_append, hct] at hd
      exact Option.some.inj hd ▸ (hex_ne hc).2.2
    · exact Option.some.inj hd ▸ rfl
    · exact Option.some.inj hd ▸ rfl
  have hscan : scanSign (sign ++ (zero ++ (digits ++ rest))) =
      (sign, zero ++ (digits ++ rest)) := by
    refine scanSign_eq hsign fun d hd => ?_
    rw [hct] at hd
    exact Option.some.inj hd ▸ (hex_ne hc).1
  have hroom : digits.length ≤ width - sign.length - zero.length := by
    simp only [List.length_append] at hlength
    omega
  have hnot : ¬ (digits = [] ∧ (zero = [] ∨ lone = false)) := by
    rintro ⟨hnil, h | h⟩
    · exact (hsome hnil).1 h
    · rw [(hsome hnil).2] at h
      exact absurd h (by decide)
  unfold scanHex
  simp only [hdrop, hscan, scanPrefix_number hzero hdigits (fun h => (hsome h).1) hrest,
    takeWhile_digits hdigits hrest hroom, if_neg hnot, List.drop_left]

theorem number_of_scanHex (hwidth : 3 ≤ width) (h : scanHex lone width t = some (v, rest)) :
    ∃ blanks w, t = blanks ++ (w ++ rest) ∧ Blank blanks ∧ Number lone w v ∧
      w.length ≤ width := by
  obtain ⟨hsign, ht⟩ := scanSign_spec (t.dropWhile isSpace)
  obtain ⟨hzero, ht'⟩ := scanPrefix_spec (scanSign (t.dropWhile isSpace)).2
  unfold scanHex at h
  simp only [] at h
  generalize scanSign (t.dropWhile isSpace) = s at h hsign ht hzero ht'
  generalize scanPrefix s.2 = p at h hzero ht'
  generalize hd : (p.2.take (width - s.1.length - p.1.length)).takeWhile isHex = digits at h
  split at h
  · cases h
  · next hnot =>
      obtain ⟨hv, hrest⟩ := Prod.mk.inj (Option.some.inj h)
      have hdigits : digits <+: p.2 :=
        hd ▸ (List.takeWhile_prefix _).trans (List.take_prefix _ _)
      have hlength : digits.length ≤ width - s.1.length - p.1.length := by
        rw [← hd]
        exact (List.takeWhile_prefix _).length_le.trans (List.length_take_le _ _)
      have hshort : s.1.length ≤ 1 ∧ p.1.length ≤ 2 := by
        constructor
        · rcases hsign with h | h | h <;> rw [h] <;> decide
        · rcases hzero with h | h | h <;> rw [h] <;> decide
      have hall : ∀ c ∈ digits, isHex c = true := fun c hc =>
        List.mem_takeWhile_imp (hd ▸ hc)
      have hp2 : p.2 = digits ++ rest := by
        obtain ⟨u, hu⟩ := hdigits
        rw [← hrest, ← hu, List.drop_left]
      refine ⟨t.takeWhile isSpace, s.1 ++ (p.1 ++ digits), ?_, fun c hc =>
        List.mem_takeWhile_imp hc, ?_, ?_⟩
      · rw [List.append_assoc, List.append_assoc, ← hp2, ← ht', ← ht,
          List.takeWhile_append_dropWhile]
      · rw [← hv]
        refine .mk hsign hzero hall fun hnil => ?_
        by_contra hcon
        refine hnot ⟨hnil, ?_⟩
        by_cases hz : p.1 = []
        · exact .inl hz
        · exact .inr (Bool.eq_false_of_not_eq_true fun hl => hcon ⟨hz, hl⟩)
      · simp only [List.length_append]
        omega

end DebianInstaller.Zfcp
