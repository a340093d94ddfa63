import DebianInstaller.Text

/-!
# What parted_server reads

The conversions of `scanf` that `parted_server.c` uses on `infifo`, and
`iscan_line`. A text is what is still to be read; a conversion gives the value
and what is left after it, or nothing where `scanf` fails.
-/

namespace DebianInstaller.Partman

open Text

/-- `%ms`. -/
def scanWord (t : Text) : Option (Text × Text) :=
  let t := t.dropWhile isSpace
  let w := t.takeWhile fun c => !isSpace c
  if w.isEmpty then none else some (w, t.dropWhile fun c => !isSpace c)

def digitValue (c : Char) : Nat :=
  if c.isDigit then c.toNat - '0'.toNat else c.toLower.toNat - 'a'.toNat + 10

def isDigitOf (base : Nat) (c : Char) : Bool := c.isAlphanum && digitValue c < base

/-- `%lli`: the base is 16 after `0x`, 8 after `0`, and 10 otherwise. -/
def scanLongLong (t : Text) : Option (Int × Text) :=
  let t := t.dropWhile isSpace
  let (sign, t) : Int × Text :=
    match t with
    | '-' :: t => (-1, t)
    | '+' :: t => (1, t)
    | t => (1, t)
  let (base, t) :=
    match t with
    | '0' :: 'x' :: t => (16, t)
    | '0' :: 'X' :: t => (16, t)
    | '0' :: t => (8, '0' :: t)
    | t => (10, t)
  let ds := t.takeWhile (isDigitOf base)
  if ds.isEmpty then none
  else
    some (saturate (sign * ds.foldl (fun n c => base * n + digitValue c) 0),
      t.dropWhile (isDigitOf base))

/-- `%lli-%lli`. -/
def scanRange (t : Text) : Option ((Int × Int) × Text) := do
  let (start, t) ← scanLongLong t
  match t with
  | '-' :: t =>
      let (finish, t) ← scanLongLong t
      some ((start, finish), t)
  | _ => none

/-- `iscan_line`: the rest of a line without the blanks it begins with. -/
def iscanLine (expectLeadingNewline : Bool) : Text → Option (Text × Text)
  | [] => none
  | c :: t =>
      let t := if c = '\n' ∧ expectLeadingNewline then t else c :: t
      if t.isEmpty then none
      else
        match t.dropWhile fun c => isSpace c && c != '\n' with
        | [] => some ([], [])
        | '\n' :: t => some ([], t)
        | t => some (t.takeWhile (· != '\n'), t.dropWhile (· != '\n'))

theorem scanWord_append {w t : Text} (hw : w ≠ []) (hs : ∀ c ∈ w, isSpace c = false)
    (ht : ∀ c, t.head? = some c → isSpace c = true) : scanWord (w ++ t) = some (w, t) := by
  have htake : ∀ v : Text, (∀ c ∈ v, isSpace c = false) →
      (v ++ t).takeWhile (fun c => !isSpace c) = v ∧
      (v ++ t).dropWhile (fun c => !isSpace c) = t := by
    intro v hv
    induction v with
    | nil =>
        cases t with
        | nil => exact ⟨rfl, rfl⟩
        | cons c t => simp [ht c rfl]
    | cons c v ih =>
        have hc := hv c List.mem_cons_self
        have := ih fun d hd => hv d (List.mem_cons_of_mem _ hd)
        simp [hc, this.1, this.2]
  obtain ⟨h₁, h₂⟩ := htake w hs
  have hdrop : (w ++ t).dropWhile isSpace = w ++ t := by
    cases w with
    | nil => exact absurd rfl hw
    | cons c w => simp [hs c List.mem_cons_self]
  have hne : w.isEmpty = false := by simpa using hw
  simp [scanWord, hdrop, h₁, h₂, hne]

theorem scanWord_space {c : Char} (hc : isSpace c = true) (t : Text) :
    scanWord (c :: t) = scanWord t := by
  simp [scanWord, hc]

end DebianInstaller.Partman
