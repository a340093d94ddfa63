import DebianInstaller.Text
import DebianInstaller.Lib.Shares

/-!
# Partitioning recipes

`decode_recipe` and `expand_scheme` from `partman-auto/lib/recipes.sh`. A recipe
is a list of words; a `.` ends the description of a partition, whose first three
words are its minimal size, its priority and its maximal size in megabytes.
`expand_scheme` deals the free space out among the partitions, again and again
until nothing changes.

The arithmetic of the shell has 64 bits and wraps around; `longLong` stands wherever
the script computes. A number in a recipe stays as it is written until the script
computes with it, and a leading zero makes it octal in `$((...))` but not in
`[ ... ]`: of `0777` the one makes 511 and the other 777. What comes of such
numbers is not followed here; a recipe that has them is not decoded.
-/

namespace DebianInstaller.Partman

open Text

/-! ## Decoding -/

/-- `N+P%`. -/
def plusPercent (w : Text) : Option (Nat × Nat) :=
  let n := w.takeWhile (· ≠ '+')
  let rest := (w.dropWhile (· ≠ '+')).drop 1
  if isNumber n && isNumber rest.dropLast && rest.getLast? == some '%' then
    some (number n, number rest.dropLast)
  else none

/-- `P%`. -/
def percent (w : Text) : Option Nat :=
  if isNumber w.dropLast && w.getLast? == some '%' then some (number w.dropLast)
  else none

/-- A size as recipes write it: megabytes, a percentage of the memory, or the
sum of both. -/
def sizeWord (ram : Int) (w : Text) : Option Int :=
  if isNumber w then some (number w)
  else
    match plusPercent w with
    | some (n, p) => some (longLong (n + Int.tdiv (longLong (ram * p)) 100))
    | none => (percent w).map fun p => Int.tdiv (longLong (ram * p)) 100

/-- A number that the shell reads the same everywhere. -/
def plainNumber (w : Text) : Bool :=
  (w.length == 1 || w.head? != some '0') && number w < 2 ^ 63

/-- A size whose numbers are plain, or no size. -/
def plainSize (w : Text) : Bool :=
  (sizeWord 0 w).isNone || (w.splitOn '+').all fun n => plainNumber (n.filter Char.isDigit)

/-- A size that is larger than any storage device. -/
def noSize : Int := 2200000000

def decodeMin (ram : Int) (w : Text) : Int := (sizeWord ram w).getD noSize

def decodeFactor (ram min : Int) (w : Text) : Int :=
  let factor := (sizeWord ram w).getD min
  if factor < min then min else factor

def decodeMax (ram min : Int) (w : Text) : Int :=
  let max := if w = ['-', '1'] then -1 else (sizeWord ram w).getD min
  if max ≠ -1 ∧ max < min then min else max

/-- A line of `$scheme`: three numbers, the file system, and the rest. -/
structure Line where
  min : Int
  factor : Int
  max : Int
  fs : Text
  tail : List Text
  deriving DecidableEq, Repr

/-- A line as `decode_recipe` corrects it. -/
structure Partition extends Line where
  min_le_factor : min ≤ factor
  max_ok : max = -1 ∨ min ≤ max
  deriving DecidableEq

/-- What `decode_recipe` finds out about the machine: the memory, the file
system to use by default, descriptions from debconf, which lines are meant for
another kind of installation or disk label, and which partitions to reuse. -/
structure Machine where
  ram : Int
  defaultFilesystem : Text
  description : Text → Option Text
  excluded : Line → Bool
  reuse : List Text → List Text

/-- The file systems a recipe may ask for. -/
def recipeFilesystems : List Text :=
  ["ext2", "ext3", "ext4", "xfs", "jfs", "linux-swap", "fat16", "fat32", "hfs",
    "ufs"].map String.toList

def decodeFs (m : Machine) (w : Text) : Text :=
  if w ∈ recipeFilesystems then w
  else if w = "$default_filesystem" then m.defaultFilesystem
  else "ext2"

theorem decodeFactor_ge (ram min : Int) (w : Text) : min ≤ decodeFactor ram min w := by
  unfold decodeFactor
  simp only
  split <;> omega

theorem decodeMax_ok (ram min : Int) (w : Text) :
    decodeMax ram min w = -1 ∨ min ≤ decodeMax ram min w := by
  unfold decodeMax
  simp only
  split <;> omega

/-- Why a recipe is not decoded. -/
inductive Undecoded where
  /-- A partition has fewer than four words: a `shift` fails and the script ends. -/
  | shift
  /-- A size is written with a leading zero, or does not fit into 63 bits. -/
  | ambiguous
  deriving DecidableEq

/-- The words before a `.`. -/
def decodePartition (m : Machine) : List Text → Except Undecoded Partition
  | w₁ :: w₂ :: w₃ :: w₄ :: tail =>
      if plainSize w₁ && plainSize w₂ && plainSize w₃ then
        let min := decodeMin m.ram w₁
        .ok
          { min := min
            factor := decodeFactor m.ram min w₂
            max := decodeMax m.ram min w₃
            fs := decodeFs m w₄
            tail := tail
            min_le_factor := decodeFactor_ge m.ram min w₂
            max_ok := decodeMax_ok m.ram min w₃ }
      else .error .ambiguous
  | _ => .error .shift

/-- The variables of `decode_recipe`. -/
structure Decoding where
  name : Text
  scheme : List Partition := []
  line : List Text := []
  deriving DecidableEq

/-- The loop over the words of the recipe. -/
def decodeWords (m : Machine) (unnamed : Text) :
    List Text → Decoding → Except Undecoded Decoding
  | [], d => .ok d
  | word :: words, d =>
      if word = [':'] then
        decodeWords m unnamed words { d with name := joinWords d.line, line := [] }
      else if word = [':', ':'] then
        decodeWords m unnamed words
          { d with name := (m.description (joinWords d.line)).getD unnamed, line := [] }
      else if word = ['.'] then
        match decodePartition m d.line with
        | .error e => .error e
        | .ok p =>
            if m.excluded p.toLine then decodeWords m unnamed words { d with line := [] }
            else decodeWords m unnamed words
              { d with
                scheme := d.scheme ++ [{ p with tail := m.reuse p.tail }]
                line := [] }
      else decodeWords m unnamed words { d with line := d.line ++ [word] }

/-- `decode_recipe`. -/
def decodeRecipe (m : Machine) (unnamed : Text) (words : List Text) :
    Except Undecoded Decoding :=
  decodeWords m unnamed words { name := unnamed }

/-! ## Expanding -/

/-- `min_size`. -/
def minSize (scheme : List Line) : Int :=
  scheme.foldl (fun size l => longLong (size + l.min)) 0

/-- `factor_sum`. -/
def factorSum (scheme : List Line) : Int :=
  scheme.foldl (fun factor l => longLong (factor + l.factor)) 0

/-- `filter_reused`, the part that is kept. -/
def filterReused (scheme : List Line) : List Line :=
  scheme.filter fun l =>
    !(l.fs :: l.tail).any fun w => decide ("$reuse\x7b" <:+: w)

/-- The file systems `expand_scheme` lets pass. -/
def expandFilesystems : List Text :=
  ["ext2", "ext3", "ext4", "linux-swap", "fat16", "fat32", "hfs"].map String.toList

/-- The factors, made into percentages. -/
def scale (scheme : List Line) : List Line :=
  let diff := longLong (factorSum scheme - minSize scheme)
  let factsum := if diff = 0 then 100 else diff
  scheme.map fun l =>
    { l with
      factor := Int.tdiv (longLong (longLong (l.factor - l.min) * 100)) factsum
      fs := if l.fs ∈ expandFilesystems then l.fs else "ext2" }

/-- One line of one round. -/
def grow (factsum unallocated : Int) (l : Line) : Line :=
  let newmin := if factsum = 0 then l.min
    else longLong (l.min + Int.tdiv (longLong (unallocated * l.factor)) factsum)
  let fact := if factsum = 0 ∧ l.factor < 0 then 0 else l.factor
  if l.max ≠ -1 ∧ l.max < newmin then { l with min := l.max, factor := 0 }
  else if newmin < l.min then { l with factor := 0, max := l.min }
  else { l with min := newmin, factor := fact }

/-- One round of the loop. -/
def growAll (freeSize : Int) (scheme : List Line) : List Line :=
  let unallocated := longLong (freeSize - minSize scheme)
  scheme.map (grow (factorSum scheme) (if unallocated < 0 then 0 else unallocated))

/-- `expand_scheme`. -/
def expandScheme (freeSize : Int) (scheme : List Line) (fuel : Nat) : Option (List Line) :=
  Shares.untilStable (growAll freeSize) fuel (scale (filterReused scheme))

end DebianInstaller.Partman
