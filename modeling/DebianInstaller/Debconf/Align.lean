import DebianInstaller.Debconf.Strutl
import Mathlib.Algebra.Ring.Int.Defs

/-!
# Columns of choices

`stralign` sets the cells of some lines in columns. It goes over the lines three times: for
the widths of the columns, for the sizes of the new strings, and to write these. Widths are
columns on the screen and sizes are bytes, and all of this is done in `unsigned int`, with a
mark in front of a cell that the first pass leaves out and the second one counts.

The columns are right. The size of a column has room for the padding of each of its cells,
and the mark only adds to it. But the last cell of a line is in no column: the second pass
counts its own bytes, while the third one pads it, if it is marked, up to the widest line.
What the line has in bytes beyond its columns has then been counted for no line that is
long enough.
-/

namespace DebianInstaller.Debconf

open Text

variable {before cell line : Text} {cs : List Text} {j n width : Nat} {α : Type}

/-! ## Characters on the screen -/

/-- What `mbtowc` and `wcwidth` know about characters: the bytes that one takes, and its
columns, which are `-1` if it cannot be printed. -/
structure Locale where
  size : Char → Nat
  width : Char → Int
  blank : size ' ' = 1 ∧ width ' ' = 1
  mark : ∀ c, c = '\x0e' ∨ c = '\x0f' → size c = 1 ∧ width c ≤ 1

/-- `STRALIGN_ALIGN_CENTER`. -/
def alignCenter : Char := '\x0e'

/-- `STRALIGN_ALIGN_RIGHT`. -/
def alignRight : Char := '\x0f'

/-- What is left in an `unsigned int`. -/
def unsignedInt (i : Int) : Nat := (i % 4294967296).toNat

/-- What is left in a `size_t`. -/
def sizeT (i : Int) : Nat := (i % 18446744073709551616).toNat

/-- `strlen`. -/
def Locale.strlen (loc : Locale) (s : Text) : Nat := (s.map loc.size).sum

/-- The widths of the characters, added up. -/
def Locale.columns (loc : Locale) (s : Text) : Int := (s.map loc.width).sum

/-- `strwidth`. -/
def Locale.strwidth (loc : Locale) (s : Text) : Nat := sizeT (loc.columns s)

/-- `strpad`, unless its `int` does not come up to the width. -/
def Locale.strpad (loc : Locale) (what : Text) (maxsize : Nat) : Option Text :=
  if maxsize < loc.strwidth what then some what
  else if intMax < maxsize then none
  else some (what ++ List.replicate (maxsize - loc.strwidth what) ' ')

/-! ## The measures -/

/-- The cells of a line. -/
def cells (line : Text) : List Text := line.splitOnP fun c => c == '\t'

/-- A cell without its mark. -/
def unmark : Text → Text
  | [] => []
  | c :: t => if c = alignCenter ∨ c = alignRight then t else c :: t

/-- The cells of a column that are not the last ones of their lines. -/
def columnCells (lines : List Text) (j : Nat) : List Text :=
  lines.filterMap fun line => (cells line).dropLast[j]?

/-- `column_widths[j]`. -/
def columnWidth (loc : Locale) (lines : List Text) (j : Nat) : Nat :=
  (columnCells lines j).foldl
    (fun w cell => unsignedInt (max w (loc.strwidth (unmark cell)) : Nat)) 0

/-- The bytes of a cell with one more for each column that it is padded with. -/
def paddedSize (loc : Locale) (lines : List Text) (j : Nat) (cell : Text) : Nat :=
  unsignedInt (unsignedInt (loc.strlen cell) + columnWidth loc lines j -
    unsignedInt (loc.strwidth cell))

/-- `column_sizes[j]`. -/
def columnSize (loc : Locale) (lines : List Text) (j : Nat) : Nat :=
  (columnCells lines j).foldl (fun s cell => max s (paddedSize loc lines j cell)) 0

/-- What the columns of a line take, each with the two blanks behind it, and its last cell. -/
def overCells (column : Nat → Nat) (last : Text → Nat) : Nat → List Text → Nat
  | _, [] => 0
  | _, [cell] => last cell
  | j, _ :: cell :: rest => column j + 2 + overCells column last (j + 1) (cell :: rest)

/-- `line_width`. -/
def lineWidth (loc : Locale) (lines : List Text) (line : Text) : Nat :=
  unsignedInt (overCells (columnWidth loc lines)
    (fun cell => unsignedInt (loc.strwidth (unmark cell))) 0 (cells line))

/-- `max_width`. -/
def maxWidth (loc : Locale) (lines : List Text) : Nat :=
  lines.foldl (fun w line => max w (lineWidth loc lines line)) 0

/-- `line_size`. -/
def lineSize (loc : Locale) (lines : List Text) (line : Text) : Nat :=
  sizeT (overCells (columnSize loc lines) (fun cell => unsignedInt (loc.strlen cell)) 0
    (cells line))

/-- `max_size`. -/
def maxSize (loc : Locale) (lines : List Text) : Nat :=
  lines.foldl (fun s line => max s (lineSize loc lines line)) 0

/-! ## The new strings -/

/-- A string is written behind another one, if both end within `max_size + 1` bytes. -/
def Locale.put (loc : Locale) (room : Nat) (before s : Text) : Option Text :=
  if loc.strlen (before ++ s) ≤ room then some s else none

/-- `left_pad`. -/
def leftPad (loc : Locale) (width : Nat) (cell : Text) : Nat :=
  if cell.head? = some alignCenter then
    unsignedInt (width - unsignedInt (loc.strwidth (unmark cell))) / 2
  else if cell.head? = some alignRight then
    unsignedInt (width - unsignedInt (loc.strwidth (unmark cell)))
  else 0

/-- A cell and the padding to its left. -/
def writeCell (loc : Locale) (room : Nat) (before : Text) (width : Nat) (cell : Text) :
    Option Text :=
  (loc.strpad [] (leftPad loc width cell)).bind fun s =>
    (loc.put room before s).bind fun s => loc.put room before (s ++ unmark cell)

/-- A cell that is not the last one, up to the next one. -/
def writeColumn (loc : Locale) (room : Nat) (before : Text) (width : Nat) (cell : Text) :
    Option Text :=
  (writeCell loc room before width cell).bind fun s =>
    (loc.strpad s width).bind fun s =>
      (loc.put room before s).bind fun s => loc.put room before (s ++ "  ")

/-- The cells of a line from one on: what is written for each. -/
def alignCells (loc : Locale) (lines : List Text) : Nat → Text → List Text → Option (List Text)
  | _, _, [] => some []
  | _, before, [cell] =>
      (writeCell loc (maxSize loc lines) before
        (unsignedInt (sizeT (maxWidth loc lines - loc.strwidth before))) cell).map fun s => [s]
  | j, before, cell :: next :: rest =>
      (writeColumn loc (maxSize loc lines) before (columnWidth loc lines j) cell).bind fun s =>
        (alignCells loc lines (j + 1) (before ++ s) (next :: rest)).map fun ss => s :: ss

/-- The loop over the lines. -/
def alignLines (loc : Locale) (lines : List Text) : List Text → Option (List (List Text))
  | [] => some []
  | line :: rest =>
      (alignCells loc lines 0 [] (cells line)).bind fun ss =>
        (alignLines loc lines rest).map fun out => ss :: out

/-- `stralign`: the new strings, cell by cell, unless one is written outside its buffer. -/
def stralign (loc : Locale) (lines : List Text) : Option (List (List Text)) :=
  alignLines loc lines lines

/-! ## What the lines take -/

/-- The largest of some numbers. -/
def largest (ns : List Nat) : Nat := ns.foldr max 0

/-- The columns of a cell. -/
def cellWidth (loc : Locale) (cell : Text) : Nat := (loc.columns (unmark cell)).toNat

/-- The columns of the widest cell of a column. -/
def fieldWidth (loc : Locale) (lines : List Text) (j : Nat) : Nat :=
  largest ((columnCells lines j).map (cellWidth loc))

/-- The bytes of a cell of a column that is padded. -/
def cellSize (loc : Locale) (lines : List Text) (j : Nat) (cell : Text) : Nat :=
  (loc.strlen cell + fieldWidth loc lines j - loc.columns cell).toNat

/-- The bytes that a column may need. -/
def fieldSize (loc : Locale) (lines : List Text) (j : Nat) : Nat :=
  largest ((columnCells lines j).map (cellSize loc lines j))

/-- The columns of a line. -/
def lineColumns (loc : Locale) (lines : List Text) (line : Text) : Nat :=
  overCells (fieldWidth loc lines) (cellWidth loc) 0 (cells line)

/-- The columns of the widest line. -/
def widest (loc : Locale) (lines : List Text) : Nat :=
  largest (lines.map (lineColumns loc lines))

/-- The bytes that a line may need, where its last cell is as it is. -/
def lineBytes (loc : Locale) (lines : List Text) (line : Text) : Nat :=
  overCells (fieldSize loc lines) loc.strlen 0 (cells line)

/-- The bytes of the largest line. -/
def room (loc : Locale) (lines : List Text) : Nat :=
  largest (lines.map (lineBytes loc lines))

/-- All cells have widths, and no line takes more than `INT_MAX`. -/
structure Displayed (loc : Locale) (lines : List Text) : Prop where
  width : ∀ line ∈ lines, ∀ cell ∈ cells line, 0 ≤ loc.columns (unmark cell)
  columns : widest loc lines ≤ intMax
  bytes : room loc lines ≤ intMax

/-- The bytes that some cells have beyond their columns. -/
def excess (loc : Locale) (cs : List Text) : Int :=
  (cs.map fun cell => (loc.strlen (unmark cell) : Int) - loc.columns (unmark cell)).sum

/-- The mark of the last cell. -/
def endMark (cs : List Text) : Option Char :=
  (cs.getLast?.bind List.head?).filter fun c => c = alignCenter ∨ c = alignRight

/-- The columns up to the end of the last cell: it is set at the end of the widest line, or
half way there. -/
def reach (loc : Locale) (lines : List Text) (line : Text) : Nat :=
  if endMark (cells line) = some alignCenter then
    lineColumns loc lines line + (widest loc lines - lineColumns loc lines line) / 2
  else if endMark (cells line) = some alignRight then widest loc lines
  else lineColumns loc lines line

/-- The lines that are padded to the widest one have the bytes for it. -/
def EndsFit (loc : Locale) (lines : List Text) : Prop :=
  ∀ line ∈ lines, endMark (cells line) ≠ none →
    excess loc (cells line) + reach loc lines line ≤ room loc lines

/-- Some blanks. -/
def blanks (n : Nat) : Text := List.replicate n ' '

/-- The blanks to the left of a cell. -/
def cellPad (loc : Locale) (width : Nat) (cell : Text) : Nat :=
  if cell.head? = some alignCenter then (width - cellWidth loc cell) / 2
  else if cell.head? = some alignRight then width - cellWidth loc cell
  else 0

/-- A cell in its place. -/
def setCell (loc : Locale) (width : Nat) (cell : Text) : Text :=
  blanks (cellPad loc width cell) ++ unmark cell

/-- A cell up to the next one. -/
def setColumn (loc : Locale) (width : Nat) (cell : Text) : Text :=
  setCell loc width cell ++
    blanks (width - (cellPad loc width cell + cellWidth loc cell)) ++ "  "

/-- The cells of a line that starts at some column of the screen. -/
def laidOut (loc : Locale) (lines : List Text) : Nat → Nat → List Text → List Text
  | _, _, [] => []
  | _, start, [cell] => [setCell loc (widest loc lines - start) cell]
  | j, start, cell :: next :: rest =>
      setColumn loc (fieldWidth loc lines j) cell ::
        laidOut loc lines (j + 1) (start + fieldWidth loc lines j + 2) (next :: rest)

/-- The column on the screen where a cell starts. -/
def startColumn (loc : Locale) (written : List Text) (j : Nat) : Int :=
  loc.columns (written.take j).flatten

/-- In all lines the cells of a column start in the same place. -/
structure InColumns (loc : Locale) (lines : List Text) (out : List (List Text)) : Prop where
  length : out.length = lines.length
  start : ∀ a ∈ lines.zip out, ∀ b ∈ lines.zip out, ∀ j, j + 1 < (cells a.1).length →
    j + 1 < (cells b.1).length → startColumn loc a.2 j = startColumn loc b.2 j

/-! ## Nothing wraps -/

theorem le_largest {ns : List Nat} (h : n ∈ ns) : n ≤ largest ns := by
  induction ns with
  | nil => cases h
  | cons m ns ih =>
      rcases List.mem_cons.mp h with rfl | h
      · exact Nat.le_max_left _ _
      · exact Nat.le_trans (ih h) (Nat.le_max_right _ _)

theorem unsignedInt_of_le (h : n ≤ intMax) : unsignedInt n = n := by
  unfold unsignedInt
  unfold intMax at h
  omega

theorem foldl_max_eq (f : α → Nat) (xs : List α) (m : Nat) :
    xs.foldl (fun m x => max m (f x)) m = max m (largest (xs.map f)) := by
  induction xs generalizing m with
  | nil => exact (Nat.max_zero m).symm
  | cons x xs ih =>
      rw [List.foldl_cons, ih, Nat.max_assoc]
      rfl

theorem foldl_max_zero (f : α → Nat) (xs : List α) :
    xs.foldl (fun m x => max m (f x)) 0 = largest (xs.map f) := by
  rw [foldl_max_eq, Nat.zero_max]

theorem foldl_unsignedInt {f : α → Nat} {xs : List α} (h : ∀ x ∈ xs, f x ≤ intMax) {m : Nat}
    (hm : m ≤ intMax) :
    xs.foldl (fun m x => unsignedInt (max m (f x) : Nat)) m =
      xs.foldl (fun m x => max m (f x)) m := by
  induction xs generalizing m with
  | nil => rfl
  | cons x xs ih =>
      have hx : max m (f x) ≤ intMax := Nat.max_le.mpr ⟨hm, h x List.mem_cons_self⟩
      rw [List.foldl_cons, List.foldl_cons, unsignedInt_of_le hx]
      exact ih (fun y hy => h y (List.mem_cons_of_mem x hy)) hx

theorem column_le_overCells {f : Nat → Nat} {g : Text → Nat} {cs : List Text} {j k : Nat}
    (h : k + 1 < cs.length) : f (j + k) ≤ overCells f g j cs := by
  induction cs generalizing j k with
  | nil => cases h
  | cons c cs ih =>
      cases cs with
      | nil => cases Nat.lt_of_succ_lt_succ h
      | cons d cs =>
          rw [overCells]
          cases k with
          | zero =>
              rw [Nat.add_zero]
              omega
          | succ k =>
              have := ih (j := j + 1) (k := k) (Nat.lt_of_succ_lt_succ h)
              rw [Nat.add_right_comm] at this
              rw [← Nat.add_assoc]
              omega

theorem last_le_overCells {f : Nat → Nat} {g : Text → Nat} {c : Text} (h : cs.getLast? = some c) :
    g c ≤ overCells f g j cs := by
  induction cs generalizing j with
  | nil => cases h
  | cons d cs ih =>
      cases cs with
      | nil =>
          obtain rfl := Option.some.inj h
          exact Nat.le_refl _
      | cons e cs =>
          rw [List.getLast?_cons_cons] at h
          exact Nat.le_trans (ih h) (Nat.le_add_left _ _)

theorem overCells_congr {f : Nat → Nat} {g g' : Text → Nat} (j : Nat)
    (h : ∀ c, cs.getLast? = some c → g c = g' c) : overCells f g j cs = overCells f g' j cs := by
  induction cs generalizing j with
  | nil => rfl
  | cons d cs ih =>
      cases cs with
      | nil => exact h d rfl
      | cons e cs =>
          rw [List.getLast?_cons_cons] at h
          rw [overCells, overCells, ih _ h]

theorem mark_cost (loc : Locale) (cell : Text) :
    (loc.strlen (unmark cell) : Int) - loc.columns (unmark cell) ≤
      loc.strlen cell - loc.columns cell := by
  cases cell with
  | nil => exact Int.le_refl _
  | cons c t =>
      rw [unmark]
      by_cases h : c = alignCenter ∨ c = alignRight
      · rw [if_pos h]
        have hmark := loc.mark c h
        have hlen : loc.strlen (c :: t) = loc.size c + loc.strlen t := rfl
        have hcol : loc.columns (c :: t) = loc.width c + loc.columns t := rfl
        omega
      · exact Int.le_of_eq (by rw [if_neg h])

theorem strwidth_eq {loc : Locale} (h : 0 ≤ loc.columns (unmark cell))
    (hle : cellWidth loc cell ≤ intMax) : loc.strwidth (unmark cell) = cellWidth loc cell := by
  unfold cellWidth at hle ⊢
  unfold Locale.strwidth sizeT
  unfold intMax at hle
  omega

section Displayed

variable {loc : Locale} {lines : List Text}

theorem cellWidth_le {j : Nat} {cell : Text} (h : cell ∈ columnCells lines j) :
    cellWidth loc cell ≤ fieldWidth loc lines j :=
  le_largest (List.mem_map_of_mem h)

theorem mem_cells (h : (cells line).dropLast[j]? = some cell) :
    cell ∈ cells line ∧ j + 1 < (cells line).length := by
  refine ⟨List.mem_of_mem_dropLast (List.mem_of_getElem? h), ?_⟩
  have := (List.getElem?_eq_some_iff.mp h).1
  rw [List.length_dropLast] at this
  omega

theorem column_bounds {j : Nat} {cell : Text} (h : cell ∈ columnCells lines j) :
    fieldWidth loc lines j ≤ widest loc lines ∧ fieldSize loc lines j ≤ room loc lines := by
  obtain ⟨line, hline, hcell⟩ := List.mem_filterMap.mp h
  obtain ⟨-, hj⟩ := mem_cells hcell
  constructor
  · have hcol := @column_le_overCells (fieldWidth loc lines) (cellWidth loc) _ 0 j hj
    rw [Nat.zero_add] at hcol
    exact Nat.le_trans hcol (le_largest (List.mem_map_of_mem hline))
  · have hcol := @column_le_overCells (fieldSize loc lines) loc.strlen _ 0 j hj
    rw [Nat.zero_add] at hcol
    exact Nat.le_trans hcol (le_largest (List.mem_map_of_mem hline))

theorem Displayed.cell_nonneg (hd : Displayed loc lines) (h : cell ∈ columnCells lines j) :
    0 ≤ loc.columns (unmark cell) := by
  obtain ⟨line, hline, hcell⟩ := List.mem_filterMap.mp h
  exact hd.width line hline cell (mem_cells hcell).1

theorem Displayed.fieldWidth_le (hd : Displayed loc lines) (j : Nat) :
    fieldWidth loc lines j ≤ intMax := by
  cases hcells : columnCells lines j with
  | nil =>
      unfold fieldWidth
      rw [hcells]
      exact Nat.zero_le _
  | cons cell cs =>
      have hmem : cell ∈ columnCells lines j := hcells ▸ List.mem_cons_self
      exact Nat.le_trans (column_bounds hmem).1 hd.columns

theorem Displayed.columnWidth_eq (hd : Displayed loc lines) (j : Nat) :
    columnWidth loc lines j = fieldWidth loc lines j := by
  have hwidth : ∀ cell ∈ columnCells lines j,
      loc.strwidth (unmark cell) = cellWidth loc cell := fun cell hcell =>
    strwidth_eq (hd.cell_nonneg hcell) (Nat.le_trans (cellWidth_le hcell) (hd.fieldWidth_le j))
  unfold columnWidth
  rw [foldl_unsignedInt ?_ (Nat.zero_le _), foldl_max_zero]
  · exact congrArg largest (List.map_congr_left hwidth)
  · intro cell hcell
    rw [hwidth cell hcell]
    exact Nat.le_trans (cellWidth_le hcell) (hd.fieldWidth_le j)

theorem Displayed.padded_le (hd : Displayed loc lines) (h : cell ∈ columnCells lines j) :
    0 ≤ (loc.strlen cell : Int) + fieldWidth loc lines j - loc.columns cell ∧
      (loc.strlen cell : Int) + fieldWidth loc lines j - loc.columns cell ≤
        fieldSize loc lines j := by
  have hcost := mark_cost loc cell
  have hwidth := hd.cell_nonneg h
  have hle := @cellWidth_le loc _ _ _ h
  unfold cellWidth at hle
  have hsize : cellSize loc lines j cell ≤ fieldSize loc lines j :=
    le_largest (List.mem_map_of_mem h)
  unfold cellSize at hsize
  omega

theorem Displayed.paddedSize_eq (hd : Displayed loc lines) (h : cell ∈ columnCells lines j) :
    paddedSize loc lines j cell = cellSize loc lines j cell := by
  obtain ⟨hpos, hle⟩ := hd.padded_le h
  have hroom := Nat.le_trans (@column_bounds loc _ _ _ h).2 hd.bytes
  unfold paddedSize cellSize
  rw [hd.columnWidth_eq]
  unfold Locale.strwidth unsignedInt sizeT
  unfold intMax at hroom
  omega

theorem Displayed.columnSize_eq (hd : Displayed loc lines) (j : Nat) :
    columnSize loc lines j = fieldSize loc lines j := by
  unfold columnSize
  rw [foldl_max_zero]
  exact congrArg largest (List.map_congr_left fun cell hcell => hd.paddedSize_eq hcell)

theorem lineColumns_le {line : Text} (h : line ∈ lines) :
    lineColumns loc lines line ≤ widest loc lines :=
  le_largest (List.mem_map_of_mem h)

theorem Displayed.maxWidth_eq (hd : Displayed loc lines) :
    maxWidth loc lines = widest loc lines := by
  unfold maxWidth
  rw [foldl_max_zero]
  refine congrArg largest (List.map_congr_left fun line hline => ?_)
  have hle := Nat.le_trans (@lineColumns_le loc _ _ hline) hd.columns
  have hlast : ∀ cell, (cells line).getLast? = some cell →
      unsignedInt (loc.strwidth (unmark cell)) = cellWidth loc cell := by
    intro cell hlast
    have hcell := Nat.le_trans (last_le_overCells hlast) hle
    rw [strwidth_eq (hd.width line hline cell (List.mem_of_getLast? hlast)) hcell,
      unsignedInt_of_le hcell]
  unfold lineWidth
  rw [funext hd.columnWidth_eq, overCells_congr 0 hlast]
  exact unsignedInt_of_le hle

theorem Displayed.maxSize_eq (hd : Displayed loc lines) : maxSize loc lines = room loc lines := by
  unfold maxSize
  rw [foldl_max_zero]
  refine congrArg largest (List.map_congr_left fun line hline => ?_)
  have hle : lineBytes loc lines line ≤ intMax :=
    Nat.le_trans (le_largest (List.mem_map_of_mem hline)) hd.bytes
  have hlast : ∀ cell, (cells line).getLast? = some cell →
      unsignedInt (loc.strlen cell) = loc.strlen cell := fun cell hlast =>
    unsignedInt_of_le (Nat.le_trans (last_le_overCells hlast) hle)
  unfold lineSize
  rw [funext hd.columnSize_eq, overCells_congr 0 hlast]
  unfold lineBytes intMax at *
  unfold sizeT
  omega

end Displayed

/-! ## What is written -/

section Writing

variable {loc : Locale}

theorem strlen_append (s t : Text) : loc.strlen (s ++ t) = loc.strlen s + loc.strlen t := by
  unfold Locale.strlen
  rw [List.map_append, List.sum_append]

theorem columns_append (s t : Text) : loc.columns (s ++ t) = loc.columns s + loc.columns t := by
  unfold Locale.columns
  rw [List.map_append, List.sum_append]

theorem strlen_blanks (n : Nat) : loc.strlen (blanks n) = n := by
  unfold Locale.strlen blanks
  rw [List.map_replicate, List.sum_replicate_nat, loc.blank.1, Nat.mul_one]

theorem columns_blanks (n : Nat) : loc.columns (blanks n) = n := by
  unfold Locale.columns blanks
  rw [List.map_replicate, List.sum_replicate_int, loc.blank.2, Int.mul_one]

theorem cellPad_le (h : cellWidth loc cell ≤ width) :
    cellPad loc width cell + cellWidth loc cell ≤ width := by
  unfold cellPad
  split
  · omega
  · split <;> omega

theorem leftPad_eq (hpos : 0 ≤ loc.columns (unmark cell)) (hle : cellWidth loc cell ≤ width)
    (hwidth : width ≤ intMax) : leftPad loc width cell = cellPad loc width cell := by
  have hcell := Nat.le_trans hle hwidth
  have hsub : unsignedInt (width - unsignedInt (loc.strwidth (unmark cell))) =
      width - cellWidth loc cell := by
    rw [strwidth_eq hpos hcell, unsignedInt_of_le hcell, ← Int.ofNat_sub hle]
    exact unsignedInt_of_le (Nat.le_trans (Nat.sub_le _ _) hwidth)
  unfold leftPad cellPad
  rw [hsub]

theorem strpad_eq {s : Text} (hs : loc.columns s = n) (hle : n ≤ width) (hwidth : width ≤ intMax) :
    loc.strpad s width = some (s ++ blanks (width - n)) := by
  have hstr : loc.strwidth s = n := by
    unfold Locale.strwidth sizeT
    unfold intMax at hwidth
    omega
  unfold Locale.strpad
  rw [hstr, if_neg (by omega), if_neg (by omega)]
  rfl

theorem put_bind {room : Nat} {s t : Text} {f : Text → Option Text}
    (h : f s = loc.put room before (s ++ t)) :
    (loc.put room before s).bind f = loc.put room before (s ++ t) := by
  by_cases hs : loc.strlen (before ++ s) ≤ room
  · have hput : loc.put room before s = some s := if_pos hs
    rw [hput, Option.bind_some, h]
  · have hput : loc.put room before s = none := if_neg hs
    have hlong : ¬ loc.strlen (before ++ (s ++ t)) ≤ room := by
      rw [← List.append_assoc, strlen_append]
      omega
    have hput' : loc.put room before (s ++ t) = none := if_neg hlong
    rw [hput, hput']
    rfl

theorem columns_setCell (hpos : 0 ≤ loc.columns (unmark cell)) :
    loc.columns (setCell loc width cell) =
      (cellPad loc width cell + cellWidth loc cell : Nat) := by
  unfold setCell cellWidth
  rw [columns_append, columns_blanks]
  omega

theorem columns_setColumn (hpos : 0 ≤ loc.columns (unmark cell))
    (hle : cellWidth loc cell ≤ width) : loc.columns (setColumn loc width cell) = width + 2 := by
  have hpad := cellPad_le hle
  have htwo : loc.columns "  " = 2 := columns_blanks 2
  unfold setColumn
  rw [columns_append, columns_append, columns_setCell hpos, columns_blanks, htwo]
  omega

theorem writeCell_eq {room : Nat} (hpos : 0 ≤ loc.columns (unmark cell))
    (hle : cellWidth loc cell ≤ width) (hwidth : width ≤ intMax) :
    writeCell loc room before width cell = loc.put room before (setCell loc width cell) := by
  have hpad := cellPad_le hle
  unfold writeCell
  rw [leftPad_eq hpos hle hwidth, strpad_eq (n := 0) rfl (Nat.zero_le _) (by omega),
    Option.bind_some]
  exact put_bind rfl

theorem writeColumn_eq {room : Nat} (hpos : 0 ≤ loc.columns (unmark cell))
    (hle : cellWidth loc cell ≤ width) (hwidth : width ≤ intMax) :
    writeColumn loc room before width cell = loc.put room before (setColumn loc width cell) := by
  unfold writeColumn setColumn
  rw [writeCell_eq hpos hle hwidth, List.append_assoc]
  refine put_bind ?_
  rw [strpad_eq (columns_setCell hpos) (cellPad_le hle) hwidth, Option.bind_some,
    ← List.append_assoc]
  exact put_bind rfl

end Writing

/-! ## Lines -/

section Lines

variable {loc : Locale} {lines : List Text}

/-- Some cells that stand in the columns from one on. -/
structure FromColumn (loc : Locale) (lines : List Text) (j : Nat) (cs : List Text) : Prop where
  width : ∀ cell ∈ cs, 0 ≤ loc.columns (unmark cell)
  column : ∀ k cell, cs.dropLast[k]? = some cell → cell ∈ columnCells lines (j + k)

theorem FromColumn.first {next : Text} {rest : List Text}
    (h : FromColumn loc lines j (cell :: next :: rest)) : cell ∈ columnCells lines j :=
  h.column 0 cell rfl

theorem FromColumn.tail {j : Nat} {cell next : Text} {rest : List Text}
    (h : FromColumn loc lines j (cell :: next :: rest)) :
    FromColumn loc lines (j + 1) (next :: rest) where
  width c hc := h.width c (List.mem_cons_of_mem cell hc)
  column k c hc := by
    have := h.column (k + 1) c hc
    rwa [← Nat.add_assoc, Nat.add_right_comm] at this

theorem Displayed.fromColumn (hd : Displayed loc lines) (hline : line ∈ lines) :
    FromColumn loc lines 0 (cells line) where
  width := hd.width line hline
  column k cell hk := by
    rw [Nat.zero_add]
    exact List.mem_filterMap.mpr ⟨line, hline, hk⟩

theorem Displayed.alignCells_eq (hd : Displayed loc lines) {j start : Nat} {before : Text}
    {cs : List Text} (hne : cs ≠ []) (h : FromColumn loc lines j cs)
    (hbefore : loc.columns before = start)
    (hle : start + overCells (fieldWidth loc lines) (cellWidth loc) j cs ≤ widest loc lines) :
    alignCells loc lines j before cs =
      if loc.strlen (before ++ (laidOut loc lines j start cs).flatten) ≤ room loc lines then
        some (laidOut loc lines j start cs)
      else none := by
  induction cs generalizing j start before with
  | nil => exact absurd rfl hne
  | cons cell cs ih =>
      have hpos := h.width cell List.mem_cons_self
      have hmax := hd.columns
      cases cs with
      | nil =>
          have hcell : start + cellWidth loc cell ≤ widest loc lines := hle
          have hwidth : unsignedInt (sizeT (maxWidth loc lines - loc.strwidth before)) =
              widest loc lines - start := by
            rw [hd.maxWidth_eq]
            unfold unsignedInt Locale.strwidth sizeT
            unfold intMax at hmax
            omega
          rw [alignCells, hwidth, hd.maxSize_eq, writeCell_eq hpos (by omega) (by omega), laidOut,
            List.flatten_singleton]
          unfold Locale.put
          split <;> rfl
      | cons next rest =>
          have hcell := @cellWidth_le loc _ _ _ h.first
          have hfield := hd.fieldWidth_le j
          have hcolumns : loc.columns (before ++ setColumn loc (fieldWidth loc lines j) cell) =
              (start + fieldWidth loc lines j + 2 : Nat) := by
            rw [columns_append, hbefore, columns_setColumn hpos hcell]
            omega
          rw [overCells] at hle
          have hrest := ih (List.cons_ne_nil _ _) h.tail hcolumns (by omega)
          rw [alignCells, hd.columnWidth_eq, hd.maxSize_eq, writeColumn_eq hpos hcell hfield,
            laidOut, List.flatten_cons, ← List.append_assoc]
          by_cases hput : loc.strlen (before ++ setColumn loc (fieldWidth loc lines j) cell) ≤
              room loc lines
          · have hsome : loc.put (room loc lines) before _ = some _ := if_pos hput
            rw [hsome, Option.bind_some, hrest]
            split <;> rfl
          · have hnone : loc.put (room loc lines) before _ = none := if_neg hput
            rw [hnone, Option.bind_none, if_neg]
            rw [strlen_append]
            omega

/-- The column on the screen where a field starts. -/
def fieldStart (loc : Locale) (lines : List Text) : Nat → Nat → Nat
  | _, 0 => 0
  | j, k + 1 => fieldWidth loc lines j + 2 + fieldStart loc lines (j + 1) k

theorem FromColumn.startColumn_eq {start k : Nat} (h : FromColumn loc lines j cs)
    (hk : k < cs.length) :
    startColumn loc (laidOut loc lines j start cs) k = fieldStart loc lines j k := by
  unfold startColumn
  induction k generalizing j start cs with
  | zero => rfl
  | succ k ih =>
      match cs with
      | [] => cases hk
      | [_] => cases Nat.lt_of_succ_lt_succ hk
      | cell :: next :: rest =>
          have hcell := @cellWidth_le loc _ _ _ h.first
          rw [laidOut, List.take_succ_cons, List.flatten_cons, columns_append,
            columns_setColumn (h.width cell List.mem_cons_self) hcell,
            ih h.tail (Nat.lt_of_succ_lt_succ hk), fieldStart]
          omega

theorem endMark_single (cell : Text) {c : Char} (hc : c = alignCenter ∨ c = alignRight) :
    endMark [cell] = some c ↔ cell.head? = some c := by
  unfold endMark
  rw [List.getLast?_singleton, Option.bind_some, Option.filter_eq_some_iff]
  constructor
  · exact fun h => h.1
  · exact fun h => ⟨h, decide_eq_true hc⟩

theorem endMark_cons (cell next : Text) (rest : List Text) :
    endMark (cell :: next :: rest) = endMark (next :: rest) := by
  unfold endMark
  rw [List.getLast?_cons_cons]

/-- The blanks to the left of the last cell, for the columns up to the end of it. -/
def endPad (loc : Locale) (lines : List Text) (cs : List Text) (columns : Nat) : Nat :=
  if endMark cs = some alignCenter then (widest loc lines - columns) / 2
  else if endMark cs = some alignRight then widest loc lines - columns
  else 0

/-- The bytes of the cells that are laid out: what they have beyond their columns, and their
columns. -/
theorem FromColumn.strlen_eq {j start : Nat} {cs : List Text} (hne : cs ≠ [])
    (h : FromColumn loc lines j cs) :
    (loc.strlen (laidOut loc lines j start cs).flatten : Int) =
      excess loc cs + overCells (fieldWidth loc lines) (cellWidth loc) j cs +
        endPad loc lines cs (start + overCells (fieldWidth loc lines) (cellWidth loc) j cs) := by
  induction cs generalizing j start with
  | nil => exact absurd rfl hne
  | cons cell cs ih =>
      have hpos := h.width cell List.mem_cons_self
      have hcell : (cellWidth loc cell : Int) = loc.columns (unmark cell) :=
        Int.toNat_of_nonneg hpos
      cases cs with
      | nil =>
          have hpad : cellPad loc (widest loc lines - start) cell =
              endPad loc lines [cell] (start + cellWidth loc cell) := by
            unfold cellPad endPad
            simp only [endMark_single cell (.inl rfl), endMark_single cell (.inr rfl),
              Nat.sub_sub]
          have hexcess : excess loc [cell] =
              loc.strlen (unmark cell) - loc.columns (unmark cell) + 0 := rfl
          rw [laidOut, List.flatten_singleton, overCells, setCell, strlen_append, strlen_blanks,
            hpad, hexcess]
          omega
      | cons next rest =>
          have hexcess : excess loc (cell :: next :: rest) =
              loc.strlen (unmark cell) - loc.columns (unmark cell) + excess loc (next :: rest) :=
            rfl
          have hle := cellPad_le (@cellWidth_le loc _ _ _ h.first)
          have htwo : loc.strlen "  " = 2 := strlen_blanks 2
          have hcolumn : (loc.strlen (setColumn loc (fieldWidth loc lines j) cell) : Int) =
              loc.strlen (unmark cell) - loc.columns (unmark cell) +
                fieldWidth loc lines j + 2 := by
            unfold setColumn setCell
            rw [strlen_append, strlen_append, strlen_append, strlen_blanks, strlen_blanks, htwo]
            omega
          have hpad : endPad loc lines (cell :: next :: rest) =
              endPad loc lines (next :: rest) := by
            unfold endPad
            rw [endMark_cons]
          have hrest :=
            @ih (j + 1) (start + fieldWidth loc lines j + 2) (List.cons_ne_nil _ _) h.tail
          have hsum : start + fieldWidth loc lines j + 2 +
                overCells (fieldWidth loc lines) (cellWidth loc) (j + 1) (next :: rest) =
              start + (fieldWidth loc lines j + 2 +
                overCells (fieldWidth loc lines) (cellWidth loc) (j + 1) (next :: rest)) := by
            omega
          rw [hsum] at hrest
          rw [laidOut, List.flatten_cons, strlen_append, overCells, hexcess, hpad]
          omega

theorem strlen_unmark_le (cell : Text) : loc.strlen (unmark cell) ≤ loc.strlen cell := by
  cases cell with
  | nil => exact Nat.le_refl _
  | cons c t =>
      rw [unmark]
      split
      · exact Nat.le_add_left _ _
      · exact Nat.le_refl _

theorem Displayed.excess_le (hd : Displayed loc lines) (h : FromColumn loc lines j cs) :
    excess loc cs + overCells (fieldWidth loc lines) (cellWidth loc) j cs ≤
      overCells (fieldSize loc lines) loc.strlen j cs := by
  induction cs generalizing j with
  | nil => exact Int.le_refl _
  | cons cell cs ih =>
      have hcell : (cellWidth loc cell : Int) = loc.columns (unmark cell) :=
        Int.toNat_of_nonneg (h.width cell List.mem_cons_self)
      cases cs with
      | nil =>
          have hexcess : excess loc [cell] =
              loc.strlen (unmark cell) - loc.columns (unmark cell) + 0 := rfl
          have hlen := @strlen_unmark_le loc cell
          rw [overCells, overCells, hexcess]
          omega
      | cons next rest =>
          have hexcess : excess loc (cell :: next :: rest) =
              loc.strlen (unmark cell) - loc.columns (unmark cell) + excess loc (next :: rest) :=
            rfl
          have hsize := (hd.padded_le h.first).2
          have hcost := mark_cost loc cell
          have hrest := ih h.tail
          rw [overCells, overCells, hexcess]
          omega

theorem Displayed.line_fits_iff (hd : Displayed loc lines) (hline : line ∈ lines) :
    loc.strlen (laidOut loc lines 0 0 (cells line)).flatten ≤ room loc lines ↔
      (endMark (cells line) ≠ none →
        excess loc (cells line) + reach loc lines line ≤ room loc lines) := by
  have hcells := hd.fromColumn hline
  have hlen := @FromColumn.strlen_eq loc lines 0 0 (cells line) (List.splitOnP_ne_nil _ _) hcells
  have hshort := hd.excess_le hcells
  have hroom : lineBytes loc lines line ≤ room loc lines := le_largest (List.mem_map_of_mem hline)
  have hwidest := @lineColumns_le loc _ _ hline
  rw [Nat.zero_add] at hlen
  unfold reach
  unfold endPad at hlen
  unfold lineBytes at hroom
  unfold lineColumns at hwidest ⊢
  cases hmark : endMark (cells line) with
  | none =>
      rw [hmark, if_neg (by decide), if_neg (by decide)] at hlen
      refine iff_of_true (by omega) fun hsome => absurd rfl hsome
  | some c =>
      rw [hmark] at hlen
      rw [imp_iff_right (Option.some_ne_none c)]
      split at hlen
      · rw [if_pos ‹_›]
        omega
      · rw [if_neg ‹_›]
        split at hlen
        · rw [if_pos ‹_›]
          omega
        · rw [if_neg ‹_›]
          omega

theorem Displayed.alignLines_iff (hd : Displayed loc lines) {part : List Text}
    (hsub : ∀ line ∈ part, line ∈ lines) {out : List (List Text)} :
    alignLines loc lines part = some out ↔
      (∀ line ∈ part,
          loc.strlen (laidOut loc lines 0 0 (cells line)).flatten ≤ room loc lines) ∧
        out = part.map fun line => laidOut loc lines 0 0 (cells line) := by
  induction part generalizing out with
  | nil =>
      rw [alignLines, Option.some_inj]
      exact ⟨fun h => ⟨fun _ hl => (by cases hl), h.symm⟩, fun h => h.2.symm⟩
  | cons line rest ih =>
      have hline := hsub line List.mem_cons_self
      have hle : 0 + lineColumns loc lines line ≤ widest loc lines := by
        rw [Nat.zero_add]
        exact lineColumns_le hline
      have hcells := @Displayed.alignCells_eq loc lines hd 0 0 [] (cells line)
        (List.splitOnP_ne_nil _ _) (hd.fromColumn hline) rfl hle
      have hrest := @ih fun l hl => hsub l (List.mem_cons_of_mem line hl)
      rw [alignLines, hcells, List.nil_append, List.forall_mem_cons, Option.bind_eq_some_iff]
      constructor
      · rintro ⟨ss, hss, hout⟩
        obtain ⟨out, hsome, rfl⟩ := Option.map_eq_some_iff.mp hout
        obtain ⟨hfits, rfl⟩ := hrest.mp hsome
        rw [Option.ite_none_right_eq_some] at hss
        obtain ⟨hfit, hss⟩ := hss
        obtain rfl := Option.some.inj hss
        exact ⟨⟨hfit, hfits⟩, rfl⟩
      · rintro ⟨⟨hfit, hfits⟩, rfl⟩
        refine ⟨_, if_pos hfit, ?_⟩
        rw [hrest.mpr ⟨hfits, rfl⟩]
        rfl

theorem Displayed.inColumns (hd : Displayed loc lines) :
    InColumns loc lines (lines.map fun line => laidOut loc lines 0 0 (cells line)) where
  length := List.length_map _
  start a ha b hb j hja hjb := by
    have hstart : ∀ x ∈ lines.zip (lines.map fun line => laidOut loc lines 0 0 (cells line)),
        j + 1 < (cells x.1).length → startColumn loc x.2 j = fieldStart loc lines 0 j := by
      intro x hx hj
      obtain ⟨k, hk⟩ := List.mem_iff_getElem?.mp hx
      obtain ⟨hline, hlaid⟩ := List.getElem?_zip_eq_some.mp hk
      rw [List.getElem?_map, hline, Option.map_some] at hlaid
      rw [← Option.some.inj hlaid]
      exact (hd.fromColumn (List.mem_of_getElem? hline)).startColumn_eq (Nat.lt_of_succ_lt hj)
    rw [hstart a ha hja, hstart b hb hjb]

/-- `stralign` writes each new string within its buffer, comes to an end, and sets the cells
in columns, exactly if the ends of the lines that are padded to the widest one fit. -/
theorem stralign_iff (hd : Displayed loc lines) :
    (∃ out, stralign loc lines = some out ∧ InColumns loc lines out) ↔ EndsFit loc lines := by
  have hfits : (∀ line ∈ lines,
      loc.strlen (laidOut loc lines 0 0 (cells line)).flatten ≤ room loc lines) ↔
      EndsFit loc lines := forall₂_congr fun line hline => hd.line_fits_iff hline
  rw [← hfits]
  constructor
  · rintro ⟨out, hout, -⟩
    exact ((hd.alignLines_iff fun _ hl => hl).mp hout).1
  · intro hall
    exact ⟨_, (hd.alignLines_iff fun _ hl => hl).mpr ⟨hall, rfl⟩, hd.inColumns⟩

end Lines

/-! ## Two lines -/

/-- UTF-8, for characters that are not wide. -/
def utf8Width (c : Char) : Int := if c.toNat < 32 then -1 else 1

theorem utf8_blank : (' ').utf8Size = 1 ∧ utf8Width ' ' = 1 := by decide

theorem utf8_mark : ∀ c : Char, c = '\x0e' ∨ c = '\x0f' → c.utf8Size = 1 ∧ utf8Width c ≤ 1 := by
  rintro c (rfl | rfl) <;> decide

/-- The locale of the examples. -/
def utf8 : Locale := ⟨Char.utf8Size, utf8Width, utf8_blank, utf8_mark⟩

theorem displayed_two : Displayed utf8 ["\x0fa\tb", "cc\td"] :=
  ⟨by decide, by decide, by decide⟩

theorem stralign_iff_two :
    (∃ out, stralign utf8 ["\x0fa\tb", "cc\td"] = some out ∧
        InColumns utf8 ["\x0fa\tb", "cc\td"] out) ↔
      EndsFit utf8 ["\x0fa\tb", "cc\td"] :=
  stralign_iff displayed_two

/-- A line that is set right below a longer one: four blanks and four bytes, in seven. -/
theorem stralign_overrun :
    Displayed utf8 ["\x0féé", "aaaaaa"] ∧
      maxSize utf8 ["\x0féé", "aaaaaa"] = 6 ∧
      ¬ ∃ out, stralign utf8 ["\x0féé", "aaaaaa"] = some out ∧
        InColumns utf8 ["\x0féé", "aaaaaa"] out := by
  have hnone : stralign utf8 ["\x0féé", "aaaaaa"] = none := by decide
  refine ⟨⟨by decide, by decide, by decide⟩, by decide, ?_⟩
  rintro ⟨out, hout, -⟩
  rw [hnone] at hout
  cases hout

end DebianInstaller.Debconf
