import DebianInstaller.Text
import Mathlib.Data.List.SplitBy

/-!
# The parser of control files in libdebian-installer

`di_parser_rfc822_read` goes through a buffer with pointers. For each field it looks for the
next colon and for the next newline in all that is left of the buffer, and only then compares
the two; a value goes on as long as the line behind it starts with a blank.

The memory behind the buffer is part of the model: it is a list of bytes, and a read behind
its end is a fault, `none`. Positions are counted from the pointer that a function is given.
The table of the fields is a lookup, `entry_new` and the readers of the fields are recorded in
the order of their calls, and `entry_finish` is `NULL`, as every caller has it. `info` has
neither a wildcard nor a modifier.
-/

namespace DebianInstaller.Packages

open Text

/-! ## The code -/

/-- `memchr`: where the character is, or `NULL`. -/
def memchr (c : Char) : ℕ → Text → Option (Option ℕ)
  | 0, _ => some none
  | _ + 1, [] => none
  | n + 1, a :: t => if a = c then some (some 0) else (memchr c n t).map (Option.map (· + 1))

/-- The loop over the lines of a large value, from the newline at `valueEnd`. The buffer ends
at `left`. -/
def largeValue (mem : Text) (left : ℕ) : ℕ → ℕ → Option (Option ℕ)
  | 0, _ => none
  | rounds + 1, valueEnd =>
      match mem[valueEnd + 1]? with
      | none => none
      | some c =>
          if isBlank c then
            -- readsize = end - value_end + 1
            match memchr '\n' (left + 1 - valueEnd) (mem.drop (valueEnd + 1)) with
            | none => none
            | some none => some none
            | some (some i) => largeValue mem left rounds (valueEnd + 1 + i)
          else some (some valueEnd)

/-- A field, and where its value ends. -/
structure FieldRead where
  name : Text
  value : Text
  valueEnd : ℕ
  deriving DecidableEq

/-- The field at `mem`, or the return with an error. -/
def readField (mem : Text) (left : ℕ) : Option (Option FieldRead) :=
  match memchr ':' left mem with
  | none => none
  | some none => some none
  | some (some fieldEnd) =>
      let valueBegin :=
        fieldEnd + 1 + (((mem.take left).drop (fieldEnd + 1)).takeWhile isBlank).length
      match memchr '\n' left mem with
      | none => none
      | some none => some none
      | some (some valueEnd) =>
          if valueEnd < fieldEnd then some none
          else
            match largeValue mem left (left + 2) valueEnd with
            | none => none
            | some none => some none
            | some (some valueEnd) => some (some
                { name := mem.take fieldEnd
                  value := (mem.take valueEnd).drop valueBegin
                  valueEnd := valueEnd })

/-- The calls of `entry_new` and of the readers of the fields. -/
inductive Event (F : Type) where
  | entryNew
  | read (fip : F) (value : Text)
  deriving DecidableEq

variable {F : Type} (lookup : Text → Option F)

/-- The loop over the fields of an entry. It ends with the rest of the memory, or with the
return of an error. -/
def readFields : ℕ → Text → ℕ → Option (List (Event F) × Option (Text × ℕ))
  | 0, _, _ => none
  | rounds + 1, mem, left =>
      if left = 0 then some ([], some (mem, left))
      else
        match readField mem left with
        | none => none
        | some none => some ([], none)
        | some (some f) =>
            let calls := (lookup f.name).toList.map fun fip => Event.read fip f.value
            let mem := mem.drop (f.valueEnd + 1)
            let left := left - (f.valueEnd + 1)
            if left = 0 ∨ mem.head? = some '\n' then some (calls, some (mem, left))
            else (readFields rounds mem left).map fun r => (calls ++ r.1, r.2)

/-- The loop over the entries. The counter is an `int`. -/
def readEntries : ℕ → Int → Text → ℕ → Option (List (Event F) × Int)
  | 0, _, _, _ => none
  | rounds + 1, nr, mem, left =>
      if left = 0 then some ([], nr)
      else if mem.head? = some '\n' then readEntries rounds nr (mem.drop 1) (left - 1)
      else
        match readFields lookup left mem left with
        | none => none
        | some (events, none) => some (.entryNew :: events, -1)
        | some (events, some (mem, left)) =>
            (readEntries rounds ((nr + 1).bmod (2 ^ 32)) mem left).map fun r =>
              (.entryNew :: events ++ r.1, r.2)

/-- `di_parser_rfc822_read` on a buffer, with the memory behind it. -/
def diParserRfc822Read (buf behind : Text) : Option (List (Event F) × Int) :=
  readEntries lookup (buf.length + 1) 0 (buf ++ behind) buf.length

/-! ## The grammar -/

/-- The lines of a text that ends in a newline. -/
def linesOf (t : Text) : List Text := (t.splitOn '\n').dropLast

/-- The maximal runs of lines that are not empty. -/
def stanzasOf (ls : List Text) : List (List Text) := (ls.splitOn []).filter (· ≠ [])

def startsBlank (l : Text) : Bool := l.head?.any isBlank

/-- The fields of a stanza, each with the lines that continue it. -/
def fieldsOf (stanza : List Text) : List (List Text) :=
  stanza.splitBy fun _ l => startsBlank l

/-- A field line has a colon. -/
def hasColon (field : List Text) : Bool := decide (':' ∈ field.headD [])

def fieldName (field : List Text) : Text := (field.headD []).takeWhile (· ≠ ':')

/-- The text behind the colon without leading blanks, and the lines that continue it. -/
def fieldValue (field : List Text) : Text :=
  ((field.headD []).dropWhile (· ≠ ':')).tail.dropWhile isBlank ++ field.tail.flatMap ('\n' :: ·)

/-- The reader of a field, if its name is known. -/
def fieldCall (field : List Text) : List (Event F) :=
  (lookup (fieldName field)).toList.map fun fip => Event.read fip (fieldValue field)

def GoodStanza (stanza : List Text) : Prop := ∀ f ∈ fieldsOf stanza, hasColon f = true

instance (stanza : List Text) : Decidable (GoodStanza stanza) :=
  inferInstanceAs (Decidable (∀ f ∈ fieldsOf stanza, hasColon f = true))

/-- The calls for a stanza, up to the first line that is no field. -/
def stanzaCalls (stanza : List Text) : List (Event F) :=
  .entryNew :: ((fieldsOf stanza).takeWhile hasColon).flatMap (fieldCall lookup)

/-- The calls for all stanzas, up to the first line that is no field. -/
def allCalls : List (List Text) → List (Event F)
  | [] => []
  | s :: ss => stanzaCalls lookup s ++ if GoodStanza s then allCalls ss else []

/-- The number of the stanzas, or `-1`. -/
def returned (stanzas : List (List Text)) : Int :=
  if ∀ s ∈ stanzas, GoodStanza s then stanzas.length else -1

/-- What the parser does with a buffer, by its lines. -/
def grammar (buf : Text) : List (Event F) × Int :=
  (allCalls lookup (stanzasOf (linesOf buf)), returned (stanzasOf (linesOf buf)))

end DebianInstaller.Packages
