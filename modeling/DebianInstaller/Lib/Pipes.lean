import Mathlib.Logic.Function.Basic
import Mathlib.Logic.Relation

/-!
# Two programs and their named pipes

Two programs that do nothing but open, close, read and write named pipes. To
open a pipe for reading takes somebody who opens it for writing, or has it open,
and the other way round; a read waits for something to read, a write for room
and a reader; and what nobody has open any more forgets what it held. The
programs are lists of operations, and a step of either is one operation, except
that two opens that wait for each other happen at once.
-/

namespace Pipes

variable {φ β : Type*} [DecidableEq φ]

/-- A named pipe. -/
structure Pipe (β : Type*) where
  content : List β := []
  readers : Nat := 0
  writers : Nat := 0

/-- A pipe that nobody has open loses its content. -/
def Pipe.settle (p : Pipe β) : Pipe β :=
  if p.readers = 0 ∧ p.writers = 0 then { p with content := [] } else p

theorem Pipe.settle_eq {p : Pipe β}
    (h : p.readers = 0 → p.writers = 0 → p.content = []) : p.settle = p := by
  unfold Pipe.settle
  split
  · next hc => rw [← h hc.1 hc.2]
  · rfl

/-- What a program can do. `drain` reads up to the end of the file. -/
inductive Op (φ β : Type*) where
  | openR (f : φ)
  | openW (f : φ)
  | closeR (f : φ)
  | closeW (f : φ)
  | put (f : φ) (m : β)
  | get (f : φ)
  | drain (f : φ)

/-- An operation that needs nobody else now: whether it is done with, the pipes
afterwards, and what was read. -/
def solo (cap : Nat) (pipe : φ → Pipe β) :
    Op φ β → Option (Bool × (φ → Pipe β) × Option β)
  | .openR f =>
      if 0 < (pipe f).writers then
        some (true, Function.update pipe f
          { pipe f with readers := (pipe f).readers + 1 }, none)
      else none
  | .openW f =>
      if 0 < (pipe f).readers then
        some (true, Function.update pipe f
          { pipe f with writers := (pipe f).writers + 1 }, none)
      else none
  | .closeR f =>
      some (true, Function.update pipe f
        { pipe f with readers := (pipe f).readers - 1 }.settle, none)
  | .closeW f =>
      some (true, Function.update pipe f
        { pipe f with writers := (pipe f).writers - 1 }.settle, none)
  | .put f m =>
      if (pipe f).content.length < cap ∧ 0 < (pipe f).readers then
        some (true, Function.update pipe f
          { pipe f with content := (pipe f).content ++ [m] }, none)
      else none
  | .get f =>
      match (pipe f).content with
      | [] => none
      | m :: ms => some (true, Function.update pipe f { pipe f with content := ms }, some m)
  | .drain f =>
      match (pipe f).content with
      | _ :: ms => some (false, Function.update pipe f { pipe f with content := ms }, none)
      | [] => if (pipe f).writers = 0 then some (true, pipe, none) else none

/-- The two programs. -/
inductive Side where
  | left
  | right
  deriving DecidableEq

/-- One thing that happened. -/
structure Event (φ β : Type*) where
  side : Side
  op : Op φ β
  read : Option β

/-- What is left of the programs, the pipes, and what has happened. -/
structure Net (φ β : Type*) where
  left : List (Op φ β)
  right : List (Op φ β)
  pipe : φ → Pipe β
  trace : List (Event φ β)

/-- Both ends of a pipe are opened at once. -/
def meet (pipe : φ → Pipe β) (f : φ) : φ → Pipe β :=
  Function.update pipe f
    { pipe f with
      readers := (pipe f).readers + 1
      writers := (pipe f).writers + 1 }

/-- One step of either program, or of both. -/
inductive Step (cap : Nat) : Net φ β → Net φ β → Prop where
  | left {op : Op φ β} {l r : List (Op φ β)} {pipe pipe' : φ → Pipe β}
      {trace : List (Event φ β)} {done : Bool} {read : Option β}
      (h : solo cap pipe op = some (done, pipe', read)) :
      Step cap ⟨op :: l, r, pipe, trace⟩
        ⟨if done then l else op :: l, r, pipe', trace ++ [⟨.left, op, read⟩]⟩
  | right {op : Op φ β} {l r : List (Op φ β)} {pipe pipe' : φ → Pipe β}
      {trace : List (Event φ β)} {done : Bool} {read : Option β}
      (h : solo cap pipe op = some (done, pipe', read)) :
      Step cap ⟨l, op :: r, pipe, trace⟩
        ⟨l, if done then r else op :: r, pipe', trace ++ [⟨.right, op, read⟩]⟩
  | readLeft {f : φ} {l r : List (Op φ β)} {pipe : φ → Pipe β}
      {trace : List (Event φ β)} :
      Step cap ⟨.openR f :: l, .openW f :: r, pipe, trace⟩
        ⟨l, r, meet pipe f,
          trace ++ [⟨.left, .openR f, none⟩, ⟨.right, .openW f, none⟩]⟩
  | readRight {f : φ} {l r : List (Op φ β)} {pipe : φ → Pipe β}
      {trace : List (Event φ β)} :
      Step cap ⟨.openW f :: l, .openR f :: r, pipe, trace⟩
        ⟨l, r, meet pipe f,
          trace ++ [⟨.left, .openW f, none⟩, ⟨.right, .openR f, none⟩]⟩

theorem Step.heads {cap : Nat} {s s' : Net φ β} (h : Step cap s s') :
    (∃ op l done pipe read, s.left = op :: l ∧
      solo cap s.pipe op = some (done, pipe, read) ∧
      s' = ⟨if done then l else s.left, s.right, pipe, s.trace ++ [⟨.left, op, read⟩]⟩) ∨
    (∃ op r done pipe read, s.right = op :: r ∧
      solo cap s.pipe op = some (done, pipe, read) ∧
      s' = ⟨s.left, if done then r else s.right, pipe,
        s.trace ++ [⟨.right, op, read⟩]⟩) ∨
    (∃ f l r, s.left = .openR f :: l ∧ s.right = .openW f :: r ∧
      s' = ⟨l, r, meet s.pipe f,
        s.trace ++ [⟨.left, .openR f, none⟩, ⟨.right, .openW f, none⟩]⟩) ∨
    (∃ f l r, s.left = .openW f :: l ∧ s.right = .openR f :: r ∧
      s' = ⟨l, r, meet s.pipe f,
        s.trace ++ [⟨.left, .openW f, none⟩, ⟨.right, .openR f, none⟩]⟩) := by
  cases h with
  | left h => exact .inl ⟨_, _, _, _, _, rfl, h, rfl⟩
  | right h => exact .inr (.inl ⟨_, _, _, _, _, rfl, h, rfl⟩)
  | readLeft => exact .inr (.inr (.inl ⟨_, _, _, rfl, rfl, rfl⟩))
  | readRight => exact .inr (.inr (.inr ⟨_, _, _, rfl, rfl, rfl⟩))

end Pipes
