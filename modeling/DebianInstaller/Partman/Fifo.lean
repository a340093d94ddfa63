import DebianInstaller.Lib.Pipes
import DebianInstaller.Text

/-!
# The dialogs of partman

A client of `parted_server` opens a dialog, exchanges lines with the command it
has asked for, and closes the dialog; `base.sh` has the one side of this and
`parted_server.c` the other. The two share three named pipes: the client writes
to `infifo` and reads from `outfifo`, and before either may be used for the next
dialog the two sides go through `stopfifo` three times, with `outfifo` and
`infifo` opened the other way round in between.

A line is written at once, as `write_line` and `oprintf` do. An exchange is the
list of its lines, each with the direction it goes in; both sides go through it
in order, which is to say that the client reads what the server prints.

The invariant is a list of the phases a dialog goes through. Within a phase the
two sides move on their own, and from one phase to the next they go together,
because each waits for the other in an open.
-/

namespace DebianInstaller.Partman.Fifo

open Pipes

variable {i : Nat} {line : Text}

variable {done : Bool} {read : Option Text} {x : Text}

/-- The three pipes in `/var/lib/partman`. -/
inductive Name where
  | infifo
  | outfifo
  | stopfifo
  deriving DecidableEq

/-- A line of an exchange. -/
inductive Msg where
  | toClient (line : Text)
  | toServer (line : Text)

/-- The line that `open_dialog` writes, and what follows up to `close_dialog`. -/
structure Dialog where
  command : Text
  script : List Msg

variable {cs : List Msg} {op : Op Name Text} {s : Net Name Text} {ds : List Dialog}
  {l r : List (Op Name Text)} {pipe : Name → Pipe Text} {ss : List Msg}

/-- The lines that the client writes in a dialog. -/
def Dialog.said (d : Dialog) : List Text :=
  d.command :: d.script.filterMap fun
    | .toClient _ => none
    | .toServer line => some line

/-! ## The two programs -/

def clientOp : Msg → Op Name Text
  | .toClient _ => .get .outfifo
  | .toServer line => .put .infifo line

def serverOp : Msg → Op Name Text
  | .toClient line => .put .outfifo line
  | .toServer _ => .get .infifo

/-- `close_dialog`. -/
def closeDialog : List (Op Name Text) :=
  [.closeR .outfifo, .closeW .infifo,
    .openW .stopfifo, .closeW .stopfifo,
    .openW .outfifo, .closeW .outfifo,
    .openW .stopfifo, .closeW .stopfifo,
    .openR .infifo, .drain .infifo, .closeR .infifo,
    .openW .stopfifo, .closeW .stopfifo]

/-- `open_dialog`, the exchange, and `close_dialog`. -/
def clientDialog (d : Dialog) : List (Op Name Text) :=
  .openW .infifo :: .put .infifo d.command :: .openR .outfifo ::
    (d.script.map clientOp ++ closeDialog)

/-- `close_fifos_and_synchronise`. -/
def closeFifosAndSynchronise : List (Op Name Text) :=
  [.closeR .infifo, .closeW .outfifo,
    .openR .stopfifo, .closeR .stopfifo,
    .openR .outfifo, .drain .outfifo, .closeR .outfifo,
    .openR .stopfifo, .closeR .stopfifo,
    .openW .infifo, .closeW .infifo,
    .openR .stopfifo, .closeR .stopfifo]

/-- One round of `main_loop`. -/
def serverDialog (d : Dialog) : List (Op Name Text) :=
  .openR .infifo :: .get .infifo :: .openW .outfifo ::
    (d.script.map serverOp ++ closeFifosAndSynchronise)

def clientProgram (ds : List Dialog) : List (Op Name Text) := ds.flatMap clientDialog

/-- `main_loop`, which waits for another dialog after the last one. -/
def serverProgram (ds : List Dialog) : List (Op Name Text) :=
  ds.flatMap serverDialog ++ [.openR .infifo]

/-- The three pipes by name. -/
def pipes (i o s : Pipe Text) : Name → Pipe Text
  | .infifo => i
  | .outfifo => o
  | .stopfifo => s

/-- Client and server before the first dialog. -/
def initial (ds : List Dialog) : Net Name Text :=
  ⟨clientProgram ds, serverProgram ds, pipes {} {} {}, []⟩

/-- The client has no dialog left, and the server waits for one. -/
def Done (s : Net Name Text) : Prop := s.left = [] ∧ s.right = [.openR .infifo]

/-- The lines the server has read from `infifo`, by dialog, the last one first. -/
def heard (trace : List (Event Name Text)) : List (List Text) :=
  trace.foldl (fun segs e =>
    match e.side, e.op, e.read, segs with
    | .right, .openR .infifo, _, segs => [] :: segs
    | .right, .get .infifo, some line, seg :: segs => (seg ++ [line]) :: segs
    | _, _, _, segs => segs) []

@[simp] theorem heard_append (trace : List (Event Name Text)) (es : List (Event Name Text)) :
    heard (trace ++ es) = es.foldl (fun segs e =>
      match e.side, e.op, e.read, segs with
      | .right, .openR .infifo, _, segs => [] :: segs
      | .right, .get .infifo, some line, seg :: segs => (seg ++ [line]) :: segs
      | _, _, _, segs => segs) (heard trace) := List.foldl_append

@[simp] theorem update_infifo (i o s p : Pipe Text) :
    Function.update (pipes i o s) .infifo p = pipes p o s := by
  funext f
  cases f <;> rfl

@[simp] theorem update_outfifo (i o s p : Pipe Text) :
    Function.update (pipes i o s) .outfifo p = pipes i p s := by
  funext f
  cases f <;> rfl

@[simp] theorem update_stopfifo (i o s p : Pipe Text) :
    Function.update (pipes i o s) .stopfifo p = pipes i o p := by
  funext f
  cases f <;> rfl

/-! ## The phases of a dialog -/

/-- What is left of `close_dialog`, and the dialogs after it. -/
def closing (n : Nat) (todo : List Dialog) : List (Op Name Text) :=
  closeDialog.drop n ++ clientProgram todo

/-- What is left of `close_fifos_and_synchronise`. -/
def synchronising (n : Nat) (todo : List Dialog) : List (Op Name Text) :=
  closeFifosAndSynchronise.drop n ++ serverProgram todo

/-- The answers among the rest of an exchange. -/
def answers (ms : List Msg) : List Text := ms.filterMap fun
  | .toClient _ => none
  | .toServer line => some line

/-- How far the two sides are apart in an exchange: one of them is ahead by the
lines it has written and the other has not read. -/
def Apart (cs ss : List Msg) (ins outs : List Text) : Prop :=
  (ss = ins.map .toServer ++ cs ∧ outs = []) ∨ (cs = outs.map .toClient ++ ss ∧ ins = [])

/-- Where the two sides can be, `past` being the dialogs whose exchange is over
and `todo` the dialogs to come. -/
inductive Phase : List Dialog → List Dialog → Net Name Text → Prop where
  /-- They have met at `stopfifo`, or have not met at all yet, and close it; what
  comes next is `outfifo` or `infifo` the other way round, or another dialog. -/
  | stop {past todo : List Dialog} {trace : List (Event Name Text)} {n m : Nat}
      (a b : Bool) (hnm : (n, m) ∈ [(4, 4), (8, 9), (13, 13)])
      (hh : heard trace = (past.map Dialog.said).reverse) :
      Phase past todo
        ⟨if a then .closeW .stopfifo :: closing n todo else closing n todo,
          if b then .closeR .stopfifo :: synchronising m todo else synchronising m todo,
          pipes {} {} ⟨[], b.toNat, a.toNat⟩, trace⟩
  /-- The command is about to be written. -/
  | ask {past todo : List Dialog} {d : Dialog} {trace : List (Event Name Text)}
      (hh : heard trace = [] :: (past.map Dialog.said).reverse) :
      Phase past (d :: todo)
        ⟨.put .infifo d.command :: .openR .outfifo ::
            (d.script.map clientOp ++ closing 0 todo),
          .get .infifo :: .openW .outfifo ::
            (d.script.map serverOp ++ synchronising 0 todo),
          pipes ⟨[], 1, 1⟩ {} {}, trace⟩
  /-- It is written. -/
  | asked {past todo : List Dialog} {d : Dialog} {trace : List (Event Name Text)}
      (hh : heard trace = [] :: (past.map Dialog.said).reverse) :
      Phase past (d :: todo)
        ⟨.openR .outfifo :: (d.script.map clientOp ++ closing 0 todo),
          .get .infifo :: .openW .outfifo ::
            (d.script.map serverOp ++ synchronising 0 todo),
          pipes ⟨[d.command], 1, 1⟩ {} {}, trace⟩
  /-- It is read. -/
  | answer {past todo : List Dialog} {d : Dialog} {trace : List (Event Name Text)}
      (hh : heard trace = [d.command] :: (past.map Dialog.said).reverse) :
      Phase past (d :: todo)
        ⟨.openR .outfifo :: (d.script.map clientOp ++ closing 0 todo),
          .openW .outfifo :: (d.script.map serverOp ++ synchronising 0 todo),
          pipes ⟨[], 1, 1⟩ {} {}, trace⟩
  /-- The exchange, and the closing of the two pipes after it. -/
  | exchange {past todo : List Dialog} {d : Dialog} {trace : List (Event Name Text)}
      {cs ss : List Msg} {ins outs seg : List Text} {n m : Nat}
      (hn : n ≤ 2) (hm : m ≤ 2) (hcs : 0 < n → cs = []) (hss : 0 < m → ss = [])
      (happ : Apart cs ss ins outs) (hseg : seg ++ ins ++ answers cs = d.said)
      (hh : heard trace = seg :: (past.map Dialog.said).reverse) :
      Phase past (d :: todo)
        ⟨cs.map clientOp ++ closing n todo, ss.map serverOp ++ synchronising m todo,
          pipes ⟨ins, 1 - m, if n = 2 then 0 else 1⟩
            ⟨outs, 1 - n, if m = 2 then 0 else 1⟩ {}, trace⟩
  /-- `outfifo` the other way round. -/
  | outTurned {past todo : List Dialog} {trace : List (Event Name Text)} {n m : Nat}
      (hnm : (n, m) ∈ [(5, 5), (6, 5), (6, 6), (6, 7)])
      (hh : heard trace = (past.map Dialog.said).reverse) :
      Phase past todo ⟨closing n todo, synchronising m todo,
        pipes {} ⟨[], if m = 7 then 0 else 1, 6 - n⟩ {}, trace⟩
  /-- `infifo` the other way round. -/
  | inTurned {past todo : List Dialog} {trace : List (Event Name Text)} {n m : Nat}
      (hnm : (n, m) ∈ [(9, 10), (9, 11), (10, 11), (11, 11)])
      (hh : heard trace = (past.map Dialog.said).reverse) :
      Phase past todo ⟨closing n todo, synchronising m todo,
        pipes ⟨[], if n = 11 then 0 else 1, 11 - m⟩ {} {}, trace⟩

/-! ## A step goes from phase to phase -/

/-- A phase of the same sequence of dialogs. -/
def Later (past todo : List Dialog) (s : Net Name Text) : Prop :=
  ∃ past' todo', past' ++ todo' = past ++ todo ∧ Phase past' todo' s

section Steps

variable {cap : Nat} {past todo : List Dialog} {trace : List (Event Name Text)}
  {s' : Net Name Text} {n m : Nat}

theorem closing_next (d : Dialog) (todo : List Dialog) :
    closing 13 (d :: todo) = .openW .infifo :: .put .infifo d.command ::
      .openR .outfifo :: (d.script.map clientOp ++ closing 0 todo) := by
  simp [closing, clientProgram, clientDialog, closeDialog]

theorem synchronising_next (d : Dialog) (todo : List Dialog) :
    synchronising 13 (d :: todo) = .openR .infifo :: .get .infifo ::
      .openW .outfifo :: (d.script.map serverOp ++ synchronising 0 todo) := by
  simp [synchronising, serverProgram, serverDialog, closeFifosAndSynchronise]

theorem closing_waits (hn : n = 4 ∨ n = 8 ∨ n = 13) (h : closing n todo = op :: l) (p : Pipe Text) :
    solo cap (pipes {} {} p) op = none := by
  rcases hn with rfl | rfl | rfl
  · cases h
    rfl
  · cases h
    rfl
  · cases todo with
    | nil => cases h
    | cons d todo =>
        cases h
        rfl

theorem synchronising_waits (hm : m = 4 ∨ m = 9 ∨ m = 13) (h : synchronising m todo = op :: r)
    (p : Pipe Text) : solo cap (pipes {} {} p) op = none := by
  rcases hm with rfl | rfl | rfl
  · cases h
    rfl
  · cases h
    rfl
  · cases todo with
    | nil =>
        cases h
        rfl
    | cons d todo =>
        cases h
        rfl

theorem stop_step_closing {a b : Bool} (hab : (a || b) = true)
    (hnm : (n, m) ∈ [(4, 4), (8, 9), (13, 13)])
    (hh : heard trace = (past.map Dialog.said).reverse)
    (h : Step cap ⟨if a then .closeW .stopfifo :: closing n todo else closing n todo,
      if b then .closeR .stopfifo :: synchronising m todo else synchronising m todo,
      pipes {} {} ⟨[], b.toNat, a.toNat⟩, trace⟩ s') : Later past todo s' := by
  have hn : n = 4 ∨ n = 8 ∨ n = 13 := by simp at hnm; omega
  have hm : m = 4 ∨ m = 9 ∨ m = 13 := by simp at hnm; omega
  rcases h.heads with ⟨op, l, done, pipe, read, hl, hs, rfl⟩ |
    ⟨op, r, done, pipe, read, hr, hs, rfl⟩ | ⟨f, l, r, hl, hr, rfl⟩ | ⟨f, l, r, hl, hr, rfl⟩
  · cases a with
    | false => rw [closing_waits hn hl] at hs; cases hs
    | true =>
        cases hl
        simp only [solo, pipes, update_stopfifo, Option.some.injEq, Prod.mk.injEq] at hs
        obtain ⟨rfl, rfl, rfl⟩ := hs
        refine ⟨past, todo, rfl, ?_⟩
        cases b with
        | false => exact .stop false false hnm (by simpa using hh)
        | true => exact .stop false true hnm (by simpa using hh)
  · cases b with
    | false => rw [synchronising_waits hm hr] at hs; cases hs
    | true =>
        cases hr
        simp only [solo, pipes, update_stopfifo, Option.some.injEq, Prod.mk.injEq] at hs
        obtain ⟨rfl, rfl, rfl⟩ := hs
        refine ⟨past, todo, rfl, ?_⟩
        cases a with
        | false => exact .stop false false hnm (by simpa using hh)
        | true => exact .stop true false hnm (by simpa using hh)
  · cases a with
    | true => cases hl
    | false =>
        cases b with
        | true => cases hr
        | false => cases hab
  · cases a with
    | true => cases hl
    | false =>
        cases b with
        | true => cases hr
        | false => cases hab

theorem stop_step_open (hnm : (n, m) ∈ [(4, 4), (8, 9), (13, 13)])
    (hh : heard trace = (past.map Dialog.said).reverse)
    (h : Step cap ⟨closing n todo, synchronising m todo, pipes {} {} {}, trace⟩ s') :
    Later past todo s' := by
  have hn : n = 4 ∨ n = 8 ∨ n = 13 := by simp at hnm; omega
  have hm : m = 4 ∨ m = 9 ∨ m = 13 := by simp at hnm; omega
  have hpair : (n = 4 ∧ m = 4) ∨ (n = 8 ∧ m = 9) ∨ (n = 13 ∧ m = 13) := by simpa using hnm
  rcases h.heads with ⟨op, l, done, pipe, read, hl, hs, rfl⟩ |
    ⟨op, r, done, pipe, read, hr, hs, rfl⟩ | ⟨f, l, r, hl, hr, rfl⟩ | ⟨f, l, r, hl, hr, rfl⟩
  · rw [closing_waits hn hl] at hs
    cases hs
  · rw [synchronising_waits hm hr] at hs
    cases hs
  · rcases hpair with ⟨rfl, rfl⟩ | ⟨rfl, rfl⟩ | ⟨rfl, rfl⟩
    · cases hl
    · cases hl
      cases hr
      refine ⟨past, todo, rfl, ?_⟩
      simp only [meet, update_infifo]
      exact .inTurned (n := 9) (m := 10) (by decide) (by simpa using hh)
    · cases todo with
      | nil => cases hl
      | cons d todo => cases hl
  · rcases hpair with ⟨rfl, rfl⟩ | ⟨rfl, rfl⟩ | ⟨rfl, rfl⟩
    · cases hl
      cases hr
      refine ⟨past, todo, rfl, ?_⟩
      simp only [meet, update_outfifo]
      exact .outTurned (n := 5) (m := 5) (by decide) (by simpa using hh)
    · cases hl
    · cases todo with
      | nil => cases hl
      | cons d todo =>
          rw [closing_next] at hl
          rw [synchronising_next] at hr
          cases hl
          cases hr
          refine ⟨past, d :: todo, rfl, ?_⟩
          simp only [meet, update_infifo]
          exact .ask (by simp [hh])

theorem outTurned_step (hnm : (n, m) ∈ [(5, 5), (6, 5), (6, 6), (6, 7)])
    (hh : heard trace = (past.map Dialog.said).reverse)
    (h : Step cap ⟨closing n todo, synchronising m todo,
      pipes {} ⟨[], if m = 7 then 0 else 1, 6 - n⟩ {}, trace⟩ s') :
    Later past todo s' := by
  have hpair : (n = 5 ∧ m = 5) ∨ (n = 6 ∧ m = 5) ∨ (n = 6 ∧ m = 6) ∨ (n = 6 ∧ m = 7) := by
    simpa using hnm
  rcases hpair with ⟨rfl, rfl⟩ | ⟨rfl, rfl⟩ | ⟨rfl, rfl⟩ | ⟨rfl, rfl⟩ <;>
    rcases h.heads with ⟨op, l, done, pipe, read, hl, hs, rfl⟩ |
      ⟨op, r, done, pipe, read, hr, hs, rfl⟩ | ⟨f, l, r, hl, hr, rfl⟩ |
      ⟨f, l, r, hl, hr, rfl⟩
  · cases hl
    simp [solo, pipes] at hs
    obtain ⟨rfl, rfl, rfl⟩ := hs
    exact ⟨past, todo, rfl, .outTurned (n := 6) (m := 5) (by decide) (by simpa using hh)⟩
  · cases hr
    simp [solo, pipes] at hs
  · cases hl
  · cases hl
  · cases hl
    simp [solo, pipes] at hs
  · cases hr
    simp [solo, pipes] at hs
    obtain ⟨rfl, rfl, rfl⟩ := hs
    exact ⟨past, todo, rfl, .outTurned (n := 6) (m := 6) (by decide) (by simpa using hh)⟩
  · cases hl
  · cases hl
    cases hr
  · cases hl
    simp [solo, pipes] at hs
  · cases hr
    simp [solo, pipes, Pipe.settle] at hs
    obtain ⟨rfl, rfl, rfl⟩ := hs
    exact ⟨past, todo, rfl, .outTurned (n := 6) (m := 7) (by decide) (by simpa using hh)⟩
  · cases hl
  · cases hl
    cases hr
  · cases hl
    simp [solo, pipes] at hs
  · cases hr
    simp [solo, pipes] at hs
  · cases hl
  · cases hl
    cases hr
    refine ⟨past, todo, rfl, ?_⟩
    simp only [meet, update_stopfifo]
    exact .stop (n := 8) (m := 9) true true (by decide) (by simpa using hh)

theorem inTurned_step (hnm : (n, m) ∈ [(9, 10), (9, 11), (10, 11), (11, 11)])
    (hh : heard trace = (past.map Dialog.said).reverse)
    (h : Step cap ⟨closing n todo, synchronising m todo,
      pipes ⟨[], if n = 11 then 0 else 1, 11 - m⟩ {} {}, trace⟩ s') :
    Later past todo s' := by
  have hpair : (n = 9 ∧ m = 10) ∨ (n = 9 ∧ m = 11) ∨ (n = 10 ∧ m = 11) ∨
      (n = 11 ∧ m = 11) := by simpa using hnm
  rcases hpair with ⟨rfl, rfl⟩ | ⟨rfl, rfl⟩ | ⟨rfl, rfl⟩ | ⟨rfl, rfl⟩ <;>
    rcases h.heads with ⟨op, l, done, pipe, read, hl, hs, rfl⟩ |
      ⟨op, r, done, pipe, read, hr, hs, rfl⟩ | ⟨f, l, r, hl, hr, rfl⟩ |
      ⟨f, l, r, hl, hr, rfl⟩
  · cases hl
    simp [solo, pipes] at hs
  · cases hr
    simp [solo, pipes] at hs
    obtain ⟨rfl, rfl, rfl⟩ := hs
    exact ⟨past, todo, rfl, .inTurned (n := 9) (m := 11) (by decide) (by simpa using hh)⟩
  · cases hl
  · cases hl
  · cases hl
    simp [solo, pipes] at hs
    obtain ⟨rfl, rfl, rfl⟩ := hs
    exact ⟨past, todo, rfl, .inTurned (n := 10) (m := 11) (by decide) (by simpa using hh)⟩
  · cases hr
    simp [solo, pipes] at hs
  · cases hl
  · cases hl
  · cases hl
    simp [solo, pipes, Pipe.settle] at hs
    obtain ⟨rfl, rfl, rfl⟩ := hs
    exact ⟨past, todo, rfl, .inTurned (n := 11) (m := 11) (by decide) (by simpa using hh)⟩
  · cases hr
    simp [solo, pipes] at hs
  · cases hl
  · cases hl
  · cases hl
    simp [solo, pipes] at hs
  · cases hr
    simp [solo, pipes] at hs
  · cases hl
  · cases hl
    cases hr
    refine ⟨past, todo, rfl, ?_⟩
    simp only [meet, update_stopfifo]
    exact .stop (n := 13) (m := 13) true true (by decide) (by simpa using hh)

variable {d : Dialog}

theorem ask_step (hh : heard trace = [] :: (past.map Dialog.said).reverse)
    (h : Step cap ⟨.put .infifo d.command :: .openR .outfifo ::
        (d.script.map clientOp ++ closing 0 todo),
      .get .infifo :: .openW .outfifo :: (d.script.map serverOp ++ synchronising 0 todo),
      pipes ⟨[], 1, 1⟩ {} {}, trace⟩ s') : Later past (d :: todo) s' := by
  rcases h.heads with ⟨op, l, done, pipe, read, hl, hs, rfl⟩ |
    ⟨op, r, done, pipe, read, hr, hs, rfl⟩ | ⟨f, l, r, hl, hr, rfl⟩ | ⟨f, l, r, hl, hr, rfl⟩
  · cases hl
    simp [solo, pipes] at hs
    obtain ⟨-, rfl, rfl, rfl⟩ := hs
    exact ⟨past, d :: todo, rfl, .asked (by simpa using hh)⟩
  · cases hr
    simp [solo, pipes] at hs
  · cases hl
  · cases hl

theorem asked_step (hh : heard trace = [] :: (past.map Dialog.said).reverse)
    (h : Step cap ⟨.openR .outfifo :: (d.script.map clientOp ++ closing 0 todo),
      .get .infifo :: .openW .outfifo :: (d.script.map serverOp ++ synchronising 0 todo),
      pipes ⟨[d.command], 1, 1⟩ {} {}, trace⟩ s') : Later past (d :: todo) s' := by
  rcases h.heads with ⟨op, l, done, pipe, read, hl, hs, rfl⟩ |
    ⟨op, r, done, pipe, read, hr, hs, rfl⟩ | ⟨f, l, r, hl, hr, rfl⟩ | ⟨f, l, r, hl, hr, rfl⟩
  · cases hl
    simp [solo, pipes] at hs
  · cases hr
    simp [solo, pipes] at hs
    obtain ⟨rfl, rfl, rfl⟩ := hs
    exact ⟨past, d :: todo, rfl, .answer (by simp [hh])⟩
  · cases hr
  · cases hl

theorem answer_step (hh : heard trace = [d.command] :: (past.map Dialog.said).reverse)
    (h : Step cap ⟨.openR .outfifo :: (d.script.map clientOp ++ closing 0 todo),
      .openW .outfifo :: (d.script.map serverOp ++ synchronising 0 todo),
      pipes ⟨[], 1, 1⟩ {} {}, trace⟩ s') : Later past (d :: todo) s' := by
  rcases h.heads with ⟨op, l, done, pipe, read, hl, hs, rfl⟩ |
    ⟨op, r, done, pipe, read, hr, hs, rfl⟩ | ⟨f, l, r, hl, hr, rfl⟩ | ⟨f, l, r, hl, hr, rfl⟩
  · cases hl
    simp [solo, pipes] at hs
  · cases hr
    simp [solo, pipes] at hs
  · cases hl
    cases hr
    refine ⟨past, d :: todo, rfl, ?_⟩
    simp only [meet, update_outfifo]
    exact .exchange (n := 0) (m := 0) (by decide) (by decide) (by simp) (by simp)
      (.inl ⟨rfl, rfl⟩) rfl (by simpa using hh)
  · cases hl

section Exchange

variable {cs ss : List Msg} {ins outs seg : List Text}

theorem Apart.outs_nil (h : Apart [] ss ins outs) : outs = [] := by
  rcases h with ⟨-, h⟩ | ⟨h, -⟩
  · exact h
  · simpa using (List.append_eq_nil_iff.mp h.symm).1

theorem Apart.ins_nil (h : Apart cs [] ins outs) : ins = [] := by
  rcases h with ⟨h, -⟩ | ⟨-, h⟩
  · simpa using (List.append_eq_nil_iff.mp h.symm).1
  · exact h

theorem Apart.clientGet (h : Apart (.toClient x :: cs) ss ins (line :: outs)) :
    Apart cs ss ins outs := by
  rcases h with ⟨-, h⟩ | ⟨h, hi⟩
  · cases h
  · rw [List.map_cons, List.cons_append] at h
    exact .inr ⟨(List.cons.inj h).2, hi⟩

theorem Apart.clientPut (h : Apart (.toServer line :: cs) ss ins outs) :
    Apart cs ss (ins ++ [line]) outs := by
  rcases h with ⟨h, ho⟩ | ⟨h, rfl⟩
  · exact .inl ⟨by simpa using h, ho⟩
  · cases outs with
    | cons o outs => cases h
    | nil => exact .inl ⟨h.symm, rfl⟩

theorem Apart.serverPut (h : Apart cs (.toClient line :: ss) ins outs) :
    Apart cs ss ins (outs ++ [line]) := by
  rcases h with ⟨h, rfl⟩ | ⟨h, hi⟩
  · cases ins with
    | cons i ins => cases h
    | nil => exact .inr ⟨h.symm, rfl⟩
  · exact .inr ⟨by simpa using h, hi⟩

theorem Apart.serverGet (h : Apart cs (.toServer x :: ss) (line :: ins) outs) :
    Apart cs ss ins outs := by
  rcases h with ⟨h, ho⟩ | ⟨-, h⟩
  · rw [List.map_cons, List.cons_append] at h
    exact .inl ⟨(List.cons.inj h).2, ho⟩
  · cases h

theorem exchange_client (hn : n ≤ 2) (hm : m ≤ 2) (hcs : 0 < n → cs = []) (hss : 0 < m → ss = [])
    (happ : Apart cs ss ins outs) (hseg : seg ++ ins ++ answers cs = d.said)
    (hh : heard trace = seg :: (past.map Dialog.said).reverse)
    (hl : cs.map clientOp ++ closing n todo = op :: l)
    (hs : solo cap (pipes ⟨ins, 1 - m, if n = 2 then 0 else 1⟩
      ⟨outs, 1 - n, if m = 2 then 0 else 1⟩ {}) op = some (done, pipe, read)) :
    Phase past (d :: todo) ⟨if done then l else cs.map clientOp ++ closing n todo,
      ss.map serverOp ++ synchronising m todo, pipe, trace ++ [⟨.left, op, read⟩]⟩ := by
  cases cs with
  | cons c cs =>
      have hn0 : n = 0 := by
        by_contra h
        cases hcs (Nat.pos_of_ne_zero h)
      subst hn0
      cases c with
      | toClient x =>
          cases hl
          cases outs with
          | nil => simp [solo, pipes, clientOp] at hs
          | cons line outs =>
              simp [solo, pipes, clientOp] at hs
              obtain ⟨rfl, rfl, rfl⟩ := hs
              exact .exchange (n := 0) hn hm (by simp) hss happ.clientGet hseg
                (by simpa [clientOp] using hh)
      | toServer line =>
          cases hl
          simp [solo, pipes, clientOp] at hs
          obtain ⟨-, rfl, rfl, rfl⟩ := hs
          exact .exchange (n := 0) hn hm (by simp) hss happ.clientPut
            (by simpa [answers] using hseg) (by simpa [clientOp] using hh)
  | nil =>
      obtain rfl := happ.outs_nil
      obtain rfl | rfl | rfl : n = 0 ∨ n = 1 ∨ n = 2 := by omega
      · cases hl
        simp [solo, pipes, Pipe.settle] at hs
        obtain ⟨rfl, rfl, rfl⟩ := hs
        exact Phase.exchange (n := 1) (by decide) hm (by simp) hss happ hseg
          (by simpa using hh)
      · cases hl
        have hkeep : (⟨ins, 1 - m, 0⟩ : Pipe Text).settle = ⟨ins, 1 - m, 0⟩ :=
          Pipe.settle_eq fun h0 _ => by
            have hss' := hss (by simp only at h0; omega)
            subst hss'
            exact happ.ins_nil
        simp [solo, pipes, hkeep] at hs
        obtain ⟨rfl, rfl, rfl⟩ := hs
        exact Phase.exchange (n := 2) (by decide) hm (by simp) hss happ hseg
          (by simpa using hh)
      · cases hl
        simp [solo, pipes] at hs

theorem exchange_server (hn : n ≤ 2) (hm : m ≤ 2) (hcs : 0 < n → cs = []) (hss : 0 < m → ss = [])
    (happ : Apart cs ss ins outs) (hseg : seg ++ ins ++ answers cs = d.said)
    (hh : heard trace = seg :: (past.map Dialog.said).reverse)
    (hr : ss.map serverOp ++ synchronising m todo = op :: r)
    (hs : solo cap (pipes ⟨ins, 1 - m, if n = 2 then 0 else 1⟩
      ⟨outs, 1 - n, if m = 2 then 0 else 1⟩ {}) op = some (done, pipe, read)) :
    Phase past (d :: todo) ⟨cs.map clientOp ++ closing n todo,
      if done then r else ss.map serverOp ++ synchronising m todo, pipe,
      trace ++ [⟨.right, op, read⟩]⟩ := by
  cases ss with
  | cons c ss =>
      have hm0 : m = 0 := by
        by_contra h
        cases hss (Nat.pos_of_ne_zero h)
      subst hm0
      cases c with
      | toClient line =>
          cases hr
          simp [solo, pipes, serverOp] at hs
          obtain ⟨-, rfl, rfl, rfl⟩ := hs
          exact .exchange (m := 0) hn hm hcs (by simp) happ.serverPut hseg
            (by simpa [serverOp] using hh)
      | toServer x =>
          cases hr
          cases ins with
          | nil => simp [solo, pipes, serverOp] at hs
          | cons line ins =>
              simp [solo, pipes, serverOp] at hs
              obtain ⟨rfl, rfl, rfl⟩ := hs
              have hseg' : (seg ++ [line]) ++ ins ++ answers cs = d.said := by
                simpa using hseg
              exact .exchange (m := 0) hn hm hcs (by simp) happ.serverGet hseg'
                (by simp [serverOp, hh])
  | nil =>
      obtain rfl := happ.ins_nil
      obtain rfl | rfl | rfl : m = 0 ∨ m = 1 ∨ m = 2 := by omega
      · cases hr
        simp [solo, pipes, Pipe.settle] at hs
        obtain ⟨rfl, rfl, rfl⟩ := hs
        exact Phase.exchange (m := 1) hn (by decide) hcs (by simp) happ hseg
          (by simpa using hh)
      · cases hr
        have hkeep : (⟨outs, 1 - n, 0⟩ : Pipe Text).settle = ⟨outs, 1 - n, 0⟩ :=
          Pipe.settle_eq fun h0 _ => by
            have hcs' := hcs (by simp only at h0; omega)
            subst hcs'
            exact happ.outs_nil
        simp [solo, pipes, hkeep] at hs
        obtain ⟨rfl, rfl, rfl⟩ := hs
        exact Phase.exchange (m := 2) hn (by decide) hcs (by simp) happ hseg
          (by simpa using hh)
      · cases hr
        simp [solo, pipes] at hs

theorem exchange_step (hn : n ≤ 2) (hm : m ≤ 2) (hcs : 0 < n → cs = [])
    (hss : 0 < m → ss = []) (happ : Apart cs ss ins outs)
    (hseg : seg ++ ins ++ answers cs = d.said)
    (hh : heard trace = seg :: (past.map Dialog.said).reverse)
    (h : Step cap ⟨cs.map clientOp ++ closing n todo, ss.map serverOp ++ synchronising m todo,
      pipes ⟨ins, 1 - m, if n = 2 then 0 else 1⟩ ⟨outs, 1 - n, if m = 2 then 0 else 1⟩ {},
      trace⟩ s') : Later past (d :: todo) s' := by
  rcases h.heads with ⟨op, l, done, pipe, read, hl, hs, rfl⟩ |
    ⟨op, r, done, pipe, read, hr, hs, rfl⟩ | ⟨f, l, r, hl, hr, rfl⟩ | ⟨f, l, r, hl, hr, rfl⟩
  · exact ⟨past, d :: todo, rfl, exchange_client hn hm hcs hss happ hseg hh hl hs⟩
  · exact ⟨past, d :: todo, rfl, exchange_server hn hm hcs hss happ hseg hh hr hs⟩
  · cases cs with
    | cons c cs => cases c <;> cases hl
    | nil =>
        obtain rfl | rfl | rfl : n = 0 ∨ n = 1 ∨ n = 2 := by omega
        all_goals cases hl
  · -- Both are through with the exchange.
    cases cs with
    | cons c cs => cases c <;> cases hl
    | nil =>
        obtain rfl | rfl | rfl : n = 0 ∨ n = 1 ∨ n = 2 := by omega
        · cases hl
        · cases hl
        · cases hl
          cases ss with
          | cons c ss => cases c <;> cases hr
          | nil =>
              obtain rfl | rfl | rfl : m = 0 ∨ m = 1 ∨ m = 2 := by omega
              · cases hr
              · cases hr
              · cases hr
                obtain rfl := happ.outs_nil
                obtain rfl := happ.ins_nil
                refine ⟨past ++ [d], todo, by simp, ?_⟩
                simp only [meet, update_stopfifo]
                have hseg' : seg = d.said := by simpa [answers] using hseg
                exact .stop (n := 4) (m := 4) true true (by decide)
                  (by simp [hh, hseg'])

end Exchange

theorem Phase.step (hp : Phase past todo s) (h : Step cap s s') : Later past todo s' := by
  cases hp with
  | stop a b hnm hh =>
      cases hab : (a || b) with
      | true => exact stop_step_closing hab hnm hh h
      | false =>
          rw [Bool.or_eq_false_iff] at hab
          obtain ⟨rfl, rfl⟩ := hab
          exact stop_step_open hnm hh h
  | ask hh => exact ask_step hh h
  | asked hh => exact asked_step hh h
  | answer hh => exact answer_step hh h
  | exchange hn hm hcs hss happ hseg hh =>
      exact exchange_step hn hm hcs hss happ hseg hh h
  | outTurned hnm hh => exact outTurned_step hnm hh h
  | inTurned hnm hh => exact inTurned_step hnm hh h

theorem phase_of_reachable (h : Relation.ReflTransGen (Step cap) (initial ds) s) :
    Later [] ds s := by
  induction h with
  | refl =>
      exact ⟨[], ds, rfl, Phase.stop (n := 13) (m := 13) false false (by decide) rfl⟩
  | tail _ hstep ih =>
      obtain ⟨past, todo, heq, hp⟩ := ih
      obtain ⟨past', todo', heq', hp'⟩ := hp.step hstep
      exact ⟨past', todo', heq'.trans heq, hp'⟩

/-! ## No phase is a dead end -/

theorem level_progress (hcap : 0 < cap) (hn : n ≤ 2) (hm : m ≤ 2) (hcs : 0 < n → cs = [])
    (hss : 0 < m → cs = []) : ∃ s',
    Step cap ⟨cs.map clientOp ++ closing n todo, cs.map serverOp ++ synchronising m todo,
      pipes ⟨[], 1 - m, if n = 2 then 0 else 1⟩ ⟨[], 1 - n, if m = 2 then 0 else 1⟩ {},
      trace⟩ s' := by
  cases cs with
  | nil =>
      obtain rfl | rfl | rfl : n = 0 ∨ n = 1 ∨ n = 2 := by omega
      · exact ⟨_, .left rfl⟩
      · exact ⟨_, .left rfl⟩
      · obtain rfl | rfl | rfl : m = 0 ∨ m = 1 ∨ m = 2 := by omega
        · exact ⟨_, .right rfl⟩
        · exact ⟨_, .right rfl⟩
        · exact ⟨_, .readRight⟩
  | cons c cs =>
      have hn0 : n = 0 := by
        by_contra h
        cases hcs (Nat.pos_of_ne_zero h)
      have hm0 : m = 0 := by
        by_contra h
        cases hss (Nat.pos_of_ne_zero h)
      subst hn0 hm0
      cases c with
      | toClient line =>
          have hput : solo cap (pipes ⟨[], 1, 1⟩ ⟨[], 1, 1⟩ {}) (.put .outfifo line) = _ :=
            if_pos ⟨hcap, Nat.one_pos⟩
          exact ⟨_, .right hput⟩
      | toServer line =>
          have hput : solo cap (pipes ⟨[], 1, 1⟩ ⟨[], 1, 1⟩ {}) (.put .infifo line) = _ :=
            if_pos ⟨hcap, Nat.one_pos⟩
          exact ⟨_, .left hput⟩

theorem exchange_progress (hcap : 0 < cap) {ins outs : List Text} (hn : n ≤ 2) (hm : m ≤ 2)
    (hcs : 0 < n → cs = []) (hss : 0 < m → ss = []) (happ : Apart cs ss ins outs) :
    ∃ s',
    Step cap ⟨cs.map clientOp ++ closing n todo, ss.map serverOp ++ synchronising m todo,
      pipes ⟨ins, 1 - m, if n = 2 then 0 else 1⟩ ⟨outs, 1 - n, if m = 2 then 0 else 1⟩ {},
      trace⟩ s' := by
  rcases happ with ⟨rfl, rfl⟩ | ⟨rfl, rfl⟩
  · cases ins with
    | nil => exact level_progress hcap hn hm hcs hss
    | cons line ins => exact ⟨_, .right rfl⟩
  · cases outs with
    | nil => exact level_progress hcap hn hm hcs hss
    | cons line outs => exact ⟨_, .left rfl⟩

theorem Phase.progress (hcap : 0 < cap) (hp : Phase past todo s) :
    Done s ∨ ∃ s', Step cap s s' := by
  cases hp with
  | stop a b hnm hh =>
      rename_i n m
      cases a with
      | true => exact .inr ⟨_, .left rfl⟩
      | false =>
          cases b with
          | true => exact .inr ⟨_, .right rfl⟩
          | false =>
              have hpair : (n = 4 ∧ m = 4) ∨ (n = 8 ∧ m = 9) ∨ (n = 13 ∧ m = 13) := by
                simpa using hnm
              rcases hpair with ⟨rfl, rfl⟩ | ⟨rfl, rfl⟩ | ⟨rfl, rfl⟩
              · exact .inr ⟨_, .readRight⟩
              · exact .inr ⟨_, .readLeft⟩
              · cases todo with
                | nil => exact .inl ⟨rfl, rfl⟩
                | cons d todo => exact .inr ⟨_, .readRight⟩
  | ask hh =>
      refine .inr ⟨_, .left (if_pos ?_)⟩
      exact ⟨hcap, Nat.one_pos⟩
  | asked hh => exact .inr ⟨_, .right rfl⟩
  | answer hh => exact .inr ⟨_, .readLeft⟩
  | exchange hn hm hcs hss happ hseg hh =>
      exact .inr (exchange_progress hcap hn hm hcs hss happ)
  | outTurned hnm hh =>
      rename_i n m
      have hpair : (n = 5 ∧ m = 5) ∨ (n = 6 ∧ m = 5) ∨ (n = 6 ∧ m = 6) ∨
          (n = 6 ∧ m = 7) := by simpa using hnm
      rcases hpair with ⟨rfl, rfl⟩ | ⟨rfl, rfl⟩ | ⟨rfl, rfl⟩ | ⟨rfl, rfl⟩
      · exact .inr ⟨_, .left rfl⟩
      · exact .inr ⟨_, .right rfl⟩
      · exact .inr ⟨_, .right rfl⟩
      · exact .inr ⟨_, .readRight⟩
  | inTurned hnm hh =>
      rename_i n m
      have hpair : (n = 9 ∧ m = 10) ∨ (n = 9 ∧ m = 11) ∨ (n = 10 ∧ m = 11) ∨
          (n = 11 ∧ m = 11) := by simpa using hnm
      rcases hpair with ⟨rfl, rfl⟩ | ⟨rfl, rfl⟩ | ⟨rfl, rfl⟩ | ⟨rfl, rfl⟩
      · exact .inr ⟨_, .right rfl⟩
      · exact .inr ⟨_, .left rfl⟩
      · exact .inr ⟨_, .left rfl⟩
      · exact .inr ⟨_, .readRight⟩

/-! ## Between dialogs nothing is left -/

theorem client_within (hn : n ≤ 2) (ds : List Dialog) :
    cs.map clientOp ++ closing n todo ≠ clientProgram ds := by
  intro h
  obtain rfl | rfl | rfl : n = 0 ∨ n = 1 ∨ n = 2 := by omega
  all_goals
    cases cs with
    | nil => cases ds <;> cases h
    | cons c cs => cases c <;> cases ds <;> cases h

theorem server_within (hm : m ≤ 2) (ds : List Dialog) :
    ss.map serverOp ++ synchronising m todo ≠ serverProgram ds := by
  intro h
  obtain rfl | rfl | rfl : m = 0 ∨ m = 1 ∨ m = 2 := by omega
  all_goals
    cases ss with
    | nil => cases ds <;> cases h
    | cons c cs => cases c <;> cases ds <;> cases h

theorem Phase.empty (hp : Phase past todo s)
    (h : s.left = clientProgram ds ∨ s.right = serverProgram ds) :
    (s.pipe .infifo).content = [] ∧ (s.pipe .outfifo).content = [] := by
  cases hp with
  | stop | ask | answer | outTurned | inTurned => exact ⟨rfl, rfl⟩
  | asked =>
      rcases h with h | h
      · cases ds <;> cases h
      · cases ds <;> cases h
  | exchange hn hm =>
      rcases h with h | h
      · exact absurd h (client_within hn ds)
      · exact absurd h (server_within hm ds)

theorem said_lookup {line : List Text} (h : (past.map Dialog.said)[i]? = some line) :
    ∃ d, (past ++ todo)[i]? = some d ∧ line <+: d.said := by
  rw [List.getElem?_map] at h
  obtain ⟨d, hd, rfl⟩ := Option.map_eq_some_iff.mp h
  have hlt := (List.getElem?_eq_some_iff.mp hd).1
  exact ⟨d, by rw [List.getElem?_append_left hlt, hd], List.prefix_rfl⟩

theorem said_lookup_open {line seg : List Text} (hseg : seg <+: d.said)
    (h : (past.map Dialog.said ++ [seg])[i]? = some line) :
    ∃ e, (past ++ d :: todo)[i]? = some e ∧ line <+: e.said := by
  rcases Nat.lt_or_ge i past.length with hi | hi
  · rw [List.getElem?_append_left (by simpa using hi)] at h
    exact said_lookup h
  · rw [List.getElem?_append_right (by simpa using hi), List.length_map,
      List.getElem?_singleton] at h
    split at h
    · next h0 =>
        cases h
        exact ⟨d, by rw [List.getElem?_append_right hi, h0]; rfl, hseg⟩
    · cases h

theorem Phase.heard_prefix (hp : Phase past todo s) {line : List Text}
    (hi : (heard s.trace).reverse[i]? = some line) :
    ∃ d, (past ++ todo)[i]? = some d ∧ line <+: d.said := by
  cases hp with
  | stop _ _ _ hh | outTurned _ hh | inTurned _ hh =>
      rw [hh, List.reverse_reverse] at hi
      exact said_lookup hi
  | ask hh | asked hh =>
      rw [hh, List.reverse_cons, List.reverse_reverse] at hi
      exact said_lookup_open List.nil_prefix hi
  | answer hh =>
      rw [hh, List.reverse_cons, List.reverse_reverse] at hi
      exact said_lookup_open (List.prefix_append [_] _) hi
  | exchange _ _ _ _ _ hseg hh =>
      rw [hh, List.reverse_cons, List.reverse_reverse] at hi
      refine said_lookup_open ?_ hi
      rw [← hseg, List.append_assoc]
      exact List.prefix_append _ _

/-- The dialogs of one client, in whatever order the two sides take their steps:
nobody is ever stuck, nothing is left in a pipe between two dialogs, and what the
server reads in a dialog is what the client has written in it. -/
theorem dialogs_safe (hcap : 0 < cap) {ds : List Dialog} {s : Net Name Text}
    (h : Relation.ReflTransGen (Step cap) (initial ds) s) :
    (Done s ∨ ∃ s', Step cap s s') ∧
    (∀ todo, s.left = clientProgram todo ∨ s.right = serverProgram todo →
      (s.pipe .infifo).content = [] ∧ (s.pipe .outfifo).content = []) ∧
    ∀ (i : Nat) (line : List Text), (heard s.trace).reverse[i]? = some line →
      ∃ d, ds[i]? = some d ∧ line <+: d.said := by
  obtain ⟨past, todo, heq, hp⟩ := phase_of_reachable h
  refine ⟨hp.progress hcap, fun todo' => hp.empty, fun i line hi => ?_⟩
  rw [List.nil_append] at heq
  rw [← heq]
  exact hp.heard_prefix hi

/-- Two dialogs with one question and one answer each, after the first command is
written. -/
theorem dialogs_safe_asked :
    ∃ s, Relation.ReflTransGen (Step 1)
        (initial (List.replicate 2 ⟨['O'], [.toClient ['?'], .toServer ['!']]⟩)) s ∧
      (s.pipe .infifo).content = [['O']] ∧ (Done s ∨ ∃ s', Step 1 s s') := by
  have hrun : Relation.ReflTransGen (Step 1)
      (initial (List.replicate 2 ⟨['O'], [.toClient ['?'], .toServer ['!']]⟩)) _ :=
    .tail (.single Step.readRight) (Step.left rfl)
  exact ⟨_, hrun, rfl, (dialogs_safe (by decide) hrun).1⟩

end Steps

end DebianInstaller.Partman.Fifo
