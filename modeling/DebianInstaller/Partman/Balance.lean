import DebianInstaller.Partman.Within

/-!
# The timer and the exception handler

`handler_deactivation_counter` goes up and down in nested functions with several
ways out, and the exception handler stops a timer that is running and starts it
again. The regime `balance` has an invariant for each value of the two: between
two of the server's operations the counter and the timer are where the text of
the program says they are. Only the operations that change them need a proof of
their own.
-/

namespace DebianInstaller.Partman.Parted

open Programs Text

variable {W α : Type}

/-- One of the asserts about the timer and the exception handler has failed. -/
def Stop.timing : Stop → Bool
  | .assertion site => site.timing
  | _ => false

/-- The counter and the timer are known, and their asserts do not fail. -/
def balance (W : Type) : Regime (Nat × Bool) (State W) Stop where
  inv p s := s.handlerDeactivationCounter = p.1 ∧ s.timerStarted = p.2
  rel _ _ := True
  may e := e.timing = false
  refl _ := trivial
  trans _ _ := trivial

/-- The same where no timer is running. -/
def steady (W : Type) : Regime Nat (State W) Stop := (balance W).comap (·, false)

theorem mild_not_timing {e : Stop} (h : e.mild = true) : e.timing = false := by
  cases e <;> first | rfl | cases h

theorem speaking_balance : Speaking (balance W) where
  mild _ h := mild_not_timing h
  talk _ _ _ _ _ hs := ⟨hs, trivial⟩

theorem startTimer_balance (n : Nat) :
    Moves (balance W) (n, false) (n, true) startTimer := by
  refine .get_bind fun s hs => ?_
  have ht : (!s.timerStarted) = true := by rw [hs.2]; rfl
  refine .bind (assertThat_within ht _ _) fun _ => ?_
  refine .bind (speaking_balance.oprintf _ _) fun _ => ?_
  exact .modify fun s hs => ⟨⟨hs.1, rfl⟩, trivial⟩

theorem stopTimer_balance (n : Nat) :
    Moves (balance W) (n, true) (n, false) stopTimer := by
  refine .get_bind fun s hs => ?_
  refine .bind (assertThat_within hs.2 _ _) fun _ => ?_
  refine .bind (speaking_balance.oprintf _ _) fun _ => ?_
  exact .modify fun s hs => ⟨⟨hs.1, rfl⟩, trivial⟩

theorem timerHandler_balance (n : Nat) (permille : Nat) (stateName : Text) :
    Moves (balance W) (n, true) (n, true) (timerHandler permille stateName) := by
  refine .get_bind fun s hs => ?_
  exact .bind (assertThat_within hs.2 _ _) fun _ => speaking_balance.oprintf _ _

theorem pseudoException_balance (type message : Text) (options : List Text) :
    Within (balance W) (pseudoException type message options) := by
  rintro ⟨n, t⟩
  refine .get_bind fun s hs => ?_
  have hs₂ : s.timerStarted = t := hs.2
  simp only [hs₂]
  refine .bind (j := (n, false)) ?_ fun _ => ?_
  · cases t with
    | false => exact .pure _
    | true => exact stopTimer_balance n
  · have h : Speaking (balance W) := speaking_balance
    refine .bind (h.oprintf _ _) fun _ => .bind (h.oprintf _ _) fun _ => ?_
    refine .bind (h.oprintf _ _) fun _ => .bind (.forM (fun line => h.oprintf line _) _) fun _ => ?_
    refine .bind (h.oprintf _ _) fun _ => .bind (j := (n, t)) ?_ fun _ => ?_
    · cases t with
      | false => exact .pure _
      | true => exact startTimer_balance n
    · refine .bind (h.iscanf _ _ _) fun str => ?_
      split
      · exact .pure _
      · split
        · exact .pure _
        · exact .throw rfl

theorem deactivate_balance (n : Nat) :
    Moves (balance W) (n, false) (n + 1, false) deactivateExceptionHandler := by
  refine .bind .get fun s => ?_
  refine .bind (j := (n, false)) ?_ fun _ => ?_
  · exact whenever_moves fun _ => .modify fun _ hs => ⟨hs, trivial⟩
  · refine .modify fun s hs => ⟨⟨?_, hs.2⟩, trivial⟩
    exact congrArg (· + 1) hs.1

theorem activate_balance (n : Nat) :
    Moves (balance W) (n + 1, false) (n, false) activateExceptionHandler := by
  refine .get_bind fun s hs => ?_
  have hpos : decide (0 < s.handlerDeactivationCounter) = true := by
    rw [hs.1]
    exact decide_eq_true (Nat.succ_pos _)
  refine .bind (assertThat_within hpos _ _) fun _ => .bind (j := (n, false)) ?_ fun _ => ?_
  · refine .modify fun s hs => ⟨⟨?_, hs.2⟩, trivial⟩
    exact congrArg (· - 1) hs.1
  · refine .bind .get fun s => ?_
    exact whenever_moves fun _ => .modify fun _ hs => ⟨hs, trivial⟩

theorem indexOfName_balance (name : Text) : Within (balance W) (indexOfName name) := by
  intro p
  refine .bind .get fun s => ?_
  split
  · exact .pure _
  · exact .bind (.modify fun _ hs => ⟨hs, trivial⟩) fun _ => .pure _

theorem updateNamed_balance (name : Text) (f : Devdisk → Devdisk) :
    Within (balance W) (updateNamed name f) := fun p =>
  .bind (indexOfName_balance name p) fun _ => .modify fun _ hs => ⟨hs, trivial⟩

theorem callback_balance (lp : Libparted W) {timed : Bool} (q : Callback timed) (n : Nat) :
    Moves (balance W) (n, true) (n, true) (callback lp q) := by
  cases q with
  | throw ex =>
      exact throw_moves (fun t m o => pseudoException_balance t m o _)
        (fun _ h => mild_not_timing h) ex
  | tick permille stateName => exact timerHandler_balance n permille stateName

/-- The timer is stopped after a resize, and no other one is started within it. The
server resizes only while there is no timer. -/
theorem timeredFileSystemResize_balance (lp : Libparted W) (fs : FileSystem)
    (geom : Geometry) (n : Nat) :
    Moves (balance W) (n, false) (n, false) (timeredFileSystemResize lp fs geom) := by
  refine .bind (startTimer_balance n) fun _ => ?_
  refine .bind (call_moves (fun q => callback_balance lp q n) ?_) fun _ => ?_
  · exact fun _ _ _ hs => ⟨hs, trivial⟩
  · exact .bind (stopTimer_balance n) fun _ => .pure _

theorem call_steady (lp : Libparted W) {r : Request} (hr : r.timed = false) :
    Within (steady W) (call lp r) := fun n => call_moves
  (callback_moves (fun t m o => pseudoException_balance t m o (n, false))
    (fun _ h => mild_not_timing h) hr) fun _ _ _ hs => ⟨hs, trivial⟩

theorem plain_steady (lp : Libparted W) : Plain lp (steady W) (· + 1) where
  mild _ h := mild_not_timing h
  talk _ _ _ _ _ hs := ⟨hs, trivial⟩
  insert name n := indexOfName_balance name (n, false)
  ask type message options n := pseudoException_balance type message options (n, false)
  deactivate := deactivate_balance
  activate := activate_balance
  call _ hr := call_steady lp (Request.timed_of_quiet hr)

theorem loose_steady : Loose (steady W) where
  assertion _ hs := hs
  null _ := rfl

theorem change_steady (lp : Libparted W) (c : Change) : Within (steady W) (change lp c) := by
  intro n
  refine .bind ((loose_steady.reading (plain_steady lp)).disk n) fun disk => ?_
  refine .bind (call_steady lp rfl n) fun p => ?_
  exact .bind (.modify fun _ hs => ⟨hs, trivial⟩) fun _ => .pure _

theorem changing_steady (lp : Libparted W) : Changing lp (steady W) (· + 1) where
  toQuiet := loose_steady.quiet (plain_steady lp)
  change c _ := change_steady lp c
  mark name n := updateNamed_balance name _ (n, false)
  resize := timeredFileSystemResize_balance lp

/-! ## Commands that open, close and reread -/

theorem rememberGeometriesNamed_steady (lp : Libparted W) (name : Text) :
    Within (steady W) (rememberGeometriesNamed lp name) := by
  intro n
  refine .bind ((plain_steady lp).diskNamed name n) fun disk => ?_
  split
  · exact updateNamed_balance name _ (n, false)
  · refine .bind ((plain_steady lp).partGeometries _ _ _ n) fun _ => ?_
    exact updateNamed_balance name _ (n, false)

theorem committing_steady (lp : Libparted W) : Committing lp (steady W) (· + 1) where
  toAdjusting := loose_steady.adjusting (changing_steady lp)
  commit := change_steady lp _
  unmark name n := .bind (i := n) (j := n) (updateNamed_balance name _ (n, false)) fun _ =>
    rememberGeometriesNamed_steady lp name n

theorem setDeviceNamed_steady (lp : Libparted W) (name : Text) (dev : Option DevId) :
    Within (steady W) (setDeviceNamed lp name dev) := by
  intro n
  have h := plain_steady lp
  refine .bind (h.diskNamed name n) fun _ => .bind (assertThat_may rfl n) fun _ => ?_
  refine .bind (h.deviceNamed name n) fun _ => .bind (h.destroyDevice _ n) fun _ => ?_
  exact updateNamed_balance name _ (n, false)

theorem setDiskNamed_steady (lp : Libparted W) (name : Text) (disk : Option Disk) :
    Within (steady W) (setDiskNamed lp name disk) := by
  intro n
  have h := plain_steady lp
  refine .bind (h.deviceOpened name n) fun _ => .bind (assertThat_may rfl n) fun _ => ?_
  refine .bind (h.diskNamed name n) fun _ => .bind (h.destroyDisk _ n) fun _ => ?_
  refine .bind (j := n) (updateNamed_balance name _ (n, false)) fun _ => ?_
  cases disk with
  | none => exact .pure _
  | some disk =>
      refine .bind (h.call _ rfl n) fun available => ?_
      split
      · exact .bind (h.insert name n) fun _ => h.call _ rfl n
      · split
        · exact updateNamed_balance name _ (n, false)
        · exact .pure _

theorem scanDeviceName_steady : Within (steady W) (scanDeviceName : Server W Text) := by
  intro n
  refine .bind (j := n) (speaking_balance.iscanf _ _ (n, false)) fun name => ?_
  refine .bind (j := n) (.modify fun _ hs => ⟨hs, trivial⟩) fun _ => ?_
  exact .bind (j := n) (indexOfName_balance name (n, false)) fun _ => .pure _

theorem Stays.steady (lp : Libparted W) {c : Server W Unit} (h : Stays (steady W) c) :
    Within (steady W) c := by
  obtain ⟨body, rfl, hb⟩ := h
  intro n
  refine .bind (scanDeviceName_steady n) fun name => ?_
  refine .bind ((plain_steady lp).deviceNamed name n) fun dev => ?_
  split
  · exact (plain_steady lp).critical _
  · exact hb _ _ n

theorem commandOpen_steady (lp : Libparted W) : Within (steady W) (commandOpen lp) := by
  intro n
  have h := plain_steady lp
  refine .bind (scanDeviceName_steady n) fun name => .bind (h.iscanf _ _ n) fun device => ?_
  refine .bind (h.deviceOpened name n) fun opened => .bind (j := n) ?_ fun _ => ?_
  · cases opened with
    | true => exact ignore_within (h.ask _ _ _) n
    | false => exact .bind (h.call _ rfl n) fun _ => setDeviceNamed_steady lp name _ n
  · refine .bind (h.oprintf _ n) fun _ => .bind (h.deviceNamed name n) fun dev => ?_
    split
    · refine .bind (h.oprintf _ n) fun _ => .bind (h.deactivate n) fun _ => ?_
      refine .bind (call_steady lp rfl _) fun _ => ?_
      refine .bind (setDiskNamed_steady lp name _ _) fun _ => ?_
      exact .bind ((committing_steady lp).unmark name _) fun _ => h.activate n
    · exact h.oprintf _ n

theorem commandClose_steady (lp : Libparted W) : Within (steady W) (commandClose lp) := by
  intro n
  have h := plain_steady lp
  refine .bind (scanDeviceName_steady n) fun name => .bind (h.deviceOpened name n) fun _ => ?_
  refine .bind (whenever_within (ignore_within (h.ask _ _ _)) n) fun _ => ?_
  refine .bind (setDiskNamed_steady lp name _ n) fun _ => ?_
  exact .bind (setDeviceNamed_steady lp name _ n) fun _ => h.oprintf _ n

theorem commandUndo_steady (lp : Libparted W) : Stays (steady W) (commandUndo lp) := by
  refine ⟨_, rfl, fun name dev n => ?_⟩
  have h := plain_steady lp
  refine .bind (h.deactivate n) fun _ => .bind (setDiskNamed_steady lp name _ _) fun _ => ?_
  refine .bind (call_steady lp rfl _) fun _ => .bind (setDiskNamed_steady lp name _ _) fun _ => ?_
  refine .bind (h.activate n) fun _ => .bind ((committing_steady lp).unmark name n) fun _ => ?_
  exact h.oprintf _ n

theorem commandNewLabel_steady (lp : Libparted W) : Stays (steady W) (commandNewLabel lp) := by
  refine ⟨_, rfl, fun name dev n => ?_⟩
  have h := plain_steady lp
  refine .bind ((changing_steady lp).mark name n) fun _ => .bind (h.iscanf _ _ n) fun _ => ?_
  refine .bind (h.call _ rfl n) fun type => ?_
  split
  · exact h.critical _
  · refine .bind (theDevice_within dev n) fun _ => ?_
    refine .bind (setDiskNamed_steady lp name _ n) fun _ => ?_
    refine .bind (setDeviceNamed_steady lp name _ n) fun _ => ?_
    refine .bind (h.call _ rfl n) fun dev => ?_
    split
    · exact h.critical _
    · refine .bind (setDeviceNamed_steady lp name _ n) fun _ => ?_
      refine .bind (h.call _ rfl n) fun disk => .bind (j := n) ?_ fun _ => h.oprintf _ n
      cases disk with
      | none => exact ignore_within (h.ask _ _ _) n
      | some disk => exact setDiskNamed_steady lp name _ n

theorem command_steady (lp : Libparted W) (m : Machine) (rounds : Nat) (v : Verb) :
    Within (steady W) (command lp m rounds v) := by
  have h := committing_steady lp
  cases hs : v.special with
  | false => exact Stays.steady lp (h.command m rounds hs rfl fun _ => rfl)
  | true =>
      cases v with
      | quit => exact fun _ => .throw rfl
      | «open» => exact commandOpen_steady lp
      | close => exact commandClose_steady lp
      | opened =>
          exact fun n => .bind (scanDeviceName_steady n) fun _ => .bind (h.oprintf _ n) fun _ =>
            .bind (h.deviceNamed _ n) fun _ => h.oprintf _ n
      | undo => exact Stays.steady lp (commandUndo_steady lp)
      | newLabel => exact Stays.steady lp (commandNewLabel_steady lp)
      | getLabelType =>
          exact fun n => .bind (scanDeviceName_steady n) fun _ =>
            h.printDisk fun disk => h.oprintf (disk.elim "unknown" Disk.type)
      | _ => cases hs

theorem dispatch_steady (lp : Libparted W) (m : Machine) (rounds : Nat) :
    Within (steady W) (dispatch lp m rounds) := by
  intro n
  refine .bind ((plain_steady lp).iscanf _ _ n) fun str => ?_
  split
  · exact command_steady lp m rounds _ n
  · exact (plain_steady lp).critical _

theorem reachable_steady {lp : Libparted W} {m : Machine} {s : State W}
    (h : Reachable lp m s) : (steady W).inv 0 s := by
  induction h with
  | start world alignment => exact ⟨rfl, rfl⟩
  | @step s _ rounds input _ hs ih =>
      have hin : (steady W).inv 0 { s with input := input, output := [] } := ih
      exact ((dispatch_steady lp m rounds 0).ok hin hs).1

/-- Whatever the commands were and whatever exceptions libparted has thrown in
them, the handler is on and no timer is running between two commands; and no
command ends the server at an assert about these. -/
theorem handler_balanced {lp : Libparted W} {m : Machine} {s : State W}
    (h : Reachable lp m s) :
    (s.handlerDeactivationCounter = 0 ∧ s.timerStarted = false) ∧
    ∀ rounds input e, serve lp m rounds input s = .error e →
      ∀ site : Site, site.timing = true → e ≠ .assertion site := by
  have hs := reachable_steady h
  refine ⟨hs, fun rounds input e he site hsite => ?_⟩
  rintro rfl
  have hin : (steady W).inv 0 { s with input := input, output := [] } := hs
  have hno := (dispatch_steady lp m rounds 0).error hin he
  exact absurd (hsite.symm.trans hno) (by decide)

/-- libparted on a disk with a file system, which says how far it is and asks once while it
is resized. -/
def asking : Libparted OneDisk where
  device := oneDisk.device
  optionString := oneDisk.optionString
  answer
    | .constraintAny _, w => .done (some ⟨0, 1, 1⟩, w)
    | .fileSystemOpen geom, w => .done (some ⟨0, geom⟩, w)
    | .fileSystemGetResizeConstraint _, w => .done (some ⟨0, 1, 1⟩, w)
    | .change disk (.setPartitionGeom _ _ start finish), w =>
        .done ((true, { disk with parts := disk.parts.map fun q =>
          { q with geom := ⟨start, finish, finish - start + 1⟩ } }), w)
    | .fileSystemResize .., w =>
        .ask (.tick 500 "moving") fun _ =>
          .ask (.throw ⟨"Warning", "bad block", 96⟩) fun _ => .done (true, w)
    | r, w => oneDisk.answer r w

/-- The partition is resized with a question in between, and then the disk cannot be written
and the user cancels. -/
def cancelled : Except Stop (State OneDisk) :=
  serveAll asking ⟨none, true⟩ 0
    ["OPEN =dev=sda /dev/sda\n", "RESIZE_PARTITION =dev=sda 512-5631 2560\nIgnore\nCancel\n"]
    (initial ⟨some [⟨1, 1, {}, ⟨1, 10, 10⟩, none, [], []⟩], false⟩ .optimal)

/-- What the client reads of the second command. -/
def cancelledOutput : List Text :=
  ["Timer", "500 moving", "ready", "Warning", "bad block", [], "Ignore", "Cancel", [], "Timer",
    "ready", "Error", "Input/output error during write", [], "Retry", "Ignore", "Cancel", [], "OK",
    "512-3071"]

theorem handler_balanced_cancelled :
    ∃ s, cancelled = .ok s ∧ s.output = cancelledOutput ∧
      s.handlerDeactivationCounter = 0 ∧ s.timerStarted = false := by
  have hrun : outcome State.output cancelled = .ok cancelledOutput := by decide +kernel
  obtain ⟨s, hs, hout⟩ := outcome_ok hrun
  exact ⟨s, hs, hout, (handler_balanced (Reachable.serveAll (.start _ _) hs)).1⟩

end DebianInstaller.Partman.Parted
