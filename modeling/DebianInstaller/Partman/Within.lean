import DebianInstaller.Partman.Commands

/-!
# What the parts of parted_server stay within

The server is made of a few operations: it talks to the client, it looks a name
up in the registry, it turns the exception handler off and on, it calls
libparted, it follows `disk`, and it lets libparted change the disk. A regime
that these stay within is one that every function built from them stays within,
and so is every command but those that open, close, reread or write a disk.

The structures below add operations to each other: a `Plain` regime is one for
commands that need no disk, a `Quiet` one is for those that read it, an
`Adjusting` one is for those that change it, and a `Committing` one is for those
that write it. Asserts that hold only because of what libparted does are among
the operations.
-/

namespace DebianInstaller.Partman.Parted

open Programs Text

variable {W α : Type} {ι : Type*}

variable {b : Bool} {c : Server W Unit} {i j : ι}

/-- The stops that are neither a failed assert nor a `disk` or a partition that
is `NULL`, nor a loop that goes on. -/
def Stop.mild : Stop → Bool
  | .assertion _ => false
  | .null .disk => false
  | .null .partition => false
  | .endless => false
  | _ => true

/-- The asserts about the timer and the exception handler. -/
def Site.timing : Site → Bool
  | .startTimer => true
  | .stopTimer => true
  | .timerHandler => true
  | .activateExceptionHandler => true
  | _ => false

/-- The calls that come back without having read or changed a disk or run a timer. -/
def Request.quiet : Request → Bool
  | .diskNew _ => false
  | .fileSystemResize .. => false
  | .change .. => false
  | _ => true

theorem Request.timed_of_quiet {r : Request} (h : r.quiet = true) : r.timed = false := by
  cases r <;> first | rfl | cases h

/-- A regime for what is read from the client and written to it. -/
structure Speaking (R : Regime ι (State W) Stop) : Prop where
  mild : ∀ e : Stop, e.mild = true → R.may e
  talk : ∀ i s out dump inp, R.inv i s →
    R.inv i { s with output := out, dumped := dump, input := inp } ∧
    R.rel s { s with output := out, dumped := dump, input := inp }

/-- `deeper` is where the exception handler is turned off once more. -/
structure Plain (lp : Libparted W) (R : Regime ι (State W) Stop) (deeper : ι → ι) : Prop
    extends Speaking R where
  insert : ∀ name, Within R (indexOfName name)
  ask : ∀ type message options, Within R (pseudoException type message options)
  deactivate : ∀ i, Moves R i (deeper i) deactivateExceptionHandler
  activate : ∀ i, Moves R (deeper i) i activateExceptionHandler
  call : ∀ r : Request, r.quiet = true → Within R (call lp r)

/-- A regime for functions that follow `disk`. -/
structure Reading (lp : Libparted W) (R : Regime ι (State W) Stop) (deeper : ι → ι) : Prop
    extends Plain lp R deeper where
  disk : Within R theDisk
  assertDisk : ∀ site : Site, site.timing = false → Within R (assertDisk site)

/-- A regime for commands that read the disk. -/
structure Quiet (lp : Libparted W) (R : Regime ι (State W) Stop) (deeper : ι → ι) : Prop
    extends Reading lp R deeper where
  possibleLogical : ∀ space : Partition, space.type.freespace = true →
    Within R (possibleLogicalPartition lp space)

/-- A regime for functions that change the disk. -/
structure Changing (lp : Libparted W) (R : Regime ι (State W) Stop) (deeper : ι → ι) : Prop
    extends Quiet lp R deeper where
  change : ∀ c, c ≠ .commit → Within R (change lp c)
  mark : ∀ name, Within R (changeNamed name)
  resize : ∀ fs geom, Within R (timeredFileSystemResize lp fs geom)

/-- A regime for commands that change the disk. -/
structure Adjusting (lp : Libparted W) (R : Regime ι (State W) Stop) (deeper : ι → ι) : Prop
    extends Changing lp R deeper where
  maximizeIfLogical : ∀ part, Within R (maximizeIfLogical lp part)
  addLogical : ∀ fsType start finish, Within R (addLogicalPartition lp fsType start finish)

/-- A regime for commands that write the disk. -/
structure Committing (lp : Libparted W) (R : Regime ι (State W) Stop) (deeper : ι → ι) : Prop
    extends Adjusting lp R deeper where
  commit : Within R (Parted.change lp .commit)
  unmark : ∀ name, Within R (unchangeNamed lp name)

variable {lp : Libparted W} {R : Regime ι (State W) Stop} {deeper : ι → ι}

/-! ## Operations -/

theorem whenever_moves (h : b = true → Moves R i i c) : Moves R i i (whenever b c) := by
  cases b with
  | false => exact .pure _
  | true => exact h rfl

theorem whenever_within (h : Within R c) :
    Within R (whenever b c) := fun i => whenever_moves fun _ => h i

theorem ignore_moves {c : Server W α} (h : Moves R i j c) :
    Moves R i j (ignore c) := .bind h fun _ => .pure _

theorem ignore_within {c : Server W α} (h : Within R c) : Within R (ignore c) :=
  fun i => ignore_moves (h i)

theorem assertThat_within (hb : b = true) (site : Site) : Within R (assertThat b site) := by
  subst hb
  exact fun i => .pure _

theorem assertThat_may {site : Site} (h : R.may (.assertion site)) :
    Within R (assertThat b site) := by
  intro i
  unfold assertThat
  split
  · exact .pure _
  · exact .throw h

theorem theDevice_within (dev : DevId) : Within R (theDevice lp dev) :=
  fun _ => .bind .get fun _ => .pure _

theorem alignmentOfDevice_within (dev : DevId) : Within R (alignmentOfDevice dev) := by
  intro i
  refine .bind .get fun s => ?_
  split <;> exact .pure _

/-! ### Calls of libparted -/

section Callback

variable {i : ι} (hask : ∀ type message options,
    Moves R i i (pseudoException type message options))
  (hmild : ∀ e : Stop, e.mild = true → R.may e)

include hask hmild

theorem exceptionHandler_moves (ex : Exception) : Moves R i i (exceptionHandler lp ex) := by
  refine .bind (hask _ _ _) fun response => ?_
  split
  · exact .pure _
  · split
    · exact .pure _
    · exact .throw (hmild _ rfl)

theorem throw_moves {timed : Bool} (ex : Exception) :
    Moves R i i (callback lp (.throw ex : Callback timed)) := by
  refine .bind .get fun s => ?_
  split
  · exact exceptionHandler_moves hask hmild ex
  · exact .pure _

theorem callback_moves {timed : Bool} (ht : timed = false) (q : Callback timed) :
    Moves R i i (callback lp q) := by
  cases q with
  | throw ex => exact throw_moves hask hmild ex
  | tick _ _ => cases ht

end Callback

theorem call_moves {r : Request} (hc : ∀ q : Callback r.timed, Moves R i i (callback lp q))
    (hr : ∀ s world reply, R.inv i s →
      R.inv i { s with world := world, calls := (s.deviceName, ⟨r, reply⟩) :: s.calls } ∧
      R.rel s { s with world := world, calls := (s.deviceName, ⟨r, reply⟩) :: s.calls }) :
    Moves R i i (call lp r) := by
  refine .bind .get fun s => .bind (Dialogue.run_moves hc _) fun p => ?_
  exact .bind (.modify fun s hs => hr s p.2 p.1 hs) fun _ => .pure _

namespace Speaking

variable (h : Speaking R)

include h

theorem critical (message : List Text) :
    Moves R i j (criticalError message : Server W α) := .throw (h.mild _ rfl)

theorem oprintf (line : Text) : Within R (oprintf line) := fun i =>
  .modify fun s hs => h.talk i s (s.output ++ [line]) s.dumped s.input hs

theorem fprintf (line : Text) : Within R (fprintf line) := fun i =>
  .modify fun s hs => h.talk i s s.output (s.dumped ++ [line]) s.input hs

theorem iscanf (scan : Text → Option (α × Text)) (message : String) :
    Within R (iscanf scan message) := by
  intro i
  refine .bind .get fun s => ?_
  split
  · next a rest _ =>
      exact .bind (.modify fun s hs => h.talk i s s.output s.dumped rest hs) fun _ => .pure _
  · exact h.critical _

end Speaking

namespace Plain

variable (h : Plain lp R deeper)

include h

theorem quot (a b : Int) : Within R (quot a b) := by
  intro i
  unfold Parted.quot
  split
  · exact .throw (h.mild _ rfl)
  · exact .pure _

theorem rem (a b : Int) : Within R (rem a b) := by
  intro i
  unfold Parted.rem
  split
  · exact .throw (h.mild _ rfl)
  · exact .pure _

theorem deviceNamed (name : Text) : Within R (deviceNamed name) :=
  fun i => .bind (h.insert name i) fun _ => .pure _

theorem diskNamed (name : Text) : Within R (diskNamed name) :=
  fun i => .bind (h.insert name i) fun _ => .pure _

theorem deviceOpened (name : Text) : Within R (deviceOpened name) :=
  fun i => .bind (h.deviceNamed name i) fun _ => .pure _

theorem namedIsChanged (name : Text) : Within R (namedIsChanged name) :=
  fun i => .bind (h.insert name i) fun _ => .pure _

theorem namedPartitionIsVirtual (name : Text) (start finish : Int) :
    Within R (namedPartitionIsVirtual name start finish) :=
  fun i => .bind (h.insert name i) fun _ => .pure _

theorem followConstraint (constraint : Option Constraint) :
    Within R (followConstraint constraint) := by
  intro i
  cases constraint with
  | none => exact .throw (h.mild _ rfl)
  | some c => exact .pure _

theorem destroyDisk (disk : Option Disk) : Within R (destroyDisk lp disk) := by
  intro i
  cases disk with
  | none => exact .pure _
  | some d => exact h.call _ rfl i

theorem destroyDevice (dev : Option DevId) : Within R (destroyDevice lp dev) := by
  intro i
  cases dev with
  | none => exact .pure _
  | some d => exact h.call _ rfl i

theorem partGeometries (dev : DevId) (parts : List Partition) :
    ∀ geometries, Within R (partGeometries lp dev geometries parts) := by
  induction parts with
  | nil => exact fun _ i => .pure _
  | cons part parts ih =>
      intro geometries i
      unfold Parted.partGeometries
      split
      · exact ih geometries i
      · refine .bind (h.call _ rfl i) fun geom => ?_
        simp only []
        split
        · exact h.critical _
        · exact ih _ i

theorem partitionCreationConstraint (cdev : DevId) :
    Within R (partitionCreationConstraint lp cdev) := by
  intro i
  refine .bind (alignmentOfDevice_within cdev i) fun _ => ?_
  refine .bind (h.call _ rfl i) fun aligned => ?_
  refine .bind (theDevice_within cdev i) fun device => ?_
  split
  · exact .pure _
  · refine .bind (h.quot _ _ i) fun grain => ?_
    refine .bind (h.call _ rfl i) fun down => ?_
    refine .bind (h.call _ rfl i) fun geom => ?_
    exact .bind (h.call _ rfl i) fun gapAtEnd => h.call _ rfl i

theorem closeFileSystem (fs : Option FileSystem) : Within R (closeFileSystem lp fs) := by
  intro i
  cases fs with
  | none => exact .pure _
  | some fs => exact h.call _ rfl i

theorem keepInside (p : Partition) (fs : Option FileSystem) :
    Within R (keepInside lp p fs) := by
  intro i
  cases fs with
  | none => exact .pure _
  | some fs =>
      simp only [Parted.keepInside]
      split
      · exact .bind (h.call _ rfl i) fun _ => .pure _
      · exact .pure _

theorem chs (device : Device) (sector : Int) : Within R (chs device sector) := by
  intro i
  refine .bind (h.quot _ _ i) fun _ => .bind (h.rem _ _ i) fun _ => ?_
  exact .bind (h.quot _ _ i) fun _ => .bind (h.rem _ _ i) fun _ => .pure _

theorem partitionPath (disk : Disk) (part : Partition) :
    Within R (partitionPath lp disk part) := by
  intro i
  unfold Parted.partitionPath
  split
  · exact .bind (theDevice_within _ i) fun _ => .pure _
  · exact h.call _ rfl i

theorem partitionName (disk : Disk) (part : Partition) :
    Within R (partitionName lp disk part) := by
  intro i
  refine .bind (h.call _ rfl i) fun feature => ?_
  split
  · refine .bind (h.call _ rfl i) fun active => ?_
    split
    · exact h.call _ rfl i
    · exact .pure _
  · exact .pure _

end Plain

/-! ## Functions that read the disk -/

namespace Reading

variable (h : Reading lp R deeper)

include h

theorem thePartition (part : PartId) : Within R (thePartition part) := by
  intro i
  refine .bind (h.disk i) fun disk => ?_
  split
  · exact .pure _
  · exact .throw (h.mild _ rfl)

theorem hasExtendedPartition : Within R (hasExtendedPartition : Server W Bool) :=
  fun i => .bind (h.assertDisk _ rfl i) fun _ => .bind (h.disk i) fun _ => .pure _

theorem partitionWithId (id : Text) : Within R (partitionWithId lp id) := by
  intro i
  unfold Parted.partitionWithId
  split
  · exact h.critical _
  · refine .bind (h.disk i) fun disk => .bind (theDevice_within _ i) fun device => ?_
    simp only []
    split
    · exact .throw (h.mild _ rfl)
    · exact .pure _

theorem openedConstraint (p : Partition) : Within R (openedConstraint lp p) := by
  intro i
  refine .bind (h.deactivate i) fun _ => .bind (h.call _ rfl _) fun opened => ?_
  refine .bind (h.activate i) fun _ => .bind (h.keepInside p opened i) fun fs => ?_
  split
  · exact .bind (h.call _ rfl i) fun _ => .pure _
  · refine .bind (h.call _ rfl i) fun probed => ?_
    split
    · exact .pure _
    · exact .bind (h.disk i) fun _ => .bind (h.call _ rfl i) fun _ => .pure _

theorem probedConstraint (p : Partition) : Within R (probedConstraint lp p) := by
  intro i
  refine .bind (h.call _ rfl i) fun fsType => ?_
  split
  · exact .bind (h.disk i) fun _ => .bind (h.call _ rfl i) fun _ => .pure _
  · refine .bind (h.call _ rfl i) fun fsGeom => ?_
    split
    · exact .pure _
    · split
      · exact .pure _
      · refine .bind (h.disk i) fun _ => .bind (theDevice_within _ i) fun _ => ?_
        refine .bind (h.call _ rfl i) fun init => ?_
        split
        · refine .bind (h.call _ rfl i) fun fullDev => ?_
          split
          · exact .pure _
          · exact .bind (h.call _ rfl i) fun _ => .pure _
        · exact .pure _

theorem possiblePrimaryPartition {space : Partition} (hs : space.type.freespace = true) :
    Within R (possiblePrimaryPartition lp space) := by
  intro i
  refine .bind (h.assertDisk _ rfl i) fun _ => .bind (assertThat_within hs _ i) fun _ => ?_
  refine .bind (h.deactivate i) fun _ => .bind (j := deeper i) ?_ fun _ =>
    .bind (h.activate i) fun _ => .pure _
  split
  · exact .pure _
  · refine .bind (h.disk _) fun _ => .bind (h.call _ rfl _) fun _ => ?_
    exact .bind (h.disk _) fun _ => .bind (h.call _ rfl _) fun _ => .pure _

theorem possibleExtendedPartition {space : Partition} (hs : space.type.freespace = true) :
    Within R (possibleExtendedPartition lp space) := by
  intro i
  refine .bind (h.assertDisk _ rfl i) fun _ => .bind (assertThat_within hs _ i) fun _ => ?_
  refine .bind (h.deactivate i) fun _ => .bind (h.disk _) fun _ => ?_
  refine .bind (h.call _ rfl _) fun feature => .bind (j := deeper i) ?_ fun _ =>
    .bind (h.activate i) fun _ => .pure _
  split
  · refine .bind (h.hasExtendedPartition _) fun extended => ?_
    split
    · exact .pure _
    · exact h.possiblePrimaryPartition hs _
  · exact .pure _

end Reading

namespace Quiet

variable (h : Quiet lp R deeper)

include h

theorem partitionType (part : Partition) : Within R (partitionType lp part) := by
  intro i
  unfold Parted.partitionType
  split
  · next hs =>
      refine .bind (h.possiblePrimaryPartition hs i) fun _ => ?_
      exact .bind (h.possibleLogical part hs i) fun _ => .pure _
  · exact .pure _

theorem partitionInfo (part : Partition) : Within R (partitionInfo lp part) := by
  intro i
  refine .bind (h.assertDisk _ rfl i) fun _ => .bind (h.partitionType part i) fun _ => ?_
  refine .bind (h.disk i) fun disk => .bind (h.partitionPath disk part i) fun _ => ?_
  exact .bind (h.partitionName disk part i) fun _ => .bind (theDevice_within _ i) fun _ =>
    .pure _

theorem dumpPartition (dev : DevId) (part : Partition) :
    Within R (dumpPartition lp dev part) := by
  intro i
  refine .bind (h.partitionInfo part i) fun _ => .bind (theDevice_within dev i) fun _ => ?_
  exact .bind (h.chs _ _ i) fun _ => .bind (h.chs _ _ i) fun _ => h.fprintf _ i

end Quiet

theorem Plain.dumpDevice (h : Plain lp R deeper) (lines : List Text) {k : Server W Unit}
    (hk : Moves R i j k) :
    Moves R i j (lines.foldr (fun line c => Parted.fprintf line >>= fun _ => c) k) := by
  induction lines with
  | nil => exact hk
  | cons line lines ih => exact .bind (h.fprintf line i) fun _ => ih

theorem Plain.dumpInfo (h : Plain lp R deeper) (dev : DevId) {disk : Option Disk}
    (hd : ∀ d, disk = some d → Quiet lp R deeper) :
    Within R (dumpInfo lp (some dev) disk) := by
  intro i
  refine .bind (h.deactivate i) fun _ => .bind (theDevice_within dev _) fun device => ?_
  cases disk with
  | none =>
      exact h.dumpDevice [_, _, _, _, _, _, _, _, _] (h.activate i)
  | some d =>
      refine h.dumpDevice [_, _, _, _, _, _, _, _, _, _, _] ?_
      refine .bind (.forM (fun part => (hd d rfl).dumpPartition dev part _) _) fun _ => ?_
      exact .bind (h.fprintf _ _) fun _ => h.activate i

/-! ## Functions that change the disk -/

namespace Changing

variable (h : Changing lp R deeper)

include h

theorem minimizeExtendedPartition : Within R (minimizeExtendedPartition lp) := fun i =>
  .bind (h.assertDisk _ rfl i) fun _ => .bind (h.disk i) fun _ =>
    whenever_within (ignore_within (h.change _ (by nofun))) i

theorem minimizeIfLogical (part : PartId) : Within R (minimizeIfLogical lp part) := fun i =>
  .bind (h.thePartition part i) fun _ => whenever_within h.minimizeExtendedPartition i

theorem addPrimaryPartition (fsType : Text) (start finish : Int) :
    Within R (addPrimaryPartition lp fsType start finish) := by
  intro i
  refine .bind (h.assertDisk _ rfl i) fun _ => .bind (h.hasExtendedPartition i) fun _ => ?_
  refine .bind (whenever_within h.minimizeExtendedPartition i) fun _ => ?_
  refine .bind (h.disk i) fun _ => .bind (h.call _ rfl i) fun part => ?_
  split
  · exact .pure _
  · refine .bind (h.disk i) fun _ => .bind (h.partitionCreationConstraint _ i) fun _ => ?_
    refine .bind (h.change _ (by nofun) i) fun ok => ?_
    split
    · exact .pure _
    · exact .bind (h.call _ rfl i) fun _ => .pure _

theorem addMaximized (fsType : Text) (start finish : Int) :
    Within R (addMaximized lp fsType start finish) := by
  intro i
  refine .bind (h.disk i) fun _ => .bind (h.call _ rfl i) fun part => ?_
  split
  · exact .bind (h.minimizeExtendedPartition i) fun _ => .pure _
  · refine .bind (h.disk i) fun _ => .bind (h.partitionCreationConstraint _ i) fun _ => ?_
    refine .bind (h.change _ (by nofun) i) fun ok => ?_
    split
    · exact .bind (h.minimizeExtendedPartition i) fun _ => .pure _
    · refine .bind (h.call _ rfl i) fun _ => ?_
      exact .bind (h.minimizeExtendedPartition i) fun _ => .pure _

theorem resizeGeom (part : PartId) (fs : Option FileSystem) (constraint : Constraint)
    (old : Geometry) (start finish : Int) :
    Within R (resizeGeom lp part fs constraint old start finish) := by
  intro i
  refine .bind (h.change _ (by nofun) i) fun ok => ?_
  split
  · cases fs with
    | none => exact .pure _
    | some fs =>
        refine .bind (h.thePartition part i) fun _ => .bind (h.resize _ _ i) fun ok => ?_
        split
        · exact .pure _
        · refine .bind (h.disk i) fun _ => .bind (h.call _ rfl i) fun _ => ?_
          exact .bind (ignore_within (h.change _ (by nofun)) i) fun _ => .pure _
  · exact .pure _

end Changing

namespace Adjusting

variable (h : Adjusting lp R deeper)

include h

theorem resizePartition (part : PartId) (start finish : Int) (openFilesystem : Bool) :
    Within R (resizePartition lp part start finish openFilesystem) := by
  intro i
  refine .bind (h.thePartition part i) fun p => ?_
  split
  · exact .pure _
  · refine .bind (j := i) ?_ fun constraint => ?_
    · split
      · exact h.openedConstraint p i
      · exact h.probedConstraint p i
    · split
      · exact .pure _
      · exact .bind (h.closeFileSystem _ i) fun _ => .pure _
      · refine .bind (h.maximizeIfLogical part i) fun _ => ?_
        refine .bind (h.resizeGeom _ _ _ _ _ _ i) fun _ => ?_
        refine .bind (h.closeFileSystem _ i) fun _ => ?_
        exact .bind (h.minimizeIfLogical part i) fun _ => .pure _

theorem resizeUntil (he : R.may .endless) (dev : DevId) (part : PartId) (start newSize : Int)
    (n : Nat) : ∀ finish, Within R (resizeUntil lp dev part start newSize n finish) := by
  induction n with
  | zero => exact fun _ i => .throw he
  | succ n ih =>
      intro finish i
      refine .bind (ignore_within (h.resizePartition _ _ _ _) i) fun _ => ?_
      refine .bind (theDevice_within dev i) fun _ => .bind (h.thePartition part i) fun _ => ?_
      split
      · exact ih _ i
      · exact .pure _

end Adjusting

/-! ## Regimes that do not mind an assert -/

/-- The server may stop at any of the other asserts, and at any pointer. -/
structure Loose (R : Regime ι (State W) Stop) : Prop where
  assertion : ∀ site : Site, site.timing = false → R.may (.assertion site)
  null : ∀ pointer, R.may (.null pointer)

namespace Loose

variable (hl : Loose R)

include hl

theorem reading (h : Plain lp R deeper) : Reading lp R deeper where
  toPlain := h
  disk := by
    intro i
    refine .bind .get fun s => ?_
    split
    · exact .pure _
    · exact .throw (hl.null _)
  assertDisk := fun site hs i => .bind .get fun s => assertThat_may (hl.assertion site hs) i

theorem nothingBetween (h : Plain lp R deeper) (space extended : Partition)
    (parts : List Partition) : Within R (nothingBetween lp space extended parts) := by
  induction parts with
  | nil => exact fun i => .pure _
  | cons part parts ih =>
      intro i
      refine .bind (h.call _ rfl i) fun active => ?_
      split
      · exact .bind (assertThat_may (hl.assertion _ rfl) i) fun _ => .pure _
      · exact ih i

theorem quiet (h : Plain lp R deeper) : Quiet lp R deeper where
  toReading := hl.reading h
  possibleLogical := by
    intro space hs i
    have hr := hl.reading h
    refine .bind (hr.assertDisk _ rfl i) fun _ => .bind (assertThat_within hs _ i) fun _ => ?_
    refine .bind (h.deactivate i) fun _ => .bind (hr.hasExtendedPartition _) fun _ => ?_
    refine .bind (hr.disk _) fun disk => .bind (j := deeper i) ?_ fun _ =>
      .bind (h.activate i) fun _ => .pure _
    split
    · exact hr.possibleExtendedPartition hs _
    · exact hl.nothingBetween h _ _ _ _

theorem maximizeExtendedPartition (h : Changing lp R deeper) :
    Within R (maximizeExtendedPartition lp) := by
  intro i
  refine .bind (h.assertDisk _ rfl i) fun _ => .bind (h.hasExtendedPartition i) fun _ => ?_
  refine .bind (assertThat_may (hl.assertion _ rfl) i) fun _ => .bind (h.disk i) fun _ => ?_
  split
  · exact .pure _
  · refine .bind (h.disk i) fun _ => .bind (h.call _ rfl i) fun _ => ?_
    exact ignore_within (h.change _ (by nofun)) i

theorem addExtendedPartition (h : Changing lp R deeper) (start finish : Int) :
    Within R (addExtendedPartition lp start finish) := by
  intro i
  refine .bind (h.assertDisk _ rfl i) fun _ => .bind (h.hasExtendedPartition i) fun _ => ?_
  refine .bind (assertThat_may (hl.assertion _ rfl) i) fun _ => ?_
  refine .bind (h.call _ rfl i) fun _ => .bind (h.disk i) fun _ => ?_
  refine .bind (h.call _ rfl i) fun extended => ?_
  split
  · exact .pure _
  · refine .bind (h.disk i) fun _ => .bind (h.call _ rfl i) fun _ => ?_
    refine .bind (h.change _ (by nofun) i) fun ok => ?_
    split
    · exact .pure _
    · exact .bind (h.call _ rfl i) fun _ => .pure _

theorem adjusting (h : Changing lp R deeper) : Adjusting lp R deeper where
  toChanging := h
  maximizeIfLogical := fun part i => .bind (h.thePartition part i) fun _ =>
    whenever_within (hl.maximizeExtendedPartition h) i
  addLogical := by
    intro fsType start finish i
    have hm := hl.maximizeExtendedPartition h i
    refine .bind (h.assertDisk _ rfl i) fun _ => .bind (h.hasExtendedPartition i) fun _ => ?_
    split
    · exact .bind hm fun _ => h.addMaximized _ _ _ i
    · refine .bind (hl.addExtendedPartition h _ _ i) fun extended => ?_
      split
      · exact .pure _
      · exact .bind hm fun _ => h.addMaximized _ _ _ i

end Loose

/-! ## Commands -/

/-- The command stays within the regime once its device is found to be open. -/
def Stays (R : Regime ι (State W) Stop) (c : Server W Unit) : Prop :=
  ∃ body, c = withDevice body ∧ ∀ name dev, Within R (body name dev)

/-- The command goes from one invariant to another on a device that has `P`. -/
def Goes {κ : Type*} (R : Regime ι (State W) Stop) (P : Text → Prop) (f g : κ → ι)
    (c : Server W Unit) : Prop :=
  ∃ body, c = withDevice body ∧ ∀ name dev, P name → ∀ k, Moves R (f k) (g k) (body name dev)

theorem Goes.stays (h : Goes R (fun _ => True) id id c) : Stays R c := by
  obtain ⟨body, hc, hb⟩ := h
  exact ⟨body, hc, fun name dev => hb name dev trivial⟩

theorem Quiet.withPartition (h : Quiet lp R deeper)
    {body : Text → DevId → Text → Option PartId → Server W Unit}
    (hb : ∀ name dev id part, Within R (body name dev id part)) :
    Stays R (withPartition lp body) :=
  ⟨_, rfl, fun name dev i => .bind (h.iscanf _ _ i) fun id =>
    .bind (h.partitionWithId id i) fun part => hb name dev id part i⟩

namespace Plain

variable (h : Plain lp R deeper)

include h

theorem commandIsChanged : Stays R (commandIsChanged : Server W Unit) :=
  ⟨_, rfl, fun name _ i => .bind (h.oprintf _ i) fun _ =>
    .bind (h.namedIsChanged name i) fun _ => h.oprintf _ i⟩

theorem printList {c : Server W (List Text)} (hc : Within R c) :
    Moves R i i (do
      Parted.oprintf "OK"
      deactivateExceptionHandler
      (← c).forM Parted.oprintf
      Parted.oprintf []
      activateExceptionHandler) := by
  refine .bind (h.oprintf _ i) fun _ => .bind (h.deactivate i) fun _ => ?_
  refine .bind (hc _) fun _ => .bind (.forM (fun line => h.oprintf line _) _) fun _ => ?_
  exact .bind (h.oprintf _ _) fun _ => h.activate i

theorem commandLabelTypes : Stays R (commandLabelTypes lp) :=
  ⟨_, rfl, fun _ _ _ => h.printList (h.call .diskTypes rfl)⟩

theorem commandFileSystemTypes : Stays R (commandFileSystemTypes lp) :=
  ⟨_, rfl, fun _ _ _ => h.printList (h.call .fileSystemTypes rfl)⟩

theorem printDisk {name : Text} {print : Option Disk → Server W Unit}
    (hp : ∀ disk, Within R (print disk)) :
    Moves R i i (do
      Parted.oprintf "OK"
      deactivateExceptionHandler
      print (← Parted.diskNamed name)
      activateExceptionHandler) := by
  refine .bind (h.oprintf _ i) fun _ => .bind (h.deactivate i) fun _ => ?_
  refine .bind (h.diskNamed name _) fun disk => ?_
  exact .bind (hp disk _) fun _ => h.activate i

theorem commandGetMaxPrimary : Stays R (commandGetMaxPrimary lp) := by
  refine ⟨_, rfl, fun _ _ i => h.printDisk fun disk j => ?_⟩
  cases disk with
  | none => exact h.oprintf _ j
  | some d => exact .bind (h.call _ rfl j) fun _ => h.oprintf _ j

theorem commandUsesExtended : Stays R (commandUsesExtended lp) := by
  refine ⟨_, rfl, fun _ _ i => h.printDisk fun disk j => ?_⟩
  cases disk with
  | none => exact h.oprintf _ j
  | some d => exact .bind (h.call _ rfl j) fun _ => h.oprintf _ j

theorem readStates (he : R.may .endless) (n : Nat) : Within R (readStates lp n) := by
  induction n with
  | zero => exact fun _ => .throw he
  | succ n ih =>
      intro i
      refine .bind (h.iscanf _ _ i) fun str => ?_
      split
      · exact .pure _
      · exact .bind (h.call _ rfl i) fun _ => .bind (ih i) fun _ => .pure _

theorem newPartitionSectors (new : NewPartition) (sectorSize : Int) :
    Within R (new.sectors sectorSize : Server W (Int × Int)) := by
  intro i
  unfold NewPartition.sectors
  split
  · exact .bind (h.quot _ _ i) fun _ => .bind (h.quot _ _ i) fun _ => .pure _
  · split
    · exact .bind (h.quot _ _ i) fun _ => .bind (h.quot _ _ i) fun _ => .pure _
    · split
      · exact .bind (h.quot _ _ i) fun _ => .bind (h.quot _ _ i) fun _ => .pure _
      · exact h.critical _

theorem newPartitionLogical (new : NewPartition) :
    Within R (new.logical : Server W Bool) := by
  intro i
  unfold NewPartition.logical
  split
  · exact .pure _
  · split
    · exact .pure _
    · exact h.critical _

end Plain

namespace Quiet

variable (h : Quiet lp R deeper)

include h

theorem commandDump (m : Machine) : Stays R (commandDump lp m) := by
  refine ⟨_, rfl, fun name dev i => ?_⟩
  refine .bind (h.diskNamed name i) fun disk => .bind (j := i) ?_ fun _ => h.oprintf _ i
  split
  · exact h.dumpInfo dev (fun _ _ => h) i
  · exact ignore_within (h.ask _ _ _) i

theorem printInfo (part : Option PartId) : Within R (printInfo lp part) := by
  intro i
  cases part with
  | none => exact h.oprintf _ i
  | some part =>
      refine .bind (h.thePartition part i) fun p => ?_
      exact .bind (h.partitionInfo p i) fun _ => h.oprintf _ i

theorem printQuietly (hc : Within R c) :
    Moves R i i (do
      Parted.oprintf "OK"
      deactivateExceptionHandler
      c
      activateExceptionHandler) :=
  .bind (h.oprintf _ i) fun _ => .bind (h.deactivate i) fun _ => .bind (hc _) fun _ =>
    h.activate i

theorem commandPartitionInfo : Stays R (commandPartitionInfo lp) :=
  h.withPartition fun _ _ _ part _ => h.printQuietly (h.printInfo part)

theorem printChs (dev : DevId) (part : Option PartId) : Within R (printChs lp dev part) := by
  intro i
  cases part with
  | none => exact h.oprintf _ i
  | some part =>
      refine .bind (h.thePartition part i) fun p => .bind (theDevice_within dev i) fun _ => ?_
      exact .bind (h.chs _ _ i) fun _ => .bind (h.chs _ _ i) fun _ => h.oprintf _ i

theorem commandGetChs : Stays R (commandGetChs lp) :=
  h.withPartition fun _ dev _ part _ => h.printQuietly (h.printChs dev part)

theorem activePartition (part : Option PartId) : Within R (activePartition lp part) := by
  intro i
  cases part with
  | none => exact .pure _
  | some part =>
      refine .bind (h.thePartition part i) fun p => .bind (h.call _ rfl i) fun active => ?_
      split <;> exact .pure _

theorem printFlag (flag : Nat) : Within R (printFlag lp flag) :=
  fun i => .bind (h.call _ rfl i) fun _ => h.oprintf _ i

theorem printValidFlags (p : Option Partition) : Within R (printValidFlags lp p) := by
  intro i
  cases p with
  | none => exact .pure _
  | some p =>
      refine .bind (h.call _ rfl i) fun flags => .forM (fun flag => ?_) flags
      exact .bind (h.call _ rfl i) fun _ => whenever_within (h.printFlag flag) i

theorem commandValidFlags : Stays R (commandValidFlags lp) := by
  refine h.withPartition fun _ _ _ part i => ?_
  refine .bind (h.oprintf _ i) fun _ => .bind (h.deactivate i) fun _ => ?_
  refine .bind (h.activePartition part _) fun p => .bind (h.printValidFlags p _) fun _ => ?_
  exact .bind (h.oprintf _ _) fun _ => h.activate i

theorem commandGetFlags : Stays R (commandGetFlags lp) := by
  refine h.withPartition fun _ _ id part i => .bind (h.activePartition part i) fun p => ?_
  split
  · exact h.critical _
  · refine .bind (h.oprintf _ i) fun _ => .bind (h.deactivate i) fun _ => ?_
    refine .bind (h.call _ rfl _) fun flags => .bind (.forM (fun flag => ?_) flags) fun _ =>
      .bind (h.oprintf _ _) fun _ => h.activate i
    refine .bind (h.call _ rfl _) fun available => ?_
    split
    · exact .bind (h.call _ rfl _) fun _ => whenever_within (h.printFlag flag) _
    · exact .pure _

theorem commandUsesNames : Stays R (commandUsesNames lp) :=
  ⟨_, rfl, fun _ _ i => .bind (h.oprintf _ i) fun _ => .bind (h.deactivate i) fun _ =>
    .bind (h.disk _) fun _ => .bind (h.call _ rfl _) fun _ => .bind (h.oprintf _ _) fun _ =>
      h.activate i⟩

theorem lastSector (dev : DevId) (start newSize : Int) :
    Within R (lastSector lp dev start newSize) := fun i =>
  .bind (theDevice_within dev i) fun _ => .bind (h.quot _ _ i) fun _ => .pure _

theorem printRange (dev : DevId) (part : PartId) : Within R (printRange lp dev part) :=
  fun i => .bind (h.oprintf _ i) fun _ => .bind (h.thePartition part i) fun _ =>
    .bind (theDevice_within dev i) fun _ => h.oprintf _ i

end Quiet

/-! ### Commands that take it that there is a partition -/

section Follow

variable {part : Option PartId}

theorem followPartition_within (hp : R.may (.null .partition) ∨ part.isSome) :
    Within R (followPartition part : Server W PartId) := by
  intro i
  cases part with
  | some part => exact .pure _
  | none => exact .throw (hp.resolve_right (by simp))

variable (h : Quiet lp R deeper) (hp : R.may (.null .partition) ∨ part.isSome)

include h hp

theorem printVirtual_within (name : Text) : Within R (printVirtual name part : Server W Unit) := by
  intro i
  refine .bind (h.oprintf _ i) fun _ => .bind (followPartition_within hp i) fun part => ?_
  refine .bind (h.thePartition part i) fun p => ?_
  exact .bind (h.namedPartitionIsVirtual _ _ _ i) fun _ => h.oprintf _ i

theorem printFileSystem_within (name : Text) : Within R (printFileSystem lp name part) := by
  intro i
  refine .bind (h.oprintf _ i) fun _ => .bind (followPartition_within hp i) fun part => ?_
  refine .bind (h.thePartition part i) fun p => ?_
  refine .bind (h.namedPartitionIsVirtual _ _ _ i) fun isVirtual => ?_
  split
  · exact h.oprintf _ i
  · refine .bind (h.deactivate i) fun _ => .bind (h.call _ rfl _) fun fsType => ?_
    exact .bind (h.oprintf _ _) fun _ => h.activate i

theorem printBusy_within : Within R (printBusy lp part) := by
  intro i
  refine .bind (h.oprintf _ i) fun _ => .bind (followPartition_within hp i) fun part => ?_
  exact .bind (h.call _ rfl i) fun _ => h.oprintf _ i

theorem printAlignmentOffset_within (dev : DevId) :
    Within R (printAlignmentOffset lp dev part) := by
  intro i
  refine .bind (h.oprintf _ i) fun _ => .bind (alignmentOfDevice_within dev i) fun align => ?_
  split
  · exact h.oprintf _ i
  · refine .bind (h.call _ rfl i) fun align => .bind (followPartition_within hp i) fun part => ?_
    refine .bind (h.thePartition part i) fun p => ?_
    split
    · exact .throw (h.mild _ rfl)
    · refine .bind (theDevice_within dev i) fun _ => .bind (h.rem _ _ i) fun _ => ?_
      exact h.oprintf _ i

end Follow

/-! ### Commands that change the disk -/

namespace Adjusting

variable (h : Adjusting lp R deeper)

include h

theorem printPartition (dev : DevId) (disk : Disk) (grainSize : Int) (part : Partition) :
    Within R (printPartition lp dev disk grainSize part) := by
  intro i
  unfold Parted.printPartition
  split
  · exact .pure _
  · refine .bind (j := i) ?_ fun small => ?_
    · unfold tooSmall
      split
      · refine .bind (h.call _ rfl i) fun feature => ?_
        split
        · exact .bind (theDevice_within dev i) fun _ => .pure _
        · exact .pure _
      · exact .pure _
    · split
      · exact .pure _
      · exact .bind (h.partitionInfo part i) fun _ => h.oprintf _ i

theorem commandPartitions : Stays R (commandPartitions lp) := by
  refine ⟨_, rfl, fun name dev i => ?_⟩
  refine .bind (h.oprintf _ i) fun _ => .bind (h.deactivate i) fun _ => ?_
  refine .bind (h.diskNamed name _) fun disk => ?_
  split
  · exact .bind (h.oprintf _ _) fun _ => h.activate i
  · refine .bind (h.hasExtendedPartition _) fun _ => ?_
    refine .bind (whenever_within h.minimizeExtendedPartition _) fun _ => ?_
    refine .bind (h.partitionCreationConstraint _ _) fun c => ?_
    refine .bind (h.followConstraint c _) fun _ => .bind (h.disk _) fun disk => ?_
    refine .bind (.forM (fun part => h.printPartition _ _ _ part _) _) fun _ => ?_
    exact .bind (h.oprintf _ _) fun _ => h.activate i

theorem commandSetFlags (he : R.may .endless) : Stays R (commandSetFlags lp) := by
  refine ⟨_, rfl, fun name dev i => .bind (h.mark name i) fun _ => ?_⟩
  refine .bind (h.iscanf _ _ i) fun id => .bind (h.partitionWithId id i) fun part => ?_
  refine .bind (h.activePartition part i) fun p => ?_
  split
  · exact h.critical _
  · next p =>
      refine .bind (h.oprintf _ i) fun _ => .bind (h.deactivate i) fun _ => ?_
      refine .bind (h.call _ rfl _) fun flags => .bind .get fun _ => ?_
      refine .bind (h.readStates he _ _) fun states => .bind (.forM (fun flag => ?_) _) fun _ =>
        h.activate i
      refine .bind (h.thePartition p.id _) fun _ => .bind (h.call _ rfl _) fun _ => ?_
      exact whenever_within (ignore_within (h.change _ (by nofun))) _

theorem commandSetName : Stays R (commandSetName lp) := by
  refine ⟨_, rfl, fun name dev i => .bind (h.mark name i) fun _ => ?_⟩
  refine .bind (h.disk i) fun _ => .bind (h.call _ rfl i) fun feature => ?_
  split
  · refine .bind (h.iscanf _ _ i) fun id => .bind (h.partitionWithId id i) fun part => ?_
    refine .bind (h.activePartition part i) fun p => ?_
    split
    · exact h.critical _
    · refine .bind (h.iscanf _ _ i) fun partName => .bind (h.oprintf _ i) fun _ => ?_
      refine .bind (h.deactivate i) fun _ => .bind (ignore_within (h.change _ (by nofun)) _) fun _ => ?_
      exact h.activate i
  · exact h.critical _

theorem setSystem (name : Text) (part : PartId) (sFstype : Text) (fsType : Option Text) :
    Within R (setSystem lp name part sFstype fsType) := by
  intro i
  cases fsType with
  | none =>
      refine .bind (h.call _ rfl i) fun flag => .bind (h.thePartition part i) fun p => ?_
      refine .bind (h.call _ rfl i) fun available => ?_
      split
      · refine .bind (h.call _ rfl i) fun isSet => ?_
        split
        · exact .pure _
        · exact .bind (h.mark name i) fun _ => ignore_within (h.change _ (by nofun)) i
      · exact h.critical _
  | some fsType =>
      refine .bind (h.thePartition part i) fun p => ?_
      split
      · exact .bind (h.mark name i) fun _ => ignore_within (h.change _ (by nofun)) i
      · exact .pure _

theorem commandChangeFileSystem : Stays R (commandChangeFileSystem lp) := by
  refine ⟨_, rfl, fun name dev i => .bind (h.iscanf _ _ i) fun id => ?_⟩
  refine .bind (h.iscanf _ _ i) fun sFstype => .bind (h.partitionWithId id i) fun part => ?_
  split
  · exact h.critical _
  · refine .bind (h.call _ rfl i) fun fsType => ?_
    exact .bind (h.setSystem _ _ _ _ i) fun _ => h.oprintf _ i

theorem commandNewPartition : Stays R (commandNewPartition lp) := by
  refine ⟨_, rfl, fun name dev i => .bind (h.assertDisk _ rfl i) fun _ => ?_⟩
  refine .bind (h.mark name i) fun _ => .bind (h.iscanf _ _ i) fun new => ?_
  refine .bind (h.newPartitionLogical new i) fun logical => .bind (h.call _ rfl i) fun fs => ?_
  split
  · exact h.critical _
  · refine .bind (theDevice_within dev i) fun _ => ?_
    refine .bind (h.newPartitionSectors new _ i) fun sectors => ?_
    refine .bind (j := i) ?_ fun part => .bind (h.oprintf _ i) fun _ =>
      .bind (h.deactivate i) fun _ => .bind (h.printInfo part _) fun _ => h.activate i
    split
    · exact h.addLogical _ _ _ i
    · exact h.addPrimaryPartition _ _ _ i

theorem deletePart (part : Option PartId) : Within R (deletePart lp part) := by
  intro i
  cases part with
  | none => exact .pure _
  | some part =>
      refine .bind (h.thePartition part i) fun _ => ?_
      refine .bind (ignore_within (h.change _ (by nofun)) i) fun _ => ?_
      exact whenever_within h.minimizeExtendedPartition i

theorem commandDeletePartition : Stays R (commandDeletePartition lp) := by
  refine ⟨_, rfl, fun name dev i => .bind (h.mark name i) fun _ => ?_⟩
  refine .bind (h.iscanf _ _ i) fun id => .bind (h.partitionWithId id i) fun part => ?_
  exact .bind (h.deletePart part i) fun _ => h.oprintf _ i

theorem printResizeRange (dev : DevId) (part : PartId) (constraint : Constraint) :
    Moves R (deeper i) i (printResizeRange lp dev part constraint) := by
  refine .bind (h.thePartition part _) fun p => .bind (h.call _ rfl _) fun _ => ?_
  refine .bind (h.call _ rfl _) fun _ => .bind (h.maximizeIfLogical part _) fun _ => ?_
  refine .bind (h.disk _) fun _ => .bind (h.call _ rfl _) fun _ => ?_
  refine .bind (h.minimizeIfLogical part _) fun _ => .bind (theDevice_within dev _) fun _ => ?_
  refine .bind (h.thePartition part _) fun _ => .bind (h.oprintf _ _) fun _ => ?_
  exact .bind (h.oprintf _ _) fun _ => h.activate i

theorem printAnyRange (dev : DevId) (part : PartId) :
    Moves R (deeper i) i (do
      let constraint ← call lp (.constraintAny (← theDisk).dev)
      Parted.printResizeRange lp dev part (← followConstraint constraint)) :=
  .bind (h.disk _) fun _ => .bind (h.call _ rfl _) fun c =>
    .bind (h.followConstraint c _) fun _ => h.printResizeRange _ _ _

theorem commandGetResizeRange : Stays R (commandGetResizeRange lp) := by
  refine ⟨_, rfl, fun name dev i => .bind (h.assertDisk _ rfl i) fun _ => ?_⟩
  refine .bind (h.iscanf _ _ i) fun id => .bind (h.deactivate i) fun _ => ?_
  refine .bind (h.partitionWithId id _) fun part => ?_
  split
  · exact h.critical _
  · refine .bind (h.thePartition _ _) fun p => ?_
    refine .bind (h.namedPartitionIsVirtual _ _ _ _) fun isVirtual => ?_
    split
    · exact h.printAnyRange dev _
    · refine .bind (h.call _ rfl _) fun fs => ?_
      split
      · split
        · exact .bind (h.call _ rfl _) fun _ => h.printAnyRange dev _
        · refine .bind (h.call _ rfl _) fun c => .bind (h.call _ rfl _) fun _ => ?_
          exact .bind (h.followConstraint c _) fun _ => h.printResizeRange _ _ _
      · refine .bind (h.call _ rfl _) fun probed => ?_
        split
        · exact .bind (h.oprintf _ _) fun _ => .bind (h.oprintf _ _) fun _ => h.activate i
        · exact h.printAnyRange dev _

theorem commandGetVirtualResizeRange : Stays R (commandGetVirtualResizeRange lp) := by
  refine ⟨_, rfl, fun name dev i => .bind (h.assertDisk _ rfl i) fun _ => ?_⟩
  refine .bind (h.iscanf _ _ i) fun id => .bind (h.deactivate i) fun _ => ?_
  refine .bind (h.partitionWithId id _) fun part => ?_
  split
  · exact h.critical _
  · exact h.printAnyRange dev _

end Adjusting

/-! ### Commands that write the disk

The write may lead to another invariant, one in which the disk is not changed. -/

section Writing

variable {κ : Type*} {P : Text → Prop} {f f' g : κ → ι} {d : κ → κ} (h : Quiet lp R deeper)
  (ha : Adjusting lp (R.comap f) d)
  (hcommit : ∀ k, Moves R (f k) (f' k) (ignore (change lp .commit)))
  (hunmark : ∀ name, P name → ∀ k, Moves R (f' k) (g k) (unchangeNamed lp name))

include h ha hcommit hunmark

theorem commandResizePartition_goes
    (hpure : ∀ k, Moves R (f k) (g k) (pure () : Server W Unit)) :
    Goes R P f g (commandResizePartition lp) := by
  refine ⟨_, rfl, fun name dev hname k => .bind (h.assertDisk _ rfl _) fun _ => ?_⟩
  refine .bind (j := f k) (ha.mark name k) fun _ => .bind (h.iscanf _ _ _) fun id => ?_
  refine .bind (h.partitionWithId id _) fun part => ?_
  split
  · exact h.critical _
  · next part =>
      refine .bind (h.iscanf _ _ _) fun newSize => .bind (h.thePartition part _) fun p => ?_
      refine .bind (h.lastSector dev _ _ _) fun finish => ?_
      refine .bind (h.namedPartitionIsVirtual _ _ _ _) fun isVirtual => ?_
      refine .bind (j := g k) ?_ fun _ => h.printRange dev part _
      split
      · exact .bind (j := f k) (ha.resizePartition _ _ _ _ k) fun _ => hpure k
      · refine .bind (j := f k) (ha.resizePartition _ _ _ _ k) fun ok => ?_
        split
        · exact .bind (hcommit k) fun _ => hunmark name hname k
        · exact hpure k

theorem commandVirtualResizePartition_goes (he : R.may .endless) (rounds : Nat) :
    Goes R P f g (commandVirtualResizePartition lp rounds) := by
  refine ⟨_, rfl, fun name dev hname k => .bind (h.assertDisk _ rfl _) fun _ => ?_⟩
  refine .bind (j := f k) (ha.mark name k) fun _ => .bind (h.iscanf _ _ _) fun id => ?_
  refine .bind (h.partitionWithId id _) fun part => ?_
  split
  · exact h.critical _
  · next part =>
      refine .bind (h.iscanf _ _ _) fun newSize => .bind (h.thePartition part _) fun p => ?_
      refine .bind (h.lastSector dev _ _ _) fun finish => ?_
      refine .bind (j := f k) (ha.resizeUntil he _ _ _ _ _ _ k) fun _ => ?_
      refine .bind (hcommit k) fun _ => .bind (hunmark name hname k) fun _ => ?_
      exact h.printRange dev part _

end Writing

namespace Committing

variable (h : Committing lp R deeper)

include h

theorem commandDiskUnchanged : Stays R (commandDiskUnchanged lp) :=
  ⟨_, rfl, fun name _ i => .bind (h.oprintf _ i) fun _ => h.unmark name i⟩

theorem commandCommit (m : Machine) : Stays R (commandCommit lp m) := by
  refine ⟨_, rfl, fun name _ i => ?_⟩
  refine .bind (whenever_within (ignore_within h.disk) i) fun _ => ?_
  refine .bind (h.insert name i) fun _ => ?_
  refine .bind (whenever_within (ignore_within h.commit) i) fun _ => ?_
  exact .bind (h.unmark name i) fun _ => h.oprintf _ i

theorem commandResizePartition : Stays R (commandResizePartition lp) :=
  (commandResizePartition_goes h.toQuiet (f := id) h.toAdjusting (ignore_within h.commit)
    (fun name _ => h.unmark name) fun _ => .pure _).stays

theorem commandVirtualResizePartition (he : R.may .endless) (rounds : Nat) :
    Stays R (commandVirtualResizePartition lp rounds) :=
  (commandVirtualResizePartition_goes h.toQuiet (f := id) h.toAdjusting
    (ignore_within h.commit) (fun name _ => h.unmark name) he rounds).stays

end Committing

/-- The commands that do not begin with a device that is open, and those that
replace the disk. -/
def Verb.special : Verb → Bool
  | .quit => true
  | .open => true
  | .close => true
  | .opened => true
  | .undo => true
  | .newLabel => true
  | .getLabelType => true
  | _ => false

/-- The commands that follow a pointer to a partition without a test. -/
def Verb.follows : Verb → Bool
  | .virtual => true
  | .getFileSystem => true
  | .isBusy => true
  | .alignmentOffset => true
  | _ => false

/-- The commands that leave the disk and its flag alone. -/
def Verb.reads : Verb → Bool
  | .virtual | .isChanged | .dump | .partitionInfo | .getChs | .labelTypes | .validFlags
  | .getFlags | .usesNames | .getMaxPrimary | .usesExtended | .fileSystemTypes
  | .getFileSystem | .isBusy | .alignmentOffset => true
  | _ => false

theorem Quiet.command (h : Quiet lp R deeper) (m : Machine) (rounds : Nat) {v : Verb}
    (hv : v.reads = true) (hf : v.follows = true → R.may (.null .partition)) :
    Stays R (command lp m rounds v) := by
  cases v with
  | virtual =>
      exact h.withPartition fun name _ _ _ => printVirtual_within h (.inl (hf rfl)) name
  | isChanged => exact h.commandIsChanged
  | dump => exact h.commandDump m
  | partitionInfo => exact h.commandPartitionInfo
  | getChs => exact h.commandGetChs
  | labelTypes => exact h.commandLabelTypes
  | validFlags => exact h.commandValidFlags
  | getFlags => exact h.commandGetFlags
  | usesNames => exact h.commandUsesNames
  | getMaxPrimary => exact h.commandGetMaxPrimary
  | usesExtended => exact h.commandUsesExtended
  | fileSystemTypes => exact h.commandFileSystemTypes
  | getFileSystem =>
      exact h.withPartition fun name _ _ _ => printFileSystem_within h (.inl (hf rfl)) name
  | isBusy => exact h.withPartition fun _ _ _ _ => printBusy_within h (.inl (hf rfl))
  | alignmentOffset =>
      exact h.withPartition fun _ dev _ _ => printAlignmentOffset_within h (.inl (hf rfl)) dev
  | _ => cases hv

theorem Committing.command (h : Committing lp R deeper) (m : Machine) (rounds : Nat)
    {v : Verb} (hs : v.special = false) (he : R.may .endless)
    (hf : v.follows = true → R.may (.null .partition)) :
    Stays R (command lp m rounds v) := by
  by_cases hr : v.reads = true
  · exact h.toQuiet.command m rounds hr hf
  · cases v with
    | diskUnchanged => exact h.commandDiskUnchanged
    | commit => exact h.commandCommit m
    | partitions => exact h.commandPartitions
    | setFlags => exact h.commandSetFlags he
    | setName => exact h.commandSetName
    | changeFileSystem => exact h.commandChangeFileSystem
    | newPartition => exact h.commandNewPartition
    | deletePartition => exact h.commandDeletePartition
    | resizePartition => exact h.commandResizePartition
    | getResizeRange => exact h.commandGetResizeRange
    | virtualResizePartition => exact h.commandVirtualResizePartition he rounds
    | getVirtualResizeRange => exact h.commandGetVirtualResizeRange
    | _ => first | exact absurd rfl hr | cases hs

end DebianInstaller.Partman.Parted
