import DebianInstaller.Lib.Regime
import DebianInstaller.Partman.AskForSize
import Mathlib.Data.Bool.AllAny

/-!
# Growing and shrinking a partition

A file system grows after its partition and shrinks before it. `perform_resizing` has both
orders twice, for NTFS and for ext2, ext3 and ext4, and any of its steps can fail; after most of
those that do the script exits. What the steps do is up to other programs. They are parameters
here, with what is known of them, and the script records how things are after each step.
-/

namespace DebianInstaller.Partman.Resize

open Text Programs

/-! ## The code -/

/-- The sizes in bytes of the file system, of its partition on the disk, and of the partition as
`parted_server` has it, with whatever else the programs go by. -/
structure World (ε : Type) where
  fs : Nat
  disk : Nat
  server : Nat
  rest : ε

/-- The programs that are run. Those that can fail say whether they succeeded. -/
structure Tools (ε : Type) where
  /-- `commit_changes` -/
  commitChanges : World ε → Bool × World ε
  /-- `VIRTUAL_RESIZE_PARTITION` for an id and a size; it answers with the new id. -/
  virtualResizePartition : Text → Text → World ε → Text × World ε
  /-- `RESIZE_PARTITION`, which resizes the file system too. -/
  resizePartition : Text → Text → World ε → Text × World ε
  commit : World ε → World ε
  /-- The path that `PARTITION_INFO` gives. -/
  partitionInfo : Text → World ε → Text
  /-- `ntfsresize -f`, with what follows `--size`. -/
  ntfsresize : Text → Option Text → World ε → Bool × World ε
  /-- `e2fsck -f -p` and its exit code. -/
  e2fsck : Text → World ε → Nat × World ε
  /-- The answer to `check_failed`, which is to go back. -/
  checkFailed : World ε → Bool
  /-- `resize2fs`, with the number in front of the `K`. -/
  resize2fs : Text → Option Text → World ε → Bool × World ε
  /-- The scripts in `init.d`. -/
  initScripts : World ε → Bool × World ε

/-- What is read from variables and from the directory of the partition. -/
structure Partition where
  virtual : Bool
  oldid : Text
  detectedFilesystem : Option Text
  cursize : Text
  newsize : Text

/-- How things are, and how they have been. -/
structure Run (ε : Type) where
  world : World ε
  points : List (World ε)

def Run.start {ε : Type} (w : World ε) : Run ε := ⟨w, [w]⟩

/-- A part of the script. Where it exits there is only what has been. -/
abbrev Script (ε : Type) (α : Type) := Prog (Run ε) (List (World ε)) α

variable {ε : Type} (T : Tools ε) (p : Partition)

/-- One program. -/
def step {α : Type} (f : World ε → α × World ε) : Script ε α := do
  let s ← get
  set (⟨(f s.world).2, s.points ++ [(f s.world).2]⟩ : Run ε)
  return (f s.world).1

/-- A question that changes nothing. -/
def look {α : Type} (f : World ε → α) : Script ε α := do return f (← get).world

/-- `exit 100`, unless it went well. -/
def orExit (ok : Bool) : Script ε PUnit :=
  if ok then pure ⟨⟩ else do throw (← get).points

def virtualResize : Script ε Text := step (T.virtualResizePartition p.oldid p.newsize)

def commit : Script ε PUnit := step fun w => (⟨⟩, T.commit w)

def pathOf (id : Text) : Script ε Text := look (T.partitionInfo id)

def ntfsresize (path : Text) (size : Option Text) : Script ε PUnit := do
  orExit (← step (T.ntfsresize path size))

def resize2fs (path : Text) (size : Option Text) : Script ε PUnit := do
  orExit (← step (T.resize2fs path size))

/-- The first branch. It leaves the new id. -/
def resizeNtfs : Script ε Text :=
  if longintLe p.cursize p.newsize then do
    let newid ← virtualResize T p
    commit T
    let path ← pathOf T newid
    ntfsresize T path none
    return newid
  else do
    commit T
    let path ← pathOf T p.oldid
    ntfsresize T path (some p.newsize)
    let newid ← virtualResize T p
    ntfsresize T path none
    return newid

/-- `e2fsck`, and the question whether to go on where it did not succeed. -/
def checkFilesystem (path : Text) : Script ε PUnit := do
  let code ← step (T.e2fsck path)
  let back ← look T.checkFailed
  orExit !(decide (1 < code) && back)

/-- `expr "$newsize" / 1024` -/
def kibibytes (newsize : Text) : Text := ofInt (saturate (number newsize) / 1024)

/-- The second branch. -/
def resizeExt : Script ε Text :=
  if longintLe p.cursize p.newsize then do
    let newid ← virtualResize T p
    commit T
    let path ← pathOf T newid
    checkFilesystem T path
    resize2fs T path none
    return newid
  else do
    commit T
    let path ← pathOf T p.oldid
    checkFilesystem T path
    resize2fs T path (some (kibibytes p.newsize))
    let newid ← virtualResize T p
    resize2fs T path none
    return newid

def isNtfs : Bool := p.detectedFilesystem = some "ntfs".toList

def isExt : Bool :=
  p.detectedFilesystem = some "ext2".toList || p.detectedFilesystem = some "ext3".toList ||
    p.detectedFilesystem = some "ext4".toList

/-- The branches. The last one is for virtual partitions and for the file systems that
libparted resizes. -/
def resizeFilesystem : Script ε Text :=
  if !p.virtual && isNtfs p then resizeNtfs T p
  else if !p.virtual && isExt p then resizeExt T p
  else step (T.resizePartition p.oldid p.newsize)

/-- `perform_resizing`. That the directory of the partition is copied to that of the new id, that
swap space is switched off and what is shown meanwhile has to do with no size. -/
def performResizing : Script ε PUnit := do
  if p.virtual then
    let _ ← resizeFilesystem T p
  else
    orExit (← step T.commitChanges)
    let _ ← resizeFilesystem T p
    orExit (← step T.initScripts)

/-- Every point of a run. -/
def points {α : Type} : Except (List (World ε)) (α × Run ε) → List (World ε)
  | .ok (_, s) => s.points
  | .error ws => ws

/-! ## What the programs do -/

/-- The changes are written to the disk or they are not, or they are read again. -/
def Writes (w w' : World ε) : Prop :=
  (w'.disk = w.disk ∨ w'.disk = w.server) ∧ (w'.server = w.server ∨ w'.server = w'.disk)

/-- The partitions are left alone. -/
def SamePartition (w w' : World ε) : Prop := w'.disk = w.disk ∧ w'.server = w.server

/-- A program that changes the size of a file system. If it fails the file system is somewhere
between the sizes. -/
def Resizes (bytes : Nat) (w : World ε) (ok : Bool) (w' : World ε) : Prop :=
  SamePartition w w' ∧ w'.fs ≤ if ok then bytes else max w.fs bytes

/-- What the programs can be relied on for. `parted_server` leaves a partition as large as it was
or makes it at least as large as it is told to, and a program that is given no size for a file
system takes that of the partition. -/
structure Tools.Lawful : Prop where
  commitChanges : ∀ w, Writes w (T.commitChanges w).2 ∧
    ((T.commitChanges w).2.fs = w.fs ∨ (T.commitChanges w).2.fs ≤ (T.commitChanges w).2.disk)
  virtualResizePartition : ∀ id size w, let w' := (T.virtualResizePartition id size w).2
    w'.fs = w.fs ∧ (w'.server = w.server ∨ number size ≤ w'.server) ∧
      (w'.disk = w.disk ∨ w'.disk = w'.server)
  commit : ∀ w, Writes w (T.commit w) ∧ (T.commit w).fs = w.fs
  ntfsresize : ∀ path size w, Resizes (size.elim w.disk number) w
    (T.ntfsresize path size w).1 (T.ntfsresize path size w).2
  e2fsck : ∀ path w, SamePartition w (T.e2fsck path w).2 ∧ (T.e2fsck path w).2.fs = w.fs
  resize2fs : ∀ path size w, Resizes (size.elim w.disk fun k => number k * 1024) w
    (T.resize2fs path size w).1 (T.resize2fs path size w).2
  initScripts : ∀ w, (T.initScripts w).2.disk = w.disk ∧ (T.initScripts w).2.fs = w.fs

/-! ## The file system stays within its partition -/

/-- The file system is no larger than its partition. -/
def World.Fits (w : World ε) : Prop := w.fs ≤ w.disk

/-- The partition is committed and has so many bytes. -/
def World.Committed (cursize : Nat) (w : World ε) : Prop :=
  w.disk = cursize ∧ w.server = cursize ∧ w.fs ≤ cursize

/-- Wherever the partition is, there is room for what was in it. -/
def World.Roomy (cursize : Nat) (w : World ε) : Prop :=
  cursize ≤ w.disk ∧ cursize ≤ w.server ∧ w.fs ≤ cursize

/-- The file system has been made small already. -/
def World.Shrunk (cursize newsize : Nat) (w : World ε) : Prop :=
  w.Committed cursize ∧ w.fs ≤ newsize

/-- At every point so far the file system has fitted, and `P` holds now. -/
def At (P : World ε → Prop) (s : Run ε) : Prop := (∀ w ∈ s.points, w.Fits) ∧ P s.world

/-- A part of the script that leads from `P` to `Q`; at every point the file system fits, also
where it exits. -/
def Leads {α : Type} (P : World ε → Prop) (c : Script ε α) (Q : α → World ε → Prop) : Prop :=
  Triple (At P) c (fun a => At (Q a)) fun ws => ∀ w ∈ ws, w.Fits

section

variable {α β : Type} {P : World ε → Prop} {Q : α → World ε → Prop} {R : β → World ε → Prop}

theorem leads_step {f : World ε → α × World ε}
    (h : ∀ w, P w → (f w).2.Fits ∧ Q (f w).1 (f w).2) : Leads P (step f) Q := by
  rintro s ⟨hpoints, hs⟩
  obtain ⟨hfits, hQ⟩ := h s.world hs
  refine ⟨fun w hw => ?_, hQ⟩
  rcases List.mem_append.mp hw with hw | hw
  · exact hpoints w hw
  · rw [List.mem_singleton.mp hw]
    exact hfits

theorem leads_look {f : World ε → α} (h : ∀ w, P w → Q (f w) w) : Leads P (look f) Q :=
  fun s hs => ⟨hs.1, h s.world hs.2⟩

theorem leads_orExit {ok : Bool} {Q : World ε → Prop} (h : ok = true → ∀ w, P w → Q w) :
    Leads P (orExit ok) fun _ => Q := by
  cases ok with
  | true => exact Triple.pure fun s hs => ⟨hs.1, h rfl s.world hs.2⟩
  | false => exact fun s hs => hs.1

theorem leads_bind {c : Script ε α} {k : α → Script ε β} (hc : Leads P c Q)
    (hk : ∀ a, Leads (Q a) (k a) R) : Leads P (c >>= k) R := Triple.bind hc hk

theorem leads_weaken {c : Script ε α} {P' : World ε → Prop} (hc : Leads P' c Q)
    (hP : ∀ w, P w → P' w) : Leads P c Q :=
  Triple.weaken hc (fun s hs => ⟨hs.1, hP s.world hs.2⟩) fun _ _ hs => hs

theorem leads_return (a : α) : Leads P (pure a) fun _ => P := Triple.pure fun _ hs => hs

end

variable {T} {cursize newsize : Nat} {Q : World ε → Prop}

theorem Writes.committed {w w' : World ε} (hw : Writes w w') (h : w.Committed cursize)
    (hfs : w'.fs = w.fs ∨ w'.fs ≤ w'.disk) : w'.Committed cursize := by
  obtain ⟨hdisk, hserver⟩ := hw
  obtain ⟨h₁, h₂, h₃⟩ := h
  unfold World.Committed
  omega

theorem Writes.roomy {w w' : World ε} (hw : Writes w w') (h : w.Roomy cursize)
    (hfs : w'.fs = w.fs) : w'.Roomy cursize := by
  obtain ⟨hdisk, hserver⟩ := hw
  obtain ⟨h₁, h₂, h₃⟩ := h
  unfold World.Roomy
  omega

theorem SamePartition.committed {w w' : World ε} (hsame : SamePartition w w') (hfs : w'.fs = w.fs)
    (h : w.Committed cursize) : w'.Committed cursize := by
  obtain ⟨hdisk, hserver⟩ := hsame
  unfold World.Committed at h ⊢
  omega

theorem SamePartition.roomy {w w' : World ε} (hsame : SamePartition w w') (hfs : w'.fs = w.fs)
    (h : w.Roomy cursize) : w'.Roomy cursize := by
  obtain ⟨hdisk, hserver⟩ := hsame
  unfold World.Roomy at h ⊢
  omega

theorem World.Committed.fits {w : World ε} (h : w.Committed cursize) : w.Fits :=
  h.2.2.trans_eq h.1.symm

theorem World.Roomy.fits {w : World ε} (h : w.Roomy cursize) : w.Fits := h.2.2.trans h.1

section

variable (hT : T.Lawful)
include hT

theorem commit_committed : Leads (World.Committed cursize) (commit T)
    fun _ => World.Committed cursize := by
  refine leads_step fun w hw => ?_
  obtain ⟨hwrites, hfs⟩ := hT.commit w
  have hw' := hwrites.committed hw (.inl hfs)
  exact ⟨hw'.fits, hw'⟩

theorem commit_roomy : Leads (World.Roomy cursize) (commit T) fun _ => World.Roomy cursize := by
  refine leads_step fun w hw => ?_
  obtain ⟨hwrites, hfs⟩ := hT.commit w
  have hw' := hwrites.roomy hw hfs
  exact ⟨hw'.fits, hw'⟩

theorem virtualResize_roomy (hle : cursize ≤ number p.newsize) :
    Leads (World.Committed cursize) (virtualResize T p) fun _ => World.Roomy cursize := by
  refine leads_step fun w hw => ?_
  obtain ⟨hfs, hserver, hdisk⟩ := hT.virtualResizePartition p.oldid p.newsize w
  obtain ⟨h₁, h₂, h₃⟩ := hw
  have hw' : World.Roomy cursize (T.virtualResizePartition p.oldid p.newsize w).2 := by
    unfold World.Roomy
    omega
  exact ⟨hw'.fits, hw'⟩

theorem virtualResize_shrunk : Leads (World.Shrunk cursize (number p.newsize)) (virtualResize T p)
    fun _ => World.Fits := by
  refine leads_step fun w hw => ?_
  obtain ⟨hfs, hserver, hdisk⟩ := hT.virtualResizePartition p.oldid p.newsize w
  obtain ⟨⟨h₁, h₂, h₃⟩, h₄⟩ := hw
  have hw' : World.Fits (T.virtualResizePartition p.oldid p.newsize w).2 := by
    unfold World.Fits
    omega
  exact ⟨hw', hw'⟩

theorem checkFilesystem_leads (path : Text) {P : World ε → Prop} (hP : ∀ w, P w → w.Fits)
    (hsame : ∀ {w w'}, SamePartition w w' → w'.fs = w.fs → P w → P w') :
    Leads P (checkFilesystem T path) fun _ => P := by
  refine leads_bind (Q := fun _ => P) (leads_step fun w hw => ?_) fun code => ?_
  · obtain ⟨hpartition, hfs⟩ := hT.e2fsck path w
    have hw' := hsame hpartition hfs hw
    exact ⟨hP _ hw', hw'⟩
  · exact leads_bind (leads_look fun _ hw => hw) fun back => leads_orExit fun _ _ hw => hw

end

theorem resize_fits {resizer : World ε → Bool × World ε}
    (h : ∀ w, Resizes w.disk w (resizer w).1 (resizer w).2) :
    Leads World.Fits (do orExit (← step resizer)) fun _ => World.Fits := by
  refine leads_bind (leads_step fun w hw => ?_) fun ok => leads_orExit fun _ _ hw => hw
  obtain ⟨⟨hdisk, -⟩, hfs⟩ := h w
  have hw' : World.Fits (resizer w).2 := by
    unfold World.Fits at hw ⊢
    split at hfs <;> omega
  exact ⟨hw', hw'⟩

/-- One that is given the new size, which is smaller, makes the file system no larger than
that or fails. -/
theorem resize_shrunk {bytes : Nat} {resizer : World ε → Bool × World ε}
    (h : ∀ w, Resizes bytes w (resizer w).1 (resizer w).2) (hbytes : bytes ≤ newsize)
    (hlt : newsize < cursize) : Leads (World.Committed cursize)
      (do orExit (← step resizer)) fun _ => World.Shrunk cursize newsize := by
  refine leads_bind (Q := fun ok w => w.Committed cursize ∧ (ok = true → w.fs ≤ newsize))
    (leads_step fun w hw => ?_) fun ok => leads_orExit fun hok _ hw => ⟨hw.1, hw.2 hok⟩
  obtain ⟨⟨hdisk, hserver⟩, hfs⟩ := h w
  obtain ⟨h₁, h₂, h₃⟩ := hw
  have hw' : World.Committed cursize (resizer w).2 := by
    unfold World.Committed
    split at hfs <;> omega
  refine ⟨hw'.fits, hw', fun hok => ?_⟩
  rw [if_pos hok] at hfs
  omega

theorem number_kibibytes_le (t : Text) : number (kibibytes t) * 1024 ≤ number t := by
  have hsaturate : saturate (number t) / 1024 = ((saturate (number t)).toNat / 1024 : Nat) := by
    unfold saturate
    omega
  have hle : (saturate (number t)).toNat ≤ number t := by
    unfold saturate
    omega
  rw [kibibytes, hsaturate, ofInt_natCast, number_toDigits]
  omega

section

variable (hT : T.Lawful)
include hT

theorem ntfsresize_fits (path : Text) :
    Leads World.Fits (ntfsresize T path none) fun _ => World.Fits :=
  resize_fits (hT.ntfsresize path none)

theorem resize2fs_fits (path : Text) :
    Leads World.Fits (resize2fs T path none) fun _ => World.Fits :=
  resize_fits (hT.resize2fs path none)

theorem resizeNtfs_leads (hle : longintLe p.cursize p.newsize = true ↔ cursize ≤ number p.newsize) :
    Leads (World.Committed cursize) (resizeNtfs T p) fun _ => World.Fits := by
  unfold resizeNtfs
  split
  · next hgrow =>
      refine leads_bind (virtualResize_roomy p hT (hle.mp hgrow)) fun newid => ?_
      refine leads_bind (commit_roomy hT) fun _ => ?_
      refine leads_bind (leads_look (Q := fun _ => World.Roomy cursize) fun _ hw => hw)
        fun path => ?_
      refine leads_bind (leads_weaken (ntfsresize_fits hT path) fun w hw => hw.fits) fun _ => ?_
      exact leads_return newid
  · next hshrink =>
      have hlt : number p.newsize < cursize := by
        rw [hle] at hshrink
        omega
      refine leads_bind (commit_committed hT) fun _ => ?_
      refine leads_bind (leads_look (Q := fun _ => World.Committed cursize) fun _ hw => hw)
        fun path => ?_
      refine leads_bind (resize_shrunk (hT.ntfsresize path (some p.newsize)) le_rfl hlt)
        fun _ => ?_
      refine leads_bind (virtualResize_shrunk p hT) fun newid => ?_
      exact leads_bind (ntfsresize_fits hT path) fun _ => leads_return newid

theorem resizeExt_leads (hle : longintLe p.cursize p.newsize = true ↔ cursize ≤ number p.newsize) :
    Leads (World.Committed cursize) (resizeExt T p) fun _ => World.Fits := by
  unfold resizeExt
  split
  · next hgrow =>
      refine leads_bind (virtualResize_roomy p hT (hle.mp hgrow)) fun newid => ?_
      refine leads_bind (commit_roomy hT) fun _ => ?_
      refine leads_bind (leads_look (Q := fun _ => World.Roomy cursize) fun _ hw => hw)
        fun path => ?_
      refine leads_bind (checkFilesystem_leads hT path (fun _ => World.Roomy.fits)
        SamePartition.roomy) fun _ => ?_
      refine leads_bind (leads_weaken (resize2fs_fits hT path) fun w hw => hw.fits) fun _ => ?_
      exact leads_return newid
  · next hshrink =>
      have hlt : number p.newsize < cursize := by
        rw [hle] at hshrink
        omega
      refine leads_bind (commit_committed hT) fun _ => ?_
      refine leads_bind (leads_look (Q := fun _ => World.Committed cursize) fun _ hw => hw)
        fun path => ?_
      refine leads_bind (checkFilesystem_leads hT path (fun _ => World.Committed.fits)
        SamePartition.committed) fun _ => ?_
      refine leads_bind (resize_shrunk (hT.resize2fs path (some (kibibytes p.newsize)))
        (number_kibibytes_le p.newsize) hlt) fun _ => ?_
      refine leads_bind (virtualResize_shrunk p hT) fun newid => ?_
      exact leads_bind (resize2fs_fits hT path) fun _ => leads_return newid

theorem performResizing_leads (hvirtual : p.virtual = false)
    (hdetected : isNtfs p = true ∨ isExt p = true)
    (hle : longintLe p.cursize p.newsize = true ↔ cursize ≤ number p.newsize) :
    Leads (World.Committed cursize) (performResizing T p) fun _ => World.Fits := by
  have hfilesystem : Leads (World.Committed cursize) (resizeFilesystem T p)
      fun _ => World.Fits := by
    unfold resizeFilesystem
    rw [hvirtual]
    by_cases hntfs : isNtfs p = true
    · rw [hntfs]
      exact resizeNtfs_leads p hT hle
    · rw [Bool.not_eq_true] at hntfs
      rw [hntfs, hdetected.resolve_left (by rw [hntfs]; exact Bool.false_ne_true)]
      exact resizeExt_leads p hT hle
  unfold performResizing
  rw [if_neg (by rw [hvirtual]; exact Bool.false_ne_true)]
  refine leads_bind (Q := fun _ => World.Committed cursize) (leads_step fun w hw => ?_)
    fun ok => ?_
  · obtain ⟨hwrites, hfs⟩ := hT.commitChanges w
    have hw' := hwrites.committed hw hfs
    exact ⟨hw'.fits, hw'⟩
  · refine leads_bind (leads_orExit fun _ _ hw => hw) fun _ => ?_
    refine leads_bind hfilesystem fun newid => ?_
    refine leads_bind (Q := fun _ => World.Fits) (leads_step fun w hw => ?_)
      fun ok => leads_orExit fun _ _ hw => hw
    obtain ⟨hdisk, hfs⟩ := hT.initScripts w
    have hw' : World.Fits (T.initScripts w).2 := by
      unfold World.Fits at hw ⊢
      omega
    exact ⟨hw', hw'⟩

end

/-- However the steps succeed and fail, at every point of `perform_resizing` the file system of
a committed NTFS or ext partition is no larger than its partition on the disk. -/
theorem performResizing_fits (hT : T.Lawful) (hvirtual : p.virtual = false)
    (hdetected : isNtfs p = true ∨ isExt p = true) (hcursize : isNumber p.cursize = true)
    (hnewsize : isNumber p.newsize = true) (w : World ε)
    (hcommitted : w.Committed (number p.cursize)) :
    ∀ w' ∈ points (performResizing T p (Run.start w)), w'.fs ≤ w'.disk := by
  have hleads := performResizing_leads p hT hvirtual hdetected
    (longintLe_iff (isNumber_iff.mp hcursize).2 (isNumber_iff.mp hnewsize).2)
  have hstart : At (World.Committed (number p.cursize)) (Run.start w) := by
    refine ⟨fun w' hw' => ?_, hcommitted⟩
    rw [List.mem_singleton.mp hw']
    exact hcommitted.fits
  have hrun := hleads (Run.start w) hstart
  cases h : performResizing T p (Run.start w) with
  | ok r =>
      rw [h] at hrun
      exact hrun.1
  | error ws =>
      rw [h] at hrun
      exact hrun

/-- Programs that succeed, `resize2fs` only if `fine`. -/
def programs (fine : Bool) : Tools Unit where
  commitChanges w := (true, { w with disk := w.server })
  virtualResizePartition id size w := (id, { w with disk := number size, server := number size })
  resizePartition id size w :=
    (id, { w with fs := number size, disk := number size, server := number size })
  commit w := { w with disk := w.server }
  partitionInfo _ _ := "/dev/sda1"
  ntfsresize _ size w := (true, { w with fs := size.elim w.disk number })
  e2fsck _ w := (0, w)
  checkFailed _ := false
  resize2fs _ size w :=
    if fine then (true, { w with fs := size.elim w.disk fun k => number k * 1024 }) else (false, w)
  initScripts w := (true, w)

theorem programs_lawful (fine : Bool) : (programs fine).Lawful where
  commitChanges _ := ⟨⟨.inr rfl, .inl rfl⟩, .inl rfl⟩
  virtualResizePartition _ _ _ := ⟨rfl, .inr le_rfl, .inr rfl⟩
  commit _ := ⟨⟨.inr rfl, .inl rfl⟩, rfl⟩
  ntfsresize _ _ _ := ⟨⟨rfl, rfl⟩, le_rfl⟩
  e2fsck _ _ := ⟨⟨rfl, rfl⟩, rfl⟩
  resize2fs _ _ _ := by
    cases fine with
    | true => exact ⟨⟨rfl, rfl⟩, le_rfl⟩
    | false => exact ⟨⟨rfl, rfl⟩, le_max_left _ _⟩
  initScripts _ := ⟨rfl, rfl⟩

/-- From eight megabytes to five. -/
def shrinking : Partition where
  virtual := false
  oldid := "32256-8032255"
  detectedFilesystem := some "ext4"
  cursize := "8000000"
  newsize := "5000000"

/-- How things are after each step. -/
def shrinkingPoints (fine : Bool) : List (World Unit) :=
  points (performResizing (programs fine) shrinking (Run.start ⟨7900000, 8000000, 8000000, ()⟩))

theorem shrinking_fits : (∀ w ∈ shrinkingPoints true, w.fs ≤ w.disk) ∧
    ∀ w ∈ shrinkingPoints false, w.fs ≤ w.disk := by
  have hall (fine : Bool) : ∀ w ∈ shrinkingPoints fine, w.fs ≤ w.disk :=
    performResizing_fits shrinking (programs_lawful fine) rfl (.inr (by decide)) (by decide)
      (by decide) _ ⟨by decide, by decide, by decide⟩
  exact ⟨hall true, hall false⟩

end DebianInstaller.Partman.Resize
