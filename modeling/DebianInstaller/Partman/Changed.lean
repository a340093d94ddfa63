import DebianInstaller.Partman.Registry

/-!
# The flag of a changed table

A device's entry says whether its table has been changed, and `COMMIT` writes
only a table that has. So while the flag is down the table in memory should be
the one that was last read from the disk or written to it. The calls of
libparted that are on record tell which one that is.

The server lowers the flag after `ped_disk_commit` whatever that has returned,
`COMMIT` lowers it without a write where there is no disk, and the commands that
list the partitions or ask for the range of a resize let libparted adjust the
extended partition without raising it. In a run in which none of this does any
harm the table is the right one.

A command works on one device. What is known of the entry of that device, at
the points a command goes through, is a `Phase`; of the other entries it is
always known that they are in order.
-/

namespace DebianInstaller.Partman.Parted

open Programs Text

variable {c : Call} {calls : List Call}

variable {W α : Type} {lp : Libparted W} {m : Machine} {n : Text}

variable {body : Text → DevId → Server W Unit} {input name : Text} {rounds : Nat} {s s' : State W}
  {v : Verb}

variable {d : Option Disk} {e : Devdisk} {f : Devdisk → Devdisk} {k : Unit → Server W α}
  {r : Request} {rest : Text} {s₀ s₁ : State W}

/-- The table that a call has read from the disk or written to it. -/
def Request.synced : (r : Request) → r.Reply → Option (Option Disk)
  | .diskNew _, disk => some disk
  | .change _ .commit, reply => if reply.1 then some (some reply.2) else none
  | _, _ => none

/-- A write that has failed. -/
def Request.failed : (r : Request) → r.Reply → Bool
  | .change _ .commit, reply => !reply.1
  | _, _ => false

/-- The table that a call has left in memory. -/
def Request.left : (r : Request) → r.Reply → Option Disk
  | .change .., reply => some reply.2
  | _, _ => none

/-- The table of `n` that was last read from the disk or written to it. -/
def lastSynced (n : Text) (calls : List Call) : Option (Option Disk) :=
  calls.findSome? fun c => if c.1 = n then c.2.1.synced c.2.2 else none

/-- What a number of calls has made of the table of `n`. -/
def lastLeft (n : Text) (calls : List Call) (disk : Option Disk) : Option Disk :=
  (calls.findSome? fun c => if c.1 = n then c.2.1.left c.2.2 else none).or disk

/-- No write has failed. -/
def Written (calls : List Call) : Prop := ∀ c ∈ calls, c.2.1.failed c.2.2 = false

/-- A device that is open and whose flag is down has the table that was last read
or written. -/
def Devdisk.InSync (n : Text) (calls : List Call) (e : Devdisk) : Prop :=
  e.dev.isSome = true → e.changed = false → lastSynced n calls = some e.disk

def InSync (s : State W) : Prop := ∀ n, (s.entry n).InSync n s.calls

/-! ## Calls that leave the tables alone -/

theorem synced_of_quiet (h : r.quiet = true ∨ r.timed = true) (reply : r.Reply) :
    r.synced reply = none := by
  cases r <;> first | rfl | (rcases h with h | h <;> cases h)

theorem left_of_quiet (h : r.quiet = true ∨ r.timed = true) (reply : r.Reply) :
    r.left reply = none := by
  cases r <;> first | rfl | (rcases h with h | h <;> cases h)

theorem lastSynced_cons_none (h : c.2.1.synced c.2.2 = none) (n : Text) (calls : List Call) :
    lastSynced n (c :: calls) = lastSynced n calls := by
  simp [lastSynced, h]

theorem lastSynced_cons_ne (h : c.1 ≠ n) (calls : List Call) :
    lastSynced n (c :: calls) = lastSynced n calls := by
  simp [lastSynced, h]

theorem lastSynced_cons (hn : c.1 = n) (h : c.2.1.synced c.2.2 = some d) (calls : List Call) :
    lastSynced n (c :: calls) = some d := by
  simp [lastSynced, hn, h]

theorem lastLeft_cons_none (h : c.2.1.left c.2.2 = none) (n : Text) (calls : List Call)
    (disk : Option Disk) : lastLeft n (c :: calls) disk = lastLeft n calls disk := by
  simp [lastLeft, h]

theorem lastLeft_cons (hn : c.1 = n) {d : Disk} (h : c.2.1.left c.2.2 = some d) (calls : List Call)
    (disk : Option Disk) : lastLeft n (c :: calls) disk = some d := by
  simp [lastLeft, hn, h]

/-! ## Phases -/

/-- What is known of the entry that a command works on. -/
inductive Phase where
  /-- Nothing. -/
  | lost
  | closed
  | inSync
  /-- The flag is up. -/
  | up
  /-- This table was last read or written. -/
  | read (disk : Option Disk)
  /-- So was the one in memory, if it was written. -/
  | saved
  /-- This table was last read or written, and the one in memory is what the calls
  since then have made of it. -/
  | adjusted (disk : Option Disk)

variable {p p' q : Phase}

/-- `base` is what was on record when the command began. -/
def Phase.holds (n : Text) (base : List Call) (e : Devdisk) (calls : List Call) : Phase → Prop
  | .lost => True
  | .closed => e.dev = none
  | .inSync => Written calls → e.InSync n calls
  | .up => e.changed = true
  | .read disk => lastSynced n calls = some disk
  | .saved => Written calls → lastSynced n calls = some e.disk
  | .adjusted disk => lastSynced n calls = some disk ∧
      ∃ new, calls = new ++ base ∧ e.disk = lastLeft n new disk

/-- `n` is worked on, and the other entries are in order. -/
def tracked (W : Type) (n : Text) (base : List Call) : Regime Phase (State W) Stop :=
  working W n (fun k e calls => e.InSync k calls) fun p e calls => p.holds n base e calls

variable {base : List Call}

theorem holds_cons (hs : c.2.1.synced c.2.2 = none) (hl : c.2.1.left c.2.2 = none)
    (h : p.holds n base e calls) : p.holds n base e (c :: calls) := by
  have hsame := lastSynced_cons_none hs n calls
  cases p with
  | lost => trivial
  | closed => exact h
  | inSync =>
      exact fun hw ho hc => hsame.trans (h (fun c' hc' => hw c' (List.mem_cons_of_mem _ hc')) ho hc)
  | up => exact h
  | read disk => exact hsame.trans h
  | saved => exact fun hw => hsame.trans (h fun c' hc' => hw c' (List.mem_cons_of_mem _ hc'))
  | adjusted disk =>
      obtain ⟨hsync, new, rfl, hd⟩ := h
      exact ⟨hsame.trans hsync, c :: new, rfl, hd.trans (lastLeft_cons_none hl n new disk).symm⟩

theorem registered_tracked : Registered (tracked W n base) :=
  working_registered
    (fun k _ calls r reply hr _ h ho hc =>
      (lastSynced_cons_none (c := (n, ⟨r, reply⟩)) (synced_of_quiet hr reply) k calls).trans
        (h ho hc))
    fun _ _ _ _ reply hr h => holds_cons (synced_of_quiet hr reply) (left_of_quiet hr reply) h

theorem plain_tracked (lp : Libparted W) : Plain lp (tracked W n base) id :=
  registered_tracked.plain

theorem quiet_tracked (lp : Libparted W) : Quiet lp (tracked W n base) id :=
  working_loose.quiet (plain_tracked lp)

theorem changeNamed_tracked (hp : ∀ e calls, p.holds n base e calls →
      p.holds n base { e with changed := true } calls) (name : Text) :
    Moves (tracked W n base) p p (changeNamed name) := by
  by_cases hn : name = n
  · subst hn
    exact working_updateNamed (fun _ => rfl) hp
  · exact working_updateOther hn (fun _ => rfl) fun _ _ _ _ hc => by cases hc

/-! ## Changes -/

theorem change_tracked {c : Change}
    (hp : ∀ e calls d d' ok, e.disk = some d → p.holds n base e calls →
      p'.holds n base { e with disk := some d' } ((n, ⟨.change d c, (ok, d')⟩) :: calls)) :
    Moves (tracked W n base) p p' (change lp c) :=
  working_change (fun _ _ calls r hk h ho hc =>
    (lastSynced_cons_ne (c := (n, r)) (Ne.symm hk) calls).trans (h ho hc)) hp

theorem changeNamed_up (p : Phase) :
    Moves (tracked W n base) p .up (changeNamed n : Server W Unit) :=
  working_updateNamed (fun _ => rfl) fun _ _ _ => rfl

/-- A phase in which tables may be changed. -/
structure Phase.Open (p : Phase) : Prop where
  raise : ∀ n base e calls, p.holds n base e calls →
    p.holds n base { e with changed := true } calls
  change : ∀ n base e calls d d' ok (c : Change), c ≠ .commit → p.holds n base e calls →
    p.holds n base { e with disk := some d' } ((n, ⟨.change d c, (ok, d')⟩) :: calls)

theorem open_up : Phase.Open .up := ⟨fun _ _ _ _ _ => rfl, fun _ _ _ _ _ _ _ _ _ h => h⟩

theorem open_adjusted (disk : Option Disk) : Phase.Open (.adjusted disk) where
  raise _ _ _ _ h := h
  change n base e calls d d' ok c hc h := by
    obtain ⟨hsync, new, rfl, -⟩ := h
    have hnone : Request.synced (.change d c) (ok, d') = none := by
      cases c <;> first | rfl | exact absurd rfl hc
    refine ⟨?_, (n, ⟨.change d c, (ok, d')⟩) :: new, rfl, ?_⟩
    · exact (lastSynced_cons_none (c := (n, ⟨.change d c, (ok, d')⟩)) hnone n _).trans hsync
    · exact (lastLeft_cons (c := (n, ⟨.change d c, (ok, d')⟩)) rfl rfl new disk).symm

theorem adjusting_tracked (lp : Libparted W) (hp : p.Open) :
    Adjusting lp ((tracked W n base).comap fun _ : Unit => p) id :=
  have hl : Loose ((tracked W n base).comap fun _ : Unit => p) :=
    ⟨fun _ _ => trivial, fun _ => trivial⟩
  hl.adjusting
    { toQuiet := hl.quiet (registered_tracked.comap _).plain
      change := fun c hc _ => (change_tracked fun e calls d d' ok _ h =>
        hp.change n base e calls d d' ok c hc h).comap
      mark := fun name _ => (changeNamed_tracked (hp.raise n base) name).comap
      resize := (registered_tracked.comap _).resize }

theorem commit_tracked (p : Phase) :
    Moves (tracked W n base) p .saved (ignore (change lp .commit)) := by
  refine ignore_moves (change_tracked fun e calls d d' ok _ _ hw => ?_)
  have hok : ok = true := by
    have := hw _ List.mem_cons_self
    simpa [Request.failed] using this
  subst hok
  exact lastSynced_cons (c := (n, ⟨.change d .commit, (true, d')⟩)) rfl rfl calls

theorem updateNamed_saved (hf : ∀ e, (f e).name = e.name) (hd : ∀ e, (f e).disk = e.disk) :
    Moves (tracked W n base) .saved .saved (updateNamed n f) :=
  working_updateNamed hf fun e _ hs hw => (hs hw).trans (congrArg some (hd e).symm)

theorem unchangeNamed_tracked (lp : Libparted W) :
    Moves (tracked W n base) .saved .saved (unchangeNamed lp n) := by
  have h : Plain lp (tracked W n base) id := plain_tracked lp
  refine .bind (updateNamed_saved (fun _ => rfl) fun _ => rfl) fun _ => ?_
  refine .bind (h.diskNamed n _) fun disk => ?_
  split
  · exact updateNamed_saved (fun _ => rfl) fun _ => rfl
  · refine .bind (h.partGeometries _ _ _ _) fun geometries => ?_
    exact updateNamed_saved (fun _ => rfl) fun _ => rfl

/-! ## Replacing device and disk -/

theorem holds_alignment (h : p.holds n base e calls) (alignment : Alignment) :
    p.holds n base { e with alignment := alignment } calls := by
  cases p <;> exact h

theorem setDiskNamed_tracked
    (hp : ∀ e calls, p.holds n base e calls → p'.holds n base { e with disk := d } calls) :
    Moves (tracked W n base) p p' (setDiskNamed lp n d) :=
  working_setDiskNamed (plain_tracked lp) hp fun _ _ alignment h => holds_alignment h alignment

theorem setDeviceNamed_lost (lp : Libparted W) (p : Phase) (dev : Option DevId) :
    Moves (tracked W n base) p .lost (setDeviceNamed lp n dev) :=
  working_setDeviceNamed (plain_tracked lp) fun _ _ _ => trivial

theorem setDeviceNamed_closed (lp : Libparted W) (p : Phase) :
    Moves (tracked W n base) p .closed (setDeviceNamed lp n none) :=
  working_setDeviceNamed (plain_tracked lp) fun _ _ _ => rfl

theorem setDeviceNamed_up (lp : Libparted W) (dev : Option DevId) :
    Moves (tracked W n base) .up .up (setDeviceNamed lp n dev) :=
  working_setDeviceNamed (plain_tracked lp) fun _ _ hup => hup

theorem setDiskNamed_lost (lp : Libparted W) (p : Phase) (disk : Option Disk) :
    Moves (tracked W n base) p .lost (setDiskNamed lp n disk) :=
  setDiskNamed_tracked fun _ _ _ => trivial

theorem setDiskNamed_up (lp : Libparted W) (disk : Option Disk) :
    Moves (tracked W n base) .up .up (setDiskNamed lp n disk) :=
  setDiskNamed_tracked fun _ _ hup => hup

theorem reread_tracked (dev : DevId) {k : Server W α} (hk : Moves (tracked W n base) .saved q k) :
    Moves (tracked W n base) p q (do
      setDiskNamed lp n (← call lp (.diskNew dev))
      k) := by
  refine working_of_run fun s a s' hs hrun => ?_
  obtain ⟨d, s₁, hcall, hrun⟩ := bind_ok hrun
  obtain ⟨hname, hentry, hcalls⟩ := call_ok hcall
  have hin : (tracked W n base).inv (.read d) s₁ := by
    rw [hs.1] at hcalls hname
    refine ⟨hname, fun k hk => ?_, ?_⟩
    · rw [hentry, hcalls]
      exact fun ho hc =>
        (lastSynced_cons_ne (c := (n, _)) (Ne.symm hk) _).trans (hs.2.1 k hk ho hc)
    · rw [hcalls]
      exact lastSynced_cons (c := (n, _)) rfl rfl _
  have hset : Moves (tracked W n base) (.read d) .saved (setDiskNamed lp n d) :=
    setDiskNamed_tracked fun _ _ h _ => h
  exact ((hset.bind fun _ => hk).ok hin hrun).1

theorem deviceNamed_tracked {k : Option DevId → Server W α}
    (hsome : ∀ dev, Moves (tracked W n base) p q (k (some dev)))
    (hnone : Moves (tracked W n base) .closed q (k none)) :
    Moves (tracked W n base) p q (deviceNamed n >>= k) := by
  refine working_of_run fun s a s' hs hrun => ?_
  obtain ⟨ds, hidx, _, hext⟩ := indexOfName_spec s n
  change ((indexOfName n s >>= fun p => _) >>= fun p => _) = _ at hrun
  rw [hidx] at hrun
  have hin : (tracked W n base).inv p { s with devices := ds } :=
    (registered_tracked.same p s { s with devices := ds } rfl hext.entry rfl hs).1
  change k (s.entry n).dev { s with devices := ds } = _ at hrun
  cases hdev : (s.entry n).dev with
  | some dev =>
      rw [hdev] at hrun
      exact ((hsome dev).ok hin hrun).1
  | none =>
      rw [hdev] at hrun
      refine (hnone.ok ⟨hin.1, hin.2.1, ?_⟩ hrun).1
      exact (congrArg Devdisk.dev (hext.entry n)).trans hdev

/-! ## Commands that find the flag up, or raise it -/

theorem changeNamed_again (h : changeNamed name s = .ok ((), s')) :
    changeNamed name s' = .ok ((), s') := by
  let g := fun e : Devdisk => if e.name = name then { e with changed := true } else e
  have hname : ∀ e, (g e).name = e.name := by
    intro e
    simp only [g]
    split <;> rfl
  have hg : ∀ e, g (g e) = g e := by
    intro e
    by_cases he : e.name = name <;> simp [g, he]
  rw [show changeNamed name s = _ from updateNamed_registered s name _] at h
  cases h
  have hany : ((s.registered name).map g).any (·.name = name) = true := by
    rw [List.any_map]
    simpa [Function.comp_def, hname] using any_registered s name
  show (indexOfName name { s with devices := (s.registered name).map g } >>= fun p => _) = _
  rw [indexOfName_found hany]
  show Except.ok ((), { s with devices := ((s.registered name).map g).map g }) = _
  rw [List.map_map, show g ∘ g = g from funext hg]

/-! ## Commands -/

theorem on_tracked (hs : InSync s) (name rest : Text) {ds : List Devdisk} (hext : Extends s ds)
    (hp : p.holds name base (s.entry name) s.calls) :
    (tracked W name base).inv p (s.on name rest ds) := by
  refine ⟨rfl, fun k _ => ?_, ?_⟩
  · rw [show (s.on name rest ds).entry k = s.entry k from hext.entry k]
    exact hs k
  · rw [show (s.on name rest ds).entry name = s.entry name from hext.entry name]
    exact hp

/-- A phase in which the flag is right. -/
def Phase.Right (n : Text) (base calls : List Call) (p : Phase) : Prop :=
  ∀ e, p.holds n base e calls → e.InSync n calls

theorem inSync_of_tracked (h : (tracked W n base).inv p s) (hp : p.Right n base s.calls) :
    InSync s := by
  intro k
  by_cases hk : k = n
  · subst hk
    exact hp _ h.2.2
  · exact h.2.1 k hk

theorem right_inSync (hw : Written calls) :
    Phase.Right n base calls .inSync := fun _ h => h hw

theorem right_up : Phase.Right n base calls .up := by
  intro e h _ hc
  rw [show e.changed = true from h] at hc
  cases hc

theorem right_saved (hw : Written calls) :
    Phase.Right n base calls .saved := fun _ h _ _ => h hw

theorem right_closed : Phase.Right n base calls .closed := by
  intro e h ho
  rw [show e.dev = none from h] at ho
  cases ho

theorem withDevice_ok (hscan : scanWord s.input = some (name, rest))
    (hrun : withDevice body s = .ok ((), s')) :
    ∃ dev ds, (s.entry name).dev = some dev ∧ Extends s ds ∧
      body name dev (s.on name rest ds) = .ok ((), s') := by
  cases hdev : (s.entry name).dev with
  | none =>
      have hclosed : ∀ name' rest', scanWord s.input = some (name', rest') →
          (s.entry name').dev = none := by
        intro name' rest' hscan'
        rw [hscan] at hscan'
        cases hscan'
        exact hdev
      obtain ⟨message, h⟩ := withDevice_closed body hclosed
      rw [h] at hrun
      cases hrun
  | some dev =>
      obtain ⟨ds, h, hext⟩ := withDevice_run body hscan hdev
      exact ⟨dev, ds, rfl, hext, h ▸ hrun⟩

theorem scanDeviceName_ok {k : Text → Server W Unit} (hscan : scanWord s.input = some (name, rest))
    (hrun : (scanDeviceName >>= k) s = .ok ((), s')) :
    ∃ ds, Extends s ds ∧ k name (s.on name rest ds) = .ok ((), s') := by
  obtain ⟨ds, h, hext⟩ := scanDeviceName_run hscan
  change (scanDeviceName s >>= fun p => _) = _ at hrun
  rw [h] at hrun
  exact ⟨ds, hext, hrun⟩

section Commands

variable {s s' : State W} {name rest : Text}

theorem goes_inSync (hs : InSync s) (hscan : scanWord s.input = some (name, rest))
    {c : Server W Unit} (hrun : c s = .ok ((), s'))
    (hc : Goes (tracked W name s.calls) (· = name) (fun _ : Unit => p) (fun _ => q) c)
    (hp : ∀ dev, (s.entry name).dev = some dev → p.holds name s.calls (s.entry name) s.calls)
    (hq : q.Right name s.calls s'.calls) : InSync s' := by
  obtain ⟨body, rfl, hb⟩ := hc
  obtain ⟨dev, ds, hdev, hext, hbody⟩ := withDevice_ok hscan hrun
  have hin := on_tracked hs name rest hext (hp dev hdev)
  exact inSync_of_tracked ((hb name dev rfl ()).ok hin hbody).1 hq

theorem stays_inSync (hs : InSync s) (hscan : scanWord s.input = some (name, rest))
    {c : Server W Unit} (hrun : c s = .ok ((), s'))
    (hc : Stays ((tracked W name s.calls).comap fun _ : Unit => p) c)
    (hp : ∀ dev, (s.entry name).dev = some dev → p.holds name s.calls (s.entry name) s.calls)
    (hp' : p.Right name s.calls s'.calls) : InSync s' := by
  obtain ⟨body, hbody, hb⟩ := hc
  exact goes_inSync hs hscan hrun ⟨body, hbody, fun name dev _ k => hb name dev k⟩ hp hp'

theorem quiet_inSync (hs : InSync s) (hscan : scanWord s.input = some (name, rest))
    {c : Server W Unit} (hrun : c s = .ok ((), s')) (hw : Written s'.calls)
    (hc : Stays (tracked W name s.calls) c) : InSync s' := by
  obtain ⟨body, hbody, hb⟩ := hc
  exact goes_inSync hs hscan hrun ⟨body, hbody, fun name dev _ _ => hb name dev .inSync⟩
    (fun _ _ _ => hs name) (right_inSync hw)

/-- A command that begins by raising the flag does what it would do if the flag
were up. -/
theorem raised (hs : InSync s) (hscan : scanWord s.input = some (name, rest))
    (hrun : withDevice body s = .ok ((), s'))
    (hraise : ∀ dev s₀ s₁, changeNamed name s₀ = .ok ((), s₁) →
      body name dev s₀ = .ok ((), s') → body name dev s₁ = .ok ((), s')) :
    ∃ s₁, InSync s₁ ∧ s₁.calls = s.calls ∧ s₁.input = s.input ∧
      (s₁.entry name).changed = true ∧ withDevice body s₁ = .ok ((), s') := by
  let g := fun e : Devdisk => if e.name = name then { e with changed := true } else e
  obtain ⟨dev, _, hdev, _⟩ := withDevice_ok hscan hrun
  rw [withDevice_registered body hscan hdev] at hrun
  obtain ⟨ds, hspec, hentry⟩ := updateNamed_spec s name
    (f := fun e => { e with changed := true }) fun _ => rfl
  have hds : (s.registered name).map g = ds := by
    rw [updateNamed_registered] at hspec
    exact congrArg (fun p => p.2.devices) (Except.ok.inj hspec)
  have hany : ds.any (·.name = name) = true := by
    have hname : ∀ e, (g e).name = e.name := by
      intro e
      simp only [g]
      split <;> rfl
    rw [← hds, List.any_map]
    simpa [Function.comp_def, hname] using any_registered s name
  have hreg : ∀ s : State W, s.devices.any (·.name = name) = true →
      s.registered name = s.devices := fun s h => if_pos h
  refine ⟨{ s with devices := ds }, fun k => ?_, rfl, rfl, ?_, ?_⟩
  · rw [hentry]
    split
    · exact fun _ hc => by cases hc
    · exact hs k
  · rw [hentry, if_pos rfl]
  · have hdev' : (State.entry { s with devices := ds } name).dev = some dev := by
      rw [hentry, if_pos rfl]
      exact hdev
    rw [withDevice_registered body (s := { s with devices := ds }) hscan hdev',
      hreg { s with devices := ds } hany]
    refine hraise dev _ _ ?_ hrun
    rw [show changeNamed name _ = _ from updateNamed_registered _ name _,
      hreg (s.on name rest (s.registered name)) (any_registered s name)]
    show Except.ok ((), s.on name rest ((s.registered name).map g)) = _
    rw [hds]
    rfl

theorem raise_first {r : Except Stop (α × State W)} (hmark : changeNamed name s₀ = .ok ((), s₁))
    (h : (changeNamed name >>= k) s₀ = r) : (changeNamed name >>= k) s₁ = r := by
  change (changeNamed name s₀ >>= fun p => _) = _ at h
  rw [hmark] at h
  show (changeNamed name s₁ >>= fun p => _) = _
  rw [changeNamed_again hmark]
  exact h

theorem raise_second {site : Site} {r : α × State W} (hmark : changeNamed name s₀ = .ok ((), s₁))
    (h : (assertDisk site >>= fun _ => changeNamed name >>= k) s₀ = .ok r) :
    (assertDisk site >>= fun _ => changeNamed name >>= k) s₁ = .ok r := by
  have hassert : ∀ s : State W, assertDisk site s =
      if (s.entry s.deviceName).disk.isSome = true then .ok ((), s)
      else .error (.assertion site) := by
    intro s
    show (if (s.entry s.deviceName).disk.isSome = true then pure ()
      else throw (.assertion site) : Server W Unit) s = _
    split <;> rfl
  obtain ⟨ds, hrun, hentry⟩ := updateNamed_spec s₀ name
    (f := fun e => { e with changed := true }) fun _ => rfl
  have hs₁ : s₁ = { s₀ with devices := ds } := by
    rw [show changeNamed name s₀ = _ from hrun] at hmark
    cases hmark
    rfl
  have hdisk : (s₁.entry s₁.deviceName).disk = (s₀.entry s₀.deviceName).disk := by
    rw [hs₁, hentry]
    split
    · next hn => rw [← hn]
    · rfl
  change (assertDisk site s₀ >>= fun p => _) = _ at h
  show (assertDisk site s₁ >>= fun p => _) = _
  rw [hassert] at h ⊢
  rw [hdisk]
  split at h
  · next hsome =>
      rw [if_pos hsome]
      exact raise_first hmark h
  · cases h

/-- The query commands, which adjust the extended partition. -/
def Verb.queries : Verb → Bool
  | .partitions | .getResizeRange | .getVirtualResizeRange => true
  | _ => false

/-- A step that does the table no harm. No write has failed so far. `COMMIT` finds
a disk if the table was changed, or there was none before. And where the flag is
down a query leaves the table as it was. -/
structure Faithful (v : Verb) (name : Text) (s s' : State W) : Prop where
  written : Written s'.calls
  labelled : v = .commit → (s.entry name).changed = true → (s.entry name).disk = none →
    lastSynced name s.calls = some none
  unadjusted : v.queries = true → (s.entry name).changed = false →
    ∀ new, s'.calls = new ++ s.calls →
      lastLeft name new (s.entry name).disk = (s.entry name).disk

variable (hs : InSync s) (hscan : scanWord s.input = some (name, rest))

include hs hscan

theorem changeFileSystem_inSync (hrun : commandChangeFileSystem lp s = .ok ((), s'))
    (hw : Written s'.calls) : InSync s' := by
  have h : Quiet lp (tracked W name s.calls) id := quiet_tracked lp
  have hsame : Moves (tracked W name s.calls) .inSync .inSync (pure () : Server W Unit) := .pure _
  -- the flag is raised right before the change
  have hset : ∀ c, Moves (tracked W name s.calls) .inSync .inSync (do
      changeNamed name
      ignore (change lp c)) := by
    intro c
    refine .bind (changeNamed_up .inSync) fun _ => ?_
    have hchange : Moves (tracked W name s.calls) .up .up (ignore (change lp c)) :=
      ignore_moves (change_tracked fun _ _ _ _ _ _ hup => hup)
    exact working_weaken hchange (fun _ _ hup => hup) fun _ _ hup _ => right_up _ hup
  refine goes_inSync (p := .inSync) (q := .inSync) hs hscan hrun
    ⟨_, rfl, fun _ dev hname _ => ?_⟩ (fun _ _ _ => hs name) (right_inSync hw)
  subst hname
  refine .bind (h.iscanf _ _ _) fun id => .bind (h.iscanf _ _ _) fun sFstype => ?_
  refine .bind (h.partitionWithId id _) fun part => ?_
  split
  · exact h.critical _
  · next part =>
      refine .bind (h.call _ rfl _) fun fsType => .bind (j := .inSync) ?_ fun _ => h.oprintf _ _
      cases fsType with
      | none =>
          refine .bind (h.call _ rfl _) fun flag => .bind (h.thePartition part _) fun p => ?_
          refine .bind (h.call _ rfl _) fun available => ?_
          split
          · refine .bind (h.call _ rfl _) fun isSet => ?_
            split
            · exact hsame
            · exact hset _
          · exact h.critical _
      | some fsType =>
          refine .bind (h.thePartition part _) fun p => ?_
          split
          · exact hset _
          · exact hsame

theorem query_inSync (hv : v.queries = true) {c : Server W Unit} (hc : ∀ p : Phase, p.Open →
      Stays ((tracked W name s.calls).comap fun _ : Unit => p) c) (hrun : c s = .ok ((), s'))
    (hf : Faithful v name s s') : InSync s' := by
  cases hch : (s.entry name).changed with
  | true => exact stays_inSync hs hscan hrun (hc .up open_up) (fun _ _ => hch) right_up
  | false =>
      refine stays_inSync hs hscan hrun
        (hc (.adjusted (s.entry name).disk) (open_adjusted _)) (fun dev hdev => ?_) ?_
      · refine ⟨hs name (by rw [hdev]; rfl) hch, [], rfl, rfl⟩
      · intro e he _ _
        obtain ⟨hsync, new, hcalls, hd⟩ := he
        rw [hd, hf.unadjusted hv hch new hcalls]
        exact hsync

/-- `COMMIT` lowers the flag behind the write. -/
theorem commit_inSync (hrun : commandCommit lp m s = .ok ((), s'))
    (hf : Faithful .commit name s s') : InSync s' := by
  obtain ⟨dev, ds, hdev, hext, hbody⟩ := withDevice_ok hscan hrun
  have h : Plain lp (tracked W name s.calls) id := plain_tracked lp
  have hfirm : ∀ (b : Bool) (s₀ : State W) (k : Unit → Server W Unit),
      (whenever b (ignore theDisk) >>= k) s₀ = .ok ((), s') → k () s₀ = .ok ((), s') := by
    intro b s₀ k hk
    cases b with
    | false => exact hk
    | true =>
        change ((theDisk s₀ >>= fun p => _) >>= fun p => _) = _ at hk
        cases hd : (s₀.entry s₀.deviceName).disk with
        | some d =>
            rw [theDisk_run hd] at hk
            exact hk
        | none =>
            rw [theDisk_null hd] at hk
            cases hk
  have hbody' := hfirm _ _ _ hbody
  obtain ⟨ds', hidx, _, hext'⟩ := indexOfName_spec (s.on name rest ds) name
  change (indexOfName name (s.on name rest ds) >>= fun p => _) = _ at hbody'
  rw [hidx, show (s.on name rest ds).entry name = s.entry name from hext.entry name] at hbody'
  have hext₂ : Extends s ds' := hext.trans ⟨hext'.entry, hext'.device⟩
  have hin : ∀ p : Phase, p.holds name s.calls (s.entry name) s.calls →
      (tracked W name s.calls).inv p (s.on name rest ds') :=
    fun p hp => on_tracked hs name rest hext₂ hp
  have hlast : ∀ p : Phase, Moves (tracked W name s.calls) p .saved
        (whenever ((s.entry name).disk.isSome && (s.entry name).changed)
          (ignore (change lp .commit))) →
      p.holds name s.calls (s.entry name) s.calls → InSync s' := by
    intro p hp hholds
    have hall := Moves.bind hp fun _ => Moves.bind (unchangeNamed_tracked lp) fun _ =>
      h.oprintf "OK" .saved
    exact inSync_of_tracked (hall.ok (hin p hholds) hbody').1 (right_saved hf.written)
  cases hch : (s.entry name).changed with
  | false =>
      refine hlast .saved ?_ fun _ => hs name (by rw [hdev]; rfl) hch
      rw [hch, Bool.and_false]
      exact .pure _
  | true =>
      cases hd : (s.entry name).disk with
      | none =>
          refine hlast .saved ?_ fun _ => ?_
          · rw [hd]
            exact .pure _
          · rw [hd]
            exact hf.labelled rfl hch hd
      | some d =>
          refine hlast .up ?_ hch
          rw [hd, hch]
          exact commit_tracked .up

theorem edit_inSync (hc : ∀ p : Phase, p.Open →
      Stays ((tracked W name s.calls).comap fun _ : Unit => p) (withDevice body))
    (hrun : withDevice body s = .ok ((), s'))
    (hraise : ∀ dev s₀ s₁, changeNamed name s₀ = .ok ((), s₁) →
      body name dev s₀ = .ok ((), s') → body name dev s₁ = .ok ((), s')) : InSync s' := by
  obtain ⟨s₁, hs₁, hcalls, hinput, hup, hrun₁⟩ := raised hs hscan hrun hraise
  rw [← hcalls] at hc
  exact stays_inSync hs₁ (hinput ▸ hscan) hrun₁ (hc .up open_up) (fun _ _ => hup) right_up

theorem write_inSync (hc : Goes (tracked W name s.calls) (· = name) (fun _ : Unit => Phase.up)
      (fun _ => Phase.inSync) (withDevice body)) (hrun : withDevice body s = .ok ((), s'))
    (hw : Written s'.calls) (hraise : ∀ dev s₀ s₁, changeNamed name s₀ = .ok ((), s₁) →
      body name dev s₀ = .ok ((), s') → body name dev s₁ = .ok ((), s')) : InSync s' := by
  obtain ⟨s₁, hs₁, hcalls, hinput, hup, hrun₁⟩ := raised hs hscan hrun hraise
  rw [← hcalls] at hc
  exact goes_inSync hs₁ (hinput ▸ hscan) hrun₁ hc (fun _ _ => hup) (right_inSync hw)

theorem open_inSync (hrun : commandOpen lp s = .ok ((), s')) (hw : Written s'.calls) :
    InSync s' := by
  obtain ⟨ds, hext, hbody⟩ := scanDeviceName_ok hscan hrun
  have h : Plain lp (tracked W name s.calls) id := plain_tracked lp
  have hin : (tracked W name s.calls).inv .lost (s.on name rest ds) :=
    on_tracked hs name rest hext trivial
  refine inSync_of_tracked (p := .inSync) (Moves.ok ?_ hin hbody).1 (right_inSync hw)
  refine .bind (h.iscanf _ _ _) fun device => .bind (h.deviceOpened name _) fun b => ?_
  refine .bind (j := .lost) ?_ fun _ => .bind (h.oprintf _ _) fun _ => ?_
  · cases b with
    | true => exact ignore_moves (h.ask _ _ _ _)
    | false => exact .bind (h.call _ rfl _) fun dev => setDeviceNamed_lost lp _ dev
  · refine deviceNamed_tracked (fun dev => ?_) ?_
    · refine .bind (h.oprintf _ _) fun _ => .bind (h.deactivate _) fun _ => ?_
      refine reread_tracked dev (.bind (unchangeNamed_tracked lp) fun _ => ?_)
      exact working_weaken (h.activate .saved) (fun _ _ hsaved => hsaved)
        fun e _ hsaved hw => right_saved hw e hsaved
    · exact working_weaken (h.oprintf _ .closed) (fun _ _ hc => hc)
        fun e _ hc _ => right_closed e hc

theorem undo_inSync (hrun : commandUndo lp s = .ok ((), s')) (hw : Written s'.calls) :
    InSync s' := by
  have h : Plain lp (tracked W name s.calls) id := plain_tracked lp
  refine goes_inSync (p := .lost) (q := .saved) hs hscan hrun
    ⟨_, rfl, fun _ dev hname _ => ?_⟩ (fun _ _ => trivial) (right_saved hw)
  subst hname
  refine .bind (h.deactivate _) fun _ => .bind (setDiskNamed_lost lp _ none) fun _ => ?_
  refine reread_tracked dev (.bind (h.activate _) fun _ => ?_)
  exact .bind (unchangeNamed_tracked lp) fun _ => h.oprintf _ _

theorem newLabel_inSync (hrun : commandNewLabel lp s = .ok ((), s')) : InSync s' := by
  have h : Plain lp (tracked W name s.calls) id := plain_tracked lp
  refine goes_inSync (p := .lost) (q := .up) hs hscan hrun
    ⟨_, rfl, fun _ dev hname _ => ?_⟩ (fun _ _ => trivial) right_up
  subst hname
  refine .bind (changeNamed_up .lost) fun _ => .bind (h.iscanf _ _ _) fun str => ?_
  refine .bind (h.call _ rfl _) fun type => ?_
  split
  · exact h.critical _
  · refine .bind (theDevice_within dev _) fun _ => .bind (setDiskNamed_up lp none) fun _ => ?_
    refine .bind (setDeviceNamed_up lp none) fun _ => .bind (h.call _ rfl _) fun dev' => ?_
    split
    · exact h.critical _
    · refine .bind (setDeviceNamed_up lp _) fun _ => .bind (h.call _ rfl _) fun disk => ?_
      refine .bind (j := .up) ?_ fun _ => h.oprintf _ _
      cases disk with
      | none => exact ignore_moves (h.ask _ _ _ _)
      | some d => exact setDiskNamed_up lp (some d)

theorem close_inSync (hrun : commandClose lp s = .ok ((), s')) : InSync s' := by
  obtain ⟨ds, hext, hbody⟩ := scanDeviceName_ok hscan hrun
  have h : Plain lp (tracked W name s.calls) id := plain_tracked lp
  have hin : (tracked W name s.calls).inv .lost (s.on name rest ds) :=
    on_tracked hs name rest hext trivial
  refine inSync_of_tracked (p := .closed) (Moves.ok ?_ hin hbody).1 right_closed
  refine .bind (h.deviceOpened name _) fun b => ?_
  refine .bind (whenever_within (ignore_within (h.ask _ _ _)) _) fun _ => ?_
  refine .bind (setDiskNamed_lost lp _ none) fun _ => ?_
  exact .bind (setDeviceNamed_closed lp _) fun _ => h.oprintf _ _

/-- Any command but `DISK_UNCHANGED`, which lowers the flag on its own. -/
theorem command_inSync (hv : v ≠ .diskUnchanged) (hrun : command lp m rounds v s = .ok ((), s'))
    (hf : Faithful v name s s') : InSync s' := by
  have h : Plain lp (tracked W name s.calls) id := plain_tracked lp
  have hadj : ∀ p : Phase, p.Open →
      Adjusting lp ((tracked W name s.calls).comap fun _ : Unit => p) id :=
    fun p hp => adjusting_tracked lp hp
  have hsaved : ∀ k, k = name → ∀ _ : Unit,
      Moves (tracked W name s.calls) .saved .inSync (unchangeNamed lp k) := by
    rintro k rfl _
    exact working_weaken (unchangeNamed_tracked lp) (fun _ _ hs => hs)
      fun e _ hs hw => right_saved hw e hs
  by_cases hr : v.reads = true
  · exact quiet_inSync hs hscan hrun hf.written
      ((quiet_tracked lp).command m rounds hr fun _ => trivial)
  · cases v with
    | quit => cases hrun
    | «open» => exact open_inSync hs hscan hrun hf.written
    | close => exact close_inSync hs hscan hrun
    | undo => exact undo_inSync hs hscan hrun hf.written
    | newLabel => exact newLabel_inSync hs hscan hrun
    | opened =>
        obtain ⟨ds, hext, hbody⟩ := scanDeviceName_ok hscan hrun
        have hmoves := Moves.bind (h.oprintf "OK" .inSync) fun _ =>
          Moves.bind (h.deviceNamed name _) fun dev => h.oprintf (yesNo dev.isSome) _
        exact inSync_of_tracked (hmoves.ok (on_tracked hs name rest hext fun _ => hs name) hbody).1
          (right_inSync hf.written)
    | getLabelType =>
        obtain ⟨ds, hext, hbody⟩ := scanDeviceName_ok hscan hrun
        have hin : (tracked W name s.calls).inv .inSync (s.on name rest ds) :=
          on_tracked hs name rest hext fun _ => hs name
        have hmoves := Moves.ok (h.printDisk fun disk =>
          h.oprintf (disk.elim "unknown" Disk.type)) hin hbody
        exact inSync_of_tracked hmoves.1 (right_inSync hf.written)
    | diskUnchanged => exact absurd rfl hv
    | commit => exact commit_inSync hs hscan hrun hf
    | partitions =>
        exact query_inSync hs hscan rfl (fun p hp => (hadj p hp).commandPartitions) hrun hf
    | getResizeRange =>
        exact query_inSync hs hscan rfl (fun p hp => (hadj p hp).commandGetResizeRange) hrun hf
    | getVirtualResizeRange =>
        exact query_inSync hs hscan rfl (fun p hp => (hadj p hp).commandGetVirtualResizeRange)
          hrun hf
    | setFlags =>
        exact edit_inSync hs hscan (fun p hp => (hadj p hp).commandSetFlags trivial) hrun
          fun _ _ _ hmark => raise_first hmark
    | setName =>
        exact edit_inSync hs hscan (fun p hp => (hadj p hp).commandSetName) hrun
          fun _ _ _ hmark => raise_first hmark
    | deletePartition =>
        exact edit_inSync hs hscan (fun p hp => (hadj p hp).commandDeletePartition) hrun
          fun _ _ _ hmark => raise_first hmark
    | newPartition =>
        exact edit_inSync hs hscan (fun p hp => (hadj p hp).commandNewPartition) hrun
          fun _ _ _ hmark => raise_second hmark
    | changeFileSystem => exact changeFileSystem_inSync hs hscan hrun hf.written
    | resizePartition =>
        refine write_inSync hs hscan (commandResizePartition_goes (quiet_tracked lp)
          (hadj .up open_up) (fun _ => commit_tracked .up) hsaved fun _ => ?_) hrun hf.written
          fun _ _ _ hmark => raise_second hmark
        exact working_weaken (.pure _) (fun _ _ h => h) fun e _ hup _ => right_up e hup
    | virtualResizePartition =>
        exact write_inSync hs hscan (commandVirtualResizePartition_goes (quiet_tracked lp)
          (hadj .up open_up) (fun _ => commit_tracked .up) hsaved trivial rounds) hrun hf.written
          fun _ _ _ hmark => raise_second hmark
    | _ => exact absurd rfl hr

end Commands

/-! ## Runs -/

/-- The command that a dialog begins with, and its device. -/
def commandOf (input : Text) : Option (Verb × Text) := do
  let (word, t) ← scanWord input
  let v ← Verb.ofWord word
  let (name, _) ← scanWord t
  pure (v, name)

/-- The server after a number of dialogs none of which was `DISK_UNCHANGED` and
none of which did a table any harm. -/
inductive Kept (lp : Libparted W) (m : Machine) : State W → Prop where
  | start (world : W) (alignment : Alignment) : Kept lp m (initial world alignment)
  | step {s s' : State W} {rounds : Nat} {input : Text} {v : Verb} {name : Text}
      (h : Kept lp m s) (hs : serve lp m rounds input s = .ok ((), s'))
      (hc : commandOf input = some (v, name)) (hv : v ≠ .diskUnchanged)
      (hf : Faithful v name s s') : Kept lp m s'

theorem serve_ok (hs : serve lp m rounds input s = .ok ((), s'))
    (hc : commandOf input = some (v, name)) :
    ∃ t rest, scanWord t = some (name, rest) ∧
      command lp m rounds v { s with input := t, output := [] } = .ok ((), s') := by
  unfold commandOf at hc
  cases hword : scanWord input with
  | none =>
      rw [hword] at hc
      cases hc
  | some p =>
      obtain ⟨word, t⟩ := p
      rw [hword] at hc
      cases hverb : Verb.ofWord word with
      | none => simp [hverb] at hc
      | some v' =>
          cases hname : scanWord t with
          | none => simp [hverb, hname] at hc
          | some q =>
              have hvn : v' = v ∧ q.1 = name := by simpa [hverb, hname] using hc
              obtain ⟨rfl, rfl⟩ := hvn
              refine ⟨t, q.2, hname, ?_⟩
              have hrun := iscanf_run (s := { s with input := input, output := [] }) hword
                "No data in infifo."
              rw [serve, dispatch, bind_run hrun, hverb] at hs
              exact hs

/-- In a run in which no write has failed, in which `COMMIT` was not without a disk
to write, and in which no query has adjusted a table whose flag was down, the
table of every device whose flag is down is the one that was last read from the
disk or written to it. -/
theorem flag_down_inSync {s : State W} (h : Kept lp m s) (n : Text)
    (ho : (s.entry n).dev.isSome = true) (hc : (s.entry n).changed = false) :
    lastSynced n s.calls = some (s.entry n).disk := by
  suffices hs : InSync s from hs n ho hc
  clear ho hc
  induction h with
  | start world alignment => exact fun _ ho => by cases ho
  | @step s s' rounds input v name _ hs hc hv hf ih =>
      obtain ⟨t, rest, hscan, hrun⟩ := serve_ok hs hc
      exact command_inSync (s := { s with input := t, output := [] }) ih hscan hv hrun
        ⟨hf.written, hf.labelled, hf.unadjusted⟩

theorem serveAll_one (h : serveAll lp m rounds [input] s = .ok s') :
    serve lp m rounds input s = .ok ((), s') := by
  unfold serveAll at h
  split at h
  · next heq =>
      cases h
      exact heq
  · cases h

theorem serveAll_cons (h : serveAll lp m rounds [input] s = .ok s') (inputs : List Text) :
    serveAll lp m rounds (input :: inputs) s = serveAll lp m rounds inputs s' := by
  rw [serveAll, serveAll_one h]

theorem Kept.next (h : Kept lp m s) (hs : serveAll lp m rounds [input] s = .ok s')
    (hc : commandOf input = some (v, name)) (hv : v ≠ .diskUnchanged) (hq : v.queries = false)
    (hd : v = .commit → (s.entry name).disk.isSome = true) (hw : Written s'.calls) :
    Kept lp m s' := by
  refine .step h (serveAll_one hs) hc hv ⟨hw, fun hcommit _ hnone => ?_, fun hquery => ?_⟩
  · have hsome := hd hcommit
    rw [hnone] at hsome
    cases hsome
  · rw [hq] at hquery
    cases hquery

/-- A number of dialogs has gone well, and there is `f` to see then. -/
def goesWell (f : State W → Bool) : Except Stop (State W) → Bool
  | .ok s => f s
  | .error _ => false

theorem goesWell_ok {f : State W → Bool} {r : Except Stop (State W)} (h : goesWell f r = true) :
    ∃ s, r = .ok s ∧ f s = true := by
  cases r with
  | ok s => exact ⟨s, rfl, h⟩
  | error e => cases h

/-- The disk of a machine with one partition. -/
def onePartition (writable : Bool) : State OneDisk :=
  initial ⟨some [⟨1, 1, {}, ⟨1, 10, 10⟩, none, [], []⟩], writable⟩ .optimal

def wroteAll (s : State OneDisk) : Bool := s.calls.all fun c => !c.2.1.failed c.2.2

theorem written_of_wroteAll {s : State OneDisk} (h : wroteAll s = true) : Written s.calls := by
  intro c hc
  simpa using List.all_eq_true.mp h c hc

/-- The partition is deleted, and the table is written. -/
theorem flag_down_inSync_written :
    ∃ s, serveAll oneDisk ⟨none, true⟩ 0 ["OPEN =dev=sda /dev/sda\n",
        "DELETE_PARTITION =dev=sda 512-5631\n", "COMMIT =dev=sda\n"]
        (onePartition true) = .ok s ∧
      (s.entry "=dev=sda").disk = some ⟨0, "msdos", []⟩ ∧
      lastSynced "=dev=sda" s.calls = some (s.entry "=dev=sda").disk := by
  have hrun : goesWell (fun s₁ => wroteAll s₁ && goesWell (fun s₂ => wroteAll s₂ &&
        ((s₂.entry "=dev=sda").disk.isSome && goesWell (fun s₃ => wroteAll s₃ &&
          ((s₃.entry "=dev=sda").dev.isSome && (!(s₃.entry "=dev=sda").changed &&
          decide ((s₃.entry "=dev=sda").disk = some ⟨0, "msdos", []⟩))))
        (serveAll oneDisk ⟨none, true⟩ 0 ["COMMIT =dev=sda\n"] s₂)))
        (serveAll oneDisk ⟨none, true⟩ 0 ["DELETE_PARTITION =dev=sda 512-5631\n"] s₁))
        (serveAll oneDisk ⟨none, true⟩ 0 ["OPEN =dev=sda /dev/sda\n"]
          (onePartition true)) = true := by decide +kernel
  obtain ⟨s₁, h₁, hout⟩ := goesWell_ok hrun
  obtain ⟨hw₁, hout⟩ := Bool.and_eq_true_iff.mp hout
  obtain ⟨s₂, h₂, hout⟩ := goesWell_ok hout
  obtain ⟨hw₂, hout⟩ := Bool.and_eq_true_iff.mp hout
  obtain ⟨hd₂, hout⟩ := Bool.and_eq_true_iff.mp hout
  obtain ⟨s₃, h₃, hout⟩ := goesWell_ok hout
  obtain ⟨hw₃, hout⟩ := Bool.and_eq_true_iff.mp hout
  obtain ⟨ho₃, hout⟩ := Bool.and_eq_true_iff.mp hout
  obtain ⟨hc₃, hd₃⟩ := Bool.and_eq_true_iff.mp hout
  have hk₁ : Kept oneDisk ⟨none, true⟩ s₁ := (Kept.start _ _).next h₁
    (show _ = some (.open, "=dev=sda".toList) by decide) (by decide) rfl (by nofun)
    (written_of_wroteAll hw₁)
  have hk₂ : Kept oneDisk ⟨none, true⟩ s₂ := hk₁.next h₂
    (show _ = some (.deletePartition, "=dev=sda".toList) by decide) (by decide) rfl (by nofun)
    (written_of_wroteAll hw₂)
  have hk₃ : Kept oneDisk ⟨none, true⟩ s₃ := hk₂.next h₃
    (show _ = some (.commit, "=dev=sda".toList) by decide) (by decide) rfl (fun _ => hd₂)
    (written_of_wroteAll hw₃)
  refine ⟨s₃, ?_, of_decide_eq_true hd₃, flag_down_inSync hk₃ _ ho₃ (by simpa using hc₃)⟩
  rw [serveAll_cons h₁, serveAll_cons h₂, h₃]

/-- The partition is deleted, the disk cannot be written, and the user cancels: the
flag is down, and what is in memory was never written. -/
theorem flag_down_cancelled :
    ¬∀ (w : OneDisk) (inputs : List Text) (s : State OneDisk),
      (∀ input ∈ inputs, (commandOf input).any (·.1 = .diskUnchanged) = false) →
      serveAll oneDisk ⟨none, true⟩ 0 inputs (initial w .optimal) = .ok s →
      ∀ n, (s.entry n).dev.isSome = true → (s.entry n).changed = false →
        lastSynced n s.calls = some (s.entry n).disk := by
  intro h
  have hrun : outcome (fun s => ((s.entry "=dev=sda").dev.isSome,
        (s.entry "=dev=sda").changed,
        decide (lastSynced "=dev=sda" s.calls = some (s.entry "=dev=sda").disk)))
      (serveAll oneDisk ⟨none, true⟩ 0 ["OPEN =dev=sda /dev/sda\n",
        "DELETE_PARTITION =dev=sda 512-5631\n", "COMMIT =dev=sda\nCancel\n"]
        (onePartition false)) = .ok (true, false, false) := by decide +kernel
  obtain ⟨s, hs, hout⟩ := outcome_ok hrun
  obtain ⟨ho, hrest⟩ := Prod.mk.inj hout
  obtain ⟨hc, hne⟩ := Prod.mk.inj hrest
  exact of_decide_eq_false hne (h _ _ s (by decide +kernel) hs _ ho hc)

end DebianInstaller.Partman.Parted
