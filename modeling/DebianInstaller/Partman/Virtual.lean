import DebianInstaller.Partman.Changed
import DebianInstaller.Partman.Arguments

/-!
# Partitions that are not on the disk

A partition that was only made in memory is virtual, and is resized there; one
that is on the disk is resized on the disk at once. The server tells them apart
by their start and end: it remembers those of the partitions that hold data when
it lowers the flag of a device, and takes any partition with such a start and
end for one that is on the disk.

A run is looked at together with the table each device had when its flag was
last lowered. What is remembered is that table, and a partition is virtual
exactly if no partition with its start and end held data there.
-/

namespace DebianInstaller.Partman.Parted

open Programs Text

variable {W α : Type} {lp : Libparted W} {m : Machine} {n : Text}

variable {c : Call} {calls : List Call} {d : Disk} {name : Text} {part : PartId} {s s' : State W}
  {t : Text → Option Disk}

/-! ## What is remembered -/

/-- The partitions whose geometries are remembered. -/
def Partition.holdsData (p : Partition) : Bool :=
  !(p.type.extended || p.type.metadata || p.type.freespace)

/-- First and last sector. -/
def Geometry.span (g : Geometry) : Int × Int := (g.start, g.finish)

/-- First and last sector, by the length. -/
def Partition.span (p : Partition) : Int × Int := (p.geom.start, p.geom.start + p.geom.length - 1)

def spans (parts : List Partition) : List (Int × Int) :=
  (parts.filter Partition.holdsData).map Partition.span

/-- The starts and ends of the partitions that hold data. -/
def tableSpans : Option Disk → List (Int × Int)
  | none => []
  | some d => spans d.parts

/-- `ped_geometry_init` has made the geometry that was asked for. -/
def Request.geometric : (r : Request) → r.Reply → Bool
  | .geometryInit _ start length, reply => reply = some ⟨start, start + length - 1, length⟩
  | _, _ => true

def Geometric (calls : List Call) : Prop := ∀ c ∈ calls, c.2.1.geometric c.2.2 = true

theorem Geometric.suffix {calls' : List Call} (h : Geometric calls') (hs : calls <:+ calls') :
    Geometric calls := fun c hc => h c (hs.subset hc)

/-- Nothing but the calls on record changes. -/
def recording (W : Type) : Regime Unit (State W) Stop where
  inv _ _ := True
  rel s s' := s'.deviceName = s.deviceName ∧ (∀ n, s'.entry n = s.entry n) ∧
    s.calls <:+ s'.calls
  may _ := True
  refl _ := ⟨rfl, fun _ => rfl, List.suffix_rfl⟩
  trans h₁ h₂ := ⟨h₂.1.trans h₁.1, fun n => (h₂.2.1 n).trans (h₁.2.1 n), h₁.2.2.trans h₂.2.2⟩

theorem registered_recording : Registered (recording W) where
  mild _ _ := trivial
  timing _ _ := trivial
  same _ _ _ hname hentry hcalls _ := ⟨trivial, hname, hentry, hcalls ▸ List.suffix_rfl⟩
  record _ _ _ _ _ _ := ⟨trivial, rfl, fun _ => rfl, List.suffix_cons _ _⟩

theorem partGeometries_ok {dev : DevId} {parts : List Partition} {gs gs' : List Geometry}
    (h : partGeometries lp dev gs parts s = .ok (gs', s')) (hg : Geometric s'.calls) :
    gs'.map Geometry.span = gs.map Geometry.span ++ spans parts := by
  have hplain : Plain lp (recording W) id := registered_recording.plain
  induction parts generalizing gs s with
  | nil =>
      cases h
      simp [spans]
  | cons p parts ih =>
      unfold partGeometries at h
      split at h
      · next hskip =>
          rw [ih h]
          simp [spans, Partition.holdsData, hskip]
      · next hdata =>
          obtain ⟨g, s₁, hcall, h⟩ := bind_ok h
          change (if maxPartition ≤ (gs ++ [g.getD ⟨0, 0, 0⟩]).length then _
            else partGeometries lp dev (gs ++ [g.getD ⟨0, 0, 0⟩]) parts :
            Server W (List Geometry)) s₁ = _ at h
          split at h
          · cases h
          · have hsuf := (hplain.partGeometries dev parts _ ()).ok trivial h
            have hmem : (s.deviceName, ⟨.geometryInit dev p.geom.start p.geom.length, g⟩) ∈
                s'.calls := by
              refine hsuf.2.2.2.subset ?_
              rw [(call_ok hcall).2.2]
              exact List.mem_cons_self
            have hgeom : g = some ⟨p.geom.start, p.geom.start + p.geom.length - 1,
                p.geom.length⟩ := of_decide_eq_true (hg _ hmem)
            rw [ih h, hgeom]
            simp [spans, Partition.holdsData, hdata, Geometry.span, Partition.span]

/-- `unchange_named` remembers the table there is, and changes nothing else but the
flag. -/
theorem unchangeNamed_ok (h : unchangeNamed lp n s = .ok ((), s')) :
    s'.deviceName = s.deviceName ∧ s.calls <:+ s'.calls ∧
      (∀ k, k ≠ n → s'.entry k = s.entry k) ∧ (s'.entry n).disk = (s.entry n).disk ∧
      (Geometric s'.calls →
        (s'.entry n).geometries.map Geometry.span = tableSpans (s.entry n).disk) := by
  have hplain : Plain lp (recording W) id := registered_recording.plain
  obtain ⟨ds₁, hrun₁, he₁⟩ :=
    updateNamed_spec s n (f := fun e => { e with changed := false }) fun _ => rfl
  change (updateNamed n (fun e => { e with changed := false }) s >>= fun p => _) = _ at h
  rw [hrun₁] at h
  obtain ⟨ds₂, hrun₂, _, hext₂⟩ := indexOfName_spec { s with devices := ds₁ } n
  change ((indexOfName n { s with devices := ds₁ } >>= fun p => _) >>= fun p => _) = _ at h
  rw [hrun₂] at h
  have he₂ : ∀ k, State.entry { s with devices := ds₂ } k =
      if k = n then { s.entry n with changed := false } else s.entry k :=
    fun k => (hext₂.entry k).trans (he₁ k)
  change (match (State.entry { s with devices := ds₁ } n).disk with
    | none => updateNamed n fun e => { e with geometries := [] }
    | some disk => do
        let geometries ← partGeometries lp disk.dev [] disk.parts
        updateNamed n fun e => { e with geometries := geometries } : Server W Unit)
    { s with devices := ds₂ } = _ at h
  rw [show (State.entry { s with devices := ds₁ } n).disk = (s.entry n).disk by
    rw [he₁, if_pos rfl]] at h
  -- the table is looked through, and the entry is written
  have hset : ∀ (gs : List Geometry) (s₃ : State W), s₃.deviceName = s.deviceName →
      s.calls <:+ s₃.calls → (∀ k, s₃.entry k = State.entry { s with devices := ds₂ } k) →
      (Geometric s₃.calls → gs.map Geometry.span = tableSpans (s.entry n).disk) →
      updateNamed n (fun e => { e with geometries := gs }) s₃ = .ok ((), s') →
      s'.deviceName = s.deviceName ∧ s.calls <:+ s'.calls ∧
        (∀ k, k ≠ n → s'.entry k = s.entry k) ∧ (s'.entry n).disk = (s.entry n).disk ∧
        (Geometric s'.calls →
          (s'.entry n).geometries.map Geometry.span = tableSpans (s.entry n).disk) := by
    intro gs s₃ hname hsuf hentry hgs hrun
    obtain ⟨ds₄, hrun₄, he₄⟩ :=
      updateNamed_spec s₃ n (f := fun e => { e with geometries := gs }) fun _ => rfl
    rw [hrun₄] at hrun
    cases hrun
    refine ⟨hname, hsuf, fun k hk => ?_, ?_, fun hg => ?_⟩
    · rw [he₄, if_neg hk, hentry, he₂, if_neg hk]
    · rw [he₄, if_pos rfl, hentry, he₂, if_pos rfl]
    · rw [he₄, if_pos rfl]
      exact hgs hg
  cases hd : (s.entry n).disk with
  | none =>
      rw [hd] at h hset
      exact hset [] { s with devices := ds₂ } rfl List.suffix_rfl (fun _ => rfl) (fun _ => rfl) h
  | some d =>
      rw [hd] at h hset
      obtain ⟨gs, s₃, hpart, h⟩ := bind_ok h
      obtain ⟨-, hname, hentry, hsuf⟩ := (hplain.partGeometries _ _ _ ()).ok trivial hpart
      refine hset gs s₃ hname hsuf hentry (fun hg => ?_) h
      exact partGeometries_ok hpart hg

/-! ## What the commands remember -/

/-- The table is read or written. -/
def Request.tries : Request → Bool
  | .diskNew _ => true
  | .change _ .commit => true
  | _ => false

/-- A table was read or written since then. -/
def Tried (base calls : List Call) (b : Bool) : Prop :=
  ∃ new, calls = new ++ base ∧ new.any (fun c => c.2.1.tries) = b

/-- What is known of the geometries of the device that is worked on. -/
inductive Memory where
  /-- They are the old ones, and no table was read or written. -/
  | old
  /-- They are the old ones, and one was. -/
  | tried
  /-- They are those of the table in memory. -/
  | new
  /-- They are the old ones or those of the table in memory, and it is known which. -/
  | known
  | lost

variable {p q : Memory}

def Memory.holds (base : List Call) (gs : List Geometry) (e : Devdisk) (calls : List Call) :
    Memory → Prop
  | .old => e.geometries = gs ∧ Tried base calls false
  | .tried => e.geometries = gs ∧ Tried base calls true
  | .new => Geometric calls → e.geometries.map Geometry.span = tableSpans e.disk
  | .known =>
      (e.geometries = gs ∧ Tried base calls false) ∨
      ((Geometric calls → e.geometries.map Geometry.span = tableSpans e.disk) ∧
        Tried base calls true)
  | .lost => True

/-- `n` is worked on, and the others remember what they did. -/
def remembering (W : Type) (n : Text) (base : List Call) (gs : Text → List Geometry) :
    Regime Memory (State W) Stop :=
  working W n (fun k e _ => e.geometries = gs k) fun p e calls =>
    base <:+ calls ∧ p.holds base (gs n) e calls

variable {base : List Call} {gs : Text → List Geometry}

theorem tries_of_quiet {r : Request} (h : r.quiet = true ∨ r.timed = true) :
    r.tries = false := by
  cases r <;> first | rfl | (rcases h with h | h <;> cases h)

theorem Tried.cons {b : Bool} (h : Tried base calls b) (c : Call) :
    Tried base (c :: calls) (c.2.1.tries || b) := by
  obtain ⟨new, rfl, hb⟩ := h
  exact ⟨c :: new, rfl, by rw [List.any_cons, hb]⟩

theorem Tried.quiet {b : Bool} (h : Tried base calls b) (hc : c.2.1.tries = false) :
    Tried base (c :: calls) b := by
  have := h.cons c
  rwa [hc, Bool.false_or] at this

theorem Tried.of_suffix (h : base <:+ calls) (hc : c.2.1.tries = true) :
    Tried base (c :: calls) true := by
  obtain ⟨new, rfl⟩ := h
  exact ⟨c :: new, rfl, by rw [List.any_cons, hc, Bool.true_or]⟩

theorem memory_cons {g : List Geometry} {e : Devdisk} (hc : c.2.1.tries = false)
    (h : p.holds base g e calls) : p.holds base g e (c :: calls) := by
  have hgeo : Geometric (c :: calls) → Geometric calls := fun h => h.suffix (List.suffix_cons _ _)
  cases p with
  | old => exact ⟨h.1, h.2.quiet hc⟩
  | tried => exact ⟨h.1, h.2.quiet hc⟩
  | new => exact fun hg => h (hgeo hg)
  | known =>
      rcases h with h | h
      · exact .inl ⟨h.1, h.2.quiet hc⟩
      · exact .inr ⟨fun hg => h.1 (hgeo hg), h.2.quiet hc⟩
  | lost => trivial

theorem registered_remembering : Registered (remembering W n base gs) :=
  working_registered (fun _ _ _ _ _ _ _ h => h) fun _ _ _ r reply hr h =>
    ⟨h.1.trans (List.suffix_cons _ _), memory_cons (c := (n, ⟨r, reply⟩)) (tries_of_quiet hr) h.2⟩

theorem plain_remembering (lp : Libparted W) : Plain lp (remembering W n base gs) id :=
  registered_remembering.plain

theorem quiet_remembering (lp : Libparted W) : Quiet lp (remembering W n base gs) id :=
  working_loose.quiet (plain_remembering lp)

theorem remembering_weaken {r r' : Memory} {c : Server W α}
    (h : Moves (remembering W n base gs) p q c)
    (h₁ : ∀ e calls, r.holds base (gs n) e calls → p.holds base (gs n) e calls)
    (h₂ : ∀ e calls, q.holds base (gs n) e calls → r'.holds base (gs n) e calls) :
    Moves (remembering W n base gs) r r' c :=
  working_weaken h (fun e calls h => ⟨h.1, h₁ e calls h.2⟩) fun e calls h => ⟨h.1, h₂ e calls h.2⟩

theorem updateNamed_old {f : Devdisk → Devdisk} (name : Text)
    (hf : ∀ e, (f e).name = e.name ∧ (f e).geometries = e.geometries) :
    Moves (remembering W n base gs) .old .old (updateNamed name f) := by
  by_cases hn : name = n
  · subst hn
    exact working_updateNamed (fun e => (hf e).1) fun e _ h =>
      ⟨h.1, (hf e).2.trans h.2.1, h.2.2⟩
  · exact working_updateOther hn (fun e => (hf e).1) fun e _ h => (hf e).2.trans h

theorem changeNamed_old (name : Text) :
    Moves (remembering W n base gs) .old .old (changeNamed name) :=
  updateNamed_old name fun _ => ⟨rfl, rfl⟩

theorem change_remembering {c : Change}
    (hp : ∀ e calls d d' ok, base <:+ calls → p.holds base (gs n) e calls →
      q.holds base (gs n) { e with disk := some d' } ((n, ⟨.change d c, (ok, d')⟩) :: calls)) :
    Moves (remembering W n base gs) p q (change lp c) :=
  working_change (fun _ _ _ _ _ h => h) fun e calls d d' ok _ h =>
    ⟨h.1.trans (List.suffix_cons _ _), hp e calls d d' ok h.1 h.2⟩

theorem adjusting_old (lp : Libparted W) :
    Adjusting lp ((remembering W n base gs).comap fun _ : Unit => Memory.old) id :=
  have hl : Loose ((remembering W n base gs).comap fun _ : Unit => Memory.old) :=
    ⟨fun _ _ => trivial, fun _ => trivial⟩
  hl.adjusting
    { toQuiet := hl.quiet (registered_remembering.comap _).plain
      change := fun c hc _ => (change_remembering (p := .old) (q := .old)
        fun e calls d d' ok _ h => ⟨h.1, h.2.quiet (by
          cases c <;> first | rfl | exact absurd rfl hc)⟩).comap
      mark := fun name _ => (changeNamed_old name).comap
      resize := (registered_remembering.comap _).resize }

theorem commit_old :
    Moves (remembering W n base gs) .old .tried (ignore (change lp .commit)) :=
  ignore_moves (change_remembering fun _ _ _ _ _ hsuf h => ⟨h.1, .of_suffix hsuf rfl⟩)

theorem unchangeNamed_remembering
    (hq : ∀ e e' calls calls', p.holds base (gs n) e calls → calls <:+ calls' →
      e'.disk = e.disk →
      (Geometric calls' → e'.geometries.map Geometry.span = tableSpans e'.disk) →
      q.holds base (gs n) e' calls') :
    Moves (remembering W n base gs) p q (unchangeNamed lp n) := by
  refine working_of_run fun s a s' hs hrun => ?_
  obtain ⟨hname, hsuf, hothers, hdisk, hgeo⟩ := unchangeNamed_ok hrun
  refine ⟨hname.trans hs.1, fun k hk => ?_, hs.2.2.1.trans hsuf, ?_⟩
  · rw [hothers k hk]
    exact hs.2.1 k hk
  · refine hq _ _ _ _ hs.2.2.2 hsuf hdisk fun hg => ?_
    rw [hdisk]
    exact hgeo hg

theorem unchangeNamed_new (p : Memory) :
    Moves (remembering W n base gs) p .new (unchangeNamed lp n) :=
  unchangeNamed_remembering fun _ _ _ _ _ _ _ h => h

theorem unchangeNamed_known :
    Moves (remembering W n base gs) .tried .known (unchangeNamed lp n) := by
  refine unchangeNamed_remembering fun e e' calls calls' h hsuf _ hg => .inr ⟨hg, ?_⟩
  obtain ⟨new, rfl, hnew⟩ := h.2
  obtain ⟨more, rfl⟩ := hsuf
  exact ⟨more ++ new, (List.append_assoc _ _ _).symm, by rw [List.any_append, hnew, Bool.or_true]⟩

/-! Replacing the device or the disk leaves the geometries alone. -/

theorem setDeviceNamed_old (lp : Libparted W) (dev : Option DevId) :
    Moves (remembering W n base gs) .old .old (setDeviceNamed lp n dev) :=
  working_setDeviceNamed (plain_remembering lp) fun _ _ h => h

theorem setDiskNamed_old (lp : Libparted W) (disk : Option Disk) :
    Moves (remembering W n base gs) .old .old (setDiskNamed lp n disk) :=
  working_setDiskNamed (plain_remembering lp) (fun _ _ h => h) fun _ _ _ h => h

theorem setDiskNamed_tried (lp : Libparted W) (disk : Option Disk) :
    Moves (remembering W n base gs) .tried .tried (setDiskNamed lp n disk) :=
  working_setDiskNamed (plain_remembering lp) (fun _ _ h => h) fun _ _ _ h => h

theorem diskNew_old (dev : DevId) :
    Moves (remembering W n base gs) .old .tried (call lp (.diskNew dev)) := by
  refine working_of_run fun s a s' hs hrun => ?_
  obtain ⟨hname, hentry, hcalls⟩ := call_ok hrun
  refine ⟨hname.trans hs.1, fun k hk => ?_, ?_, ?_⟩
  · rw [hentry]
    exact hs.2.1 k hk
  · rw [hcalls]
    exact hs.2.2.1.trans (List.suffix_cons _ _)
  · rw [hentry, hcalls]
    exact ⟨hs.2.2.2.1, .of_suffix hs.2.2.1 rfl⟩

/-! ## Runs -/

/-- The commands that lower the flag. `OPEN` and `RESIZE_PARTITION` do so if they
have come to read or write the table. -/
def Verb.clears (new : List Call) : Verb → Bool
  | .undo | .commit | .diskUnchanged | .virtualResizePartition => true
  | .open | .resizePartition => new.any fun c => c.2.1.tries
  | _ => false

/-- What a step has made of the geometries of its device. -/
def Remembers (v : Verb) (name : Text) (s s' : State W) : Prop :=
  (∀ k, k ≠ name → (s'.entry k).geometries = (s.entry k).geometries) ∧
  ∃ new, s'.calls = new ++ s.calls ∧
    if v.clears new = true then
      Geometric s'.calls →
        (s'.entry name).geometries.map Geometry.span = tableSpans (s'.entry name).disk
    else (s'.entry name).geometries = (s.entry name).geometries

section Commands

variable {s s' : State W} {name rest : Text} {v : Verb}

/-- The regime of a command that begins in `s`. -/
abbrev remembers (s : State W) (name : Text) : Regime Memory (State W) Stop :=
  remembering W name s.calls fun k => (s.entry k).geometries

theorem on_remembers {ds : List Devdisk} (hext : Extends s ds) :
    (remembers s name).inv .old (s.on name rest ds) := by
  refine ⟨rfl, fun k _ => ?_, List.suffix_rfl, ?_, [], rfl, rfl⟩
  · rw [show (s.on name rest ds).entry k = s.entry k from hext.entry k]
  · rw [show (s.on name rest ds).entry name = s.entry name from hext.entry name]

theorem remembers_old (hv : ∀ new, v.clears new = false)
    (h : (remembers s name).inv .old s') : Remembers v name s s' := by
  obtain ⟨-, hothers, -, hgeo, new, hcalls, -⟩ := h
  refine ⟨hothers, new, hcalls, ?_⟩
  rw [if_neg (by rw [hv]; decide)]
  exact hgeo

theorem remembers_new (hv : ∀ new, v.clears new = true)
    (h : (remembers s name).inv .new s') : Remembers v name s s' := by
  obtain ⟨-, hothers, ⟨new, hcalls⟩, hgeo⟩ := h
  refine ⟨hothers, new, hcalls.symm, ?_⟩
  rw [if_pos (hv new)]
  exact hgeo

theorem remembers_known (hv : ∀ new : List Call, v.clears new = new.any fun c => c.2.1.tries)
    (h : (remembers s name).inv .known s') : Remembers v name s s' := by
  obtain ⟨-, hothers, -, ⟨hgeo, new, hcalls, hnew⟩ | ⟨hgeo, new, hcalls, hnew⟩⟩ := h
  · refine ⟨hothers, new, hcalls, ?_⟩
    rw [if_neg (by rw [hv, hnew]; decide)]
    exact hgeo
  · refine ⟨hothers, new, hcalls, ?_⟩
    rw [if_pos (by rw [hv, hnew])]
    exact hgeo

variable (hscan : scanWord s.input = some (name, rest))

include hscan

theorem goes_remembers {c : Server W Unit} (hrun : c s = .ok ((), s'))
    (hc : Goes (remembers s name) (· = name) (fun _ : Unit => Memory.old) (fun _ => q) c) :
    (remembers s name).inv q s' := by
  obtain ⟨body, rfl, hb⟩ := hc
  obtain ⟨dev, ds, hdev, hext, hbody⟩ := withDevice_ok hscan hrun
  exact ((hb name dev rfl ()).ok (on_remembers hext) hbody).1

theorem stays_remembers {c : Server W Unit} (hrun : c s = .ok ((), s'))
    (hc : Stays ((remembers s name).comap fun _ : Unit => Memory.old) c) :
    (remembers s name).inv .old s' := by
  obtain ⟨body, hbody, hb⟩ := hc
  exact goes_remembers hscan hrun ⟨body, hbody, fun name dev _ k => hb name dev k⟩

theorem open_remembers (hrun : commandOpen lp s = .ok ((), s')) :
    (remembers s name).inv .known s' := by
  obtain ⟨ds, hext, hbody⟩ := scanDeviceName_ok hscan hrun
  have h : Plain lp (remembers s name) id := plain_remembering lp
  refine (Moves.ok ?_ (on_remembers hext) hbody).1
  refine .bind (h.iscanf _ _ _) fun device => .bind (h.deviceOpened name _) fun b => ?_
  refine .bind (j := .old) ?_ fun _ => .bind (h.oprintf _ _) fun _ => ?_
  · cases b with
    | true => exact ignore_moves (h.ask _ _ _ _)
    | false => exact .bind (h.call _ rfl _) fun dev => setDeviceNamed_old lp dev
  · refine .bind (h.deviceNamed name _) fun dev => ?_
    split
    · refine .bind (h.oprintf _ _) fun _ => .bind (h.deactivate _) fun _ => ?_
      refine .bind (diskNew_old _) fun disk => .bind (setDiskNamed_tried lp disk) fun _ => ?_
      exact .bind unchangeNamed_known fun _ => h.activate _
    · exact remembering_weaken (h.oprintf _ .old) (fun _ _ h => h) fun _ _ h => .inl h

theorem undo_remembers (hrun : commandUndo lp s = .ok ((), s')) :
    (remembers s name).inv .new s' := by
  have h : Plain lp (remembers s name) id := plain_remembering lp
  refine goes_remembers hscan hrun ⟨_, rfl, fun _ dev hname _ => ?_⟩
  subst hname
  refine .bind (h.deactivate _) fun _ => .bind (setDiskNamed_old lp none) fun _ => ?_
  refine .bind (diskNew_old _) fun disk => .bind (setDiskNamed_tried lp disk) fun _ => ?_
  refine .bind (h.activate _) fun _ => .bind (unchangeNamed_new _) fun _ => h.oprintf _ _

theorem newLabel_remembers (hrun : commandNewLabel lp s = .ok ((), s')) :
    (remembers s name).inv .old s' := by
  have h : Plain lp (remembers s name) id := plain_remembering lp
  refine goes_remembers hscan hrun ⟨_, rfl, fun _ dev hname _ => ?_⟩
  subst hname
  refine .bind (changeNamed_old _) fun _ => .bind (h.iscanf _ _ _) fun str => ?_
  refine .bind (h.call _ rfl _) fun type => ?_
  split
  · exact h.critical _
  · refine .bind (theDevice_within dev _) fun _ => .bind (setDiskNamed_old lp none) fun _ => ?_
    refine .bind (setDeviceNamed_old lp none) fun _ => .bind (h.call _ rfl _) fun dev' => ?_
    split
    · exact h.critical _
    · refine .bind (setDeviceNamed_old lp _) fun _ => .bind (h.call _ rfl _) fun disk => ?_
      refine .bind (j := .old) ?_ fun _ => h.oprintf _ _
      cases disk with
      | none => exact ignore_moves (h.ask _ _ _ _)
      | some d => exact setDiskNamed_old lp (some d)

theorem close_remembers (hrun : commandClose lp s = .ok ((), s')) :
    (remembers s name).inv .old s' := by
  obtain ⟨ds, hext, hbody⟩ := scanDeviceName_ok hscan hrun
  have h : Plain lp (remembers s name) id := plain_remembering lp
  refine (Moves.ok ?_ (on_remembers hext) hbody).1
  refine .bind (h.deviceOpened name _) fun b => ?_
  refine .bind (whenever_within (ignore_within (h.ask _ _ _)) _) fun _ => ?_
  refine .bind (setDiskNamed_old lp none) fun _ => ?_
  exact .bind (setDeviceNamed_old lp none) fun _ => h.oprintf _ _

theorem commit_remembers (hrun : commandCommit lp m s = .ok ((), s')) :
    (remembers s name).inv .new s' := by
  have h : Quiet lp (remembers s name) id := quiet_remembering lp
  refine goes_remembers hscan hrun ⟨_, rfl, fun _ dev hname _ => ?_⟩
  subst hname
  refine .bind (whenever_within (ignore_within h.disk) _) fun _ => ?_
  refine .bind (h.insert _ _) fun e => .bind (j := .lost) ?_ fun _ => ?_
  · cases e.disk.isSome && e.changed with
    | true => exact remembering_weaken commit_old (fun _ _ h => h) fun _ _ _ => trivial
    | false => exact remembering_weaken (.pure _) (fun _ _ h => h) fun _ _ _ => trivial
  · exact .bind (unchangeNamed_new _) fun _ => h.oprintf _ _

/-- What is remembered changes with the commands that lower the flag, and then it is
the table there is. -/
theorem command_remembers {rounds : Nat} (hrun : command lp m rounds v s = .ok ((), s')) :
    Remembers v name s s' := by
  have h : Plain lp (remembers s name) id := plain_remembering lp
  have hadj : Adjusting lp ((remembers s name).comap fun _ : Unit => Memory.old) id :=
    adjusting_old lp
  by_cases hr : v.reads = true
  · refine remembers_old (fun new => by cases v <;> first | rfl | cases hr)
      (stays_remembers hscan hrun (hadj.toQuiet.command m rounds hr fun _ => trivial))
  · cases v with
    | quit => cases hrun
    | «open» => exact remembers_known (fun _ => rfl) (open_remembers hscan hrun)
    | close => exact remembers_old (fun _ => rfl) (close_remembers hscan hrun)
    | undo => exact remembers_new (fun _ => rfl) (undo_remembers hscan hrun)
    | newLabel => exact remembers_old (fun _ => rfl) (newLabel_remembers hscan hrun)
    | commit => exact remembers_new (fun _ => rfl) (commit_remembers hscan hrun)
    | opened =>
        obtain ⟨ds, hext, hbody⟩ := scanDeviceName_ok hscan hrun
        have hmoves := Moves.bind (h.oprintf "OK" .old) fun _ =>
          Moves.bind (h.deviceNamed name _) fun dev => h.oprintf (yesNo dev.isSome) _
        exact remembers_old (fun _ => rfl) (hmoves.ok (on_remembers hext) hbody).1
    | getLabelType =>
        obtain ⟨ds, hext, hbody⟩ := scanDeviceName_ok hscan hrun
        exact remembers_old (fun _ => rfl) (Moves.ok (h.printDisk fun disk =>
          h.oprintf (disk.elim "unknown" Disk.type)) (on_remembers hext) hbody).1
    | diskUnchanged =>
        refine remembers_new (fun _ => rfl) (goes_remembers hscan hrun
          ⟨_, rfl, fun _ dev hname _ => ?_⟩)
        subst hname
        exact .bind (h.oprintf _ _) fun _ => unchangeNamed_new _
    | partitions =>
        exact remembers_old (fun _ => rfl) (stays_remembers hscan hrun hadj.commandPartitions)
    | getResizeRange =>
        exact remembers_old (fun _ => rfl) (stays_remembers hscan hrun hadj.commandGetResizeRange)
    | getVirtualResizeRange =>
        exact remembers_old (fun _ => rfl)
          (stays_remembers hscan hrun hadj.commandGetVirtualResizeRange)
    | setFlags =>
        exact remembers_old (fun _ => rfl) (stays_remembers hscan hrun (hadj.commandSetFlags trivial))
    | setName =>
        exact remembers_old (fun _ => rfl) (stays_remembers hscan hrun hadj.commandSetName)
    | deletePartition =>
        exact remembers_old (fun _ => rfl)
          (stays_remembers hscan hrun hadj.commandDeletePartition)
    | newPartition =>
        exact remembers_old (fun _ => rfl) (stays_remembers hscan hrun hadj.commandNewPartition)
    | changeFileSystem =>
        exact remembers_old (fun _ => rfl)
          (stays_remembers hscan hrun hadj.commandChangeFileSystem)
    | resizePartition =>
        refine remembers_known (fun _ => rfl) (goes_remembers hscan hrun
          (commandResizePartition_goes (quiet_remembering lp) hadj (fun _ => commit_old)
            (fun k hk _ => ?_) fun _ => ?_))
        · subst hk
          exact unchangeNamed_known
        · exact remembering_weaken (.pure _) (fun _ _ h => h) fun _ _ h => .inl h
    | virtualResizePartition =>
        refine remembers_new (fun _ => rfl) (goes_remembers hscan hrun
          (commandVirtualResizePartition_goes (quiet_remembering lp) hadj (fun _ => commit_old)
            (fun k hk _ => ?_) trivial rounds))
        subst hk
        exact unchangeNamed_new _
    | _ => exact absurd rfl hr

end Commands

/-- The server after a number of dialogs, with the table each device had when its
flag was last lowered. -/
inductive Run (lp : Libparted W) (m : Machine) : (Text → Option Disk) → State W → Prop where
  | start (world : W) (alignment : Alignment) :
      Run lp m (fun _ => none) (initial world alignment)
  | step {t : Text → Option Disk} {s s' : State W} {rounds : Nat} {input : Text} {v : Verb}
      {name : Text} {new : List Call} (h : Run lp m t s)
      (hs : serve lp m rounds input s = .ok ((), s')) (hc : commandOf input = some (v, name))
      (hnew : s'.calls = new ++ s.calls) :
      Run lp m (if v.clears new = true then Function.update t name (s'.entry name).disk else t) s'

theorem Run.next {rounds : Nat} {input : Text} {v : Verb} (h : Run lp m t s)
    (hs : serve lp m rounds input s = .ok ((), s')) (hc : commandOf input = some (v, name)) :
    ∃ new, s'.calls = new ++ s.calls ∧ Run lp m
      (if v.clears new = true then Function.update t name (s'.entry name).disk else t) s' := by
  obtain ⟨t', rest, hscan, hcommand⟩ := serve_ok hs hc
  obtain ⟨_, new, hnew, _⟩ := command_remembers
    (s := { s with input := t', output := [] }) hscan hcommand
  exact ⟨new, hnew, .step h hs hc hnew⟩

theorem run_remembers (h : Run lp m t s) (hg : Geometric s.calls) (k : Text) :
    (s.entry k).geometries.map Geometry.span = tableSpans (t k) := by
  induction h generalizing k with
  | start world alignment => rfl
  | @step t s s' rounds input v name new _ hs hc hnew ih =>
      have ih := ih (hg.suffix (hnew ▸ List.suffix_append _ _))
      obtain ⟨t', rest, hscan, hcommand⟩ := serve_ok hs hc
      obtain ⟨hothers, new', hnew', hname⟩ := command_remembers
        (s := { s with input := t', output := [] }) hscan hcommand
      obtain rfl : new' = new := List.append_cancel_right (hnew'.symm.trans hnew)
      by_cases hk : k = name
      · subst hk
        split
        · next hclears =>
            rw [if_pos hclears] at hname
            rw [Function.update_self]
            exact hname hg
        · next hclears =>
            rw [if_neg hclears] at hname
            rw [hname]
            exact ih k
      · rw [hothers k hk]
        split
        · rw [Function.update_of_ne hk]
          exact ih k
        · exact ih k

/-! ## Virtual partitions -/

/-- `named_partition_is_virtual`. -/
def Devdisk.isVirtual (e : Devdisk) (p : Partition) : Bool :=
  e.geometries.all fun g => ¬(p.geom.start = g.start ∧ p.geom.finish = g.finish)

theorem thePartition_run {p : Partition} (hd : (s.entry s.deviceName).disk = some d)
    (hp : d.partition part = some p) : thePartition part s = .ok (p, s) := by
  rw [thePartition, bind_run (theDisk_run hd), hp]
  rfl

theorem namedPartitionIsVirtual_run (s : State W) (name : Text) (p : Partition) :
    ∃ ds, namedPartitionIsVirtual name p.geom.start p.geom.finish s =
      .ok ((s.entry name).isVirtual p, { s with devices := ds }) ∧ Extends s ds := by
  obtain ⟨ds, hrun, _, hext⟩ := indexOfName_spec s name
  refine ⟨ds, ?_, hext⟩
  show (indexOfName name s >>= fun q => _) = _
  rw [hrun]
  rfl

theorem printVirtual_run {p : Partition} (hname : s.deviceName = name)
    (hd : (s.entry name).disk = some d) (hp : d.partition part = some p) :
    ∃ s', printVirtual name (some part) s = .ok ((), s') ∧
      s'.output = s.output ++ ["OK".toList, yesNo ((s.entry name).isVirtual p)] := by
  subst hname
  obtain ⟨ds, hrun, _⟩ := namedPartitionIsVirtual_run
    { s with output := s.output ++ ["OK".toList] } s.deviceName p
  refine ⟨{ s with devices := ds, output := s.output ++ ["OK".toList] ++
    [yesNo ((s.entry s.deviceName).isVirtual p)] }, ?_, by simp⟩
  show (thePartition part { s with output := s.output ++ ["OK".toList] } >>= fun q => _) = _
  rw [thePartition_run (s := { s with output := s.output ++ ["OK".toList] }) hd hp]
  show (namedPartitionIsVirtual s.deviceName p.geom.start p.geom.finish
    { s with output := s.output ++ ["OK".toList] } >>= fun q => _) = _
  rw [hrun]
  rfl

theorem lastSector_ok {dev : DevId} {start newSize a : Int}
    (h : lastSector lp dev start newSize s = .ok (a, s')) : s' = s := by
  change ((if (lp.device s.world dev).sectorSize = 0 then throw .divisionByZero
    else pure (newSize.tdiv (lp.device s.world dev).sectorSize) : Server W Int) s >>=
    fun q => _) = _ at h
  split at h
  · cases h
  · cases h
    rfl

theorem resize_virtual (hss : ∀ w dev, (lp.device w dev).sectorSize ≠ 0) {ident rest rest' : Text}
    {p : Partition} (hscan : scanWord s.input = some (name, rest))
    (hid : scanWord rest = some (ident, rest')) (hd : (s.entry name).disk = some d)
    (hpart : s.partitionId lp name ident = some part) (hp : d.partition part = some p)
    (hvirt : (s.entry name).isVirtual p = true)
    (hrun : commandResizePartition lp s = .ok ((), s')) : Tried s.calls s'.calls false := by
  obtain ⟨dev, ds, hdev, hext, hbody⟩ := withDevice_ok hscan hrun
  have hentry : (s.on name rest ds).entry name = s.entry name := hext.entry name
  have hd₀ : ((s.on name rest ds).entry name).disk = some d := by rw [hentry, hd]
  obtain ⟨⟨range, rest''⟩, hr⟩ : ∃ r, scanRange ident = some r := by
    unfold State.partitionId at hpart
    cases hr : scanRange ident with
    | some r => exact ⟨r, rfl⟩
    | none =>
        rw [hd, hr] at hpart
        cases hpart
  have hpart' : d.withId (lp.device s.world d.dev).sectorSize range.1 range.2 = some part := by
    unfold State.partitionId at hpart
    rw [hd, hr] at hpart
    exact hpart
  change (assertDisk _ (s.on name rest ds) >>= fun q => _) = _ at hbody
  rw [assertDisk_run (s := s.on name rest ds) hd₀] at hbody
  -- the flag is raised
  obtain ⟨ds₁, hmark, he₁⟩ := updateNamed_spec (s.on name rest ds) name
    (f := fun e => { e with changed := true }) fun _ => rfl
  change (updateNamed name (fun e => { e with changed := true }) (s.on name rest ds) >>=
    fun q => _) = _ at hbody
  rw [hmark] at hbody
  have hd₁ : ∀ t, ((s.on name t ds₁).entry name).disk = some d := by
    intro t
    rw [show (s.on name t ds₁).entry name = _ from he₁ name, if_pos rfl]
    exact hd₀
  -- the partition is looked up
  change (iscanf scanWord "Expected partition id" (s.on name rest ds₁) >>= fun q => _) = _ at hbody
  rw [iscanf_run (s := s.on name rest ds₁) hid] at hbody
  change (partitionWithId lp ident (s.on name rest' ds₁) >>= fun q => _) = _ at hbody
  rw [partitionWithId_run (s := s.on name rest' ds₁) hr (hd₁ rest') (hss _ _),
    show d.withId (lp.device (s.on name rest' ds₁).world d.dev).sectorSize range.1 range.2 =
      some part from hpart'] at hbody
  change (iscanf scanLongLong "Expected new size" (s.on name rest' ds₁) >>= fun q => _) = _
    at hbody
  cases hsize : scanLongLong rest' with
  | none =>
      rw [iscanf_none (s := s.on name rest' ds₁) hsize] at hbody
      cases hbody
  | some q =>
      obtain ⟨newSize, rest₃⟩ := q
      rw [iscanf_run (s := s.on name rest' ds₁) hsize] at hbody
      change (thePartition part (s.on name rest₃ ds₁) >>= fun q => _) = _ at hbody
      rw [thePartition_run (s := s.on name rest₃ ds₁) (hd₁ rest₃) hp] at hbody
      change (lastSector lp dev p.geom.start newSize (s.on name rest₃ ds₁) >>= fun q => _) = _
        at hbody
      cases hlast : lastSector lp dev p.geom.start newSize (s.on name rest₃ ds₁) with
      | error e =>
          rw [hlast] at hbody
          cases hbody
      | ok q =>
          obtain ⟨finish, s₄⟩ := q
          obtain rfl := lastSector_ok hlast
          rw [hlast] at hbody
          obtain ⟨ds₅, hvrun, hext₅⟩ := namedPartitionIsVirtual_run (s.on name rest₃ ds₁) name p
          have hgeo : ((s.on name rest₃ ds₁).entry name).isVirtual p = true := by
            rw [show (s.on name rest₃ ds₁).entry name = _ from he₁ name, if_pos rfl, hentry]
            exact hvirt
          change (namedPartitionIsVirtual name p.geom.start p.geom.finish
            (s.on name rest₃ ds₁) >>= fun q => _) = _ at hbody
          rw [hvrun, hgeo] at hbody
          -- what is left writes nothing
          let s₅ := s.on name rest₃ ds₅
          have hadj : Adjusting lp ((remembers s₅ name).comap fun _ : Unit => Memory.old) id :=
            adjusting_old lp
          have hin : (remembers s₅ name).inv .old s₅ :=
            ⟨rfl, fun _ _ => rfl, List.suffix_rfl, rfl, [], rfl, rfl⟩
          have hmoves := (ignore_within (hadj.resizePartition part p.geom.start finish false)
            ()).bind fun _ => hadj.printRange dev part ()
          exact (hmoves.ok hin hbody).1.2.2.2.2

theorem isVirtual_iff (h : Run lp m t s) (hg : Geometric s.calls) (name : Text) (p : Partition) :
    (s.entry name).isVirtual p = true ↔
      (p.geom.start, p.geom.finish) ∉ tableSpans (t name) := by
  rw [← run_remembers h hg name]
  simp only [Devdisk.isVirtual, List.all_eq_true, decide_eq_true_eq, List.mem_map, not_exists,
    not_and, Geometry.span, Prod.mk.injEq]
  constructor
  · intro hall g hgm hstart hfinish
    exact hall g hgm hstart.symm hfinish.symm
  · intro hall g hgm hstart hfinish
    exact hall g hgm hstart.symm hfinish.symm

theorem mem_tableSpans {disk : Option Disk} {span : Int × Int} :
    span ∈ tableSpans disk ↔
      ∃ d, disk = some d ∧ ∃ q ∈ d.parts, q.holdsData = true ∧ q.span = span := by
  cases disk with
  | none => simp [tableSpans]
  | some d => simp [tableSpans, spans, and_assoc]

/-- `VIRTUAL` and `RESIZE_PARTITION` take a partition for one that is not on the disk
exactly if no partition with its start and end held data in the table there was when
the flag of the device was last lowered. -/
theorem virtual_iff (hss : ∀ w dev, (lp.device w dev).sectorSize ≠ 0) {t : Text → Option Disk}
    {s : State W} (h : Run lp m t s) (hg : Geometric s.calls) {name ident : Text}
    (hname : IsWord name) (hident : IsWord ident) {dev : DevId} {d : Disk} {part : PartId}
    {p : Partition} (hdev : (s.entry name).dev = some dev) (hd : (s.entry name).disk = some d)
    (hpart : s.partitionId lp name ident = some part) (hp : d.partition part = some p) :
    ((∀ rounds rest, Blank rest → ∃ s', serve lp m rounds
          (joinWords ["VIRTUAL".toList, name, ident] ++ rest) s = .ok ((), s') ∧
          s'.output = ["OK".toList, "yes".toList]) ∧
      ∀ rounds rest s', Blank rest → serve lp m rounds
          (joinWords ["RESIZE_PARTITION".toList, name, ident] ++ rest) s = .ok ((), s') →
          Tried s.calls s'.calls false) ↔
      ∀ d', t name = some d' → ∀ q ∈ d'.parts, q.holdsData = true →
        q.span ≠ (p.geom.start, p.geom.finish) := by
  have hr : ∃ r, scanRange ident = some r := by
    unfold State.partitionId at hpart
    cases hr : scanRange ident with
    | some r => exact ⟨r, rfl⟩
    | none =>
        rw [hd, hr] at hpart
        cases hpart
  obtain ⟨r, hr⟩ := hr
  -- what `VIRTUAL` answers
  have hanswer : ∀ rounds rest, Blank rest → ∃ s', serve lp m rounds
      (joinWords ["VIRTUAL".toList, name, ident] ++ rest) s = .ok ((), s') ∧
      s'.output = ["OK".toList, yesNo ((s.entry name).isVirtual p)] := by
    intro rounds rest hrest
    rw [serve_command (isWord_of_all (by decide)) (by decide : _ = some Verb.virtual) _ hrest]
    obtain ⟨ds, hrun, hext⟩ := withPartition_run hss
      (s := { s with input := spaced [name, ident] ++ rest, output := [] })
      (fun name _ _ part => printVirtual name part) (scanWord_spaced hname hrest) hdev hd
      (scanWord_spaced hident hrest) hr
    have hentry := hext.entry name
    obtain ⟨s', hprint, hout⟩ := printVirtual_run
      (s := State.on { s with input := spaced [name, ident] ++ rest, output := [] } name
        (spaced [] ++ rest) ds) (show _ = name from rfl) ((congrArg Devdisk.disk hentry).trans hd) hp
    refine ⟨s', ?_, ?_⟩
    · rw [← hprint, ← hpart]
      exact hrun
    · rw [hout, show State.entry (State.on _ name _ ds) name = _ from hentry]
      rfl
  have hcond : (∀ d', t name = some d' → ∀ q ∈ d'.parts, q.holdsData = true →
      q.span ≠ (p.geom.start, p.geom.finish)) ↔ (s.entry name).isVirtual p = true := by
    rw [isVirtual_iff h hg, mem_tableSpans]
    push Not
    rfl
  rw [hcond]
  constructor
  · rintro ⟨hyes, -⟩
    obtain ⟨s₁, hs₁, hout₁⟩ := hyes 0 [] (by simp [Blank])
    obtain ⟨s₂, hs₂, hout₂⟩ := hanswer 0 [] (by simp [Blank])
    rw [hs₁] at hs₂
    cases hs₂
    rw [hout₁] at hout₂
    cases hvirt : (s.entry name).isVirtual p with
    | true => rfl
    | false =>
        rw [hvirt] at hout₂
        exact absurd hout₂ (by decide)
  · intro hvirt
    refine ⟨fun rounds rest hrest => ?_, fun rounds rest s' hrest hrun => ?_⟩
    · rw [hvirt] at hanswer
      exact hanswer rounds rest hrest
    · rw [serve_command (isWord_of_all (by decide))
        (by decide : _ = some Verb.resizePartition) _ hrest] at hrun
      exact resize_virtual hss
        (s := { s with input := spaced [name, ident] ++ rest, output := [] })
        (scanWord_spaced hname hrest) (scanWord_spaced hident hrest) hd hpart hp hvirt hrun

/-- A partition is made behind the one that is on the disk. -/
theorem virtual_iff_made :
    ∃ s, serveAll oneDisk ⟨none, true⟩ 0 ["OPEN =dev=sda /dev/sda\n".toList,
        "NEW_PARTITION =dev=sda primary ext2 10240-20479 full 10240\n".toList]
        (onePartition true) = .ok s ∧
      ∃ s', serve oneDisk ⟨none, true⟩ 0
          (joinWords ["VIRTUAL".toList, "=dev=sda".toList, "10240-20479".toList] ++ ['\n']) s =
          .ok ((), s') ∧ s'.output = ["OK".toList, "yes".toList] := by
  have hrun : goesWell (fun s₁ => (s₁.calls.any fun c => c.2.1.tries) &&
      decide ((s₁.entry "=dev=sda".toList).disk.map Disk.parts =
        some [⟨1, 1, {}, ⟨1, 10, 10⟩, none, [], []⟩]) &&
      goesWell (fun s₂ => (s₂.calls.all fun c => c.2.1.geometric c.2.2) &&
        decide ((s₂.entry "=dev=sda".toList).dev = some 0 ∧
          s₂.partitionId oneDisk "=dev=sda".toList "10240-20479".toList = some 3 ∧
          ((s₂.entry "=dev=sda".toList).disk.bind (·.partition 3)).map
            (fun p => (p.geom.start, p.geom.finish)) = some (20, 39)))
        (serveAll oneDisk ⟨none, true⟩ 0
          ["NEW_PARTITION =dev=sda primary ext2 10240-20479 full 10240\n".toList] s₁))
      (serveAll oneDisk ⟨none, true⟩ 0 ["OPEN =dev=sda /dev/sda\n".toList]
        (onePartition true)) = true := by decide +kernel
  obtain ⟨s₁, h₁, hout⟩ := goesWell_ok hrun
  obtain ⟨hout, hout₂⟩ := Bool.and_eq_true_iff.mp hout
  obtain ⟨htries, hparts⟩ := Bool.and_eq_true_iff.mp hout
  obtain ⟨s₂, h₂, hout₂⟩ := goesWell_ok hout₂
  obtain ⟨hgeo, hout₂⟩ := Bool.and_eq_true_iff.mp hout₂
  obtain ⟨hdev, hpart, hspan⟩ := of_decide_eq_true hout₂
  obtain ⟨p, hp, hspan⟩ := Option.map_eq_some_iff.mp hspan
  obtain ⟨d, hd, hp⟩ := Option.bind_eq_some_iff.mp hp
  obtain ⟨d₁, hd₁, hparts⟩ := Option.map_eq_some_iff.mp (of_decide_eq_true hparts)
  have hrun₀ : Run oneDisk ⟨none, true⟩ _ (onePartition true) := .start _ _
  obtain ⟨new₁, hnew₁, hrun₁⟩ := hrun₀.next (serveAll_one h₁)
    (show _ = some (Verb.open, "=dev=sda".toList) by decide)
  rw [if_pos (show Verb.clears new₁ .open = true by
    rw [hnew₁.trans (List.append_nil new₁)] at htries
    exact htries)] at hrun₁
  obtain ⟨new₂, hnew₂, hrun₂⟩ := hrun₁.next (serveAll_one h₂)
    (show _ = some (Verb.newPartition, "=dev=sda".toList) by decide)
  rw [if_neg (show ¬Verb.clears new₂ .newPartition = true by nofun)] at hrun₂
  refine ⟨s₂, ?_, ?_⟩
  · rw [serveAll_cons h₁, h₂]
  · refine ((virtual_iff (fun _ _ => by show (512 : Int) ≠ 0; decide) hrun₂
      (List.all_eq_true.mp hgeo) (isWord_of_all (by decide)) (isWord_of_all (by decide)) hdev hd
      hpart hp).mpr ?_).1 0 ['\n'] (fun c hc => by cases hc; rfl)
    intro d' hd' q hq _
    rw [Function.update_self, hd₁] at hd'
    obtain rfl := Option.some.inj hd'
    rw [hparts] at hq
    obtain rfl := List.mem_singleton.mp hq
    rw [hspan]
    decide

/-- The partition was made since the table was last read from the disk or written. -/
def created (n : Text) (part : PartId) (calls : List Call) : Bool :=
  (calls.takeWhile fun c => c.1 ≠ n || (c.2.1.synced c.2.2).isNone).any fun
    | (n', ⟨.change _ (.addPartition p _), reply⟩) => n' = n && p.id = part && reply.1
    | _ => false

/-- One is made where the one on the disk was, which has been deleted. -/
theorem virtual_coincides :
    ¬∀ (w : OneDisk) (inputs : List Text) (s : State OneDisk),
      serveAll oneDisk ⟨none, true⟩ 0 inputs (initial w .optimal) = .ok s →
      ∀ name ident part, s.partitionId oneDisk name ident = some part →
        created name part s.calls = true →
        ∀ s', serve oneDisk ⟨none, true⟩ 0
            (joinWords ["VIRTUAL", name, ident] ++ ['\n']) s = .ok ((), s') →
          s'.output = ["OK".toList, "yes".toList] := by
  intro h
  have hrun : goesWell (fun s => decide (s.partitionId oneDisk "=dev=sda"
        "512-5631" = some 2) && created "=dev=sda" 2 s.calls &&
      goesWell (fun s' => decide (s'.output = ["OK", "no"]))
        (serveAll oneDisk ⟨none, true⟩ 0
          [joinWords ["VIRTUAL", "=dev=sda", "512-5631"] ++ ['\n']] s))
      (serveAll oneDisk ⟨none, true⟩ 0 ["OPEN =dev=sda /dev/sda\n",
        "DELETE_PARTITION =dev=sda 512-5631\n",
        "NEW_PARTITION =dev=sda primary ext2 512-5631 full 5120\n"]
        (onePartition true)) = true := by decide +kernel
  obtain ⟨s, hs, hout⟩ := goesWell_ok hrun
  obtain ⟨hout, hno⟩ := Bool.and_eq_true_iff.mp hout
  obtain ⟨hpart, hmade⟩ := Bool.and_eq_true_iff.mp hout
  obtain ⟨s', hs', hno⟩ := goesWell_ok hno
  have hyes := h _ _ s hs _ _ _ (of_decide_eq_true hpart) hmade s' (serveAll_one hs')
  rw [of_decide_eq_true hno] at hyes
  exact absurd hyes (by decide)

end DebianInstaller.Partman.Parted
