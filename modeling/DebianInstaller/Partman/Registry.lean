import DebianInstaller.Partman.Within

/-!
# The registry

What the operations on the registry do to the entry of each name, and the
regimes that are about these entries: whoever talks to the client or calls
libparted without reading or changing a disk leaves them alone.
-/

namespace DebianInstaller.Partman.Parted

open Programs Text

variable {W α : Type} {ι : Type*} {name : Text} {s : State W}

/-- Entries are found by their names, so whatever keeps the names maps the entries
that are found. -/
theorem find_map_name {ds : List Devdisk} {g : Devdisk → Devdisk}
    (hg : ∀ e, (g e).name = e.name) (n : Text) :
    (ds.map g).find? (·.name = n) = (ds.find? (·.name = n)).map g := by
  rw [List.find?_map]
  congr 2
  funext e
  simp [hg]

theorem entry_name (s : State W) (n : Text) : (s.entry n).name = n := by
  unfold State.entry
  cases hf : s.devices.find? (·.name = n) with
  | none => rfl
  | some e => simpa using List.find?_some hf

/-- A name that has no entry gets one that is as if it had been there. -/
structure Extends (s : State W) (ds : List Devdisk) : Prop where
  entry : ∀ n, State.entry { s with devices := ds } n = s.entry n
  device : ∀ dev : DevId, ds.find? (·.dev = some dev) = s.devices.find? (·.dev = some dev)

theorem Extends.trans {ds ds' : List Devdisk} (h : Extends s ds)
    (h' : Extends { s with devices := ds } ds') : Extends s ds' where
  entry n := (h'.entry n).trans (h.entry n)
  device dev := (h'.device dev).trans (h.device dev)

theorem indexOfName_found (h : s.devices.any (·.name = name) = true) :
    indexOfName name s = .ok (s.entry name, s) := by
  show (if s.devices.any (·.name = name) = true then _ else _ : Server W Devdisk) s = _
  rw [if_pos h]
  rfl

theorem indexOfName_new (h : ¬s.devices.any (·.name = name) = true) :
    indexOfName name s =
      .ok (s.entry name, { s with devices := s.devices ++ [s.entry name] }) := by
  show (if s.devices.any (·.name = name) = true then _ else _ : Server W Devdisk) s = _
  rw [if_neg h]
  rfl

/-- The registry with an entry for `name`. -/
def State.registered (s : State W) (name : Text) : List Devdisk :=
  if s.devices.any (·.name = name) then s.devices else s.devices ++ [s.entry name]

theorem indexOfName_registered (s : State W) (name : Text) :
    indexOfName name s = .ok (s.entry name, { s with devices := s.registered name }) := by
  unfold State.registered
  split
  · next h => exact indexOfName_found h
  · next h => exact indexOfName_new h

theorem any_registered (s : State W) (name : Text) :
    (s.registered name).any (·.name = name) = true := by
  unfold State.registered
  split
  · next h => exact h
  · simp [entry_name]

theorem updateNamed_registered (s : State W) (name : Text) (f : Devdisk → Devdisk) :
    updateNamed name f s = .ok ((), { s with
      devices := (s.registered name).map fun e => if e.name = name then f e else e }) := by
  show (indexOfName name s >>= fun p => _) = _
  rw [indexOfName_registered]
  rfl

theorem indexOfName_spec (s : State W) (name : Text) :
    ∃ ds, indexOfName name s = .ok (s.entry name, { s with devices := ds }) ∧
      (ds.find? (·.name = name)).isSome ∧ Extends s ds := by
  by_cases hany : s.devices.any (·.name = name) = true
  · refine ⟨s.devices, indexOfName_found hany, ?_, ⟨fun _ => rfl, fun _ => rfl⟩⟩
    rw [List.find?_isSome]
    simpa using hany
  · refine ⟨s.devices ++ [s.entry name], indexOfName_new hany, ?_, fun n => ?_, fun dev => ?_⟩
    · rw [List.find?_isSome]
      exact ⟨s.entry name, by simp, by simp [entry_name]⟩
    · have hdef : s.entry n = (s.devices.find? (·.name = n)).getD
          { name := n, alignment := s.alignment } := rfl
      show ((s.devices ++ [s.entry name]).find? (·.name = n)).getD _ = _
      rw [List.find?_append, hdef]
      cases hf : s.devices.find? (·.name = n) with
      | some e => rfl
      | none =>
          rw [Option.none_or, List.find?_singleton]
          split
          · next hn =>
              have hn : name = n := by simpa [entry_name] using hn
              subst hn
              rw [hf] at hdef
              exact hdef
          · rfl
    · have hnone : s.devices.find? (·.name = name) = none := by
        rw [List.find?_eq_none]
        intro e he hname
        exact hany (List.any_eq_true.mpr ⟨e, he, hname⟩)
      have hdev : (s.entry name).dev = none := by
        unfold State.entry
        rw [hnone]
        rfl
      rw [List.find?_append, List.find?_singleton, hdev]
      simp

theorem updateNamed_spec (s : State W) (name : Text) {f : Devdisk → Devdisk}
    (hf : ∀ e, (f e).name = e.name) :
    ∃ ds, updateNamed name f s = .ok ((), { s with devices := ds }) ∧
      ∀ n, State.entry { s with devices := ds } n =
        if n = name then f (s.entry name) else s.entry n := by
  obtain ⟨ds, hrun, hsome, hext⟩ := indexOfName_spec s name
  have hsame := hext.entry
  let g := fun e : Devdisk => if e.name = name then f e else e
  have hg : ∀ e, (g e).name = e.name := by
    intro e
    simp only [g]
    split
    · exact hf e
    · rfl
  refine ⟨ds.map g, ?_, fun n => ?_⟩
  · show (indexOfName name s >>= fun p => _) = _
    rw [hrun]
    rfl
  · have hold : s.entry n = ((ds.find? (·.name = n)).getD
        { name := n, alignment := s.alignment }) := (hsame n).symm
    show (((ds.map g).find? (·.name = n)).getD _) = _
    rw [find_map_name hg]
    split
    · next hn =>
        subst hn
        obtain ⟨e, he⟩ := Option.isSome_iff_exists.mp hsome
        have hename : e.name = n := by simpa using List.find?_some he
        rw [hold, he]
        simp [g, hename]
    · next hn =>
        rw [hold]
        cases he : ds.find? (·.name = n) with
        | none => rfl
        | some e =>
            have hename : e.name = n := by simpa using List.find?_some he
            simp [g, hename, hn]

theorem entry_setDisk (hd : (s.entry name).disk.isSome) (disk : Disk) (n : Text) :
    State.entry { s with
        devices := s.devices.map fun e =>
          if e.name = name then { e with disk := some disk } else e } n =
      if n = name then { s.entry name with disk := some disk } else s.entry n := by
  have hg : ∀ e : Devdisk,
      (if e.name = name then { e with disk := some disk } else e : Devdisk).name = e.name := by
    intro e
    split <;> rfl
  show ((List.find? _ _).getD _) = _
  rw [find_map_name hg]
  unfold State.entry at hd ⊢
  cases he : s.devices.find? (·.name = n) with
  | none =>
      split
      · next hn =>
          subst hn
          rw [he] at hd
          cases hd
      · rfl
  | some e =>
      have hename : e.name = n := by simpa using List.find?_some he
      split
      · next hn =>
          subst hn
          rw [he]
          simp [hename]
      · next hn => simp [hename, hn]

/-- A regime about the entries, the device that is worked on, and the calls. -/
structure Talking (R : Regime ι (State W) Stop) : Prop where
  mild : ∀ e : Stop, e.mild = true → R.may e
  timing : ∀ site : Site, site.timing = true → R.may (.assertion site)
  same : ∀ i s s', s'.deviceName = s.deviceName → (∀ n, s'.entry n = s.entry n) →
    s'.calls = s.calls → R.inv i s → R.inv i s' ∧ R.rel s s'

/-- The calls that leave the disks alone may be made there too. -/
structure Registered (R : Regime ι (State W) Stop) : Prop extends Talking R where
  record : ∀ i s (r : Request) (reply : r.Reply), r.quiet = true ∨ r.timed = true →
    R.inv i s →
    R.inv i { s with calls := (s.deviceName, ⟨r, reply⟩) :: s.calls } ∧
    R.rel s { s with calls := (s.deviceName, ⟨r, reply⟩) :: s.calls }

theorem Registered.comap {R : Regime ι (State W) Stop} (h : Registered R) {κ : Type*}
    (f : κ → ι) : Registered (R.comap f) where
  mild := h.mild
  timing := h.timing
  same k := h.same (f k)
  record k := h.record (f k)

namespace Talking

variable {R : Regime ι (State W) Stop} (h : Talking R) {lp : Libparted W}

include h

theorem of_ok {c : Server W α} {i : ι} (hc : ∀ s, R.inv i s → ∃ a s', c s = .ok (a, s') ∧
      s'.deviceName = s.deviceName ∧ (∀ n, s'.entry n = s.entry n) ∧ s'.calls = s.calls) :
    Moves R i i c := by
  refine .of_step (fun s a s' hs hcs => ?_) (fun s e hs hcs => ?_)
  · obtain ⟨a', s'', hrun, h₁, h₂, h₃⟩ := hc s hs
    rw [hrun] at hcs
    cases hcs
    exact h.same i s _ h₁ h₂ h₃ hs
  · obtain ⟨a', s'', hrun, _⟩ := hc s hs
    rw [hrun] at hcs
    cases hcs

theorem speaking : Speaking R where
  mild := h.mild
  talk i s _ _ _ hs := h.same i s _ rfl (fun _ => rfl) rfl hs

theorem indexOfName (name : Text) : Within R (indexOfName name) := fun _ =>
  h.of_ok fun s _ => by
    obtain ⟨ds, hrun, _, hext⟩ := indexOfName_spec s name
    exact ⟨_, _, hrun, rfl, hext.entry, rfl⟩

theorem startTimer : Within R (startTimer : Server W Unit) := fun i =>
  .bind .get fun _ => .bind (assertThat_may (h.timing _ rfl) i) fun _ =>
    .bind (h.speaking.oprintf _ i) fun _ =>
      .modify fun s hs => h.same i s _ rfl (fun _ => rfl) rfl hs

theorem stopTimer : Within R (stopTimer : Server W Unit) := fun i =>
  .bind .get fun _ => .bind (assertThat_may (h.timing _ rfl) i) fun _ =>
    .bind (h.speaking.oprintf _ i) fun _ =>
      .modify fun s hs => h.same i s _ rfl (fun _ => rfl) rfl hs

theorem pseudoException (type message : Text) (options : List Text) :
    Within R (pseudoException type message options) := by
  have hs := h.speaking
  intro i
  refine .bind .get fun s => .bind (whenever_within h.stopTimer i) fun _ => ?_
  refine .bind (hs.oprintf _ i) fun _ => .bind (hs.oprintf _ i) fun _ => ?_
  refine .bind (hs.oprintf _ i) fun _ => .bind (.forM (fun line => hs.oprintf line i) _) fun _ => ?_
  refine .bind (hs.oprintf _ i) fun _ => .bind (whenever_within h.startTimer i) fun _ => ?_
  refine .bind (hs.iscanf _ _ i) fun str => ?_
  split
  · exact .pure _
  · split
    · exact .pure _
    · exact .throw (h.mild _ rfl)

theorem deactivate : Within R (deactivateExceptionHandler : Server W Unit) := fun i =>
  .bind .get fun _ =>
    .bind (whenever_moves fun _ => .modify fun s hs => h.same i s _ rfl (fun _ => rfl) rfl hs)
      fun _ => .modify fun s hs => h.same i s _ rfl (fun _ => rfl) rfl hs

theorem activate : Within R (activateExceptionHandler : Server W Unit) := fun i =>
  .bind .get fun _ => .bind (assertThat_may (h.timing _ rfl) i) fun _ =>
    .bind (.modify fun s hs => h.same i s _ rfl (fun _ => rfl) rfl hs) fun _ => .bind .get fun _ =>
      whenever_moves fun _ => .modify fun s hs => h.same i s _ rfl (fun _ => rfl) rfl hs

theorem callback (lp : Libparted W) {timed : Bool} (q : Callback timed) :
    Within R (callback lp q) := by
  intro i
  cases q with
  | throw ex => exact throw_moves (fun t m o => h.pseudoException t m o i) h.mild ex
  | tick permille stateName =>
      exact .bind .get fun _ => .bind (assertThat_may (h.timing _ rfl) i) fun _ =>
        h.speaking.oprintf _ i

end Talking

theorem theDisk_run {d : Disk} (h : (s.entry s.deviceName).disk = some d) :
    theDisk s = .ok (d, s) := by
  rw [theDisk, get_run, h]
  rfl

theorem theDisk_null (h : (s.entry s.deviceName).disk = none) :
    theDisk s = .error (.null .disk) := by
  rw [theDisk, get_run, h]
  rfl

theorem theDisk_ok {s t : State W} {d : Disk} (h : theDisk s = .ok (d, t)) :
    (s.entry s.deviceName).disk = some d ∧ t = s := by
  cases hd : (s.entry s.deviceName).disk with
  | some d' =>
      rw [theDisk_run hd] at h
      cases h
      exact ⟨rfl, rfl⟩
  | none =>
      rw [theDisk_null hd] at h
      cases h

/-- Nothing changes but what is said to the client and heard from it. -/
def still (W : Type) : Regime Unit (State W) Stop where
  inv _ _ := True
  rel s s' := s'.deviceName = s.deviceName ∧ (∀ n, s'.entry n = s.entry n) ∧ s'.calls = s.calls
  may _ := True
  refl _ := ⟨rfl, fun _ => rfl, rfl⟩
  trans h₁ h₂ := ⟨h₂.1.trans h₁.1, fun n => (h₂.2.1 n).trans (h₁.2.1 n), h₂.2.2.trans h₁.2.2⟩

theorem talking_still : Talking (still W) where
  mild _ _ := trivial
  timing _ _ := trivial
  same _ _ _ hname hentry hcalls _ := ⟨trivial, hname, hentry, hcalls⟩

theorem call_ok {lp : Libparted W} {r : Request} {s s' : State W} {reply : r.Reply}
    (h : call lp r s = .ok (reply, s')) :
    s'.deviceName = s.deviceName ∧ (∀ n, s'.entry n = s.entry n) ∧
      s'.calls = (s.deviceName, ⟨r, reply⟩) :: s.calls := by
  have hrun := Dialogue.run_moves (fun q => talking_still.callback lp q ()) (lp.answer r s.world)
  obtain ⟨_, t, hget, h⟩ := bind_ok h
  cases hget
  obtain ⟨⟨reply', world⟩, s₁, hd, h⟩ := bind_ok h
  obtain ⟨-, hname, hentry, hcalls⟩ := hrun.ok trivial hd
  cases h
  refine ⟨hname, hentry, ?_⟩
  show (s₁.deviceName, _) :: s₁.calls = _
  rw [hname, hcalls]

theorem change_ok {lp : Libparted W} {c : Change} {s s' : State W} {ok : Bool}
    (h : change lp c s = .ok (ok, s')) :
    ∃ d d', (s.entry s.deviceName).disk = some d ∧ s'.deviceName = s.deviceName ∧
      (∀ n, s'.entry n =
        if n = s.deviceName then { s.entry s.deviceName with disk := some d' }
        else s.entry n) ∧
      s'.calls = (s.deviceName, ⟨.change d c, (ok, d')⟩) :: s.calls := by
  obtain ⟨d, t, hdisk, hrest⟩ := bind_ok h
  obtain ⟨hd, rfl⟩ := theDisk_ok hdisk
  obtain ⟨⟨ok', d'⟩, s₁, hcall, hrest⟩ := bind_ok hrest
  obtain ⟨hname, hentry, hcalls⟩ := call_ok hcall
  cases hrest
  refine ⟨d, d', hd, hname, fun n => ?_, hcalls⟩
  have hsome : (s₁.entry s₁.deviceName).disk.isSome = true := by
    rw [hentry, hname, hd]
    rfl
  rw [show State.entry _ n = _ from entry_setDisk hsome d' n]
  simp only [hname, hentry]

namespace Registered

variable {R : Regime ι (State W) Stop} (h : Registered R) {lp : Libparted W}

include h

theorem call (r : Request) (hr : r.quiet = true ∨ r.timed = true) :
    Within R (call lp r) := by
  intro i
  refine call_moves (fun q => h.callback lp q i) fun s world reply hs => ?_
  have h₁ := h.same i s { s with world := world } rfl (fun _ => rfl) rfl hs
  have h₂ := h.record i { s with world := world } r reply hr h₁.1
  exact ⟨h₂.1, R.trans h₁.2 h₂.2⟩

theorem plain : Plain lp R id where
  mild := h.mild
  talk i s _ _ _ hs := h.same i s _ rfl (fun _ => rfl) rfl hs
  insert := h.indexOfName
  ask := h.pseudoException
  deactivate := h.deactivate
  activate := h.activate
  call r hr := h.call r (.inl hr)

theorem resize (fs : FileSystem) (geom : Geometry) :
    Within R (timeredFileSystemResize lp fs geom) := fun i =>
  .bind (h.startTimer i) fun _ => .bind (h.call _ (.inr rfl) i) fun _ =>
    .bind (h.stopTimer i) fun _ => .pure _

end Registered

/-! ## The device that is worked on

A command names a device, and leaves the entries of the others as they are. -/

/-- A call of libparted on record. -/
abbrev Call := Text × (r : Request) × r.Reply

/-- `n` is worked on: `know` says what is known of its entry, and `other` of the others. -/
def working (W : Type) (n : Text) (other : Text → Devdisk → List Call → Prop)
    (know : ι → Devdisk → List Call → Prop) : Regime ι (State W) Stop where
  inv p s := s.deviceName = n ∧ (∀ k, k ≠ n → other k (s.entry k) s.calls) ∧
    know p (s.entry n) s.calls
  rel _ _ := True
  may _ := True
  refl _ := trivial
  trans _ _ := trivial

section Working

variable {n : Text} {other : Text → Devdisk → List Call → Prop}
  {know : ι → Devdisk → List Call → Prop} {p p' q r r' : ι} {lp : Libparted W}
  {f : Devdisk → Devdisk}

theorem working_of_run {c : Server W α}
    (h : ∀ s a s', (working W n other know).inv p s → c s = .ok (a, s') →
      (working W n other know).inv q s') : Moves (working W n other know) p q c :=
  .of_step (fun s a s' hs hrun => ⟨h s a s' hs hrun, trivial⟩) fun _ _ _ _ => trivial

theorem working_loose : Loose (working W n other know) := ⟨fun _ _ => trivial, fun _ => trivial⟩

/-- What is known and what holds of the others has to outlast the calls that leave the disks
alone. -/
theorem working_registered
    (ho : ∀ k e calls (r : Request) (reply : r.Reply), r.quiet = true ∨ r.timed = true →
      k ≠ n → other k e calls → other k e ((n, ⟨r, reply⟩) :: calls))
    (hk : ∀ p e calls (r : Request) (reply : r.Reply), r.quiet = true ∨ r.timed = true →
      know p e calls → know p e ((n, ⟨r, reply⟩) :: calls)) :
    Registered (working W n other know) where
  mild _ _ := trivial
  timing _ _ := trivial
  same p s s' hname hentry hcalls hs := by
    refine ⟨⟨hname.trans hs.1, fun k hne => ?_, ?_⟩, trivial⟩
    · rw [hentry, hcalls]
      exact hs.2.1 k hne
    · rw [hentry, hcalls]
      exact hs.2.2
  record p s r reply hr hs := by
    obtain ⟨rfl, hothers, hown⟩ := hs
    exact ⟨⟨rfl, fun k hne => ho k _ _ r reply hr hne (hothers k hne), hk p _ _ r reply hr hown⟩,
      trivial⟩

theorem working_weaken {c : Server W α} (h : Moves (working W n other know) p q c)
    (h₁ : ∀ e calls, know r e calls → know p e calls)
    (h₂ : ∀ e calls, know q e calls → know r' e calls) : Moves (working W n other know) r r' c :=
  working_of_run fun _ _ _ hs hrun => by
    have h := (h.ok ⟨hs.1, hs.2.1, h₁ _ _ hs.2.2⟩ hrun).1
    exact ⟨h.1, h.2.1, h₂ _ _ h.2.2⟩

theorem working_updateNamed (hf : ∀ e, (f e).name = e.name)
    (hp : ∀ e calls, know p e calls → know p' (f e) calls) :
    Moves (working W n other know) p p' (updateNamed n f) :=
  working_of_run fun s a s' hs hrun => by
    obtain ⟨ds, hrun', hentry⟩ := updateNamed_spec s n hf
    rw [hrun'] at hrun
    cases hrun
    refine ⟨hs.1, fun k hk => ?_, ?_⟩
    · rw [hentry, if_neg hk]
      exact hs.2.1 k hk
    · rw [hentry, if_pos rfl]
      exact hp _ _ hs.2.2

/-- The entry of another device. -/
theorem working_updateOther (hn : name ≠ n) (hf : ∀ e, (f e).name = e.name)
    (ho : ∀ e calls, other name e calls → other name (f e) calls) :
    Moves (working W n other know) p p (updateNamed name f) :=
  working_of_run fun s a s' hs hrun => by
    obtain ⟨ds, hrun', hentry⟩ := updateNamed_spec s name hf
    rw [hrun'] at hrun
    cases hrun
    refine ⟨hs.1, fun k hk => ?_, ?_⟩
    · rw [hentry]
      split
      · next hkn =>
          subst hkn
          exact ho _ _ (hs.2.1 k hk)
      · exact hs.2.1 k hk
    · rw [hentry, if_neg (Ne.symm hn)]
      exact hs.2.2

theorem working_change {c : Change}
    (ho : ∀ k e calls r, k ≠ n → other k e calls → other k e ((n, r) :: calls))
    (hp : ∀ e calls d d' ok, e.disk = some d → know p e calls →
      know q { e with disk := some d' } ((n, ⟨.change d c, (ok, d')⟩) :: calls)) :
    Moves (working W n other know) p q (change lp c) :=
  working_of_run fun s ok s' hs hrun => by
    obtain ⟨d, d', hd, hname, hentry, hcalls⟩ := change_ok hrun
    rw [hs.1] at hd hentry hcalls
    refine ⟨hname.trans hs.1, fun k hk => ?_, ?_⟩
    · rw [hentry, if_neg hk, hcalls]
      exact ho k _ _ _ hk (hs.2.1 k hk)
    · rw [hentry, if_pos rfl, hcalls]
      exact hp _ _ d d' ok hd hs.2.2

theorem working_setDeviceNamed (h : Plain lp (working W n other know) id) {dev : Option DevId}
    (hp : ∀ e calls, know p e calls → know p' { e with dev := dev } calls) :
    Moves (working W n other know) p p' (setDeviceNamed lp n dev) := by
  refine .bind (h.diskNamed n _) fun _ => .bind (assertThat_may trivial _) fun _ => ?_
  refine .bind (h.deviceNamed n _) fun old => .bind (h.destroyDevice old _) fun _ => ?_
  exact working_updateNamed (fun _ => rfl) hp

theorem working_setDiskNamed (h : Plain lp (working W n other know) id) {disk : Option Disk}
    (hp : ∀ e calls, know p e calls → know p' { e with disk := disk } calls)
    (ha : ∀ e calls alignment, know p' e calls →
      know p' { e with alignment := alignment } calls) :
    Moves (working W n other know) p p' (setDiskNamed lp n disk) := by
  refine .bind (h.deviceOpened n _) fun _ => .bind (assertThat_may trivial _) fun _ => ?_
  refine .bind (h.diskNamed n _) fun old => .bind (h.destroyDisk old _) fun _ => ?_
  refine .bind (working_updateNamed (fun _ => rfl) hp) fun _ => ?_
  cases disk with
  | none => exact .pure _
  | some d =>
      refine .bind (h.call _ rfl _) fun available => ?_
      split
      · exact .bind (h.insert n _) fun _ => h.call _ rfl _
      · split
        · exact working_updateNamed (fun _ => rfl) fun e calls hs => ha e calls _ hs
        · exact .pure _

end Working

/-! ## Reading the words of a command -/

theorem iscanf_run {scan : Text → Option (α × Text)} {a : α} {rest : Text}
    (h : scan s.input = some (a, rest)) (message : String) :
    iscanf scan message s = .ok (a, { s with input := rest }) := by
  rw [iscanf, get_run, h]
  rfl

theorem iscanf_none {scan : Text → Option (α × Text)} (h : scan s.input = none) (message : String) :
    iscanf scan message s = .error (.criticalError message.toList) := by
  rw [iscanf, get_run, h]
  show Except.error (Stop.criticalError [message.toList].flatten) = _
  simp

/-- The state in which a command on `name` does its work. -/
def State.on (s : State W) (name rest : Text) (ds : List Devdisk) : State W :=
  { s with input := rest, deviceName := name, devices := ds }

theorem scanDeviceName_run {rest : Text} (h : scanWord s.input = some (name, rest)) :
    ∃ ds, scanDeviceName s = .ok (name, s.on name rest ds) ∧ Extends s ds := by
  obtain ⟨ds, hrun, _, hext⟩ :=
    indexOfName_spec { s with input := rest, deviceName := name } name
  refine ⟨ds, ?_, hext.entry, hext.device⟩
  rw [scanDeviceName, bind_run (iscanf_run h _), modify_run]
  exact bind_run hrun _

theorem withDevice_run {s : State W} {name rest : Text} {dev : DevId}
    (body : Text → DevId → Server W Unit) (h : scanWord s.input = some (name, rest))
    (hdev : (s.entry name).dev = some dev) :
    ∃ ds, withDevice body s = body name dev (s.on name rest ds) ∧ Extends s ds := by
  obtain ⟨ds, hrun, hext⟩ := scanDeviceName_run h
  obtain ⟨ds', hrun', _, hext'⟩ := indexOfName_spec (s.on name rest ds) name
  refine ⟨ds', ?_, hext.trans ⟨hext'.entry, hext'.device⟩⟩
  have hnamed : deviceNamed name (s.on name rest ds) = _ := bind_run hrun' _
  rw [withDevice, bind_run hrun, bind_run hnamed,
    show (s.on name rest ds).entry name = s.entry name from hext.entry name, hdev]
  rfl

theorem withDevice_registered {s : State W} {name rest : Text} {dev : DevId}
    (body : Text → DevId → Server W Unit) (h : scanWord s.input = some (name, rest))
    (hdev : (s.entry name).dev = some dev) :
    withDevice body s = body name dev (s.on name rest (s.registered name)) := by
  have hentry : (s.on name rest (s.registered name)).entry name = s.entry name := by
    obtain ⟨ds, hrun, _, hext⟩ := indexOfName_spec s name
    rw [indexOfName_registered] at hrun
    have hds : s.registered name = ds := congrArg (fun p => p.2.devices) (Except.ok.inj hrun)
    exact hds ▸ hext.entry name
  have hscan : scanDeviceName s = .ok (name, s.on name rest (s.registered name)) := by
    rw [scanDeviceName, bind_run (iscanf_run h _), modify_run]
    exact bind_run (indexOfName_registered _ _) _
  have hnamed : deviceNamed name (s.on name rest (s.registered name)) = _ :=
    bind_run (indexOfName_found (any_registered s name)) _
  rw [withDevice, bind_run hscan, bind_run hnamed, hentry, hdev]

theorem withDevice_closed {s : State W} (body : Text → DevId → Server W Unit)
    (h : ∀ name rest, scanWord s.input = some (name, rest) → (s.entry name).dev = none) :
    ∃ message, withDevice body s = .error (.criticalError message) := by
  cases hscan : scanWord s.input with
  | none =>
      refine ⟨"Expected device identifier.", ?_⟩
      exact bind_error (bind_error (iscanf_none hscan _) _) _
  | some p =>
      obtain ⟨name, rest⟩ := p
      obtain ⟨ds, hrun, hext⟩ := scanDeviceName_run hscan
      obtain ⟨ds', hrun', _, _⟩ := indexOfName_spec (s.on name rest ds) name
      refine ⟨["The device ".toList, name, " is not opened.".toList].flatten, ?_⟩
      have hnamed : deviceNamed name (s.on name rest ds) = _ := bind_run hrun' _
      rw [withDevice, bind_run hrun, bind_run hnamed,
        show (s.on name rest ds).entry name = s.entry name from hext.entry name, h name rest hscan]
      rfl

end DebianInstaller.Partman.Parted
