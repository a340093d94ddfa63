import DebianInstaller.Partman.Virtual

/-!
# Resizing a partition

`resize_partition` asks libparted how far the file system of a partition lets
the partition go, makes the extended partition as large as it can be if the
partition is a logical one, sets the geometry, resizes the file system with it,
and makes the extended partition small again. It says whether it succeeded.

What it does to the disk it does through libparted, and what libparted is known
to do is said first: a geometry that is refused leaves the partition alone, and
the calls about the extended partition leave the others alone. A run is then
followed call by call. Of the ways it can end there is one on which nothing is
checked: if the file system cannot be resized after the geometry was set, the
old start and end are set again, and whether libparted accepts them, and accepts
them as they are, is not looked at.
-/

namespace DebianInstaller.Partman.Parted

open Programs

variable {b ok : Bool} {finish start : Int} {fs : Option FileSystem} {geom : Geometry}
  {k : Constraint} {n : Text} {new set : List Call} {r : Request} {reply : r.Reply}
  {solves : Constraint → Geometry → Prop}

variable {W α : Type} {lp : Libparted W} {part : PartId} {p : Partition} {d d' : Disk}

variable {c : Change} {fsType n' : Text} {made post : List Call} {openFs : Bool} {place : Geometry}
  {s s' : State W}

/-! ## What libparted sees to -/

def Geometry.Inside (geom outer : Geometry) : Prop :=
  outer.start ≤ geom.start ∧ geom.finish ≤ outer.finish

def Geometry.Coherent (geom : Geometry) : Prop :=
  0 ≤ geom.length ∧ geom.finish = geom.start + geom.length - 1

/-- The logical partitions that hold data. -/
def Disk.logicals (d : Disk) : List Partition :=
  d.parts.filter fun p => p.type.logical && p.holdsData

def Disk.Encloses (d : Disk) (p : Partition) : Prop :=
  ∃ e, d.extended = some e ∧ p.geom.Inside e.geom

/-- The extended partition contains all logical ones. -/
def Disk.Nested (d : Disk) : Prop := ∀ p ∈ d.logicals, d.Encloses p

/-- A logical partition is left alone. -/
def LeavesLogical (part : PartId) (d d' : Disk) : Prop :=
  d'.logicals = d.logicals ∧
    ∀ p, d.partition part = some p → p.type.logical = true → d'.partition part = some p

/-- What a call does to a disk, as far as it concerns one partition. -/
def Change.Careful (part : PartId) (d : Disk) (ok : Bool) (d' : Disk) : Change → Prop
  | .setPartitionGeom q _ _ _ => q = part → ∀ p, d.partition part = some p →
      if ok then
        (∃ geom : Geometry, geom.Coherent ∧ d'.partition part = some { p with geom := geom }) ∧
        (p.type.logical = true → d'.extended = d.extended ∧
          ∀ q ∈ d'.logicals, q ∈ d.logicals ∨ d'.Encloses q)
      else
        d'.partition part = some p ∧
        (p.type.logical = true → d'.extended = d.extended ∧ d'.logicals = d.logicals)
  | .maximizePartition q _ => ∀ e, d.extended = some e → q = e.id →
      LeavesLogical part d d' ∧ ∃ e', d'.extended = some e' ∧ e.geom.Inside e'.geom
  | .minimizeExtendedPartition =>
      LeavesLogical part d d' ∧ (d'.extended = d.extended ∨ d'.Nested)
  | _ => True

def Request.Careful (part : PartId) : (r : Request) → r.Reply → Prop
  | .change d c, reply => c.Careful part d reply.1 reply.2
  | _, _ => True

/-- A libparted that refuses a geometry leaves the partition as it was, and one that
moves the extended partition about leaves the logical ones as they were. -/
def Careful (lp : Libparted W) (part : PartId) : Prop :=
  ∀ r w, (lp.answer r w).All fun reply => r.Careful part reply.1

/-- What a constraint is for. -/
def Request.Choosy (solves : Constraint → Geometry → Prop) : (r : Request) → r.Reply → Prop
  | .change _ (.setPartitionGeom part (some k) _ _), reply => reply.1 = true →
      ∀ p, reply.2.partition part = some p → solves k p.geom
  | .constraintNew (some start) _ minSize _, reply => ∀ k geom, reply = some k →
      solves k geom → geom.start = start ∧ minSize ≤ geom.length
  | .fileSystemProbeSpecific _ _, reply => ∀ geom, reply = some geom → geom.Coherent
  | _, _ => True

/-- A libparted that sets no geometry but one that solves the constraint. -/
def Choosy (lp : Libparted W) (solves : Constraint → Geometry → Prop) : Prop :=
  ∀ r w, (lp.answer r w).All fun reply => r.Choosy solves reply.1

theorem Disk.nested_of_enclosed (hext : d'.extended = d.extended)
    (h : ∀ p ∈ d'.logicals, p ∈ d.logicals ∨ d'.Encloses p) (hd : d.Nested) : d'.Nested := by
  intro p hp
  rcases h p hp with hp | hp
  · obtain ⟨e, he, hin⟩ := hd p hp
    exact ⟨e, hext.trans he, hin⟩
  · exact hp

theorem Disk.nested_of_grown {e e' : Partition} (he : d.extended = some e)
    (he' : d'.extended = some e') (hin : e.geom.Inside e'.geom)
    (hlog : d'.logicals = d.logicals) (hd : d.Nested) : d'.Nested := by
  intro p hp
  rw [hlog] at hp
  obtain ⟨e₀, he₀, hp⟩ := hd p hp
  rw [he] at he₀
  obtain rfl := Option.some.inj he₀
  exact ⟨e', he', Int.le_trans hin.1 hp.1, Int.le_trans hp.2 hin.2⟩

/-! ## A disk with one file system

The file system can be opened, but it has errors and is not resized. -/

/-- A geometry for a partition that is not logical. -/
def Disk.settle (d : Disk) (part : PartId) (geom : Option Geometry) : Bool × Disk :=
  match geom, d.partition part with
  | some geom, some p =>
      if p.type.logical then (false, d)
      else (true, { d with
        parts := d.parts.map fun q => if q.id = part then { q with geom := geom } else q })
  | _, _ => (false, d)

/-- libparted on a disk where `choose` gives the geometry that is set instead of the one
that is asked for. -/
def settling (choose : Int → Int → Option Geometry) : Libparted OneDisk where
  device := oneDisk.device
  optionString := oneDisk.optionString
  answer
    | .constraintAny _, w => .done (some ⟨0, 1, 1⟩, w)
    | .fileSystemOpen geom, w => .done (some ⟨0, geom⟩, w)
    | .fileSystemGetResizeConstraint _, w => .done (some ⟨0, 1, 1⟩, w)
    | .change disk (.setPartitionGeom part _ start finish), w =>
        .done (disk.settle part (choose start finish), w)
    | r, w => oneDisk.answer r w

/-- Any sectors. -/
def exactly (start finish : Int) : Option Geometry :=
  if start ≤ finish then some ⟨start, finish, finish - start + 1⟩ else none

/-- Whole cylinders, of 255 heads and 63 sectors. -/
def cylinders (start finish : Int) : Option Geometry :=
  exactly start (finish - (finish + 1) % 16065)

theorem exactly_coherent (h : exactly start finish = some geom) : geom.Coherent := by
  unfold exactly at h
  split at h
  · cases h
    exact ⟨by simp only []; omega, by simp only []; omega⟩
  · cases h

theorem partition_settle (hp : d.partition part = some p) :
    Disk.partition { d with
      parts := d.parts.map fun q => if q.id = part then { q with geom := geom } else q } part =
      some { p with geom := geom } := by
  have hid : p.id = part := by simpa using List.find?_some hp
  unfold Disk.partition at hp ⊢
  rw [List.find?_map, show ((fun q : Partition => decide (q.id = part)) ∘ fun q =>
    if q.id = part then { q with geom := geom } else q) = fun q => decide (q.id = part) by
      funext q
      simp only [Function.comp_apply]
      split <;> rfl, hp]
  simp [hid]

theorem careful_settling {choose : Int → Int → Option Geometry}
    (hchoose : ∀ a b geom, choose a b = some geom → geom.Coherent) (part : PartId) :
    Careful (settling choose) part := by
  intro r w
  cases r with
  | change d c =>
      cases c with
      | setPartitionGeom q k start finish =>
          show Change.Careful part d (d.settle q (choose start finish)).1
            (d.settle q (choose start finish)).2 (.setPartitionGeom q k start finish)
          rintro rfl p hp
          cases hgeom : choose start finish with
          | none => exact ⟨hp, fun _ => ⟨rfl, rfl⟩⟩
          | some geom =>
              simp only [Disk.settle, hp]
              cases hlog : p.type.logical with
              | true => exact ⟨hp, fun _ => ⟨rfl, rfl⟩⟩
              | false => exact ⟨⟨geom, hchoose _ _ _ hgeom, partition_settle hp⟩, nofun⟩
      | maximizePartition q k =>
          exact fun e he _ =>
            ⟨⟨rfl, fun p hp _ => hp⟩, e, he, Int.le_refl _, Int.le_refl _⟩
      | minimizeExtendedPartition => exact ⟨⟨rfl, fun p hp _ => hp⟩, .inl rfl⟩
      | _ => exact Dialogue.all_true _
  | _ => exact Dialogue.all_true _

theorem choosy_settling (choose : Int → Int → Option Geometry) :
    Choosy (settling choose) fun _ _ => True := by
  intro r w
  cases r with
  | change d c =>
      cases c with
      | setPartitionGeom q k start finish =>
          cases k with
          | none => trivial
          | some k => exact fun _ _ _ => trivial
      | _ => exact Dialogue.all_true _
  | constraintNew start full minSize maxSize =>
      cases start with
      | none => trivial
      | some start => exact fun k geom hk => by cases hk
  | fileSystemProbeSpecific fsType geom => exact fun geom hk => by cases hk
  | _ => exact Dialogue.all_true _

/-- A partition that does not end where a cylinder does. -/
def unalignedPart : Partition := ⟨1, 1, {}, ⟨63, 20000, 19938⟩, some "ext2", [], []⟩

def unaligned : State OneDisk where
  world := ⟨none, true⟩
  devices := [{
    name := "=dev=sda"
    dev := some 0
    disk := some ⟨0, "msdos", [unalignedPart]⟩
    alignment := .cylinder }]
  deviceName := "=dev=sda"
  alignment := .cylinder

/-! ## Where a run stands -/

/-- The disk that is worked on. -/
def State.disk (s : State W) : Option Disk := (s.entry s.deviceName).disk

/-- What libparted replies always has, these replies have. -/
def Genuine (lp : Libparted W) (calls : List Call) : Prop :=
  ∀ c ∈ calls, ∀ Q : (r : Request) → r.Reply → Prop,
    (∀ r w, (lp.answer r w).All fun reply => Q r reply.1) → Q c.2.1 c.2.2

/-- The run has made these calls, and the disk is this one. -/
structure Stands (lp : Libparted W) (base made : List Call) (d : Disk) (s : State W) : Prop where
  calls : s.calls = made ++ base
  genuine : Genuine lp made
  disk : s.disk = some d

theorem call_genuine (h : call lp r s = .ok (reply, s')) :
    Genuine lp [(s.deviceName, ⟨r, reply⟩)] := by
  intro c hc Q hQ
  obtain rfl := List.mem_singleton.mp hc
  obtain ⟨s₁, t, hget, h⟩ := bind_ok h
  cases hget
  obtain ⟨⟨reply', world⟩, t, hrun, h⟩ := bind_ok h
  have hreply := (Dialogue.run_all (fun q => talking_still.callback lp q ()) (hQ r s.world) s).ok
    ⟨trivial, (still W).refl s⟩ hrun
  cases h
  exact hreply.2

namespace Stands

variable {base made : List Call} {s s' : State W}

theorem call (h : Stands lp base made d s) (hrun : call lp r s = .ok (reply, s')) :
    Stands lp base ((s.deviceName, ⟨r, reply⟩) :: made) d s' where
  calls := by
    rw [(call_ok hrun).2.2, h.calls]
    rfl
  genuine := by
    intro c hc
    rcases List.mem_cons.mp hc with rfl | hc
    · exact call_genuine hrun _ (List.mem_singleton.mpr rfl)
    · exact h.genuine c hc
  disk := by
    obtain ⟨hname, hentry, -⟩ := call_ok hrun
    unfold State.disk
    rw [hname, hentry]
    exact h.disk

theorem talk (h : Stands lp base made d s) {c : Server W α} {a : α}
    (hc : Within (still W) c) (hrun : c s = .ok (a, s')) : Stands lp base made d s' := by
  obtain ⟨-, hname, hentry, hcalls⟩ := (hc ()).ok trivial hrun
  refine ⟨hcalls.trans h.calls, h.genuine, ?_⟩
  unfold State.disk
  rw [hname, hentry]
  exact h.disk

theorem theDisk (h : Stands lp base made d s) {d₁ : Disk}
    (hrun : theDisk s = .ok (d₁, s')) : d₁ = d ∧ s' = s := by
  obtain ⟨hd, rfl⟩ := theDisk_ok hrun
  exact ⟨Option.some.inj (hd.symm.trans h.disk), rfl⟩

theorem thePartition (h : Stands lp base made d s)
    (hrun : thePartition part s = .ok (p, s')) : d.partition part = some p ∧ s' = s := by
  cases hp : d.partition part with
  | some q =>
      rw [thePartition_run h.disk hp] at hrun
      cases hrun
      exact ⟨rfl, rfl⟩
  | none =>
      obtain ⟨d₁, t, hd, hrest⟩ := bind_ok hrun
      obtain ⟨rfl, rfl⟩ := h.theDisk hd
      rw [hp] at hrest
      cases hrest

theorem change (h : Stands lp base made d s) (hrun : change lp c s = .ok (ok, s')) :
    ∃ d', Stands lp base ((s.deviceName, ⟨.change d c, (ok, d')⟩) :: made) d' s' := by
  obtain ⟨d₀, d', hd, hname, hentry, hcalls⟩ := change_ok hrun
  have hd₀ : d₀ = d := Option.some.inj (hd.symm.trans h.disk)
  subst hd₀
  refine ⟨d', ⟨by rw [hcalls, h.calls]; rfl, ?_, ?_⟩⟩
  · obtain ⟨d₁, t, hdisk, hrest⟩ := bind_ok hrun
    obtain ⟨rfl, rfl⟩ := h.theDisk hdisk
    obtain ⟨⟨ok', d''⟩, t', hcall, hrest⟩ := bind_ok hrest
    have hgen := (h.call hcall).genuine
    have hlast : t'.calls = s'.calls := by
      cases hrest
      rfl
    rw [(call_ok hcall).2.2, hcalls] at hlast
    cases hlast
    exact hgen
  · unfold State.disk
    rw [hname, hentry, if_pos rfl]

end Stands

/-! ## The geometry a partition may have -/

/-- A call that looks for a file system. -/
def Request.finds : Request → Bool
  | .fileSystemOpen _ => true
  | .fileSystemProbeSpecific .. => true
  | _ => false

/-- A call that moves a file system or a partition. -/
def Request.moves : Request → Bool
  | .fileSystemResize .. => true
  | .change _ (.setPartitionGeom ..) => true
  | _ => false

def Request.idle (r : Request) : Bool := !(r.finds || r.moves)

theorem Request.moves_of_idle (h : r.idle = true) : r.moves = false := by
  unfold Request.idle at h
  simp only [Bool.not_eq_true', Bool.or_eq_false_iff] at h
  exact h.2

theorem Request.finds_of_idle (h : r.idle = true) : r.finds = false := by
  unfold Request.idle at h
  simp only [Bool.not_eq_true', Bool.or_eq_false_iff] at h
  exact h.1

def Idle (calls : List Call) : Prop := ∀ c ∈ calls, c.2.1.idle = true

theorem idle_nil : Idle [] := fun _ hc => by cases hc

theorem Idle.cons {calls : List Call} (h : Idle calls) (hr : r.idle = true) :
    Idle ((n, ⟨r, reply⟩) :: calls) := by
  intro c hc
  rcases List.mem_cons.mp hc with rfl | hc
  · exact hr
  · exact h c hc

theorem Idle.append {calls calls' : List Call} (h : Idle calls) (h' : Idle calls') :
    Idle (calls ++ calls') := by
  intro c hc
  rcases List.mem_append.mp hc with hc | hc
  · exact h c hc
  · exact h' c hc

/-- A file system was probed for, and the constraint is made for what was found. -/
def Probed (p : Partition) (r : Option (Option FileSystem × Option Constraint))
    (new : List Call) : Prop :=
  (∀ fs k, r = some (fs, k) → fs = none) ∧
    ∀ c ∈ new, c.2.1.idle = true ∨ ∃ n fsType, ∃ found : Option Geometry,
      c = (n, ⟨.fileSystemProbeSpecific fsType p.geom, found⟩) ∧
      ∀ k geom, r = some (none, some k) → found = some geom →
        ∃ n' full length,
          (n', ⟨.constraintNew (some geom.start) full geom.length length, some k⟩) ∈ new

theorem probed_found {r : Option (Option FileSystem × Option Constraint)} {probed : Option Text}
    {found : Option Geometry} (hidle : Idle new) (hfs : ∀ fs k, r = some (fs, k) → fs = none)
    (hk : ∀ k geom, r = some (none, some k) → found = some geom → ∃ n' full length,
      (n', ⟨.constraintNew (some geom.start) full geom.length length, some k⟩) ∈ new) :
    Probed p r (new ++ [(n, ⟨.fileSystemProbeSpecific fsType p.geom, found⟩),
      (n', ⟨.fileSystemProbe p.geom, probed⟩)]) := by
  refine ⟨hfs, fun c hc => ?_⟩
  rcases List.mem_append.mp hc with hc | hc
  · exact .inl (hidle c hc)
  · rcases List.mem_cons.mp hc with rfl | hc
    · refine .inr ⟨_, _, found, rfl, fun k geom hr hf => ?_⟩
      obtain ⟨n', full, length, hmem⟩ := hk k geom hr hf
      exact ⟨n', full, length, List.mem_append_left _ hmem⟩
    · obtain rfl := List.mem_singleton.mp hc
      exact .inl rfl

/-- What is found before the geometry is set. -/
structure Suits (p : Partition) (fs : Option FileSystem) (k : Constraint) (new : List Call) :
    Prop where
  opened : ∀ n fs', (n, ⟨.fileSystemOpen p.geom, some fs'⟩) ∈ new →
    outside fs'.geom p = false → fs = some fs'
  probed : ∀ n fsType geom, (n, ⟨.fileSystemProbeSpecific fsType p.geom, some geom⟩) ∈ new →
    ∃ n' full length,
      (n', ⟨.constraintNew (some geom.start) full geom.length length, some k⟩) ∈ new

namespace Stands

variable {base made : List Call} {s s' : State W}

theorem closeFileSystem (h : Stands lp base made d s)
    (hrun : closeFileSystem lp fs s = .ok ((), s')) :
    ∃ new, Idle new ∧ Stands lp base (new ++ made) d s' := by
  cases fs with
  | none =>
      cases hrun
      exact ⟨[], idle_nil, h⟩
  | some fs => exact ⟨[_], idle_nil.cons rfl, h.call hrun⟩

theorem keepInside (h : Stands lp base made d s) {r : Option FileSystem}
    (hrun : keepInside lp p fs s = .ok (r, s')) :
    (∃ new, Idle new ∧ Stands lp base (new ++ made) d s') ∧
      r = fs.filter fun fs => !outside fs.geom p := by
  cases fs with
  | none =>
      cases hrun
      exact ⟨⟨[], idle_nil, h⟩, rfl⟩
  | some fs =>
      simp only [Parted.keepInside] at hrun
      by_cases hout : outside fs.geom p = true
      · rw [if_pos hout] at hrun
        obtain ⟨_, t, hcall, hrest⟩ := bind_ok hrun
        cases hrest
        exact ⟨⟨[_], idle_nil.cons rfl, h.call hcall⟩, by simp [Option.filter, hout]⟩
      · rw [if_neg hout] at hrun
        cases hrun
        exact ⟨⟨[], idle_nil, h⟩, by simp [Option.filter, hout]⟩

theorem openedConstraint (h : Stands lp base made d s)
    {r : Option (Option FileSystem × Option Constraint)}
    (hrun : openedConstraint lp p s = .ok (r, s')) :
    ∃ n, ∃ opened : Option FileSystem, ∃ new, Idle new ∧
      Stands lp base (new ++ (n, ⟨.fileSystemOpen p.geom, opened⟩) :: made) d s' ∧
      ∀ fs k, r = some (fs, k) → fs = opened.filter fun fs => !outside fs.geom p := by
  obtain ⟨_, t₁, hoff, hrun⟩ := bind_ok hrun
  obtain ⟨opened, t₂, hopen, hrun⟩ := bind_ok hrun
  obtain ⟨_, t₃, hon, hrun⟩ := bind_ok hrun
  obtain ⟨kept, t₄, hkeep, hrun⟩ := bind_ok hrun
  have h₃ := ((h.talk talking_still.deactivate hoff).call hopen).talk talking_still.activate hon
  obtain ⟨⟨new, hidle, h₄⟩, hkept⟩ := h₃.keepInside hkeep
  refine ⟨t₁.deviceName, opened, ?_⟩
  cases kept with
  | some fs =>
      obtain ⟨k, t₅, hcall, hrun⟩ := bind_ok hrun
      cases hrun
      refine ⟨_ :: new, hidle.cons rfl, h₄.call hcall, fun fs' k' hr => ?_⟩
      cases hr
      exact hkept
  | none =>
      obtain ⟨probed, t₅, hprobe, hrun⟩ := bind_ok hrun
      have h₅ := h₄.call hprobe
      split at hrun
      · cases hrun
        exact ⟨_ :: new, hidle.cons rfl, h₅, fun fs k hr => by cases hr⟩
      · obtain ⟨d₁, t₆, hdisk, hrest⟩ := bind_ok hrun
        obtain ⟨rfl, rfl⟩ := h₅.theDisk hdisk
        obtain ⟨k, t₇, hcall, hrest⟩ := bind_ok hrest
        cases hrest
        refine ⟨_ :: _ :: new, (hidle.cons rfl).cons rfl, h₅.call hcall, fun fs' k' hr => ?_⟩
        cases hr
        exact hkept

theorem probedConstraint (h : Stands lp base made d s)
    {r : Option (Option FileSystem × Option Constraint)}
    (hrun : probedConstraint lp p s = .ok (r, s')) :
    ∃ new, Stands lp base (new ++ made) d s' ∧ Probed p r new := by
  obtain ⟨probed, t₁, hprobe, hrun⟩ := bind_ok hrun
  have h₁ := h.call hprobe
  cases probed with
  | none =>
      obtain ⟨d₁, t₂, hdisk, hrest⟩ := bind_ok hrun
      obtain ⟨rfl, rfl⟩ := h₁.theDisk hdisk
      obtain ⟨k, t₃, hcall, hrest⟩ := bind_ok hrest
      cases hrest
      refine ⟨[_, _], h₁.call hcall, fun fs k' hr => ?_, fun c hc => .inl ?_⟩
      · cases hr
        rfl
      · exact ((idle_nil.cons rfl).cons rfl : Idle [_, _]) c hc
  | some fsType =>
      obtain ⟨found, t₂, hfind, hrun⟩ := bind_ok hrun
      have h₂ := h₁.call hfind
      cases found with
      | none =>
          cases hrun
          refine ⟨_, h₂, probed_found idle_nil ?_ ?_⟩
          · exact fun fs k hr => by cases hr
          · exact fun k geom hr => by cases hr
      | some geom =>
          simp only [] at hrun
          by_cases hout : outside geom p = true
          · rw [if_pos hout] at hrun
            cases hrun
            refine ⟨_, h₂, probed_found idle_nil ?_ ?_⟩
            · exact fun fs k hr => by cases hr
            · exact fun k geom hr => by cases hr
          · rw [if_neg hout] at hrun
            obtain ⟨d₁, t₃, hdisk, hrest⟩ := bind_ok hrun
            obtain ⟨rfl, rfl⟩ := h₂.theDisk hdisk
            obtain ⟨device, t₄, hdev, hrest⟩ := bind_ok hrest
            cases hdev
            obtain ⟨aligned, t₅, halign, hrest⟩ := bind_ok hrest
            have h₅ := h₂.call halign
            cases aligned with
            | false =>
                cases hrest
                refine ⟨_, h₅, probed_found (idle_nil.cons rfl) ?_ ?_⟩
                · exact fun fs k hr => by cases hr; rfl
                · exact fun k geom hr => by cases hr
            | true =>
                obtain ⟨full, t₆, hinit, hrest⟩ := bind_ok hrest
                have h₆ := h₅.call hinit
                cases full with
                | none =>
                    cases hrest
                    refine ⟨_, h₆, probed_found ((idle_nil.cons rfl).cons rfl) ?_ ?_⟩
                    · exact fun fs k hr => by cases hr; rfl
                    · exact fun k geom hr => by cases hr
                | some full =>
                    obtain ⟨k, t₇, hcons, hrest⟩ := bind_ok hrest
                    cases hrest
                    refine ⟨_, h₆.call hcons,
                      probed_found (((idle_nil.cons rfl).cons rfl).cons rfl) ?_ ?_⟩
                    · exact fun fs k hr => by cases hr; rfl
                    · intro k geom hr hfound
                      cases hr
                      cases hfound
                      exact ⟨_, full, _, List.mem_cons_self⟩

theorem prepared (h : Stands lp base made d s) {r : Option (Option FileSystem × Option Constraint)}
    (hrun : (if openFs then Parted.openedConstraint lp p else Parted.probedConstraint lp p) s =
      .ok (r, s')) :
    ∃ new, Stands lp base (new ++ made) d s' ∧ (∀ c ∈ new, c.2.1.moves = false) ∧
      ∀ fs k, r = some (fs, some k) → Suits p fs k new ∧ (openFs = false → fs = none) := by
  cases openFs with
  | true =>
      obtain ⟨n, opened, new, hidle, hs, hfs⟩ := h.openedConstraint hrun
      refine ⟨new ++ [(n, ⟨.fileSystemOpen p.geom, opened⟩)], ?_, fun c hc => ?_, fun fs k hr => ?_⟩
      · rw [List.append_assoc]
        exact hs
      · rcases List.mem_append.mp hc with hc | hc
        · exact Request.moves_of_idle (hidle c hc)
        · obtain rfl := List.mem_singleton.mp hc
          rfl
      · refine ⟨⟨fun n' fs' hmem hin => ?_, fun n' fsType geom hmem => ?_⟩, fun ho => by cases ho⟩
        · rcases List.mem_append.mp hmem with hmem | hmem
          · cases Request.finds_of_idle (hidle _ hmem)
          · cases List.mem_singleton.mp hmem
            rw [hfs fs _ hr]
            simp [Option.filter, hin]
        · rcases List.mem_append.mp hmem with hmem | hmem
          · cases Request.finds_of_idle (hidle _ hmem)
          · cases List.mem_singleton.mp hmem
  | false =>
      obtain ⟨new, hs, hfs, hnew⟩ := h.probedConstraint hrun
      refine ⟨new, hs, fun c hc => ?_, fun fs k hr => ?_⟩
      · rcases hnew c hc with hidle | ⟨n, fsType, found, rfl, -⟩
        · exact Request.moves_of_idle hidle
        · rfl
      · obtain rfl := hfs fs _ hr
        refine ⟨⟨fun n' fs' hmem hin => ?_, fun n' fsType geom hmem => ?_⟩, fun _ => rfl⟩
        · rcases hnew _ hmem with hidle | ⟨n, fsType, found, hc, -⟩
          · cases Request.finds_of_idle hidle
          · cases hc
        · rcases hnew _ hmem with hidle | ⟨n, fsType', found, hc, hk⟩
          · cases Request.finds_of_idle hidle
          · cases hc
            exact hk k geom hr rfl

/-! ## Changes of the disk -/

theorem careful (hlp : Careful lp part)
    (h : Stands lp base ((n, ⟨.change d c, (ok, d')⟩) :: made) d' s) : c.Careful part d ok d' :=
  h.genuine _ List.mem_cons_self (Request.Careful part) hlp

/-- What is done for a logical partition only. -/
theorem ifLogical {c : Server W Unit} (h : Stands lp base made d s)
    (hp : d.partition part = some p)
    (hc : p.type.logical = true → c s = .ok ((), s') → ∃ new d', Idle new ∧
      Stands lp base (new ++ made) d' s' ∧ d'.partition part = some p ∧ (d.Nested → d'.Nested))
    (hrun : (Parted.thePartition part >>= fun p => whenever p.type.logical c) s = .ok ((), s')) :
    ∃ new d', Idle new ∧ Stands lp base (new ++ made) d' s' ∧ d'.partition part = some p ∧
      (p.type.logical = true → d.Nested → d'.Nested) := by
  rw [bind_run (thePartition_run h.disk hp)] at hrun
  cases hlog : p.type.logical with
  | false =>
      rw [hlog] at hrun
      cases hrun
      exact ⟨[], d, idle_nil, h, hp, nofun⟩
  | true =>
      rw [hlog] at hrun
      obtain ⟨new, d', hidle, h', hp', hnest⟩ := hc hlog hrun
      exact ⟨new, d', hidle, h', hp', fun _ => hnest⟩

theorem maximizeIfLogical (hlp : Careful lp part) (h : Stands lp base made d s)
    (hp : d.partition part = some p) (hrun : maximizeIfLogical lp part s = .ok ((), s')) :
    ∃ new d', Idle new ∧ Stands lp base (new ++ made) d' s' ∧ d'.partition part = some p ∧
      (p.type.logical = true → d.Nested → d'.Nested) := by
  refine h.ifLogical hp (fun hlog hrest => ?_) hrun
  rw [maximizeExtendedPartition, bind_run (assertDisk_run h.disk _)] at hrest
  have hhas : hasExtendedPartition s = .ok (d.extended.isSome, s) := by
    rw [hasExtendedPartition, bind_run (assertDisk_run h.disk _), bind_run (theDisk_run h.disk)]
    rfl
  rw [bind_run hhas] at hrest
  cases he : d.extended with
  | none =>
      rw [he] at hrest
      cases hrest
  | some e =>
      rw [he] at hrest
      obtain ⟨_, t, hassert, hrest⟩ := bind_ok hrest
      cases hassert
      rw [bind_run (theDisk_run h.disk), he] at hrest
      dsimp only at hrest
      rw [bind_run (theDisk_run h.disk)] at hrest
      obtain ⟨k, t₁, hcall, hrest⟩ := bind_ok hrest
      obtain ⟨ok, t₂, hchange, hrest⟩ := bind_ok hrest
      cases hrest
      obtain ⟨d', h'⟩ := (h.call hcall).change hchange
      obtain ⟨⟨hlogs, hkept⟩, e', he', hin⟩ := careful hlp h' e he rfl
      exact ⟨[_, _], d', (idle_nil.cons rfl).cons rfl, h', hkept p hp hlog,
        Disk.nested_of_grown he he' hin hlogs⟩

theorem minimizeIfLogical (hlp : Careful lp part) (h : Stands lp base made d s)
    (hp : d.partition part = some p) (hrun : minimizeIfLogical lp part s = .ok ((), s')) :
    ∃ new d', Idle new ∧ Stands lp base (new ++ made) d' s' ∧ d'.partition part = some p ∧
      (p.type.logical = true → d.Nested → d'.Nested) := by
  refine h.ifLogical hp (fun hlog hrest => ?_) hrun
  rw [minimizeExtendedPartition, bind_run (assertDisk_run h.disk _),
    bind_run (theDisk_run h.disk)] at hrest
  by_cases hdvh : d.type ≠ "dvh"
  · rw [show decide (d.type ≠ "dvh") = true from decide_eq_true hdvh] at hrest
    obtain ⟨ok, t, hchange, hrest⟩ := bind_ok hrest
    cases hrest
    obtain ⟨d', h'⟩ := h.change hchange
    obtain ⟨⟨hlogs, hkept⟩, hext⟩ := careful hlp h'
    refine ⟨[_], d', idle_nil.cons rfl, h', hkept p hp hlog, fun hd => ?_⟩
    rcases hext with hext | hext
    · exact Disk.nested_of_enclosed hext (fun q hq => .inl (hlogs ▸ hq)) hd
    · exact hext
  · rw [show decide (d.type ≠ "dvh") = false from decide_eq_false hdvh] at hrest
    cases hrest
    exact ⟨[], d, idle_nil, h, hp, id⟩

theorem setPartitionGeom (hlp : Careful lp part) (h : Stands lp base made d s)
    (hp : d.partition part = some p) {k : Option Constraint}
    (hrun : Parted.change lp (.setPartitionGeom part k start finish) s = .ok (ok, s')) :
    ∃ n d' geom,
      Stands lp base ((n, ⟨.change d (.setPartitionGeom part k start finish), (ok, d')⟩) :: made)
        d' s' ∧
      d'.partition part = some { p with geom := geom } ∧
      (if ok then geom.Coherent else geom = p.geom) ∧
      (p.type.logical = true → d.Nested → d'.Nested) := by
  obtain ⟨d', h'⟩ := h.change hrun
  have hcareful := careful hlp h' rfl p hp
  cases ok with
  | true =>
      obtain ⟨⟨geom, hco, hp'⟩, hlog⟩ := hcareful
      exact ⟨_, d', geom, h', hp', hco, fun hl hd =>
        Disk.nested_of_enclosed (hlog hl).1 (hlog hl).2 hd⟩
  | false =>
      obtain ⟨hp', hlog⟩ := hcareful
      exact ⟨_, d', p.geom, h', hp', rfl, fun hl hd =>
        Disk.nested_of_enclosed (hlog hl).1 (fun q hq => .inl ((hlog hl).2 ▸ hq)) hd⟩

end Stands

/-- How the setting of a geometry may end, with the calls and the disk then. -/
inductive Settled (part : PartId) (p : Partition) (fs : Option FileSystem) (k : Constraint)
    (start finish : Int) : Bool → List Call → Disk → Prop
  | refused {n : Text} {d d' : Disk} (hp : d'.partition part = some p) :
      Settled part p fs k start finish false
        [(n, ⟨.change d (.setPartitionGeom part (some k) start finish), (false, d')⟩)] d'
  | set {n : Text} {d d' : Disk} {geom : Geometry} (hfs : fs = none) (hco : geom.Coherent)
      (hp : d'.partition part = some { p with geom := geom }) :
      Settled part p fs k start finish true
        [(n, ⟨.change d (.setPartitionGeom part (some k) start finish), (true, d')⟩)] d'
  | resized {n n' : Text} {f : FileSystem} {d d' : Disk} {geom : Geometry} (hfs : fs = some f)
      (hco : geom.Coherent) (hp : d'.partition part = some { p with geom := geom }) :
      Settled part p fs k start finish true
        [(n', ⟨.fileSystemResize f geom, true⟩),
          (n, ⟨.change d (.setPartitionGeom part (some k) start finish), (true, d')⟩)] d'
  | undone {n n' n₁ n₂ : Text} {f : FileSystem} {d d₁ d' : Disk} {geom geom' : Geometry}
      {anywhere : Option Constraint} {ok : Bool} (hfs : fs = some f)
      (hp : d'.partition part = some { p with geom := geom' }) :
      Settled part p fs k start finish false
        [(n₂, ⟨.change d₁ (.setPartitionGeom part anywhere p.geom.start p.geom.finish), (ok, d')⟩),
          (n₁, ⟨.constraintAny d₁.dev, anywhere⟩),
          (n', ⟨.fileSystemResize f geom, false⟩),
          (n, ⟨.change d (.setPartitionGeom part (some k) start finish), (true, d₁)⟩)] d'

namespace Stands

variable {base made : List Call} {s s' : State W}

theorem timeredFileSystemResize (h : Stands lp base made d s) {fs : FileSystem}
    (hrun : timeredFileSystemResize lp fs geom s = .ok (ok, s')) :
    ∃ n, Stands lp base ((n, ⟨.fileSystemResize fs geom, ok⟩) :: made) d s' := by
  obtain ⟨_, t₁, hstart, hrun⟩ := bind_ok hrun
  obtain ⟨ok', t₂, hcall, hrun⟩ := bind_ok hrun
  obtain ⟨_, t₃, hstop, hrun⟩ := bind_ok hrun
  cases hrun
  exact ⟨_, ((h.talk talking_still.startTimer hstart).call hcall).talk talking_still.stopTimer
    hstop⟩

theorem resizeGeom (hlp : Careful lp part) (h : Stands lp base made d s)
    (hp : d.partition part = some p)
    (hrun : resizeGeom lp part fs k p.geom start finish s = .ok (b, s')) :
    ∃ new d', Stands lp base (new ++ made) d' s' ∧
      Settled part p fs k start finish b new d' ∧
      (p.type.logical = true → d.Nested → d'.Nested) := by
  obtain ⟨ok, t₁, hset, hrun⟩ := bind_ok hrun
  obtain ⟨n, d₁, geom, h₁, hp₁, hgeom, hnest⟩ := h.setPartitionGeom hlp hp hset
  cases ok with
  | false =>
      cases hrun
      refine ⟨[_], d₁, h₁, .refused ?_, hnest⟩
      rw [hp₁, show geom = p.geom from hgeom]
  | true =>
      cases fs with
      | none =>
          cases hrun
          exact ⟨[_], d₁, h₁, .set rfl hgeom hp₁, hnest⟩
      | some f =>
          obtain ⟨q, t₂, hlook, hrest⟩ := bind_ok hrun
          rw [thePartition_run h₁.disk hp₁] at hlook
          cases hlook
          obtain ⟨ok, t₃, hresize, hrest⟩ := bind_ok hrest
          obtain ⟨n', h₃⟩ := h₁.timeredFileSystemResize hresize
          cases ok with
          | true =>
              cases hrest
              exact ⟨[_, _], d₁, h₃, .resized rfl hgeom hp₁, hnest⟩
          | false =>
              obtain ⟨d₂, t₄, hdisk, hrest⟩ := bind_ok hrest
              rw [theDisk_run h₃.disk] at hdisk
              cases hdisk
              obtain ⟨anywhere, t₅, hcall, hrest⟩ := bind_ok hrest
              obtain ⟨_, t₆, hback, hrest⟩ := bind_ok hrest
              obtain ⟨ok, t₇, hback, hignore⟩ := bind_ok hback
              cases hignore
              cases hrest
              obtain ⟨n₂, d', geom', h₇, hp₇, -, hnest'⟩ :=
                (h₃.call hcall).setPartitionGeom hlp hp₁ hback
              exact ⟨[_, _, _, _], d', h₇, .undone rfl hp₇, fun hl hd => hnest' hl (hnest hl hd)⟩

end Stands

/-- How a run of `resize_partition` may end that has something to do, with its calls and
the disk then. -/
inductive Resized (part : PartId) (p : Partition) (start finish : Int) (openFs : Bool) :
    Bool → List Call → Disk → Prop
  | unprepared {new : List Call} {d' : Disk} (hmoves : ∀ c ∈ new, c.2.1.moves = false)
      (hp : d'.partition part = some p) : Resized part p start finish openFs false new d'
  | settled {pre mid set post : List Call} {d d' : Disk} {fs : Option FileSystem}
      {k : Constraint} {b : Bool} (hmoves : ∀ c ∈ pre, c.2.1.moves = false)
      (hsuits : Suits p fs k pre) (hfs : openFs = false → fs = none) (hmid : Idle mid)
      (hset : Settled part p fs k start finish b set d) (hpost : Idle post)
      (hp : d'.partition part = d.partition part) :
      Resized part p start finish openFs b (post ++ (set ++ (mid ++ pre))) d'

theorem Settled.partition (h : Settled part p fs k start finish b new d) :
    ∃ geom, d.partition part = some { p with geom := geom } := by
  cases h with
  | refused hp => exact ⟨p.geom, hp⟩
  | set _ _ hp => exact ⟨_, hp⟩
  | resized _ _ hp => exact ⟨_, hp⟩
  | undone _ hp => exact ⟨_, hp⟩

namespace Stands

variable {base made : List Call} {s s' : State W}

theorem resizePartition (hlp : Careful lp part) (h : Stands lp base made d s)
    (hp : d.partition part = some p)
    (hrun : resizePartition lp part start finish openFs s = .ok (b, s')) :
    (p.geom.span = (start, finish) ∧ b = true ∧ s' = s) ∨
      (p.geom.span ≠ (start, finish) ∧ ∃ new d', Stands lp base (new ++ made) d' s' ∧
        Resized part p start finish openFs b new d' ∧
        (p.type.logical = true → d.Nested → d'.Nested)) := by
  obtain ⟨q, t, hlook, hrest⟩ := bind_ok hrun
  rw [thePartition_run h.disk hp] at hlook
  cases hlook
  by_cases hsame : p.geom.start = start ∧ p.geom.finish = finish
  · rw [if_pos hsame] at hrest
    cases hrest
    exact .inl ⟨Prod.ext hsame.1 hsame.2, rfl, rfl⟩
  rw [if_neg hsame] at hrest
  refine .inr ⟨fun heq => hsame ⟨congrArg Prod.fst heq, congrArg Prod.snd heq⟩, ?_⟩
  obtain ⟨r, t₁, hprep, hrest⟩ := bind_ok hrest
  obtain ⟨pre, h₁, hmoves, hr⟩ := h.prepared hprep
  match r, hr, hrest with
  | none, _, hrest =>
      cases hrest
      exact ⟨pre, d, h₁, .unprepared hmoves hp, fun _ hd => hd⟩
  | some (fs, none), _, hrest =>
      obtain ⟨_, t₂, hclose, hrest⟩ := bind_ok hrest
      cases hrest
      obtain ⟨new, hidle, h₂⟩ := h₁.closeFileSystem hclose
      rw [← List.append_assoc] at h₂
      refine ⟨new ++ pre, d, h₂, .unprepared (fun c hc => ?_) hp, fun _ hd => hd⟩
      rcases List.mem_append.mp hc with hc | hc
      · exact Request.moves_of_idle (hidle c hc)
      · exact hmoves c hc
  | some (fs, some k), hr, hrest =>
      obtain ⟨hsuits, hfs⟩ := hr fs k rfl
      obtain ⟨_, t₂, hmax, hrest⟩ := bind_ok hrest
      obtain ⟨mid, d₂, hmid, h₂, hp₂, hnest₂⟩ := h₁.maximizeIfLogical hlp hp hmax
      obtain ⟨b', t₃, hgeom, hrest⟩ := bind_ok hrest
      obtain ⟨set, d₃, h₃, hset, hnest₃⟩ := h₂.resizeGeom hlp hp₂ hgeom
      obtain ⟨_, t₄, hclose, hrest⟩ := bind_ok hrest
      obtain ⟨close, hclose, h₄⟩ := h₃.closeFileSystem hclose
      obtain ⟨geom, hp₃⟩ := hset.partition
      obtain ⟨_, t₅, hmin, hrest⟩ := bind_ok hrest
      cases hrest
      obtain ⟨post, d₅, hpost, h₅, hp₅, hnest₅⟩ := h₄.minimizeIfLogical hlp hp₃ hmin
      refine ⟨(post ++ close) ++ (set ++ (mid ++ pre)), d₅, ?_, ?_, fun hl hd => ?_⟩
      · simpa only [List.append_assoc] using h₅
      · exact .settled hmoves hsuits hfs hmid hset (hpost.append hclose) (hp₅.trans hp₃.symm)
      · exact hnest₅ hl (hnest₃ hl (hnest₂ hl hd))

end Stands

/-! ## What the result says -/

/-- The calls a run has made. -/
def madeSince (s s' : State W) : List Call := s'.calls.take (s'.calls.length - s.calls.length)

/-- First and last sector of a partition. -/
def Disk.bounds (d : Disk) (part : PartId) : Option (Int × Int) :=
  (d.partition part).map (·.geom.span)

/-- Where a file system was moved to. -/
def Request.movedTo (fs : FileSystem) : (r : Request) → r.Reply → Option Geometry
  | .fileSystemResize f geom, ok => if f = fs ∧ ok = true then some geom else none
  | _, _ => none

/-- Where a file system is after these calls. -/
def placed (made : List Call) (fs : FileSystem) : Geometry :=
  (made.findSome? fun c => c.2.1.movedTo fs c.2.2).getD fs.geom

/-- A file system that was found in the partition, and where it is at the end. -/
def Found (p : Partition) (made : List Call) (place : Geometry) : Prop :=
  (∃ n fs, (n, ⟨.fileSystemOpen p.geom, some fs⟩) ∈ made ∧ outside fs.geom p = false ∧
    place = placed made fs) ∨
  ∃ n fsType, (n, ⟨.fileSystemProbeSpecific fsType p.geom, some place⟩) ∈ made ∧
    outside place p = false

/-- libparted has set this geometry, within the constraint it was given. -/
def Chosen (solves : Constraint → Geometry → Prop) (part : PartId) (start finish : Int)
    (made : List Call) (geom : Geometry) : Prop :=
  ∃ n d k d', (n, ⟨.change d (.setPartitionGeom part (some k) start finish), (true, d')⟩) ∈ made ∧
    (d'.partition part).map (·.geom) = some geom ∧ solves k geom

/-- `false` says that nothing has changed, `true` that the partition was resized, or that
there was nothing to do. -/
def Promised (solves : Constraint → Geometry → Prop) (part : PartId) (p : Partition)
    (start finish : Int) (made : List Call) (d' : Disk) : Bool → Prop
  | false => d'.bounds part = some p.geom.span ∧ (p.type.logical = true → d'.Nested)
  | true => ∃ geom, (d'.partition part).map (·.geom) = some geom ∧
      (made = [] ∧ geom = p.geom ∧ geom.span = (start, finish) ∨
        Chosen solves part start finish made geom) ∧
      ∀ place, Found p made place → place.Inside geom

/-- Where the old start and end are set again, the partition has them then. -/
def Request.putsBack (part : PartId) (p : Partition) : (r : Request) → r.Reply → Bool
  | .change _ (.setPartitionGeom q _ start finish), reply =>
      q = part → p.geom.span = (start, finish) → reply.2.bounds part = some p.geom.span
  | _, _ => true

def PutBack (part : PartId) (p : Partition) (made : List Call) : Prop :=
  ∀ c ∈ made, c.2.1.putsBack part p c.2.2 = true

theorem putsBack_of_still (h : r.moves = false) : r.putsBack part p reply = true := by
  cases r with
  | change d c =>
      cases c with
      | setPartitionGeom => cases h
      | _ => rfl
  | _ => rfl

theorem putsBack_of_ne (hne : p.geom.span ≠ (start, finish)) :
    PutBack part p [(n, ⟨.change d (.setPartitionGeom part (some k) start finish), (ok, d')⟩)] :=
  List.forall_mem_singleton.mpr (decide_eq_true fun _ h => absurd h hne)

theorem madeSince_eq (h : s'.calls = new ++ s.calls) : madeSince s s' = new := by
  unfold madeSince
  rw [h, List.length_append, Nat.add_sub_cancel]
  exact List.take_left

theorem movedTo_of_idle {fs : FileSystem} (h : r.idle = true) : r.movedTo fs reply = none := by
  cases r with
  | fileSystemResize f geom => cases h
  | _ => rfl

section Whole

variable {pre mid set post : List Call}

theorem mem_of_moves (hpre : ∀ c ∈ pre, c.2.1.moves = false) (hmid : Idle mid)
    (hpost : Idle post) {c : Call} (hc : c ∈ post ++ (set ++ (mid ++ pre)))
    (hm : c.2.1.moves = true) : c ∈ set := by
  have hno : ¬c.2.1.moves = false := by simp [hm]
  rcases List.mem_append.mp hc with hc | hc
  · exact absurd (Request.moves_of_idle (hpost c hc)) hno
  rcases List.mem_append.mp hc with hc | hc
  · exact hc
  rcases List.mem_append.mp hc with hc | hc
  · exact absurd (Request.moves_of_idle (hmid c hc)) hno
  · exact absurd (hpre c hc) hno

theorem mem_of_finds (hset : ∀ c ∈ set, c.2.1.finds = false) (hmid : Idle mid)
    (hpost : Idle post) {c : Call} (hc : c ∈ post ++ (set ++ (mid ++ pre)))
    (hf : c.2.1.finds = true) : c ∈ pre := by
  have hno : ¬c.2.1.finds = false := by simp [hf]
  rcases List.mem_append.mp hc with hc | hc
  · exact absurd (Request.finds_of_idle (hpost c hc)) hno
  rcases List.mem_append.mp hc with hc | hc
  · exact absurd (hset c hc) hno
  rcases List.mem_append.mp hc with hc | hc
  · exact absurd (Request.finds_of_idle (hmid c hc)) hno
  · exact hc

theorem Found.suited (hsuits : Suits p fs k pre) (hset : ∀ c ∈ set, c.2.1.finds = false)
    (hmid : Idle mid) (hpost : Idle post) (h : Found p (post ++ (set ++ (mid ++ pre))) place) :
    (∃ f, fs = some f ∧ place = placed (post ++ (set ++ (mid ++ pre))) f) ∨
      ∃ n fsType n' full length,
        (n, ⟨.fileSystemProbeSpecific fsType p.geom, some place⟩) ∈
          post ++ (set ++ (mid ++ pre)) ∧
        (n', ⟨.constraintNew (some place.start) full place.length length, some k⟩) ∈
          post ++ (set ++ (mid ++ pre)) := by
  rcases h with ⟨n, f, hmem, hin, hplace⟩ | ⟨n, fsType, hmem, -⟩
  · exact .inl ⟨f, hsuits.opened n f (mem_of_finds hset hmid hpost hmem rfl) hin, hplace⟩
  · obtain ⟨n', full, length, hcons⟩ :=
      hsuits.probed n fsType place (mem_of_finds hset hmid hpost hmem rfl)
    refine .inr ⟨n, fsType, n', full, length, hmem, ?_⟩
    exact List.mem_append_right _ (List.mem_append_right _ (List.mem_append_right _ hcons))

end Whole

theorem placed_resized {f : FileSystem} {rest : List Call} (hpost : Idle post) :
    placed (post ++ (n, ⟨.fileSystemResize f geom, true⟩) :: rest) f = geom := by
  have hnone : (post.findSome? fun c => c.2.1.movedTo f c.2.2) = none :=
    List.findSome?_eq_none_iff.mpr fun c hc => movedTo_of_idle (hpost c hc)
  unfold placed
  rw [List.findSome?_append, hnone, Option.none_or, List.findSome?_cons_of_isSome]
  · simp [Request.movedTo]
  · simp [Request.movedTo]

theorem probed_inside (hch : Choosy lp solves) (hgen : Genuine lp made) {full outer : Geometry}
    {length : Int} (hprobe : (n, ⟨.fileSystemProbeSpecific fsType outer, some place⟩) ∈ made)
    (hcons : (n', ⟨.constraintNew (some place.start) full place.length length, some k⟩) ∈ made)
    (hsolves : solves k geom) (hco : geom.Coherent) : place.Inside geom := by
  have hplace : place.Coherent := hgen _ hprobe (Request.Choosy solves) hch place rfl
  obtain ⟨hstart, hlen⟩ := hgen _ hcons (Request.Choosy solves) hch k geom rfl hsolves
  refine ⟨by omega, ?_⟩
  rw [hplace.2, hco.2]
  omega

theorem promised_of_set (hch : Choosy lp solves) (hgen : Genuine lp made) {e : Disk}
    (hco : geom.Coherent)
    (hset : (n, ⟨.change e (.setPartitionGeom part (some k) start finish), (true, d)⟩) ∈ made)
    (hp : d.partition part = some { p with geom := geom })
    (hp' : d'.partition part = d.partition part)
    (hfound : ∀ place, Found p made place → place.Inside geom ∨
      ∃ n fsType n' full length,
        (n, ⟨.fileSystemProbeSpecific fsType p.geom, some place⟩) ∈ made ∧
        (n', ⟨.constraintNew (some place.start) full place.length length, some k⟩) ∈ made) :
    Promised solves part p start finish made d' true := by
  have hsolves : solves k geom := hgen _ hset (Request.Choosy solves) hch rfl _ hp
  refine ⟨geom, by rw [hp', hp]; rfl, .inr ⟨n, e, k, d, hset, by rw [hp]; rfl, hsolves⟩, ?_⟩
  intro place hplace
  rcases hfound place hplace with hin | ⟨n, fsType, n', full, length, hprobe, hcons⟩
  · exact hin
  · exact probed_inside hch hgen hprobe hcons hsolves hco

theorem Settled.finds (h : Settled part p fs k start finish b set d) :
    ∀ c ∈ set, c.2.1.finds = false := by
  cases h <;> simp [Request.finds]

/-- The old start and end are set again after the file system was not resized, and at no
other time. -/
theorem Settled.putBack_iff (h : Settled part p fs k start finish b set d)
    (hne : p.geom.span ≠ (start, finish)) :
    PutBack part p set ↔ (b = false → d.bounds part = some p.geom.span) := by
  cases h with
  | refused hp => exact iff_of_true (putsBack_of_ne hne) fun _ => by rw [Disk.bounds, hp]; rfl
  | set _ _ hp => exact iff_of_true (putsBack_of_ne hne) nofun
  | resized _ _ hp =>
      exact iff_of_true (List.forall_mem_cons.mpr ⟨rfl, putsBack_of_ne hne⟩) nofun
  | undone _ hp =>
      refine ⟨fun h _ => of_decide_eq_true (h _ List.mem_cons_self) rfl rfl, fun h => ?_⟩
      refine List.forall_mem_cons.mpr ⟨decide_eq_true fun _ _ => h rfl, ?_⟩
      exact List.forall_mem_cons.mpr ⟨rfl, List.forall_mem_cons.mpr ⟨rfl, putsBack_of_ne hne⟩⟩

theorem Settled.promised (hch : Choosy lp solves) {pre mid : List Call}
    (h : Settled part p fs k start finish true set d) (hsuits : Suits p fs k pre) (hmid : Idle mid)
    (hpost : Idle post) (hp' : d'.partition part = d.partition part)
    (hgen : Genuine lp (post ++ (set ++ (mid ++ pre)))) :
    Promised solves part p start finish (post ++ (set ++ (mid ++ pre))) d' true := by
  have hsuited := fun place (hplace : Found p (post ++ (set ++ (mid ++ pre))) place) =>
    hplace.suited hsuits h.finds hmid hpost
  generalize hmade : post ++ (set ++ (mid ++ pre)) = made at hgen hsuited ⊢
  cases h with
  | @set n e _ geom hnone hco hp =>
      refine promised_of_set (k := k) (n := n) (e := e) hch hgen hco ?_ hp hp' ?_
      · rw [← hmade]
        exact List.mem_append_right _ (List.mem_append_left _ List.mem_cons_self)
      · intro place hplace
        rcases hsuited place hplace with ⟨f, hsome, -⟩ | hprobed
        · rw [hnone] at hsome
          cases hsome
        · exact .inr hprobed
  | @resized n n' f e _ geom hsome hco hp =>
      refine promised_of_set (k := k) (n := n) (e := e) hch hgen hco ?_ hp hp' ?_
      · rw [← hmade]
        exact List.mem_append_right _ (List.mem_append_left _
          (List.mem_cons_of_mem _ List.mem_cons_self))
      · intro place hplace
        rcases hsuited place hplace with ⟨f', hf', rfl⟩ | hprobed
        · rw [hsome] at hf'
          cases hf'
          left
          rw [← hmade, List.cons_append, placed_resized hpost]
          exact ⟨Int.le_refl _, Int.le_refl _⟩
        · exact .inr hprobed

/-- `resize_partition` does what its result says exactly if the old start and end, where
they are set again, are those the partition has then. -/
theorem resizePartition_promised_iff {solves : Constraint → Geometry → Prop}
    (hlp : Careful lp part) (hch : Choosy lp solves) {s s' : State W} (hd : s.disk = some d)
    (hp : d.partition part = some p) (hnest : p.type.logical = true → d.Nested)
    {start finish : Int} {openFs b : Bool}
    (hrun : resizePartition lp part start finish openFs s = .ok (b, s')) :
    (∃ d', s'.disk = some d' ∧
      Promised solves part p start finish (madeSince s s') d' b) ↔
      PutBack part p (madeSince s s') := by
  have h₀ : Stands lp s.calls [] d s := ⟨rfl, fun c hc => (by cases hc), hd⟩
  rcases h₀.resizePartition hlp hp hrun with ⟨hspan, rfl, rfl⟩ | ⟨hne, new, d', h', hres, hnest'⟩
  · rw [show madeSince s' s' = [] from madeSince_eq rfl]
    refine ⟨fun _ c hc => (by cases hc), fun _ => ⟨d, hd, p.geom, ?_, ?_, ?_⟩⟩
    · rw [hp]
      rfl
    · exact .inl ⟨rfl, rfl, hspan⟩
    · rintro place (⟨n, fs, hmem, -⟩ | ⟨n, fsType, hmem, -⟩)
      · cases hmem
      · cases hmem
  have hnest'' : p.type.logical = true → d'.Nested := fun hl => hnest' hl (hnest hl)
  rw [List.append_nil] at h'
  rw [madeSince_eq h'.calls]
  have hdisk : (∃ d', s'.disk = some d' ∧ Promised solves part p start finish new d' b) ↔
      Promised solves part p start finish new d' b := by
    constructor
    · rintro ⟨d'', hd'', h⟩
      rw [h'.disk] at hd''
      cases hd''
      exact h
    · exact fun h => ⟨d', h'.disk, h⟩
  rw [hdisk]
  cases hres with
  | unprepared hmoves hp' =>
      exact iff_of_true ⟨by rw [Disk.bounds, hp']; rfl, hnest''⟩ fun c hc =>
        putsBack_of_still (hmoves c hc)
  | @settled pre mid set post d₁ _ fs k _ hmoves hsuits hfs hmid hset hpost hp' =>
      have hput : PutBack part p (post ++ (set ++ (mid ++ pre))) ↔ PutBack part p set := by
        refine ⟨fun h c hc => h c (List.mem_append_right _ (List.mem_append_left _ hc)),
          fun h c hc => ?_⟩
        cases hm : c.2.1.moves with
        | true => exact h c (mem_of_moves hmoves hmid hpost hc hm)
        | false => exact putsBack_of_still hm
      rw [hput, hset.putBack_iff hne]
      cases b with
      | true => exact iff_of_true (hset.promised hch hsuits hmid hpost hp' h'.genuine) nofun
      | false =>
          have hbounds : d'.bounds part = d₁.bounds part := congrArg (Option.map _) hp'
          exact ⟨fun h _ => hbounds ▸ h.1, fun h => ⟨hbounds.trans (h rfl), hnest''⟩⟩

/-- The old end is set again as it was. -/
theorem resizePartition_promised_exactly :
    ∃ s', resizePartition (settling exactly) 1 63 40000 true unaligned = .ok (false, s') ∧
      ∃ d', s'.disk = some d' ∧ Promised (fun _ _ => True) 1 unalignedPart 63 40000
        (madeSince unaligned s') d' false := by
  have hrun : ∃ s', resizePartition (settling exactly) 1 63 40000 true unaligned =
      .ok (false, s') ∧
      ((madeSince unaligned s').all fun c => c.2.1.putsBack 1 unalignedPart c.2.2) = true :=
    ⟨_, rfl, rfl⟩
  obtain ⟨s', hrun, hput⟩ := hrun
  refine ⟨s', hrun, (resizePartition_promised_iff (careful_settling (fun _ _ _ h =>
    exactly_coherent h) 1) (choosy_settling exactly) (d := ⟨0, "msdos", [unalignedPart]⟩)
    rfl rfl nofun hrun).mpr ?_⟩
  exact List.all_eq_true.mp hput

/-- The file system is left with a partition that ends before it. -/
theorem resizePartition_shrunk :
    ¬∀ (lp : Libparted OneDisk) (solves : Constraint → Geometry → Prop) (part : PartId) (d : Disk)
      (p : Partition) (s s' : State OneDisk), Careful lp part → Choosy lp solves →
      s.disk = some d → d.partition part = some p → (p.type.logical = true → d.Nested) →
      ∀ start finish openFs b, resizePartition lp part start finish openFs s = .ok (b, s') →
        ∃ d', s'.disk = some d' ∧
          Promised solves part p start finish (madeSince s s') d' b := by
  intro h
  have hrun : ∃ s', resizePartition (settling cylinders) 1 63 40000 true unaligned =
      .ok (false, s') ∧ (s'.disk.bind fun d => d.bounds 1) = some (63, 16064) := ⟨_, rfl, rfl⟩
  obtain ⟨s', hrun, hbounds⟩ := hrun
  obtain ⟨d', hd', hprom⟩ := h _ _ 1 ⟨0, "msdos", [unalignedPart]⟩ unalignedPart _ s'
    (careful_settling (fun _ _ _ h => exactly_coherent h) 1) (choosy_settling cylinders) rfl rfl
    nofun 63 40000 true false hrun
  rw [hd'] at hbounds
  have heq : some (63, 16064) = some unalignedPart.geom.span := hbounds.symm.trans hprom.1
  exact absurd heq (by decide)

end DebianInstaller.Partman.Parted
