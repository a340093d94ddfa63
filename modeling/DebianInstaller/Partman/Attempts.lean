import DebianInstaller.Partman.Resizing

/-!
# The loop of `VIRTUAL_RESIZE_PARTITION`

The command resizes a partition until it has the size that was asked for, each
time with an end one sector further on. Whether a resize succeeded is not looked
at, only the size the partition has afterwards. A resize that libparted refuses
leaves the partition as it is, so the loop ends only at an end for which
libparted sets a geometry that is long enough, and there need not be one: where
the next partition begins, no end further on is any better.

What libparted grants for which end is a `Layout`, the part of the machine that
decides. It is a function of the end alone: the file system in the partition,
the partitions around it and what the label aligns to do not change from one
attempt to the next.
-/

namespace DebianInstaller.Partman.Parted

open Programs Text

variable {W : Type} {lp : Libparted W} {part : PartId} {dev : DevId} {p q : Partition}
  {start newSize sectorSize finish : Int} {geom : Geometry}

/-- A partition of the disk that is worked on. -/
def State.partition (s : State W) (part : PartId) : Option Partition :=
  s.disk.bind (·.partition part)

/-! ## What libparted grants -/

/-- What there is in a partition, and how far libparted lets it go. -/
structure Layout (start : Int) where
  /-- The file system that is found. -/
  fsType : Option Text
  /-- What it takes up. -/
  fsGeom : Option Geometry
  /-- What is set where an end is asked for, unless it is refused. -/
  grants : Int → Option Geometry
  coherent : ∀ e geom, grants e = some geom → geom.Coherent
  /-- Bounds that libparted has chosen itself it accepts as they are. -/
  nearest : ∀ e geom, grants e = some geom → geom.start = start →
    grants geom.finish = some geom
  /-- The constraint for a file system keeps it inside. -/
  encloses : ∀ e geom, grants e = some geom →
    fsType = none ∨ ∃ fs ∈ fsGeom, fs.Inside geom

instance (geom outer : Geometry) : Decidable (geom.Inside outer) :=
  inferInstanceAs (Decidable (_ ∧ _))

/-- There is no file system that goes beyond the partition. -/
def Layout.Sound (L : Layout start) (geom : Geometry) : Prop :=
  L.fsType = none ∨ ∃ fs ∈ L.fsGeom, fs.Inside geom

instance (L : Layout start) (geom : Geometry) : Decidable (L.Sound geom) :=
  inferInstanceAs (Decidable (_ ∨ _))

/-- The replies about one partition. -/
def Request.Follows (part : PartId) (p : Partition) (L : Layout start) :
    (r : Request) → r.Reply → Prop
  | .fileSystemProbe _, reply => reply = L.fsType
  | .fileSystemProbeSpecific _ _, reply => reply = L.fsGeom
  | .constraintAny _, reply => reply.isSome = true
  | .alignmentInit _ _, reply => reply = true
  | .geometryInit .., reply => reply.isSome = true
  | .constraintNew .., reply => L.fsType.isSome = true → reply.isSome = true
  | .change d (.setPartitionGeom q _ a b), reply => q = part → a = start →
      ∀ geom, d.partition part = some { p with geom := geom } →
        reply.1 = (L.grants b).isSome ∧
        reply.2.partition part = some { p with geom := (L.grants b).getD geom }
  | _, _ => True

/-- A libparted that makes the constraints it is asked for and grants what the layout
says. -/
def Follows (lp : Libparted W) (part : PartId) (p : Partition) (L : Layout start) : Prop :=
  ∀ r w, (lp.answer r w).All fun reply => r.Follows part p L reply.1

/-- The end after `n` steps of one sector. -/
def nthEnd (finish : Int) (n : Nat) : Int := (fun e => longLong (e + 1))^[n] finish

/-- At one of the first `n` ends libparted moves the partition. -/
def Layout.Moved (L : Layout start) (finish : Int) (geom : Geometry) (n : Nat) : Prop :=
  ∃ m < n, geom.span ≠ (start, nthEnd finish m) ∧ (L.grants (nthEnd finish m)).isSome = true

/-- There is an end, from the first on, for which libparted sets a long enough geometry, or
nothing is to be done at the first and the partition was long enough.

An end the partition has already is not asked for, so it counts only if libparted
has moved the partition before. -/
def Layout.Allows (L : Layout start) (p : Partition) (finish newSize sectorSize : Int) : Prop :=
  newSize ≤ longLong (p.geom.length * sectorSize) ∧
    (p.geom.span = (start, finish) ∨ ¬L.Sound p.geom ∨ L.grants finish = none) ∨
  L.Sound p.geom ∧ ∃ n geom, L.grants (nthEnd finish n) = some geom ∧
    newSize ≤ longLong (geom.length * sectorSize) ∧
    (p.geom.span = (start, nthEnd finish n) → L.Moved finish p.geom n)

/-! ## The partition from attempt to attempt -/

/-- The geometry after an attempt. -/
def Layout.after (L : Layout start) (finish : Int) (geom : Geometry) : Geometry :=
  if geom.span = (start, finish) ∨ ¬L.Sound geom then geom else (L.grants finish).getD geom

/-- The geometry after `n` attempts. -/
def Layout.held (L : Layout start) (finish : Int) (geom : Geometry) : Nat → Geometry
  | 0 => geom
  | n + 1 => L.after (nthEnd finish n) (L.held finish geom n)

namespace Layout

variable {L : Layout start}

theorem held_succ (n : Nat) : L.held finish geom (n + 1) =
    L.held (longLong (finish + 1)) (L.after finish geom) n := by
  induction n with
  | zero => rfl
  | succ n ih =>
      show L.after (nthEnd finish (n + 1)) (L.held finish geom (n + 1)) = _
      rw [ih]
      rfl

theorem after_eq (hsound : L.Sound geom) (hspan : geom.span ≠ (start, finish)) :
    L.after finish geom = (L.grants finish).getD geom :=
  if_neg fun h => h.elim hspan fun h => h hsound

theorem held_unsound (hsound : ¬L.Sound geom) (n : Nat) : L.held finish geom n = geom := by
  induction n with
  | zero => rfl
  | succ n ih =>
      show L.after (nthEnd finish n) (L.held finish geom n) = geom
      rw [ih, after, if_pos (.inr hsound)]

variable (finish) in
/-- Until it is moved a partition is where it was; from then on it is where libparted
has put it. -/
theorem held_cases (hsound : L.Sound geom) (n : Nat) :
    (¬L.Moved finish geom n ∧ L.held finish geom n = geom) ∨
    (L.Moved finish geom n ∧ ∃ m < n, L.grants (nthEnd finish m) = some (L.held finish geom n) ∧
      (geom.span = (start, nthEnd finish m) → L.Moved finish geom m)) := by
  induction n with
  | zero => exact .inl ⟨fun ⟨m, hm, _⟩ => Nat.not_lt_zero m hm, rfl⟩
  | succ n ih =>
      show (_ ∧ L.after (nthEnd finish n) (L.held finish geom n) = geom) ∨
        (_ ∧ ∃ m < n + 1, L.grants (nthEnd finish m) =
          some (L.after (nthEnd finish n) (L.held finish geom n)) ∧ _)
      rcases ih with ⟨hmoved, hheld⟩ | ⟨hmoved, m, hm, hgrant, hown⟩
      · rw [hheld]
        by_cases hspan : geom.span = (start, nthEnd finish n)
        · refine .inl ⟨?_, if_pos (.inl hspan)⟩
          rintro ⟨m, hm, hne, hsome⟩
          rcases Nat.lt_succ_iff_lt_or_eq.mp hm with hm | rfl
          · exact hmoved ⟨m, hm, hne, hsome⟩
          · exact hne hspan
        · rw [after_eq hsound hspan]
          cases hgrant : L.grants (nthEnd finish n) with
          | none =>
              refine .inl ⟨?_, rfl⟩
              rintro ⟨m, hm, hne, hsome⟩
              rcases Nat.lt_succ_iff_lt_or_eq.mp hm with hm | rfl
              · exact hmoved ⟨m, hm, hne, hsome⟩
              · rw [hgrant] at hsome
                cases hsome
          | some new =>
              refine .inr ⟨⟨n, Nat.lt_succ_self n, hspan, hgrant ▸ rfl⟩, n, Nat.lt_succ_self n,
                hgrant, fun h => absurd h hspan⟩
      · obtain ⟨k, hk, hne, hsome⟩ := hmoved
        refine .inr ⟨⟨k, Nat.lt_succ_of_lt hk, hne, hsome⟩, ?_⟩
        have hstays : L.after (nthEnd finish n) (L.held finish geom n) = L.held finish geom n →
            ∃ m < n + 1, L.grants (nthEnd finish m) =
              some (L.after (nthEnd finish n) (L.held finish geom n)) ∧
              (geom.span = (start, nthEnd finish m) → L.Moved finish geom m) := by
          intro h
          rw [h]
          exact ⟨m, Nat.lt_succ_of_lt hm, hgrant, hown⟩
        by_cases hspan : (L.held finish geom n).span = (start, nthEnd finish n)
        · exact hstays (if_pos (.inl hspan))
        · have hafter := after_eq (L.encloses _ _ hgrant) hspan
          cases hnew : L.grants (nthEnd finish n) with
          | none => exact hstays (by rw [hafter, hnew]; rfl)
          | some new =>
              refine ⟨n, Nat.lt_succ_self n, ?_, fun _ => ⟨k, hk, hne, hsome⟩⟩
              rw [hafter, hnew]
              rfl

/-- The partition becomes long enough at some attempt exactly if the layout allows it. -/
theorem held_long_iff :
    (∃ n, newSize ≤ longLong ((L.held finish p.geom (n + 1)).length * sectorSize)) ↔
      L.Allows p finish newSize sectorSize := by
  by_cases hsound : L.Sound p.geom
  · constructor
    · rintro ⟨n, hlong⟩
      rcases held_cases finish hsound (n + 1) with
        ⟨hmoved, hheld⟩ | ⟨-, m, -, hgrant, hown⟩
      · rw [hheld] at hlong
        refine .inl ⟨hlong, ?_⟩
        by_cases hspan : p.geom.span = (start, finish)
        · exact .inl hspan
        · refine .inr (.inr (Option.not_isSome_iff_eq_none.mp fun hsome => ?_))
          exact hmoved ⟨0, Nat.succ_pos n, hspan, hsome⟩
      · exact .inr ⟨hsound, m, _, hgrant, hlong, hown⟩
    · rintro (⟨hlong, h⟩ | ⟨-, n, geom, hgrant, hlong, hown⟩)
      · refine ⟨0, ?_⟩
        have hheld : L.held finish p.geom 1 = p.geom := by
          show L.after finish p.geom = p.geom
          by_cases hspan : p.geom.span = (start, finish)
          · exact if_pos (.inl hspan)
          · rw [after_eq hsound hspan, (h.resolve_left hspan).resolve_left (not_not_intro hsound)]
            rfl
        rwa [hheld]
      · refine ⟨n, ?_⟩
        have hheld : L.held finish p.geom (n + 1) = geom := by
          show L.after (nthEnd finish n) (L.held finish p.geom n) = geom
          rcases held_cases finish hsound n with
            ⟨hmoved, hheld⟩ | ⟨-, m, -, hput, -⟩
          · rw [hheld, after_eq hsound fun h => hmoved (hown h), hgrant]
            rfl
          · by_cases hspan : (L.held finish p.geom n).span = (start, nthEnd finish n)
            · have hsame := L.nearest _ _ hput (congrArg Prod.fst hspan)
              rw [show (L.held finish p.geom n).finish = nthEnd finish n from
                congrArg Prod.snd hspan, hgrant] at hsame
              rw [after, if_pos (.inl hspan)]
              exact (Option.some.inj hsame).symm
            · rw [after_eq (L.encloses _ _ hput) hspan, hgrant]
              rfl
        rwa [hheld]
  · simp only [held_unsound hsound]
    constructor
    · exact fun ⟨_, hlong⟩ => .inl ⟨hlong, .inr (.inl hsound)⟩
    · rintro (⟨hlong, -⟩ | ⟨h, -⟩)
      · exact ⟨0, hlong⟩
      · exact absurd h hsound

variable (finish geom) in
theorem held_own (n : Nat) :
    L.held finish geom n = geom ∨ (L.held finish geom n).Coherent := by
  by_cases hsound : L.Sound geom
  · rcases held_cases finish hsound n with ⟨-, hheld⟩ | ⟨-, m, -, hgrant, -⟩
    · exact .inl hheld
    · exact .inr (L.coherent _ _ hgrant)
  · exact .inl (held_unsound hsound n)

end Layout

/-! ## One attempt -/

theorem outside_eq (fs : Geometry) (q : Partition) :
    outside fs q = !decide (fs.Inside q.geom) := by
  rw [Bool.eq_iff_iff, Bool.not_eq_true', decide_eq_false_iff_not]
  simp only [outside, Geometry.Inside, Bool.or_eq_true, decide_eq_true_eq]
  omega

section Attempt

variable {L : Layout start} {s s' : State W}

theorem Follows.call (hL : Follows lp part p L) {r : Request} {reply : r.Reply}
    (h : call lp r s = .ok (reply, s')) : r.Follows part p L reply :=
  call_genuine h _ (List.mem_singleton.mpr rfl) (Request.Follows part p L) hL

/-- The constraint is made unless there is a file system that goes beyond the partition. -/
theorem Follows.probedConstraint (hL : Follows lp part p L)
    {r : Option (Option FileSystem × Option Constraint)}
    (hrun : probedConstraint lp q s = .ok (r, s')) :
    (L.Sound q.geom → ∃ k, r = some (none, some k)) ∧ (¬L.Sound q.geom → r = none) := by
  obtain ⟨probed, t₁, hprobe, hrun⟩ := bind_ok hrun
  have hprobe : probed = L.fsType := hL.call hprobe
  subst hprobe
  cases htype : L.fsType with
  | none =>
      rw [htype] at hrun
      obtain ⟨d, t₂, -, hrun⟩ := bind_ok hrun
      obtain ⟨k, t₃, hk, hrun⟩ := bind_ok hrun
      obtain ⟨k, rfl⟩ := Option.isSome_iff_exists.mp (hL.call hk)
      cases hrun
      exact ⟨fun _ => ⟨k, rfl⟩, fun h => absurd (.inl htype) h⟩
  | some fsType =>
      rw [htype] at hrun
      obtain ⟨found, t₂, hfind, hrun⟩ := bind_ok hrun
      have hfind : found = L.fsGeom := hL.call hfind
      subst hfind
      cases hgeom : L.fsGeom with
      | none =>
          rw [hgeom] at hrun
          cases hrun
          refine ⟨fun h => ?_, fun _ => rfl⟩
          rcases h with h | ⟨fs, hfs, -⟩
          · cases htype.symm.trans h
          · cases hgeom.symm.trans hfs
      | some fs =>
          rw [hgeom] at hrun
          simp only [outside_eq, Bool.not_eq_true', decide_eq_false_iff_not] at hrun
          have hsound : L.Sound q.geom ↔ fs.Inside q.geom := by
            refine ⟨fun h => ?_, fun h => .inr ⟨fs, hgeom, h⟩⟩
            rcases h with h | ⟨fs', hfs, h⟩
            · cases htype.symm.trans h
            · cases hgeom.symm.trans hfs
              exact h
          rw [hsound]
          split at hrun
          · next hout =>
              cases hrun
              exact ⟨fun h => absurd h hout, fun _ => rfl⟩
          · next hin =>
              refine ⟨fun _ => ?_, fun h => absurd h hin⟩
              obtain ⟨d, t₃, -, hrun⟩ := bind_ok hrun
              obtain ⟨device, t₄, -, hrun⟩ := bind_ok hrun
              obtain ⟨aligned, t₅, halign, hrun⟩ := bind_ok hrun
              have haligned : aligned = true := hL.call halign
              subst haligned
              obtain ⟨full, t₆, hinit, hrun⟩ := bind_ok hrun
              obtain ⟨full, rfl⟩ := Option.isSome_iff_exists.mp (hL.call hinit)
              obtain ⟨k, t₇, hk, hrun⟩ := bind_ok hrun
              obtain ⟨k, rfl⟩ := Option.isSome_iff_exists.mp (hL.call hk (by rw [htype]; rfl))
              cases hrun
              exact ⟨k, rfl⟩

theorem Follows.attempt (hL : Follows lp part p L) (hlp : Careful lp part) {b : Bool}
    (hp : s.partition part = some { p with geom := geom })
    (hrun : resizePartition lp part start finish false s = .ok (b, s')) :
    s'.partition part = some { p with geom := L.after finish geom } := by
  obtain ⟨d, hd, hpart⟩ := Option.bind_eq_some_iff.mp hp
  have h₀ : Stands lp s.calls [] d s := ⟨rfl, fun c hc => (by cases hc), hd⟩
  obtain ⟨p₀, t, hlook, hrest⟩ := bind_ok hrun
  rw [thePartition_run hd hpart] at hlook
  cases hlook
  by_cases hspan : geom.span = (start, finish)
  · rw [if_pos ⟨congrArg Prod.fst hspan, congrArg Prod.snd hspan⟩] at hrest
    cases hrest
    rw [Layout.after, if_pos (.inl hspan)]
    exact hp
  rw [if_neg fun h => hspan (Prod.ext h.1 h.2)] at hrest
  obtain ⟨r, t₁, hprep, hrest⟩ := bind_ok hrest
  obtain ⟨new, h₁, -⟩ := h₀.probedConstraint hprep
  obtain ⟨hsome, hnone⟩ := hL.probedConstraint hprep
  by_cases hsound : L.Sound geom
  · obtain ⟨k, rfl⟩ := hsome hsound
    rw [Layout.after_eq hsound hspan]
    obtain ⟨_, t₂, hmax, hrest⟩ := bind_ok hrest
    obtain ⟨_, d₂, -, h₂, hp₂, -⟩ := h₁.maximizeIfLogical hlp hpart hmax
    obtain ⟨b', t₃, hgeom, hrest⟩ := bind_ok hrest
    obtain ⟨ok, t₄, hset, hgeom⟩ := bind_ok hgeom
    obtain ⟨n, d₃, new₃, h₃, -⟩ := h₂.setPartitionGeom hlp hp₂ hset
    have hp₃ : d₃.partition part = some { p with geom := (L.grants finish).getD geom } :=
      (h₃.genuine _ List.mem_cons_self (Request.Follows part p L) hL rfl rfl geom hp₂).2
    have htail : t₃ = t₄ := by
      cases ok <;> (cases hgeom; rfl)
    subst htail
    obtain ⟨_, t₅, hclose, hrest⟩ := bind_ok hrest
    cases hclose
    obtain ⟨_, t₆, hmin, hrest⟩ := bind_ok hrest
    cases hrest
    obtain ⟨_, d₆, -, h₆, hp₆, -⟩ := h₃.minimizeIfLogical hlp hp₃ hmin
    exact Option.bind_eq_some_iff.mpr ⟨d₆, h₆.disk, hp₆⟩
  · obtain rfl := hnone hsound
    cases hrest
    rw [Layout.after, if_pos (.inr hsound)]
    exact Option.bind_eq_some_iff.mpr ⟨d, h₁.disk, hpart⟩

end Attempt

/-- The programs that do not go on for ever. -/
def ending (W : Type) : Regime Unit (State W) Stop where
  inv _ _ := True
  rel _ _ := True
  may e := e ≠ .endless
  refl _ := trivial
  trans _ _ := trivial

theorem adjusting_ending (lp : Libparted W) : Adjusting lp (ending W) id :=
  have hreg : Registered (ending W) := {
    mild := fun _ h he => by cases he ▸ h
    timing := fun _ _ => nofun
    same := fun _ _ _ _ _ _ _ => ⟨trivial, trivial⟩
    record := fun _ _ _ _ _ _ => ⟨trivial, trivial⟩ }
  have hl : Loose (ending W) := ⟨fun _ _ => nofun, fun _ => nofun⟩
  hl.adjusting
    { toQuiet := hl.quiet hreg.plain
      change := fun c _ i => .bind ((hl.reading (show Plain lp _ _ from hreg.plain)).disk i) fun d =>
        .bind (call_moves (fun q => hreg.callback lp q i) fun _ _ _ _ => ⟨trivial, trivial⟩)
          fun _ => .bind (.modify fun _ _ => ⟨trivial, trivial⟩) fun _ => .pure _
      mark := fun name _ => .of_step (fun _ _ _ _ _ => ⟨trivial, trivial⟩) fun s e _ h => by
        obtain ⟨ds, hrun, -⟩ := updateNamed_spec s name
          (f := fun e => { e with changed := true }) fun _ => rfl
        cases hrun.symm.trans h
      resize := hreg.resize }

theorem attempt_ends {s : State W} {e : Stop}
    (h : resizePartition lp part start finish false s = .error e) : e ≠ .endless :=
  ((adjusting_ending lp).resizePartition part start finish false ()).error trivial h

/-! ## The loop -/

section Rounds

variable {s t : State W}

theorem resizeUntil_error {e : Stop}
    (h : resizePartition lp part start finish false s = .error e) (n : Nat) :
    resizeUntil lp dev part start newSize (n + 1) finish s = .error e := by
  show ((resizePartition lp part start finish false s >>= fun r => _) >>= fun r => _) = _
  rw [h]
  rfl

theorem resizeUntil_succ {b : Bool} (hss : ∀ w, (lp.device w dev).sectorSize = sectorSize)
    (h : resizePartition lp part start finish false s = .ok (b, t))
    (hq : t.partition part = some q) (n : Nat) :
    resizeUntil lp dev part start newSize (n + 1) finish s =
      if longLong (q.geom.length * sectorSize) < newSize then
        resizeUntil lp dev part start newSize n (longLong (finish + 1)) t
      else .ok ((), t) := by
  obtain ⟨d, hd, hq⟩ := Option.bind_eq_some_iff.mp hq
  show ((resizePartition lp part start finish false s >>= fun r => _) >>= fun r => _) = _
  rw [h]
  show (thePartition part t >>= fun r => _) = _
  rw [thePartition_run hd hq]
  show (if longLong (q.geom.length * (lp.device t.world dev).sectorSize) < newSize then
    resizeUntil lp dev part start newSize n (longLong (finish + 1)) else pure () :
      Server W Unit) t = _
  rw [hss]
  split <;> rfl

variable (newSize) in
/-- A round either stops the server, or ends the loop or goes on with the next end, as the
partition then is. -/
theorem Follows.round {L : Layout start} (hL : Follows lp part p L) (hlp : Careful lp part)
    (hss : ∀ w, (lp.device w dev).sectorSize = sectorSize)
    (hp : s.partition part = some { p with geom := geom }) :
    (∃ e, e ≠ .endless ∧
      ∀ n, resizeUntil lp dev part start newSize (n + 1) finish s = .error e) ∨
    ∃ t, t.partition part = some { p with geom := L.after finish geom } ∧
      ∀ n, resizeUntil lp dev part start newSize (n + 1) finish s =
        if longLong ((L.after finish geom).length * sectorSize) < newSize then
          resizeUntil lp dev part start newSize n (longLong (finish + 1)) t
        else .ok ((), t) := by
  cases hrun : resizePartition lp part start finish false s with
  | error e => exact .inl ⟨e, attempt_ends hrun, fun n => resizeUntil_error hrun n⟩
  | ok r =>
      obtain ⟨b, t⟩ := r
      have ht := hL.attempt hlp hp hrun
      exact .inr ⟨t, ht, fun n => resizeUntil_succ hss hrun ht n⟩

end Rounds

section Loop

variable {L : Layout start} (hL : Follows lp part p L) (hlp : Careful lp part)
  (hss : ∀ w, (lp.device w dev).sectorSize = sectorSize)

include hL hlp hss

/-- Where the loop ends the partition is as it is after so many attempts, and long enough. -/
theorem Follows.resizeUntil_ok (rounds : Nat) :
    ∀ (s s' : State W) (finish : Int) (geom : Geometry),
      s.partition part = some { p with geom := geom } →
      resizeUntil lp dev part start newSize rounds finish s = .ok ((), s') →
      ∃ n, s'.partition part = some { p with geom := L.held finish geom (n + 1) } ∧
        newSize ≤ longLong ((L.held finish geom (n + 1)).length * sectorSize) := by
  induction rounds with
  | zero => exact fun _ _ _ _ _ h => by cases h
  | succ rounds ih =>
      intro s s' finish geom hp hrun
      rcases hL.round newSize hlp hss hp with ⟨e, -, herr⟩ | ⟨t, ht, hround⟩
      · cases (herr rounds).symm.trans hrun
      · rw [hround] at hrun
        split at hrun
        · obtain ⟨n, hs', hlong⟩ := ih t s' _ _ ht hrun
          refine ⟨n + 1, ?_⟩
          rw [Layout.held_succ]
          exact ⟨hs', hlong⟩
        · next hlong =>
            cases hrun
            exact ⟨0, ht, Int.not_lt.mp hlong⟩

/-- Rounds that do not end the loop have left the partition too short. -/
theorem Follows.resizeUntil_endless (rounds : Nat) :
    ∀ (s : State W) (finish : Int) (geom : Geometry),
      s.partition part = some { p with geom := geom } →
      resizeUntil lp dev part start newSize rounds finish s = .error .endless →
      ∀ n < rounds, longLong ((L.held finish geom (n + 1)).length * sectorSize) < newSize := by
  induction rounds with
  | zero => exact fun _ _ _ _ _ n hn => absurd hn (Nat.not_lt_zero n)
  | succ rounds ih =>
      intro s finish geom hp hrun n hn
      rcases hL.round newSize hlp hss hp with ⟨e, he, herr⟩ | ⟨t, ht, hround⟩
      · cases (herr rounds).symm.trans hrun
        exact absurd rfl he
      · rw [hround] at hrun
        split at hrun
        · next hshort =>
            cases n with
            | zero => exact hshort
            | succ n =>
                rw [Layout.held_succ]
                exact ih t _ _ ht hrun n (Nat.lt_of_succ_lt_succ hn)
        · cases hrun

end Loop

theorem longLong_le {x : Int} (h : 0 ≤ x) : longLong x ≤ x := by
  unfold longLong
  rw [Int.bmod_def]
  split <;> omega

/-- The loop of `command_virtual_resize_partition` ends, with the partition long enough or
as it was, exactly if libparted's layout allows it. That the server itself does not stop in
the loop, at an exception that nobody answers, is `hlasts`. -/
theorem resizeUntil_ends_iff {L : Layout p.geom.start} (hL : Follows lp part p L)
    (hlp : Careful lp part) (hss : ∀ w, (lp.device w dev).sectorSize = sectorSize)
    (hpos : 0 ≤ sectorSize) {s : State W} (hp : s.partition part = some p) (finish : Int)
    (hlasts : ∀ rounds e, resizeUntil lp dev part p.geom.start newSize rounds finish s =
      .error e → e = .endless) :
    ((∃ rounds, resizeUntil lp dev part p.geom.start newSize rounds finish s ≠
        .error .endless) ∧
      ∀ rounds s', resizeUntil lp dev part p.geom.start newSize rounds finish s = .ok ((), s') →
        ∃ p', s'.partition part = some p' ∧
          (newSize ≤ p'.geom.length * sectorSize ∨ p'.geom = p.geom)) ↔
    L.Allows p finish newSize sectorSize := by
  have hafter : ∀ rounds s', resizeUntil lp dev part p.geom.start newSize rounds finish s =
      .ok ((), s') → ∃ p', s'.partition part = some p' ∧
        (newSize ≤ p'.geom.length * sectorSize ∨ p'.geom = p.geom) := by
    intro rounds s' hrun
    obtain ⟨n, hs', hlong⟩ := hL.resizeUntil_ok hlp hss rounds s s' finish p.geom hp hrun
    refine ⟨_, hs', ?_⟩
    rcases Layout.held_own (L := L) finish p.geom (n + 1) with hown | hco
    · exact .inr hown
    · exact .inl (Int.le_trans hlong (longLong_le (Int.mul_nonneg hco.1 hpos)))
  rw [and_iff_left hafter, ← Layout.held_long_iff]
  constructor
  · rintro ⟨rounds, hrounds⟩
    cases hrun : resizeUntil lp dev part p.geom.start newSize rounds finish s with
    | error e => exact absurd (hlasts rounds e hrun ▸ hrun) hrounds
    | ok r =>
        obtain ⟨n, -, hlong⟩ := hL.resizeUntil_ok hlp hss rounds s r.2 finish p.geom hp hrun
        exact ⟨n, hlong⟩
  · rintro ⟨n, hlong⟩
    refine ⟨n + 1, fun hrun => ?_⟩
    have := hL.resizeUntil_endless hlp hss (n + 1) s finish p.geom hp hrun n (Nat.lt_succ_self n)
    omega

/-- Sectors in pairs. -/
def pairs (start finish : Int) : Option Geometry := exactly start (finish - (finish + 1) % 2)

/-- A disk without a file system on which partitions end with a pair of sectors. -/
def pairLayout : Layout 63 where
  fsType := none
  fsGeom := none
  grants := pairs 63
  coherent _ _ h := exactly_coherent h
  nearest e geom h hstart := by
    unfold pairs at h ⊢
    have heven : geom.finish - (geom.finish + 1) % 2 = geom.finish := by
      unfold exactly at h
      split at h
      · cases h
        simp only []
        omega
      · cases h
    rw [heven]
    unfold exactly at h ⊢
    split at h
    · next hle =>
        cases h
        exact if_pos hle
    · cases h
  encloses _ _ _ := .inl rfl

theorem follows_pairs : Follows (settling pairs) 1 unalignedPart pairLayout := by
  intro r w
  cases r with
  | change d c =>
      cases c with
      | setPartitionGeom q k a b =>
          rintro rfl rfl geom hp
          show (d.settle 1 (pairs 63 b)).1 = (pairs 63 b).isSome ∧
            (d.settle 1 (pairs 63 b)).2.partition 1 = _
          cases hgeom : pairs 63 b with
          | none =>
              simp only [Disk.settle, pairLayout, hgeom]
              exact ⟨rfl, hp⟩
          | some new =>
              simp only [Disk.settle, hp, pairLayout, hgeom]
              exact ⟨rfl, (partition_settle hp).trans rfl⟩
      | _ => exact Dialogue.all_true _
  | fileSystemProbe geom => rfl
  | fileSystemProbeSpecific fsType geom => rfl
  | constraintAny dev => rfl
  | alignmentInit offset grainSize => rfl
  | geometryInit dev start length => rfl
  | constraintNew start range minSize maxSize => exact fun h => by cases h
  | _ => exact Dialogue.all_true _

/-- The first attempt leaves the partition one sector too short. -/
theorem resizeUntil_ends_exactly :
    (∃ rounds, resizeUntil (settling pairs) 0 1 63 20480000 rounds 40062 unaligned ≠
        .error .endless) ∧
      ∀ rounds s', resizeUntil (settling pairs) 0 1 63 20480000 rounds 40062 unaligned =
        .ok ((), s') → ∃ p', s'.partition 1 = some p' ∧
          (20480000 ≤ p'.geom.length * 512 ∨ p'.geom = unalignedPart.geom) := by
  have hss : ∀ w, ((settling pairs).device w 0).sectorSize = 512 := fun _ => rfl
  have hnext : ¬unalignedPart.geom.span = (63, nthEnd 40062 1) := by decide
  refine (resizeUntil_ends_iff (p := unalignedPart) follows_pairs
    (careful_settling (fun _ _ _ h => exactly_coherent h) 1) hss (by decide) (s := unaligned) rfl
    40062 fun rounds e h => ?_).mpr (.inr ⟨.inl rfl, 1, ⟨63, 40063, 40001⟩, rfl, by decide,
      fun h => absurd h hnext⟩)
  obtain ⟨t₁, q₁, hrun₁, hq₁, hshort, t₂, q₂, hrun₂, hq₂, hlong⟩ :
      ∃ t₁ q₁, resizePartition (settling pairs) 1 63 40062 false unaligned = .ok (true, t₁) ∧
        t₁.partition 1 = some q₁ ∧ longLong (q₁.geom.length * 512) < 20480000 ∧
        ∃ t₂ q₂, resizePartition (settling pairs) 1 63 40063 false t₁ = .ok (true, t₂) ∧
          t₂.partition 1 = some q₂ ∧ ¬longLong (q₂.geom.length * 512) < 20480000 :=
    ⟨_, _, rfl, rfl, by decide, _, _, rfl, rfl, by decide⟩
  rcases rounds with _ | _ | rounds
  · cases h
    rfl
  · change resizeUntil (settling pairs) 0 1 63 20480000 (0 + 1) 40062 unaligned = _ at h
    rw [resizeUntil_succ hss hrun₁ hq₁, if_pos hshort] at h
    cases h
    rfl
  · change resizeUntil (settling pairs) 0 1 63 20480000 (rounds + 1 + 1) 40062 unaligned = _ at h
    rw [resizeUntil_succ hss hrun₁ hq₁, if_pos hshort] at h
    have hend : resizeUntil (settling pairs) 0 1 63 20480000 (rounds + 1) _ _ = _ :=
      resizeUntil_succ hss hrun₂ hq₂ rounds
    rw [if_neg hlong] at hend
    cases hend.symm.trans h

theorem attempt_full (finish : Int) (calls : List Call) :
    ∃ b calls', resizePartition (settling fun _ _ => none) 1 63 finish false
      { unaligned with calls := calls } = .ok (b, { unaligned with calls := calls' }) := by
  by_cases hsame : (20000 : Int) = finish
  · subst hsame
    exact ⟨true, calls, rfl⟩
  · have hne : ¬((63 : Int) = 63 ∧ (20000 : Int) = finish) := fun h => hsame h.2
    let d : Disk := ⟨0, "msdos", [unalignedPart]⟩
    let n := "=dev=sda"
    refine ⟨false, (n, ⟨.change d (.setPartitionGeom 1 (some ⟨0, 1, 1⟩) 63 finish), (false, d)⟩) ::
      (n, ⟨.constraintAny 0, some ⟨0, 1, 1⟩⟩) ::
      (n, ⟨.fileSystemProbe unalignedPart.geom, none⟩) :: calls, ?_⟩
    show (if (63 : Int) = 63 ∧ (20000 : Int) = finish then pure true else _ : Server OneDisk Bool)
      { unaligned with calls := calls } = _
    rw [if_neg hne]
    rfl

/-- The next partition begins right behind this one. -/
theorem resizeUntil_endless :
    ¬∀ (lp : Libparted OneDisk) (part : PartId) (dev : DevId) (sectorSize : Int)
      (s : State OneDisk) (p : Partition), Careful lp part →
      (∀ w, (lp.device w dev).sectorSize = sectorSize) → 0 ≤ sectorSize →
      s.partition part = some p → ∀ newSize finish,
      lastSector lp dev p.geom.start newSize s = .ok (finish, s) →
        (∃ rounds, resizeUntil lp dev part p.geom.start newSize rounds finish s ≠
          .error .endless) ∧
        ∀ rounds s', resizeUntil lp dev part p.geom.start newSize rounds finish s = .ok ((), s') →
          ∃ p', s'.partition part = some p' ∧
            (newSize ≤ p'.geom.length * sectorSize ∨ p'.geom = p.geom) := by
  intro h
  have hend : ∀ rounds finish calls, resizeUntil (settling fun _ _ => none) 0 1 63 20480000 rounds
      finish { unaligned with calls := calls } = .error .endless := by
    intro rounds
    induction rounds with
    | zero => exact fun _ _ => rfl
    | succ rounds ih =>
        intro finish calls
        obtain ⟨b, calls', hrun⟩ := attempt_full finish calls
        have hss : ∀ w, ((settling fun _ _ => none).device w 0).sectorSize = 512 := fun _ => rfl
        rw [resizeUntil_succ hss hrun (q := unalignedPart) rfl, if_pos (by decide)]
        exact ih _ calls'
  obtain ⟨rounds, hrounds⟩ := (h (settling fun _ _ => none) 1 0 512 unaligned unalignedPart
    (careful_settling (fun _ _ _ h => by cases h) 1) (fun _ => rfl) (by decide) rfl 20480000 40062
    rfl).1
  exact hrounds (hend rounds 40062 [])

end DebianInstaller.Partman.Parted
