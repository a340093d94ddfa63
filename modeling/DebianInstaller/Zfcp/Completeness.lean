import DebianInstaller.Zfcp.Config

/-!
# All entries are dealt with

An entry is marked as seen in two places, and an adapter as configured in a third one. What holds
between them in every state is that an entry which has been seen belongs to an adapter that is
configured already, or to the one that is being configured. So when no adapter is left to select,
each adapter with an entry has been through the whole circle, and on the way the LUNs of all its
entries were added.

Each round marks an entry, so there are no more rounds than entries.
-/

namespace DebianInstaller.Zfcp.Config

open Lib (Tree)

variable {a : Adding} {es : List Entry} {f : Fcp} {h : Host} {hba : CcwDevid} {k : ℕ} {r r' : Run}

variable {sys : System}

/-! ## What is to hold at the end -/

section

variable (sys)

def System.fcps : List Fcp :=
  match sys.devices with
  | .entries fcps _ => fcps
  | _ => []

/-- The LUNs of the entries. -/
def System.luns : List ZfcpLunDevid := (preseedLuns sys).getD []

def System.npiv (f : Fcp) : Bool :=
  if f.online then f.npiv else (sys.enable f.devid).getD false

/-- The LUNs of this adapter are found without the program. -/
def System.Scans (f : Fcp) : Prop := (sys.allowLunScan && sys.npiv f) = true

instance (f : Fcp) : Decidable (sys.Scans f) := inferInstanceAs (Decidable (_ = true))

end

/-- The LUN is active and in the file, or else the adapter scans and the file has no LUN. -/
def Outcome (sys : System) (r : Run) (f : Fcp) (lun : ZfcpLunDevid) : Prop :=
  if sys.Scans f then r.files f.devid = some []
  else lun ∈ r.scsi.active ∧
    ∃ lines, r.files f.devid = some lines ∧ zfcpLunToStr lun.wwpn lun.lun ∈ lines

def Served (sys : System) (r : Run) (f : Fcp) : Prop :=
  ∀ lun ∈ sys.luns, lun.fcpDev = f.devid → Outcome sys r f lun

theorem Served.mono (h : Served sys r f) (hactive : r.scsi.active ⊆ r'.scsi.active)
    (hfiles : r'.files f.devid = r.files f.devid) : Served sys r' f := by
  intro lun hlun hdev
  have hout := h lun hlun hdev
  unfold Outcome at hout ⊢
  rw [hfiles]
  split at hout
  case isTrue hscans => exact (if_pos hscans).symm ▸ hout
  case isFalse hscans => exact (if_neg hscans).symm ▸ ⟨hactive hout.1, hout.2⟩

/-! ## Adapters -/

theorem host_spec {devid : CcwDevid} (hh : r.host devid = some h) : h.devid = devid := by
  have hsome := List.find?_some hh
  exact of_decide_eq_true hsome

theorem host_setHost (r : Run) (host : Host) (devid : CcwDevid) :
    (r.setHost host).host devid =
      if devid = host.devid then (r.host devid).map fun _ => host else r.host devid := by
  unfold Run.host Run.setHost
  have hcomp : ((fun h : Host => decide (h.devid = devid)) ∘
      fun h : Host => if h.devid = host.devid then host else h) =
        fun h : Host => decide (h.devid = devid) := by
    funext h
    rw [Function.comp_apply]
    split
    case isTrue heq => rw [heq]
    case isFalse => rfl
  rw [List.find?_map, hcomp]
  cases hfind : r.hosts.find? fun h => decide (h.devid = devid) with
  | none => simp
  | some h =>
    have hdevid : h.devid = devid := host_spec (r := r) hfind
    rw [Option.map_some, Option.map_some, hdevid]
    split <;> rfl

/-! ## Adding LUNs -/

/-- The tree has what the program found when it last looked. -/
def Tracks (hba : CcwDevid) (a : Adding) : Prop :=
  ∀ lun ∈ a.luns.keys, lun.fcpDev = hba ∧ lun ∈ a.scsi.active

/-- From one look to a later one nothing is lost. -/
structure Grows (hba : CcwDevid) (a a' : Adding) : Prop where
  tracks : Tracks hba a'
  luns : a.luns.keys ⊆ a'.luns.keys
  active : a.scsi.active ⊆ a'.scsi.active

theorem Grows.refl (h : Tracks hba a) : Grows hba a a :=
  ⟨h, List.Subset.refl _, List.Subset.refl _⟩

theorem Grows.trans {b c : Adding} (hab : Grows hba a b) (hbc : Grows hba b c) : Grows hba a c :=
  ⟨hbc.tracks, List.Subset.trans hab.luns hbc.luns, List.Subset.trans hab.active hbc.active⟩

theorem mem_populate (hba : CcwDevid) (scsi : Scsi) (lun : ZfcpLunDevid) :
    lun ∈ (lunTreePopulate sys hba scsi).1.keys ↔
      lun.fcpDev = hba ∧ lun ∈ (lunTreePopulate sys hba scsi).2.active := by
  unfold lunTreePopulate
  rw [mem_lunTree, List.mem_filter, decide_eq_true_eq]
  exact and_comm

theorem active_populate (sys : System) (hba : CcwDevid) (scsi : Scsi) :
    scsi.active ⊆ (lunTreePopulate sys hba scsi).2.active :=
  List.subset_append_left _ _

theorem grows_populate (sys : System) (h : Tracks hba a) :
    Grows hba a { a with
      luns := (lunTreePopulate sys hba a.scsi).1
      scsi := (lunTreePopulate sys hba a.scsi).2 } where
  tracks lun hlun := (mem_populate hba a.scsi lun).mp hlun
  luns lun hlun := (mem_populate hba a.scsi lun).mpr
    ⟨(h lun hlun).1, active_populate sys hba a.scsi (h lun hlun).2⟩
  active := active_populate sys hba a.scsi

theorem awaitLun_spec {lun : ZfcpLunDevid} (tries : ℕ) (h : Tracks hba a)
    (herr : (awaitLun sys hba lun tries a).err = false) :
    Grows hba a (awaitLun sys hba lun tries a) ∧
      lun ∈ (awaitLun sys hba lun tries a).luns.keys := by
  induction tries generalizing a with
  | zero => cases herr
  | succ tries ih =>
    have hgrows := grows_populate sys h
    unfold awaitLun at herr ⊢
    simp only at herr ⊢
    split
    case isTrue hfound => exact ⟨hgrows, hfound⟩
    case isFalse hfound =>
      rw [if_neg hfound] at herr
      obtain ⟨hgrows', hmem⟩ := ih hgrows.tracks herr
      exact ⟨hgrows.trans hgrows', hmem⟩

theorem addLun_spec {lun : ZfcpLunDevid} (h : Tracks hba a)
    (herr : (addLun sys hba lun a).err = false) :
    Grows hba a (addLun sys hba lun a) ∧ lun ∈ (addLun sys hba lun a).luns.keys := by
  unfold addLun at herr ⊢
  split
  case isTrue hfound => exact ⟨.refl h, hfound⟩
  case isFalse hfound =>
    rw [if_neg hfound] at herr
    split
    case isTrue hadd =>
      rw [if_pos hadd] at herr
      cases herr
    case isFalse hadd =>
      rw [if_neg hadd] at herr
      exact awaitLun_spec _ h herr

theorem preseedAddLuns_err (sys : System) (hba : CcwDevid) (es : List Entry) (h : a.err = true) :
    (preseedAddLuns sys hba es a).2.err = true := by
  induction es generalizing a with
  | nil => exact h
  | cons e es ih =>
    have hstep : (preseedAddLun sys hba e a).2.err = true := by
      unfold preseedAddLun
      rw [if_pos (.inl h)]
      exact h
    exact ih hstep

theorem preseedAddLuns_spec (es : List Entry) (h : Tracks hba a)
    (herr : (preseedAddLuns sys hba es a).2.err = false) :
    Grows hba a (preseedAddLuns sys hba es a).2 ∧
      ∀ e ∈ es, e.lun.fcpDev = hba → e.lun ∈ (preseedAddLuns sys hba es a).2.luns.keys := by
  induction es generalizing a with
  | nil => exact ⟨.refl h, fun e he => absurd he List.not_mem_nil⟩
  | cons e es ih =>
    have hnot : (preseedAddLun sys hba e a).2.err = false := by
      by_contra hcon
      have htrue := preseedAddLuns_err sys hba es (Bool.eq_true_of_not_eq_false hcon)
      exact absurd (htrue.symm.trans herr) (by decide)
    have hstep : Grows hba a (preseedAddLun sys hba e a).2 ∧
        (e.lun.fcpDev = hba → e.lun ∈ (preseedAddLun sys hba e a).2.luns.keys) := by
      unfold preseedAddLun at hnot ⊢
      split
      case isTrue hskip =>
        rw [if_pos hskip] at hnot
        refine ⟨.refl h, fun hdev => ?_⟩
        rcases hskip with hskip | hskip
        · exact absurd (hskip.symm.trans hnot) (by decide)
        · exact absurd hdev hskip
      case isFalse hskip =>
        rw [if_neg hskip] at hnot
        obtain ⟨hgrows, hmem⟩ := addLun_spec h hnot
        exact ⟨hgrows, fun _ => hmem⟩
    obtain ⟨hgrows, hall⟩ := ih hstep.1.tracks herr
    refine ⟨hstep.1.trans hgrows, fun e' he' hdev => ?_⟩
    rcases List.mem_cons.mp he' with rfl | he'
    · exact hgrows.luns (hstep.2 hdev)
    · exact hall e' he' hdev

/-! ## Marking entries -/

/-- Other entries, of which only some of this adapter are marked in addition. -/
structure Marks (hba : CcwDevid) (es es' : List Entry) : Prop where
  luns : es'.map Entry.lun = es.map Entry.lun
  seen : ∀ e ∈ es', e.seen = true → e ∈ es ∨ e.lun.fcpDev = hba

theorem Marks.refl (hba : CcwDevid) (es : List Entry) : Marks hba es es :=
  ⟨rfl, fun _ he _ => .inl he⟩

theorem Marks.cons {e e' : Entry} {es' : List Entry} (h : Marks hba es es') (hlun : e'.lun = e.lun)
    (hseen : e'.seen = true → e' = e ∨ e'.lun.fcpDev = hba) :
    Marks hba (e :: es) (e' :: es') where
  luns := by rw [List.map_cons, List.map_cons, hlun, h.luns]
  seen x hx hxseen := by
    rcases List.mem_cons.mp hx with rfl | hx
    · refine (hseen hxseen).imp_left ?_
      rintro rfl
      exact List.mem_cons_self
    · exact (h.seen x hx hxseen).imp_left (List.mem_cons_of_mem e)

def unseen (es : List Entry) : ℕ := es.countP fun e => !e.seen

theorem preseedAddLuns_marks (sys : System) (hba : CcwDevid) (es : List Entry) (a : Adding) :
    Marks hba es (preseedAddLuns sys hba es a).1 ∧
      unseen (preseedAddLuns sys hba es a).1 ≤ unseen es := by
  induction es generalizing a with
  | nil => exact ⟨.refl hba [], le_rfl⟩
  | cons e es ih =>
    obtain ⟨hmarks, hunseen⟩ := ih (preseedAddLun sys hba e a).2
    have hentry : (preseedAddLun sys hba e a).1 = e ∨
        (preseedAddLun sys hba e a).1 = { e with seen := true } ∧ e.lun.fcpDev = hba := by
      unfold preseedAddLun
      split
      case isTrue => exact .inl rfl
      case isFalse hskip => exact .inr ⟨rfl, not_not.mp fun hdev => hskip (.inr hdev)⟩
    show Marks hba _ ((preseedAddLun sys hba e a).1 :: _) ∧
      unseen ((preseedAddLun sys hba e a).1 :: _) ≤ _
    unfold unseen at hunseen ⊢
    rcases hentry with heq | ⟨heq, hdev⟩
    · rw [heq, List.countP_cons, List.countP_cons]
      exact ⟨hmarks.cons rfl fun _ => .inl rfl, Nat.add_le_add_right hunseen _⟩
    · rw [heq, List.countP_cons, List.countP_cons]
      refine ⟨hmarks.cons rfl fun _ => .inr hdev, ?_⟩
      exact Nat.add_le_add hunseen (by simp)

theorem preseedSelectOne_some {es' : List Entry} {host : Host}
    (h : preseedSelectOne r es = some (host, es')) :
    r.host host.devid = some host ∧ host.configured = false ∧ Marks host.devid es es' ∧
      unseen es' < unseen es := by
  induction es generalizing es' with
  | nil => cases h
  | cons e es ih =>
    unfold preseedSelectOne at h
    split at h
    case h_1 host' hselect =>
      obtain ⟨rfl, rfl⟩ := Prod.mk.inj (Option.some.inj h)
      split at hselect
      case isTrue => cases hselect
      case isFalse hseen =>
        obtain ⟨hhost, hconf⟩ := Option.filter_eq_some_iff.mp hselect
        have hdev := host_spec hhost
        refine ⟨hdev ▸ hhost, by simpa using hconf, ?_, ?_⟩
        · exact (Marks.refl _ es).cons rfl fun _ => .inr hdev.symm
        · unfold unseen
          rw [List.countP_cons, List.countP_cons]
          simp [hseen]
    case h_2 =>
      obtain ⟨⟨host', rest⟩, hrest, heq⟩ := Option.map_eq_some_iff.mp h
      obtain ⟨rfl, rfl⟩ := Prod.mk.inj heq
      obtain ⟨hhost, hconf, hmarks, hunseen⟩ := ih hrest
      refine ⟨hhost, hconf, hmarks.cons rfl fun _ => .inl rfl, ?_⟩
      unfold unseen at hunseen ⊢
      rw [List.countP_cons, List.countP_cons]
      exact Nat.add_lt_add_right hunseen _

theorem preseedSelectOne_none (h : preseedSelectOne r es = none) :
    ∀ e ∈ es, e.seen = true ∨ ∀ host, r.host e.lun.fcpDev = some host →
      host.configured = true := by
  induction es with
  | nil => exact fun e he => absurd he List.not_mem_nil
  | cons e es ih =>
    unfold preseedSelectOne at h
    split at h
    case h_1 => cases h
    case h_2 hselect =>
      intro e' he'
      rcases List.mem_cons.mp he' with rfl | he'
      · by_cases hseen : e'.seen = true
        · exact .inl hseen
        · refine .inr fun host hhost => ?_
          rw [if_neg hseen, hhost] at hselect
          simpa [Option.filter] using hselect
      · exact ih (Option.map_eq_none_iff.mp h) e' he'

/-! ## The invariant -/

/-- What is known of an adapter that was detected like this. -/
structure Keeps (sys : System) (r : Run) (f : Fcp) (h : Host) : Prop where
  npiv : h.online = true → h.npiv = sys.npiv f
  offline : h.online = false → f.online = false
  quiet : sys.Scans f → h.writeLuns = false
  served : h.configured = true → f.config = true ∨ Served sys r f

/-- The adapters are those that were detected, and an entry that has been seen belongs to one that
is configured, or to the one that is `busy`. -/
structure Core (sys : System) (r : Run) (busy : Option CcwDevid) : Prop where
  luns : r.preseed.map Entry.lun = sys.luns
  hosts : ∀ f ∈ sys.fcps, ∃ h, r.host f.devid = some h ∧ Keeps sys r f h
  known : ∀ devid h, r.host devid = some h → ∃ f ∈ sys.fcps, f.devid = devid
  seen : ∀ e ∈ r.preseed, e.seen = true →
    some e.lun.fcpDev = busy ∨ ∃ h, r.host e.lun.fcpDev = some h ∧ h.configured = true

/-- An adapter is being configured. -/
structure Busy (sys : System) (r : Run) (f : Fcp) (h : Host) : Prop where
  detected : f ∈ sys.fcps
  selected : r.selected = some f.devid
  host : r.host f.devid = some h
  fresh : h.configured = false
  keeps : Keeps sys r f h
  core : Core sys r (some f.devid)

/-- Its LUNs have been added. -/
def Ready (sys : System) (r : Run) (f : Fcp) (h : Host) : Prop :=
  ¬ sys.Scans f → h.writeLuns = true ∧ ∃ luns, h.luns = some luns ∧
    ∀ lun ∈ sys.luns, lun.fcpDev = f.devid → lun ∈ luns.keys ∧ lun ∈ r.scsi.active

def Final (sys : System) (r : Run) : Prop :=
  ∀ f ∈ sys.fcps, f.config = false → Served sys r f

def Inv (sys : System) (r : Run) : Prop :=
  match r.state with
  | .detectZfcpHosts => True
  | .preseed => ∀ devid, r.host devid = (sys.fcps.find? (·.devid = devid)).map addZfcpHost
  | .selectZfcpHost => Core sys r none
  | .removeConfig => ∃ f h, Busy sys r f h
  | .enable => ∃ f h, Busy sys r f h
  | .addZfcpLuns => ∃ f h, Busy sys r f h ∧ h.online = true
  | .write => ∃ f h, Busy sys r f h ∧ Ready sys r f h
  | .finish => Final sys r
  | .error => True
  | .backup => False

theorem fcps_inj {g : Fcp} (hf : f ∈ sys.fcps) (hg : g ∈ sys.fcps) (h : f.devid = g.devid) :
    f = g := by
  unfold System.fcps at hf hg
  cases hdevices : sys.devices with
  | missing =>
    rw [hdevices] at hf
    cases hf
  | unreadable =>
    rw [hdevices] at hf
    cases hf
  | entries fcps distinct =>
    rw [hdevices] at hf hg
    exact List.inj_on_of_nodup_map distinct hf hg h

theorem Keeps.mono (hk : Keeps sys r f h) (hactive : r.scsi.active ⊆ r'.scsi.active)
    (hfiles : r'.files f.devid = r.files f.devid) : Keeps sys r' f h :=
  ⟨hk.npiv, hk.offline, hk.quiet, fun hconf =>
    (hk.served hconf).imp_right fun hs => hs.mono hactive hfiles⟩

theorem Busy.setHost (hb : Busy sys r f h) (host : Host) (hdevid : host.devid = f.devid)
    (hhosts : r'.hosts = (r.setHost host).hosts) (hpreseed : r'.preseed = r.preseed)
    (hactive : r.scsi.active ⊆ r'.scsi.active)
    (hfiles : ∀ devid, devid ≠ f.devid → r'.files devid = r.files devid)
    (hkeeps : Keeps sys r' f host) {busy : Option CcwDevid}
    (hbusy : busy = some f.devid ∨ host.configured = true) :
    r'.host f.devid = some host ∧ Core sys r' busy := by
  have hother : ∀ devid, r'.host devid =
      if devid = f.devid then (r.host devid).map fun _ => host else r.host devid := by
    intro devid
    have hset := host_setHost r host devid
    unfold Run.host at hset ⊢
    rw [hhosts, hset, hdevid]
  have hself : r'.host f.devid = some host := by
    rw [hother, if_pos rfl, hb.host]
    rfl
  refine ⟨hself, hpreseed ▸ hb.core.luns, fun g hg => ?_, fun devid h' hh' => ?_,
    fun e he hseen => ?_⟩
  · by_cases hdev : g.devid = f.devid
    · obtain rfl := fcps_inj hg hb.detected hdev
      exact ⟨host, hself, hkeeps⟩
    · obtain ⟨h', hh', hk⟩ := hb.core.hosts g hg
      refine ⟨h', ?_, hk.mono hactive (hfiles g.devid hdev)⟩
      rw [hother, if_neg hdev, hh']
  · by_cases hdev : devid = f.devid
    · exact ⟨f, hb.detected, hdev.symm⟩
    · rw [hother, if_neg hdev] at hh'
      exact hb.core.known devid h' hh'
  · rw [hpreseed] at he
    by_cases hdev : e.lun.fcpDev = f.devid
    · rcases hbusy with rfl | hconf
      · exact .inl (congrArg some hdev)
      · exact .inr ⟨host, hdev ▸ hself, hconf⟩
    · rcases hb.core.seen e he hseen with heq | ⟨h', hh', hconf⟩
      · exact absurd (Option.some.inj heq) hdev
      · refine .inr ⟨h', ?_, hconf⟩
        rw [hother, if_neg hdev, hh']

theorem Busy.of_eq (hb : Busy sys r f h) (hselected : r'.selected = r.selected)
    (hhosts : r'.hosts = r.hosts) (hmarks : Marks f.devid r.preseed r'.preseed)
    (hactive : r.scsi.active ⊆ r'.scsi.active) (hfiles : r'.files = r.files) : Busy sys r' f h := by
  have hhost : r'.host = r.host := by
    unfold Run.host
    rw [hhosts]
  refine ⟨hb.detected, hselected.trans hb.selected, hhost ▸ hb.host, hb.fresh,
    hb.keeps.mono hactive (congrFun hfiles _), ⟨hmarks.luns.trans hb.core.luns, fun g hg => ?_,
    hhost ▸ hb.core.known, fun e he hseen => ?_⟩⟩
  · obtain ⟨h', hh', hk⟩ := hb.core.hosts g hg
    exact ⟨h', hhost ▸ hh', hk.mono hactive (congrFun hfiles _)⟩
  · rw [hhost]
    rcases hmarks.seen e he hseen with he | hdev
    · exact hb.core.seen e he hseen
    · exact .inl (congrArg some hdev)

theorem Busy.update (hb : Busy sys r f h) (host : Host) (hdevid : host.devid = f.devid)
    (hfresh : host.configured = false) (hnpiv : host.online = true → host.npiv = sys.npiv f)
    (hoffline : host.online = false → f.online = false)
    (hquiet : sys.Scans f → host.writeLuns = false) (hselected : r'.selected = r.selected)
    (hhosts : r'.hosts = (r.setHost host).hosts) (hpreseed : r'.preseed = r.preseed)
    (hactive : r.scsi.active ⊆ r'.scsi.active) (hfiles : r'.files = r.files) :
    Busy sys r' f host := by
  have hkeeps : Keeps sys r' f host := ⟨hnpiv, hoffline, hquiet, fun hconf =>
    absurd (hfresh.symm.trans hconf) (by decide)⟩
  obtain ⟨hhost, hcore⟩ := hb.setHost host hdevid hhosts hpreseed hactive
    (fun devid _ => congrFun hfiles devid) hkeeps (.inl rfl)
  exact ⟨hb.detected, hselected.trans hb.selected, hhost, hfresh, hkeeps, hcore⟩

/-! ## Each state -/

/-- The run goes on in this state. -/
def Run.goto (r : Run) (state : State) : Run := { r with state := state }

theorem detect_inv (sys : System) (r : Run) :
    (detectZfcpHosts sys r).1 = .error ∨
      (detectZfcpHosts sys r).1 = .finish ∧ Final sys ((detectZfcpHosts sys r).2.goto .finish) ∨
      (detectZfcpHosts sys r).1 = .next ∧ ∀ devid,
        ((detectZfcpHosts sys r).2.goto .preseed).host devid =
          (sys.fcps.find? (·.devid = devid)).map addZfcpHost := by
  unfold detectZfcpHosts Final System.fcps
  cases hdevices : sys.devices with
  | missing => exact .inr (.inl ⟨rfl, fun f hf => absurd hf List.not_mem_nil⟩)
  | unreadable => exact .inl rfl
  | entries fcps distinct =>
    cases fcps with
    | nil => exact .inr (.inl ⟨rfl, fun f hf => absurd hf List.not_mem_nil⟩)
    | cons fcp fcps =>
      refine .inr (.inr ⟨rfl, fun devid => ?_⟩)
      exact List.find?_map

theorem preseed_inv
    (hhosts : ∀ devid, r.host devid = (sys.fcps.find? (·.devid = devid)).map addZfcpHost) :
    (preseedZfcp sys r).1 = .error ∨
      (preseedZfcp sys r).1 = .next ∧
        Core sys ((preseedZfcp sys r).2.goto .selectZfcpHost) none := by
  unfold preseedZfcp
  cases hluns : preseedLuns sys with
  | none => exact .inl rfl
  | some luns =>
    have hsys : sys.luns = luns := by
      unfold System.luns
      rw [hluns]
      rfl
    refine .inr ⟨rfl, ?_, fun f hf => ?_, fun devid h hh => ?_, fun e he hseen => ?_⟩
    · show (luns.map _).map Entry.lun = _
      rw [List.map_map, hsys]
      exact List.map_id luns
    · have hfind : sys.fcps.find? (·.devid = f.devid) = some f := by
        cases hfound : sys.fcps.find? (·.devid = f.devid) with
        | none => exact absurd (List.find?_eq_none.mp hfound f hf) (by simp)
        | some g =>
          have hdev : g.devid = f.devid := by
            have hsome := List.find?_some hfound
            exact of_decide_eq_true hsome
          rw [fcps_inj (List.mem_of_find?_eq_some hfound) hf hdev]
      refine ⟨addZfcpHost f, (hhosts f.devid).trans (hfind ▸ rfl), fun honline => ?_, id,
        fun _ => rfl, .inl⟩
      have honline' : f.online = true := honline
      show (f.online && f.npiv) = if f.online then _ else _
      rw [honline']
      rfl
    · have hh' := (hhosts devid).symm.trans hh
      obtain ⟨f, hf, -⟩ := Option.map_eq_some_iff.mp hh'
      have hsome := List.find?_some hf
      exact ⟨f, List.mem_of_find?_eq_some hf, of_decide_eq_true hsome⟩
    · obtain ⟨lun, -, rfl⟩ := List.mem_map.mp he
      cases hseen

theorem select_inv (h : Core sys r none) :
    (selectPreseeded r).1 = .error ∨
      (selectPreseeded r).1 = .finish ∧ Final sys ((selectPreseeded r).2.goto .finish) ∨
      (selectPreseeded r).1 = .next ∧
        ∃ f host, Busy sys ((selectPreseeded r).2.goto .removeConfig) f host := by
  unfold selectPreseeded
  split
  case isTrue => exact .inl rfl
  case isFalse hne =>
    cases hselect : preseedSelectOne r r.preseed with
    | none =>
      refine .inr (.inl ⟨rfl, fun f hf hconfig => ?_⟩)
      obtain ⟨host, hhost, hkeeps⟩ := h.hosts f hf
      intro lun hlun hdev
      obtain ⟨e, he, rfl⟩ := List.mem_map.mp (h.luns ▸ hlun)
      have hconf : host.configured = true := by
        rcases preseedSelectOne_none hselect e he with hseen | hall
        · rcases h.seen e he hseen with hbusy | ⟨host', hhost', hconf⟩
          · cases hbusy
          · rw [hdev, hhost] at hhost'
            rwa [Option.some.inj hhost']
        · exact hall host (hdev ▸ hhost)
      have hserved := (hkeeps.served hconf).resolve_left (by simp [hconfig])
      exact hserved.mono (List.Subset.refl _) rfl e.lun hlun hdev
    | some p =>
      obtain ⟨host, es⟩ := p
      obtain ⟨hhost, hconf, hmarks, -⟩ := preseedSelectOne_some hselect
      obtain ⟨f, hf, hdev⟩ := h.known host.devid host hhost
      obtain ⟨host', hhost', hkeeps⟩ := h.hosts f hf
      rw [hdev, hhost] at hhost'
      obtain rfl := Option.some.inj hhost'
      refine .inr (.inr ⟨rfl, f, host, hf, congrArg some hdev.symm, hdev ▸ hhost, hconf,
        hkeeps.mono (List.Subset.refl _) rfl, hmarks.luns.trans h.luns, fun g hg => ?_, h.known,
        fun e he hseen => ?_⟩)
      · obtain ⟨h', hh', hk⟩ := h.hosts g hg
        exact ⟨h', hh', hk.mono (List.Subset.refl _) rfl⟩
      · rcases hmarks.seen e he hseen with he | hdev'
        · rcases h.seen e he hseen with hbusy | hconfigured
          · cases hbusy
          · exact .inr hconfigured
        · exact .inl (congrArg some (hdev'.trans hdev.symm))

section

variable {r : Run} {f : Fcp} {h : Host}

theorem Busy.devid (hb : Busy sys r f h) : h.devid = f.devid := host_spec hb.host

theorem Busy.goto (hb : Busy sys r f h) (state : State) : Busy sys (r.goto state) f h :=
  hb.of_eq rfl rfl (.refl _ _) (List.Subset.refl _) rfl

theorem remove_inv (hb : Busy sys r f h) :
    (removeConfigFile sys r h).1 = .next ∧
      Busy sys ((removeConfigFile sys r h).2.goto .enable) f h := by
  unfold removeConfigFile
  rw [if_neg (by rw [hb.fresh]; decide)]
  exact ⟨rfl, hb.goto _⟩

theorem enable_inv (hb : Busy sys r f h) :
    (enableZfcpHost sys r h).1 = .error ∨
      (enableZfcpHost sys r h).1 = .next ∧
        ∃ h', Busy sys ((enableZfcpHost sys r h).2.goto .addZfcpLuns) f h' ∧ h'.online = true := by
  unfold enableZfcpHost
  split
  case isTrue honline => exact .inr ⟨rfl, h, hb.goto _, honline⟩
  case isFalse hoffline =>
    cases henable : sys.enable h.devid with
    | none => exact .inl rfl
    | some npiv =>
      have hf := hb.keeps.offline (Bool.eq_false_of_not_eq_true hoffline)
      have hnpiv : npiv = sys.npiv f := by
        unfold System.npiv
        rw [hf, ← hb.devid, henable]
        rfl
      refine .inr ⟨rfl, { h with online := true, npiv := npiv }, ?_, rfl⟩
      exact hb.update _ hb.devid hb.fresh (fun _ => hnpiv) (fun honline => by cases honline)
        hb.keeps.quiet rfl rfl rfl (List.Subset.refl _) rfl

theorem add_preseeded_inv (hb : Busy sys r f h) (hscans : ¬ sys.Scans f) {preseed : List Entry}
    (hmarks : Marks f.devid r.preseed preseed) (hactive : r.scsi.active ⊆ a.scsi.active)
    (htracks : Tracks f.devid a)
    (hall : ∀ e ∈ r.preseed, e.lun.fcpDev = f.devid → e.lun ∈ a.luns.keys) (state : State) :
    ∃ h', Busy sys ((({ r with preseed := preseed, scsi := a.scsi } : Run).setHost
        { h with luns := some a.luns, writeLuns := true }).goto state) f h' ∧
      Ready sys ((({ r with preseed := preseed, scsi := a.scsi } : Run).setHost
        { h with luns := some a.luns, writeLuns := true }).goto state) f h' := by
  have hmarked : Busy sys { r with preseed := preseed, scsi := a.scsi } f h :=
    hb.of_eq rfl rfl hmarks hactive rfl
  refine ⟨{ h with luns := some a.luns, writeLuns := true }, ?_, fun _ => ⟨rfl, a.luns, rfl,
    fun lun hlun hdev => ?_⟩⟩
  · exact hmarked.update _ hb.devid hb.fresh hb.keeps.npiv hb.keeps.offline
      (fun h => absurd h hscans) rfl rfl rfl (List.Subset.refl _) rfl
  · obtain ⟨e, he, rfl⟩ := List.mem_map.mp (hb.core.luns ▸ hlun)
    have hmem := hall e he hdev
    exact ⟨hmem, (htracks e.lun hmem).2⟩

theorem add_inv (hb : Busy sys r f h) (honline : h.online = true) :
    (addZfcpLuns sys r h).1 = .error ∨
      (addZfcpLuns sys r h).1 = .next ∧
        ∃ h', Busy sys ((addZfcpLuns sys r h).2.goto .write) f h' ∧
          Ready sys ((addZfcpLuns sys r h).2.goto .write) f h' := by
  have hscans : sys.Scans f ↔ (sys.allowLunScan && h.npiv) = true := by
    rw [hb.keeps.npiv honline]
    exact Iff.rfl
  have hpopulate := active_populate sys h.devid r.scsi
  unfold addZfcpLuns
  simp only
  split
  case isTrue hauto =>
    have hready : ∀ r' h', Ready sys r' f h' := fun _ _ hnot => absurd (hscans.mpr hauto) hnot
    split
    · exact .inr ⟨rfl, h, hb.of_eq rfl rfl (.refl _ _) hpopulate rfl, hready _ _⟩
    · refine .inr ⟨rfl, { h with luns := some (lunTreePopulate sys h.devid
          (lunTreePopulate sys h.devid r.scsi).2).1 }, ?_, hready _ _⟩
      exact hb.update _ hb.devid hb.fresh hb.keeps.npiv hb.keeps.offline hb.keeps.quiet rfl rfl
        rfl (List.Subset.trans hpopulate (active_populate sys h.devid _)) rfl
  case isFalse hauto =>
    split
    case isTrue => exact .inl rfl
    case isFalse herr =>
      have htracks : Tracks h.devid ⟨(lunTreePopulate sys h.devid r.scsi).1,
          (lunTreePopulate sys h.devid r.scsi).2, false⟩ :=
        fun lun hlun => (mem_populate h.devid r.scsi lun).mp hlun
      obtain ⟨hgrows, hall⟩ := preseedAddLuns_spec r.preseed htracks
        (Bool.eq_false_of_not_eq_true herr)
      obtain ⟨hmarks, -⟩ := preseedAddLuns_marks sys h.devid r.preseed
        ⟨(lunTreePopulate sys h.devid r.scsi).1, (lunTreePopulate sys h.devid r.scsi).2, false⟩
      simp only
      split
      · exact .inl rfl
      · refine .inr ⟨rfl, ?_⟩
        refine add_preseeded_inv hb (mt hscans.mp hauto) (hb.devid ▸ hmarks)
          (List.Subset.trans hpopulate hgrows.active) (hb.devid ▸ hgrows.tracks) ?_ .write
        exact fun e he hdev => hall e he (hdev.trans hb.devid.symm)

theorem write_inv (hb : Busy sys r f h) (hready : Ready sys r f h) :
    (writeConfigFile sys r h).1 = .error ∨
      (writeConfigFile sys r h).1 = .next ∧
        Core sys ((writeConfigFile sys r h).2.goto .selectZfcpHost) none := by
  unfold writeConfigFile
  split
  case isTrue => exact .inl rfl
  case isFalse =>
    refine .inr ⟨rfl, ?_⟩
    have hserved : Served sys ({ r.setHost { h with configured := true } with
        files := Function.update r.files h.devid (some (configLines h)) } : Run) f := by
      intro lun hlun hdev
      have hfile : Function.update r.files h.devid (some (configLines h)) f.devid =
          some (configLines h) := by
        rw [hb.devid, Function.update_self]
      unfold Outcome
      split
      case isTrue hscans =>
        refine hfile.trans (congrArg some ?_)
        unfold configLines
        rw [hb.keeps.quiet hscans]
        rfl
      case isFalse hscans =>
        obtain ⟨hwrite, luns, hluns, hall⟩ := hready hscans
        obtain ⟨hmem, hactive⟩ := hall lun hlun hdev
        refine ⟨hactive, configLines h, hfile, ?_⟩
        unfold configLines
        rw [if_pos hwrite, hluns]
        exact List.mem_map_of_mem hmem
    have hkeeps : Keeps sys (({ r.setHost { h with configured := true } with
        files := Function.update r.files h.devid (some (configLines h)) } : Run).goto
          .selectZfcpHost) f
        { h with configured := true } :=
      ⟨hb.keeps.npiv, hb.keeps.offline, hb.keeps.quiet, fun _ =>
        .inr (hserved.mono (List.Subset.refl _) rfl)⟩
    refine (hb.setHost { h with configured := true } hb.devid ?_ ?_ ?_ ?_ hkeeps (.inr rfl)).2
    · rfl
    · rfl
    · exact List.Subset.refl _
    · exact fun devid hne => Function.update_of_ne (hb.devid ▸ hne) _ _

end

/-! ## Runs -/

section

variable {r : Run}

theorem withSelected_eq (hb : Busy sys r f h) (act : Run → Host → Wanted × Run) :
    withSelected act r = act r h := by
  unfold withSelected
  rw [hb.selected, Option.bind_some, hb.host]

theorem step_eq (hrun : ¬ Halted r.state) :
    step sys r = (perform sys r).2.goto (transition r.state (perform sys r).1) := by
  unfold step
  rw [if_neg hrun]
  rfl

/-- One step, in any of the states. -/
theorem step_inv (h : Inv sys r) : Inv sys (step sys r) := by
  by_cases hhalted : Halted r.state
  · unfold step
    rwa [if_pos hhalted]
  · rw [step_eq hhalted]
    unfold perform
    unfold Inv at h
    cases hstate : r.state with
    | detectZfcpHosts =>
      rcases detect_inv sys r with hw | ⟨hw, hfinal⟩ | ⟨hw, hhosts⟩
      · simp only [hw]
        trivial
      · simp only [hw]
        exact hfinal
      · simp only [hw]
        exact hhosts
    | preseed =>
      rw [hstate] at h
      rcases preseed_inv h with hw | ⟨hw, hcore⟩
      · simp only [hw]
        trivial
      · simp only [hw]
        exact hcore
    | selectZfcpHost =>
      rw [hstate] at h
      rcases select_inv h with hw | ⟨hw, hfinal⟩ | ⟨hw, hbusy⟩
      · simp only [hw]
        trivial
      · simp only [hw]
        exact hfinal
      · simp only [hw]
        exact hbusy
    | removeConfig =>
      rw [hstate] at h
      obtain ⟨f, host, hb⟩ := h
      obtain ⟨hw, hbusy⟩ := remove_inv hb
      simp only [withSelected_eq hb, hw]
      exact ⟨f, host, hbusy⟩
    | enable =>
      rw [hstate] at h
      obtain ⟨f, host, hb⟩ := h
      simp only [withSelected_eq hb]
      rcases enable_inv hb with hw | ⟨hw, host', hbusy⟩
      · simp only [hw]
        trivial
      · simp only [hw]
        exact ⟨f, host', hbusy⟩
    | addZfcpLuns =>
      rw [hstate] at h
      obtain ⟨f, host, hb, honline⟩ := h
      simp only [withSelected_eq hb]
      rcases add_inv hb honline with hw | ⟨hw, host', hbusy⟩
      · simp only [hw]
        trivial
      · simp only [hw]
        exact ⟨f, host', hbusy⟩
    | write =>
      rw [hstate] at h
      obtain ⟨f, host, hb, hready⟩ := h
      simp only [withSelected_eq hb]
      rcases write_inv hb hready with hw | ⟨hw, hcore⟩
      · simp only [hw]
        trivial
      · simp only [hw]
        exact hcore
    | backup => exact absurd (.inl hstate) hhalted
    | error => trivial
    | finish => trivial

theorem runs_inv (sys : System) (n : ℕ) : Inv sys (runs sys n) := by
  induction n with
  | zero => trivial
  | succ n ih =>
    unfold runs at ih ⊢
    rw [Function.iterate_succ_apply']
    exact step_inv ih

end

/-! ## The end -/

/-- How far it is to the next selection. The states outside the circle are not counted. -/
def rank : State → Option ℕ
  | .selectZfcpHost => some 0
  | .write => some 1
  | .addZfcpLuns => some 2
  | .enable => some 3
  | .removeConfig => some 4
  | _ => none

theorem rank_transition {state : State} (hrank : rank state = some (k + 1)) (w : Wanted) :
    Halted (transition state w) ∨ ∃ k', rank (transition state w) = some k' ∧ k' < k + 1 := by
  cases state <;> cases hrank <;> cases w <;> simp [transition, rank, Halted]

theorem rank_select (w : Wanted) :
    Halted (transition .selectZfcpHost w) ∨
      w = .next ∧ rank (transition .selectZfcpHost w) = some 4 := by
  cases w <;> simp [transition, rank, Halted]

section

variable {r : Run}

theorem withSelected_unseen {act : Run → Host → Wanted × Run}
    (h : ∀ host, unseen (act r host).2.preseed ≤ unseen r.preseed) :
    unseen (withSelected act r).2.preseed ≤ unseen r.preseed := by
  unfold withSelected
  cases r.selected.bind r.host with
  | none => exact le_rfl
  | some host => exact h host

theorem removeConfigFile_preseed (host : Host) :
    (removeConfigFile sys r host).2.preseed = r.preseed := by
  unfold removeConfigFile
  split
  · split <;> rfl
  · rfl

theorem enableZfcpHost_preseed (host : Host) :
    (enableZfcpHost sys r host).2.preseed = r.preseed := by
  unfold enableZfcpHost
  split
  · rfl
  · split <;> rfl

theorem writeConfigFile_preseed (host : Host) :
    (writeConfigFile sys r host).2.preseed = r.preseed := by
  unfold writeConfigFile
  split <;> rfl

theorem addZfcpLuns_unseen (host : Host) :
    unseen (addZfcpLuns sys r host).2.preseed ≤ unseen r.preseed := by
  unfold addZfcpLuns
  simp only
  split
  · split <;> exact le_rfl
  · split <;> exact (preseedAddLuns_marks sys _ _ _).2

theorem perform_unseen (sys : System) (hrank : rank r.state = some (k + 1)) :
    unseen (perform sys r).2.preseed ≤ unseen r.preseed := by
  unfold perform
  cases hstate : r.state with
  | removeConfig =>
    exact withSelected_unseen fun host => (congrArg unseen (removeConfigFile_preseed host)).le
  | enable =>
    exact withSelected_unseen fun host => (congrArg unseen (enableZfcpHost_preseed host)).le
  | addZfcpLuns => exact withSelected_unseen addZfcpLuns_unseen
  | write =>
    exact withSelected_unseen fun host => (congrArg unseen (writeConfigFile_preseed host)).le
  | selectZfcpHost =>
    rw [hstate] at hrank
    cases hrank
  | detectZfcpHosts | preseed | backup | error | finish => simp [hstate, rank] at hrank

theorem selectPreseeded_unseen (h : (selectPreseeded r).1 = .next) :
    unseen (selectPreseeded r).2.preseed < unseen r.preseed := by
  unfold selectPreseeded at h ⊢
  split
  case isTrue hnil =>
    rw [if_pos hnil] at h
    cases h
  case isFalse hne =>
    rw [if_neg hne] at h
    cases hselect : preseedSelectOne r r.preseed with
    | none =>
      rw [hselect] at h
      cases h
    | some p => exact (preseedSelectOne_some hselect).2.2.2

/-- A step within the circle: the program ends, or fewer entries are left, or as many and less of
the round. -/
theorem step_rank (sys : System) (hrank : rank r.state = some k) :
    Halted (step sys r).state ∨ ∃ k', rank (step sys r).state = some k' ∧
      5 * unseen (step sys r).preseed + k' < 5 * unseen r.preseed + k := by
  have hrun : ¬ Halted r.state := by
    rintro (h | h | h)
    · rw [h] at hrank
      cases hrank
    · rw [h] at hrank
      cases hrank
    · rw [h] at hrank
      cases hrank
  rw [step_eq hrun]
  cases k with
  | succ k =>
    refine (rank_transition hrank _).imp_right fun ⟨k', hk', hlt⟩ => ⟨k', hk', ?_⟩
    have hunseen := perform_unseen sys hrank
    show 5 * unseen (perform sys r).2.preseed + k' < _
    omega
  | zero =>
    have hstate : r.state = .selectZfcpHost := by
      cases hs : r.state with
      | selectZfcpHost => rfl
      | _ => simp [hs, rank] at hrank
    have hperform : perform sys r = selectPreseeded r := by
      unfold perform
      rw [hstate]
    rw [hperform, hstate]
    refine (rank_select _).imp_right fun ⟨hw, hk'⟩ => ⟨4, hk', ?_⟩
    have hunseen := selectPreseeded_unseen hw
    show 5 * unseen (selectPreseeded r).2.preseed + 4 < _
    omega

theorem circle_halts (sys : System) (m : ℕ) (hrank : rank r.state = some k)
    (hm : 5 * unseen r.preseed + k < m) : ∃ n, Halted ((step sys)^[n] r).state := by
  induction m generalizing r k with
  | zero => omega
  | succ m ih =>
    rcases step_rank sys hrank with hhalted | ⟨k', hk', hlt⟩
    · exact ⟨1, hhalted⟩
    · obtain ⟨n, hn⟩ := ih hk' (by omega)
      exact ⟨n + 1, hn⟩

end

theorem runs_halt (sys : System) : ∃ n, Halted (runs sys n).state := by
  have hdetect : Halted (step sys (start sys)).state ∨
      (step sys (start sys)).state = .preseed := by
    show Halted (transition .detectZfcpHosts (detectZfcpHosts sys (start sys)).1) ∨
      transition .detectZfcpHosts (detectZfcpHosts sys (start sys)).1 = .preseed
    cases (detectZfcpHosts sys (start sys)).1 <;> simp [transition, Halted]
  rcases hdetect with hhalted | hpreseed
  · exact ⟨1, hhalted⟩
  · have hselect : Halted (step sys (step sys (start sys))).state ∨
        rank (step sys (step sys (start sys))).state = some 0 := by
      rw [step_eq (by rw [hpreseed]; decide), hpreseed]
      show Halted (transition .preseed _) ∨ rank (transition .preseed _) = some 0
      cases (perform sys (step sys (start sys))).1 <;> simp [transition, Halted, rank]
    rcases hselect with hhalted | hrank
    · exact ⟨2, hhalted⟩
    · obtain ⟨n, hn⟩ := circle_halts sys _ hrank (Nat.lt_succ_self _)
      exact ⟨n + 2, hn⟩

/-- The program ends, with an error or not. In the end every LUN that was given for an adapter
without a configuration file is active and in the file that the adapter now has, unless the
adapter finds its LUNs by itself; then the file has no LUN. -/
theorem main_finishes (sys : System) :
    (∃ n, (runs sys n).state = .finish ∨ (runs sys n).state = .error) ∧
      ∀ n, (runs sys n).state = .finish → ∀ f ∈ sys.fcps, f.config = false →
        ∀ lun ∈ sys.luns, lun.fcpDev = f.devid →
          if sys.Scans f then (runs sys n).files f.devid = some []
          else lun ∈ (runs sys n).scsi.active ∧
            ∃ lines, (runs sys n).files f.devid = some lines ∧
              zfcpLunToStr lun.wwpn lun.lun ∈ lines := by
  constructor
  · obtain ⟨n, hbackup | herror | hfinish⟩ := runs_halt sys
    · have hinv := runs_inv sys n
      unfold Inv at hinv
      rw [hbackup] at hinv
      exact hinv.elim
    · exact ⟨n, .inr herror⟩
    · exact ⟨n, .inl hfinish⟩
  · intro n hfinish f hf hconfig lun hlun hdev
    have hinv := runs_inv sys n
    unfold Inv at hinv
    rw [hfinish] at hinv
    exact hinv f hf hconfig lun hlun hdev

/-! ## An adapter that scans -/

def scanningFcp : Fcp where
  devid := ⟨0, 0, 0xf100⟩
  online := true
  npiv := true
  config := false

def missingLun : ZfcpLunDevid := ⟨⟨0, 0, 0xf100⟩, 0x500507630300c562, 0x4010403200000000⟩

/-- The adapter finds its LUNs by itself, and the LUN of the entry is not among them. -/
def scanningSystem : System where
  lone := false
  devices := .entries [scanningFcp] (by simp)
  allowLunScan := true
  value := "0.0.f100:0x500507630300c562:0x4010403200000000"
  preseeded := by decide
  removal := fun _ => .kept
  enable := fun _ => some true
  lunAdd := fun _ => true
  scsi := []
  appeared := fun _ => []
  fopen := fun _ => true

theorem scanningSystem_run : (runs scanningSystem 8).state = .finish ∧
    missingLun ∈ scanningSystem.luns ∧ missingLun.fcpDev = scanningFcp.devid ∧
      scanningFcp ∈ scanningSystem.fcps ∧ scanningFcp.config = false ∧
        missingLun ∉ (runs scanningSystem 8).scsi.active := by
  decide +kernel

end DebianInstaller.Zfcp.Config
