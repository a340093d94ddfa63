import DebianInstaller.Packages.Calls

/-!
# Which resolver calls return

The last of the eleven markers is `1 << 30`. Its third bit does not exist, and
that is the whole of the termination story: `call_returns` shows that every
other call returns, and `recurse_diverges` that this one runs for ever as soon
as it meets a virtual package whose provider fails.
-/

namespace DebianInstaller.Packages

open Search

variable {ι : Type*} [DecidableEq ι]

variable {a i : Nat} {skip : ι → Bool} {used : List (BitVec 32)}

theorem markerOf_third (n : Nat) : markerOf n <<< 2 = 0#32 ↔ n % 11 = 10 := by
  have hall : ∀ k, k < 11 → (BitVec.twoPow 32 (3 * k) <<< 2 = 0#32 ↔ k = 10) := by
    decide
  exact hall (n % 11) (Nat.mod_lt _ (by decide))

omit [DecidableEq ι] in
theorem third_or_permissive {n : Nat} {packages : Packages ι}
    (hn : Marked n packages) {nonExistant : ι → Bool}
    (hu : (∀ p, nonExistant p = true) ∨ (∀ p, nonExistant p = false) ∧ n % 11 ≠ 10) :
    (resolveDependenciesMarker packages).resolver <<< 2 ≠ 0#32 ∨
      ∀ p, nonExistant p = true := by
  rcases hu with hu | ⟨-, hu⟩
  · exact .inr hu
  · refine .inl ?_
    rw [hn.marker.1, Ne, markerOf_third]
    exact hu

section Returns

variable [Fintype ι] {n : Nat} {packages : Packages ι}

theorem special_isSome (hn : Marked n packages) (list : List ι) {nonExistant : ι → Bool}
    (hu : (∀ p, nonExistant p = true) ∨ (∀ p, nonExistant p = false) ∧ n % 11 ≠ 10) :
    ∃ a, resolveDependenciesSpecial packages list
      { strictCheck with checkNonExistant := nonExistant } (Fintype.card ι + 1) =
        some a := by
  obtain ⟨hres, hb, -⟩ := hn.marker
  have hm : ∀ install, Models _ _ (listView (resolveDependenciesMarker packages).table)
      (listData install) := fun install =>
    listAppend_models (resolveDependenciesMarker packages).resolver
      (resolveDependenciesMarker packages).table install nonExistant
      (hu.imp id And.left)
  have hmode : Mode { strictCheck with
      checkNonExistant := nonExistant
      resolver := (resolveDependenciesMarker packages).resolver } start :=
    hu.symm.imp And.left fun hu => ⟨hu, start_noFail⟩
  obtain ⟨⟨w, install⟩, hrun⟩ := resolveRoots_isSome hm hres (markerOf_position n)
    (third_or_permissive hn hu) (Nat.lt_succ_self _) list _ _ []
    (.start hres hb rfl rfl) hmode
  refine ⟨({ resolveDependenciesMarker packages with table := w.table }, install), ?_⟩
  unfold resolveDependenciesSpecial
  simp only [hrun]

theorem markSpecial_isSome (hn : Marked n packages) {s : Check ι}
    (hm : Models { s with resolver := (resolveDependenciesMarker packages).resolver } skip
      (markView (resolveDependenciesMarker packages).table) (fun _ _ => True))
    (hu : (∀ p, s.checkNonExistant p = true) ∨
      (∀ p, s.checkNonExistant p = false) ∧ n % 11 ≠ 10) :
    ∃ a, resolveDependenciesMarkSpecial packages s (Fintype.card ι + 1) = some a := by
  obtain ⟨hres, hb, -⟩ := hn.marker
  have hmode : Mode { s with
      resolver := (resolveDependenciesMarker packages).resolver } start :=
    hu.symm.imp And.left fun hu => ⟨hu, start_noFail⟩
  obtain ⟨w, hrun⟩ := markLoop_isSome hm hres (markerOf_position n)
    (third_or_permissive hn hu) (Nat.lt_succ_self _)
    (resolveDependenciesMarker packages).list _ _
    (.start hres hb (markView_nil _) trivial) hmode
  refine ⟨{ resolveDependenciesMarker packages with table := w.table }, ?_⟩
  unfold resolveDependenciesMarkSpecial
  simp only [hrun]

theorem call_returns {cs : List (Call ι)} (h : After cs used packages) (hc : cs.length % 11 ≠ 10)
    (c : Call ι) : ∃ packages', c.Returns packages packages' := by
  have hn := h.marked
  cases c with
  | resolveDependencies list | resolveDependenciesArray list =>
      obtain ⟨a, ha⟩ := special_isSome hn list (.inr ⟨fun _ => rfl, hc⟩)
      exact ⟨a.1, _, Option.map_eq_some_iff.mpr ⟨a, ha, rfl⟩⟩
  | resolveDependenciesArrayPermissive list =>
      obtain ⟨a, ha⟩ := special_isSome hn list (.inl fun _ => rfl)
      exact ⟨a.1, _, Option.map_eq_some_iff.mpr ⟨a, ha, rfl⟩⟩
  | resolveDependenciesMark =>
      obtain ⟨a, ha⟩ := markSpecial_isSome hn (mark_models _ _)
        (.inr ⟨fun _ => rfl, hc⟩)
      exact ⟨a, _, ha⟩
  | resolveDependenciesMarkAnna subarchitecture kernel =>
      obtain ⟨a, ha⟩ := markSpecial_isSome hn
        (anna_models _ subarchitecture kernel _) (.inl fun _ => rfl)
      exact ⟨a, _, ha⟩

end Returns

/-- A virtual package whose provider fails is searched for ever if the marker
has no third bit. -/
theorem recurse_diverges {r : Check ι} {view : List ι → ι → Package ι} {D : List ι → List ι → Prop}
    (hm : Models r skip view D) (hr : r.resolver = BitVec.twoPow 32 i) (hi : i < 31)
    (hz : r.resolver <<< 2 = 0#32) (hstrict : ∀ p, r.checkNonExistant p = false) {p : ι}
    (hp : (view [] p).type = .virtualPackage) {d : PackageDependency ι}
    (hd : chooseProvide r (view []) p = some d) {w : Work ι} {st : St ι} (h : Rel r view D w st)
    (hun : st.mark p = .unseen)
    (hfail : ∀ fuel st', visit (graphOf r skip view) fuel d.ptr (st.set p .okay) ≠
      some (true, st')) : ∀ fuel dep, resolveDependenciesRecurse r fuel p dep w = none := by
  have hu : (∀ q, skip q = false) ∧ ∀ log q, chooseProvide r (view log) q =
      chooseProvide r (view []) q := by
    rcases hm.uniform with hu | ⟨-, hu⟩
    · exact absurd (hstrict p) (by rw [hu p]; decide)
    · exact hu
  intro fuel dep
  cases fuel with
  | zero => rw [resolveDependenciesRecurse]
  | succ fuel =>
      have henter : Rel r view D (w.mark p (· ||| r.resolver ||| (r.resolver <<< 1)))
          (st.set p .okay) := h.set (markOf_enter hr hi)
      have hclear := henter.same (p := p)
        (f := clearTried r
          ((w.mark p (· ||| r.resolver ||| (r.resolver <<< 1))).table p).depends)
        fun x => by
          rw [clearTried_eq]
          split
          · exact markOf_clearTried hr
          · rfl
      have hunseen : (w.table p).resolver &&& r.resolver = 0#32 :=
        (markOf_eq_unseen_iff hr).mp (by rw [h.mark, hun])
      rw [resolveDependenciesRecurse, if_neg (by simpa using hunseen)]
      simp only [strip_type henter.strip, St.set_log, hm.type, hp]
      rw [provideLoop, bestProvide_clear hm henter.strip, St.set_log, hu.2, hd]
      simp only []
      rw [hm.checkReal _ _ d _ _ hclear.strip, hu.1]
      simp only [Bool.false_eq_true, if_false]
      rcases (resolveDependenciesRecurse_sim hm hr hi fuel d.ptr dep _ _ hclear
        (.inl hstrict)).cases with ⟨ha, -⟩ | ⟨st₁, ha, -, -⟩ | ⟨b, w₁, st₁, ha, hv, hrel⟩
      · rw [ha]
      · rw [ha]
      · rw [ha]
        cases b with
        | true => exact absurd hv (hfail fuel st₁)
        | false =>
            have hf : st₁.mark d.ptr = .failed := by
              simpa using (visit_visited _ fuel d.ptr _ false st₁ hv).answer
            simp only []
            rw [provideLoop_stuck hm hr hz hu hd _ _ st₁
              (hrel.same fun x => markOf_setTried hr) hf]

/-! ## The bits of the `n`-th call -/

/-- The three bits a call uses on every package. -/
def markerBits (m : BitVec 32) : List (BitVec 32) := [m, m <<< 1, m <<< 2]

/-- The bits exist, and none of them is in use. -/
def MarkersGood (used : List (BitVec 32)) (m : BitVec 32) : Prop :=
  (∀ b ∈ markerBits m, b ≠ 0#32) ∧ (markerBits m).Nodup ∧
    ∀ m' ∈ used, ∀ b ∈ markerBits m, b ∉ markerBits m'

theorem twoPow_inj {b : Nat} (ha : a < 32) : BitVec.twoPow 32 a = BitVec.twoPow 32 b ↔ a = b := by
  refine ⟨fun h => ?_, fun h => by rw [h]⟩
  have hbit := congrArg (BitVec.getLsbD · a) h
  simp only [BitVec.getLsbD_twoPow] at hbit
  simp [ha] at hbit
  omega

theorem twoPow_ne_zero (ha : a < 32) : BitVec.twoPow 32 a ≠ 0#32 := by
  intro h
  have hbit := congrArg (BitVec.getLsbD · a) h
  simp [ha] at hbit

theorem mem_markerBits {b : BitVec 32} :
    b ∈ markerBits (BitVec.twoPow 32 i) ↔ ∃ t, t < 3 ∧ b = BitVec.twoPow 32 (i + t) := by
  simp only [markerBits, twoPow_shiftLeft, List.mem_cons, List.not_mem_nil, or_false]
  refine ⟨?_, ?_⟩
  · rintro (rfl | rfl | rfl)
    exacts [⟨0, by omega, rfl⟩, ⟨1, by omega, rfl⟩, ⟨2, by omega, rfl⟩]
  · rintro ⟨t, ht, rfl⟩
    obtain rfl | rfl | rfl : t = 0 ∨ t = 1 ∨ t = 2 := by omega
    exacts [.inl rfl, .inr (.inl rfl), .inr (.inr rfl)]

theorem markersGood_position {k : Nat} (hk : k < 11) :
    MarkersGood ((List.range k).map fun j => BitVec.twoPow 32 (3 * j))
      (BitVec.twoPow 32 (3 * k)) ↔ k ≠ 10 := by
  refine ⟨?_, fun hk => ⟨?_, ?_, ?_⟩⟩
  · rintro ⟨h, -, -⟩ rfl
    exact h _ (mem_markerBits.mpr ⟨2, by omega, rfl⟩) (by decide)
  · intro b hb
    obtain ⟨t, ht, rfl⟩ := mem_markerBits.mp hb
    exact twoPow_ne_zero (by omega)
  · simp only [markerBits, twoPow_shiftLeft]
    have h1 := twoPow_inj (a := 3 * k) (b := 3 * k + 1) (by omega)
    have h2 := twoPow_inj (a := 3 * k) (b := 3 * k + 2) (by omega)
    have h3 := twoPow_inj (a := 3 * k + 1) (b := 3 * k + 2) (by omega)
    simp [h1, h2, h3]
  · intro m' hm' b hb hb'
    obtain ⟨j, hj, rfl⟩ := List.mem_map.mp hm'
    obtain ⟨t, ht, rfl⟩ := mem_markerBits.mp hb
    obtain ⟨t', ht', he⟩ := mem_markerBits.mp hb'
    have := (twoPow_inj (by omega)).mp he
    have := List.mem_range.mp hj
    omega
theorem markersGood_iff {cs : List (Call ι)} {used : List (BitVec 32)}
    {packages : Packages ι} (h : After cs used packages) :
    MarkersGood (if resets packages then [] else used)
      (resolveDependenciesMarker packages).resolver ↔ cs.length % 11 ≠ 10 := by
  rw [h.used, h.marked.marker.1, markerOf]
  exact markersGood_position (Nat.mod_lt _ (by decide))

/-- The next call returns on fresh bits exactly if its number is not a multiple
of eleven. -/
theorem call_returns_on_fresh_bits_iff [Fintype ι] {cs : List (Call ι)}
    {used : List (BitVec 32)} {packages : Packages ι} (h : After cs used packages)
    (c : Call ι) :
    ((∃ packages', c.Returns packages packages') ∧
      MarkersGood (if resets packages then [] else used)
        (resolveDependenciesMarker packages).resolver) ↔ ¬ 11 ∣ cs.length + 1 := by
  have hdvd : ¬ 11 ∣ cs.length + 1 ↔ cs.length % 11 ≠ 10 := by omega
  rw [hdvd, markersGood_iff h]
  exact ⟨And.right, fun hc => ⟨call_returns h hc c, hc⟩⟩

/-! ## The eleventh call

A virtual package `0` with the one provider `1`, which depends on the missing
package `2`. -/

/-- The packages as they were read. -/
def brokenProvider : Packages (Fin 3) where
  table
    | 0 => { type := .virtualPackage, depends := [⟨.reverseProvides, 1⟩] }
    | 1 => { type := .realPackage, depends := [⟨.provides, 0⟩, ⟨.depends, 2⟩] }
    | 2 => {}
  list := [1]
  resolver := 0#32

theorem brokenProvider_after : After [] [] brokenProvider :=
  .read rfl (by decide)

theorem brokenProvider_first_call_returns :
    (∃ packages', (Call.resolveDependencies [0]).Returns brokenProvider packages') ∧
      MarkersGood [] 1#32 :=
  (call_returns_on_fresh_bits_iff brokenProvider_after _).mpr (by decide)

theorem after_empty_calls {packages : Packages ι} (hres : packages.resolver = 0#32)
    (htable : ∀ p, (packages.table p).resolver = 0#32) (n : Nat) :
    ∃ used m, After (List.replicate n (.resolveDependencies [])) used
      { packages with resolver := m } := by
  induction n with
  | zero => exact ⟨[], packages.resolver, .read hres htable⟩
  | succ n ih =>
      obtain ⟨used, m, h⟩ := ih
      have hreset : (fun p => { packages.table p with resolver := 0#32 }) =
          packages.table := by
        funext p
        rw [← htable p]
      have hmove : ∃ m', resolveDependenciesMarker { packages with resolver := m } =
          { packages with resolver := m' } := by
        unfold resolveDependenciesMarker
        split
        · exact ⟨_, rfl⟩
        · split
          · exact ⟨1#32, by simp only [hreset]⟩
          · exact ⟨_, rfl⟩
      obtain ⟨m', hm'⟩ := hmove
      rw [List.replicate_succ']
      refine ⟨_, m', h.call ⟨0, ?_⟩⟩
      show (resolveDependenciesSpecial { packages with resolver := m } [] strictCheck 0).map
        (·.1) = _
      unfold resolveDependenciesSpecial
      rw [hm']
      rfl

theorem brokenProvider_fails {r : Check (Fin 3)} (hr : ∀ p, r.checkNonExistant p = false)
    {fuel : Nat} {st st' : St (Fin 3)} (h1 : st.mark 1 = .unseen)
    (h2 : st.mark 2 = .unseen) :
    visit (graphOf r (fun _ => false) (listView brokenProvider.table)) fuel 1 st ≠
      some (true, st') := by
  intro hv
  have hdead : (graphOf r (fun _ => false)
      (listView brokenProvider.table)).dead 2 = true := by
    simp [graphOf, hr, listView, strip, brokenProvider]
  cases fuel with
  | zero => cases hv
  | succ fuel =>
      rcases visit_cases hv with ⟨hs, -, -⟩ | ⟨-, -, hf, -⟩ | ⟨-, -, mid, hall, -⟩
      · exact hs h1
      · cases hf
      · rw [show (graphOf r (fun _ => false) (listView brokenProvider.table)).next
          st.log 1 = [2] from rfl, visitAll] at hall
        cases fuel with
        | zero => cases hall
        | succ fuel =>
            rw [visit_dead (by rw [St.set_mark_of_ne _ _ (by decide), h2]) hdead] at hall
            cases hall

theorem brokenProvider_diverges {cs : List (Call (Fin 3))} {packages : Packages (Fin 3)}
    (h : After cs used packages) (htable : packages.table = brokenProvider.table)
    (hn : cs.length % 11 = 10) :
    ¬ ∃ packages', (Call.resolveDependencies [0]).Returns packages packages' := by
  rintro ⟨packages', fuel, hrun⟩
  obtain ⟨hres, hb, -⟩ := h.marked.marker
  have hview : listView (resolveDependenciesMarker packages).table =
      listView brokenProvider.table := by
    rw [← htable]
    exact funext fun _ => strip_marker packages
  have hm := listAppend_models (resolveDependenciesMarker packages).resolver
    (resolveDependenciesMarker packages).table [] checkNonExistant (.inr fun _ => rfl)
  have hstart : Rel { strictCheck with
      resolver := (resolveDependenciesMarker packages).resolver }
      (listView (resolveDependenciesMarker packages).table) (listData [])
      ⟨(resolveDependenciesMarker packages).table, []⟩ start := .start hres hb rfl rfl
  rw [hview] at hm hstart
  have hz : (resolveDependenciesMarker packages).resolver <<< 2 = 0#32 := by
    rw [hres, markerOf_third]
    exact hn
  have hdiv := recurse_diverges (p := 0) (d := ⟨.reverseProvides, 1⟩) hm hres
    (markerOf_position _) hz (fun _ => rfl) rfl rfl hstart rfl
    (fun fuel st' => brokenProvider_fails (fun _ => rfl) rfl rfl) fuel none
  change Option.map _ (resolveDependenciesSpecial packages [0] strictCheck fuel) = _ at hrun
  unfold resolveDependenciesSpecial at hrun
  simp only [resolveRoots, show resolveDependenciesRecurse { strictCheck with
    resolver := (resolveDependenciesMarker packages).resolver } fuel 0 none
    ⟨(resolveDependenciesMarker packages).table, []⟩ = none from hdiv] at hrun
  cases hrun

/-- Ten calls that do nothing, and the eleventh never returns. -/
theorem eleventh_call_diverges : ∃ cs used packages,
    After cs used packages ∧ packages.table = brokenProvider.table ∧ cs.length = 10 ∧
      ¬ MarkersGood (if resets packages then [] else used)
        (resolveDependenciesMarker packages).resolver ∧
      ¬ ∃ packages', (Call.resolveDependencies [0]).Returns packages packages' := by
  obtain ⟨used, m, h⟩ := @after_empty_calls _ _ brokenProvider rfl (by decide) 10
  refine ⟨_, used, _, h, rfl, rfl, ?_, brokenProvider_diverges h rfl (by decide)⟩
  rw [markersGood_iff h]
  decide

end DebianInstaller.Packages
