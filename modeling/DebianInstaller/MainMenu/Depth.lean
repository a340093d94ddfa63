import DebianInstaller.MainMenu.Safety

/-!
# The depth of the recursion

`di_config_package_depth` counts the calls for `Depends` entries that have not returned. It
goes up before the call and down behind it, except where it passes the limit: there the
function returns and the counter stays one too high. The counter is never set back, so
every dependency loop takes one level away from all later calls, until none is left and
every package with a dependency fails.

Where the chains of dependencies through packages that are not installed are short enough,
every call returns, the limit is never passed, and the counter is what it was.
-/

namespace DebianInstaller.MainMenu

variable {ι : Type}

variable {s s' : MenuState ι} {α : Type}

/-! ## Chains of dependencies -/

/-- No chain of more than `n` counted calls starts at a package, and none is endless: of a
real package the `Depends` entries whose targets are not installed are counted, and all
entries of a virtual package may be followed, unless a provider is installed. -/
inductive Shallow (t : ι → Package ι) (status : ι → PackageStatus) : ℕ → ι → Prop where
  | nonExistent {n : ℕ} {p : ι} : (t p).type = .nonExistent → Shallow t status n p
  | provided {n : ℕ} {v : ι} : (t v).type = .virtualPackage → Provided t status v →
      (∀ d ∈ (t v).depends, d.type = .depends → status d.ptr ≠ .installed →
        Shallow t status n d.ptr) → Shallow t status n v
  | virtual {n : ℕ} {v : ι} : (t v).type = .virtualPackage →
      (∀ d ∈ (t v).depends, Shallow t status n d.ptr) → Shallow t status n v
  | leaf {n : ℕ} {p : ι} : (t p).type = .realPackage →
      (∀ d ∈ (t p).depends, d.type = .depends → status d.ptr = .installed) → Shallow t status n p
  | real {n : ℕ} {p : ι} : (t p).type = .realPackage →
      (∀ d ∈ (t p).depends, d.type = .depends → status d.ptr ≠ .installed →
        Shallow t status n d.ptr) → Shallow t status (n + 1) p

/-- The counter is what it was, and the limit was not passed. -/
structure Kept (s s' : MenuState ι) : Prop where
  depth : s'.depth = s.depth
  notDeep : ∀ p, .deep p ∈ s'.log → .deep p ∈ s.log

theorem Kept.refl (s : MenuState ι) : Kept s s := ⟨rfl, fun _ h => h⟩

theorem Kept.trans {s'' : MenuState ι} (h : Kept s s') (h' : Kept s' s'') : Kept s s'' :=
  ⟨h'.depth.trans h.depth, fun p hp => h.notDeep p (h'.notDeep p hp)⟩

theorem kept_setStatus [DecidableEq ι] (s : MenuState ι) (p : ι) (status : PackageStatus) :
    Kept s (s.setStatus p status) :=
  ⟨rfl, fun _ h => h⟩

/-- A call returns, and nothing is uninstalled unless it stops its caller. -/
structure Returned (s : MenuState ι) (r : Option Int × MenuState ι) : Prop where
  returns : r.1 ≠ none
  kept : Kept s r.2
  stays : ¬ stops r.1 → Stays s r.2

/-- The same of a loop. -/
structure Passed {α : Type} (s : MenuState ι) (r : Flow α × MenuState ι) : Prop where
  kept : Kept s r.2
  done : ∀ ret, r.1 = .done ret → ret ≠ none ∧ stops ret
  next : ∀ a, r.1 = .next a → Stays s r.2

theorem Passed.of_kept {r : Flow α × MenuState ι} (h : Passed s' r) (hkept : Kept s s')
    (hstays : Stays s s') : Passed s r :=
  ⟨hkept.trans h.kept, h.done, fun a ha => hstays.trans (h.next a ha)⟩

theorem passed_next (hkept : Kept s s') (hstays : Stays s s') (a : α) : Passed s (.next a, s') :=
  ⟨hkept, nofun, fun _ _ => hstays⟩

theorem Returned.passed {r : Option Int × MenuState ι} (h : Returned s r) (hstops : stops r.1) :
    Passed (α := α) s (.done r.1, r.2) := by
  refine ⟨h.kept, fun ret hret => ?_, nofun⟩
  cases hret
  exact ⟨h.returns, hstops⟩

/-- The states with at least the installed packages of `status`, and `n` levels left. -/
structure Room (status : ι → PackageStatus) (n : ℕ) (s : MenuState ι) : Prop where
  installed : ∀ q, status q = .installed → s.status q = .installed
  depth : s.depth + n ≤ depthLimit

theorem Room.of_kept {status : ι → PackageStatus} {n : ℕ} (h : Room status n s) (hkept : Kept s s')
    (hstays : Stays s s') : Room status n s' :=
  ⟨fun q hq => hstays q (h.installed q hq), hkept.depth ▸ h.depth⟩

/-- A call for `p` returns whenever `n` levels are left. -/
def Returns (call : Call ι) (status : ι → PackageStatus) (n : ℕ) (p : ι) : Prop :=
  ∀ s, Room status n s → Returned s (call p s)

/-! ## One call

A loop over dependencies leaves the counter as it was if every call in it does. -/

section Calls

variable [DecidableEq ι] {t : ι → Package ι} {out : Outside ι} {call : Call ι}
  {status : ι → PackageStatus} {n : ℕ}

theorem collectProviders_passed (ds : List (PackageDependency ι)) (a : Providing ι)
    (s : MenuState ι) (hs : Room status n s)
    (hcall : ∀ d ∈ ds, d.type = .depends → status d.ptr ≠ .installed →
      Returns call status n d.ptr) :
    Passed s (collectProviders t out call ds a s) := by
  induction ds generalizing a s with
  | nil => exact passed_next (Kept.refl s) (Stays.refl s) a
  | cons d ds ih =>
      have ih := fun a s hs => ih a s hs fun d' hd' => hcall d' (List.mem_cons_of_mem _ hd')
      rw [collectProviders]
      split
      · next htype =>
          split
          · next hstatus =>
              have hd := hcall d List.mem_cons_self htype
                (fun h => hstatus (hs.installed _ h)) s hs
              dsimp only
              split
              · next hstops => exact hd.passed hstops
              · next hstops =>
                  exact (ih a _ (hs.of_kept hd.kept (hd.stays hstops))).of_kept hd.kept
                    (hd.stays hstops)
          · exact ih a s hs
      · split
        · exact ih a s hs
        · split
          · exact passed_next (Kept.refl s) (Stays.refl s) _
          · exact ih _ s hs

theorem collectProviders_provided (ds : List (PackageDependency ι)) (a : Providing ι)
    (s : MenuState ι) (hs : Room status n s)
    (hcall : ∀ d ∈ ds, d.type = .depends → status d.ptr ≠ .installed →
      Returns call status n d.ptr)
    (hprov : ∃ d ∈ ds, d.type = .reverseProvides ∧ status d.ptr = .installed) {a' : Providing ι}
    (h : collectProviders t out call ds a s = (.next a', s')) : a'.menuUsed = 0 := by
  induction ds generalizing a s with
  | nil =>
      obtain ⟨d, hd, -⟩ := hprov
      exact absurd hd List.not_mem_nil
  | cons d ds ih =>
      have ih := fun a s hs => ih a s hs fun d' hd' => hcall d' (List.mem_cons_of_mem _ hd')
      have hlater : (d.type = .reverseProvides → status d.ptr ≠ .installed) →
          ∃ d ∈ ds, d.type = .reverseProvides ∧ status d.ptr = .installed := by
        intro hd
        obtain ⟨d', hd', htype, hstatus⟩ := hprov
        rcases List.mem_cons.mp hd' with heq | hmem
        · subst heq
          exact absurd hstatus (hd htype)
        · exact ⟨d', hmem, htype, hstatus⟩
      rw [collectProviders] at h
      split at h
      · next htype =>
          have hother : d.type = .reverseProvides → status d.ptr ≠ .installed := by
            rw [htype]
            intro h
            cases h
          split at h
          · next hstatus =>
              have hd := hcall d List.mem_cons_self htype
                (fun h => hstatus (hs.installed _ h)) s hs
              dsimp only at h
              split at h
              · cases h
              · next hstops =>
                  exact ih a _ (hs.of_kept hd.kept (hd.stays hstops)) (hlater hother) h
          · exact ih a s hs (hlater hother) h
      · split at h
        · next hne => exact ih a s hs (hlater fun htype => absurd htype hne) h
        · split at h
          · cases h
            rfl
          · next hstatus =>
              exact ih _ s hs (hlater fun _ hinst => hstatus (hs.installed _ hinst)) h

omit [DecidableEq ι] in
theorem configureChosen_passed (chosen : Option Text) (ds : List (PackageDependency ι))
    (s : MenuState ι) (hs : Room status n s)
    (hcall : ∀ d ∈ ds, Returns call status n d.ptr) :
    Passed s (configureChosen t out call chosen ds s) := by
  induction ds generalizing s with
  | nil => exact passed_next (Kept.refl s) (Stays.refl s) ()
  | cons d ds ih =>
      have ih := fun s hs => ih s hs fun d' hd' => hcall d' (List.mem_cons_of_mem _ hd')
      have hd := hcall d List.mem_cons_self s hs
      rw [configureChosen]
      split
      · dsimp only
        split
        · next hstops => exact hd.passed hstops
        · next hstops =>
            split
            · exact passed_next hd.kept (hd.stays hstops) ()
            · exact (ih _ (hs.of_kept hd.kept (hd.stays hstops))).of_kept hd.kept
                (hd.stays hstops)
      · exact ih s hs

theorem configureProviders_returned (v : ι) (chosen : Option Text) (s : MenuState ι)
    (hs : Room status n s) (hcall : ∀ d ∈ (t v).depends, Returns call status n d.ptr) :
    Returned s (configureProviders t out call v chosen s) := by
  have h : Passed s (configureChosen t out call chosen (t v).depends s) :=
    configureChosen_passed chosen (t v).depends s hs hcall
  rw [configureProviders]
  split
  · next heq =>
      rw [heq] at h
      obtain ⟨hsome, hstops⟩ := h.done _ rfl
      exact ⟨hsome, h.kept, fun hns => absurd hstops hns⟩
  · next s' heq =>
      rw [heq] at h
      exact ⟨fun h => (by cases h), h.kept.trans (kept_setStatus s' v _),
        fun _ => (h.next _ rfl).trans (stays_setStatus s' v)⟩

omit [DecidableEq ι] in
theorem Returned.of_kept {s s' : MenuState ι} {r : Option Int × MenuState ι}
    (h : Returned s' r) (hkept : Kept s s') (hstays : Stays s s') : Returned s r :=
  ⟨h.returns, hkept.trans h.kept, fun hns => hstays.trans (h.stays hns)⟩

theorem satisfyVirtual_returned (v : ι) (s : MenuState ι) (hs : Room status n s)
    (hcall : ∀ d ∈ (t v).depends, d.type = .depends → status d.ptr ≠ .installed →
      Returns call status n d.ptr)
    (hall : Provided t status v ∨ ∀ d ∈ (t v).depends, Returns call status n d.ptr) :
    Returned s (satisfyVirtual t out call v s) := by
  have h : Passed s (collectProviders t out call (t v).depends {} s) :=
    collectProviders_passed (t v).depends {} s hs hcall
  rw [satisfyVirtual]
  split
  · next heq =>
      rw [heq] at h
      obtain ⟨hsome, hstops⟩ := h.done _ rfl
      exact ⟨hsome, h.kept, fun hns => absurd hstops hns⟩
  · next a s' heq =>
      rw [heq] at h
      have hstays := h.next a rfl
      split
      · next hmenu =>
          rcases hall with hprov | hall
          · have hzero := collectProviders_provided _ _ s hs hcall hprov heq
            omega
          · have hs' := hs.of_kept h.kept hstays
            have hask : Kept s' (s'.ask t out v a).2 := by
              refine ⟨rfl, fun p hp => ?_⟩
              rcases List.mem_append.mp hp with hp | hp
              · exact hp
              · cases List.mem_singleton.mp hp
            split
            · split
              · next heq' =>
                  rw [heq'] at hask
                  refine ⟨fun h => (by cases h), h.kept.trans hask, fun _ => ?_⟩
                  have hstatus : ∀ q, (s'.ask t out v a).2.status q = s'.status q := fun _ => rfl
                  rw [heq'] at hstatus
                  exact fun q hq => (hstatus q).trans (hstays q hq)
              · next heq' =>
                  have hstay : Stays s' (s'.ask t out v a).2 := fun _ hq => hq
                  have hr : Returned (s'.ask t out v a).2 (configureProviders t out call v
                      (s'.ask t out v a).1 (s'.ask t out v a).2) :=
                    configureProviders_returned v _ _ (hs'.of_kept hask hstay) hall
                  rw [heq'] at hr hask hstay
                  exact (hr.of_kept hask hstay).of_kept h.kept hstays
            · exact (configureProviders_returned v none s' hs' hall).of_kept h.kept hstays
      · exact ⟨fun h => (by cases h), h.kept.trans (kept_setStatus s' v _),
          fun _ => hstays.trans (stays_setStatus s' v)⟩

omit [DecidableEq ι] in
theorem configureDepends_passed (p : ι) (ds : List (PackageDependency ι)) (s : MenuState ι)
    (hs : Room status (n + 1) s)
    (hcall : ∀ d ∈ ds, d.type = .depends → status d.ptr ≠ .installed →
      Returns call status n d.ptr) :
    Passed s (configureDepends call p ds s) := by
  induction ds generalizing s with
  | nil => exact passed_next (Kept.refl s) (Stays.refl s) ()
  | cons d ds ih =>
      have ih := fun s hs => ih s hs fun d' hd' => hcall d' (List.mem_cons_of_mem _ hd')
      rw [configureDepends]
      split
      · exact ih s hs
      · next hstatus =>
          split
          · exact ih s hs
          · next htype =>
              have hlimit : s.depth + 1 + n ≤ depthLimit := by
                have := hs.depth
                push_cast at this
                omega
              split
              · next hdeep => omega
              · have hd := hcall d List.mem_cons_self (not_not.mp htype)
                  (fun h => hstatus (hs.installed _ h)) { s with depth := s.depth + 1 }
                  ⟨hs.installed, hlimit⟩
                split
                · next heq =>
                    rw [heq] at hd
                    exact absurd rfl hd.returns
                · next ret s' heq =>
                    rw [heq] at hd
                    have hkept : Kept s { s' with depth := s'.depth - 1 } := by
                      refine ⟨?_, hd.kept.notDeep⟩
                      show s'.depth - 1 = s.depth
                      have : s'.depth = s.depth + 1 := hd.kept.depth
                      omega
                    dsimp only
                    split
                    · next hstops =>
                        refine ⟨hkept, fun _ hret => ?_, fun _ hnext => (by cases hnext)⟩
                        cases hret
                        exact ⟨fun h => (by cases h), hstops⟩
                    · next hstops =>
                        have hstays : Stays s { s' with depth := s'.depth - 1 } := hd.stays hstops
                        exact (ih _ (hs.of_kept hkept hstays)).of_kept hkept hstays

omit [DecidableEq ι] in
theorem configureDepends_leaf (p : ι) (ds : List (PackageDependency ι)) (s : MenuState ι)
    (hds : ∀ d ∈ ds, d.type = .depends → s.status d.ptr = .installed) :
    configureDepends call p ds s = (.next (), s) := by
  induction ds with
  | nil => rfl
  | cons d ds ih =>
      have ih := ih fun d' hd' => hds d' (List.mem_cons_of_mem _ hd')
      rw [configureDepends]
      split
      · exact ih
      · next hstatus =>
          rw [if_pos fun htype => hstatus (hds d List.mem_cons_self htype)]
          exact ih

theorem runConfigure_returned (p : ι) (s : MenuState ι) :
    Returned s (some (runConfigure out p s).1, (runConfigure out p s).2) := by
  have hkept : ∀ st, Kept s (MenuState.setStatus { s with
      runs := s.runs + 1, log := s.log ++ [Event.configured p s.status] } p st) := by
    refine fun st => ⟨rfl, fun q hq => ?_⟩
    rcases List.mem_append.mp hq with hq | hq
    · exact hq
    · cases List.mem_singleton.mp hq
  rw [runConfigure]
  split
  · exact ⟨fun h => (by cases h), hkept _, fun _ => stays_setStatus { s with
      runs := s.runs + 1, log := s.log ++ [Event.configured p s.status] } p⟩
  · split
    · next hbackup =>
        refine ⟨fun h => (by cases h), hkept _, fun hstops => ?_⟩
        exact absurd (.inr (.inr (congrArg some hbackup))) hstops
    · exact ⟨fun h => (by cases h), hkept _, fun hstops => absurd (.inr (.inl rfl)) hstops⟩

theorem configPackage_real {p : ι} (hreal : (t p).type = .realPackage) (s : MenuState ι)
    (h : Passed s (configureDepends call p (t p).depends s)) :
    Returned s (configPackage t out call p s) := by
  rw [configPackage, hreal]
  dsimp only
  split
  · next heq =>
      rw [heq] at h
      obtain ⟨hsome, hstops⟩ := h.done _ rfl
      exact ⟨hsome, h.kept, fun hns => absurd hstops hns⟩
  · next heq =>
      rw [heq] at h
      exact (runConfigure_returned p _).of_kept h.kept (h.next _ rfl)

end Calls

theorem exists_bound {P : α → Prop} {Q : ℕ → α → Prop} (l : List α)
    (h : ∀ a ∈ l, P a → ∃ N, ∀ m ≥ N, Q m a) : ∃ N, ∀ m ≥ N, ∀ a ∈ l, P a → Q m a := by
  induction l with
  | nil => exact ⟨0, fun _ _ a ha => absurd ha List.not_mem_nil⟩
  | cons b l ih =>
      obtain ⟨N, hN⟩ := ih fun a ha => h a (List.mem_cons_of_mem _ ha)
      by_cases hb : P b
      · obtain ⟨M, hM⟩ := h b List.mem_cons_self hb
        refine ⟨max M N, fun m hm => List.forall_mem_cons.mpr ⟨fun _ => hM m ?_, hN m ?_⟩⟩
        · exact le_of_max_le_left hm
        · exact le_of_max_le_right hm
      · exact ⟨N, fun m hm => List.forall_mem_cons.mpr ⟨fun hb' => absurd hb' hb, hN m hm⟩⟩

/-- A call for a package with short chains returns. The bound on the nesting only has to be
large enough. -/
theorem diConfigPackage_returns [DecidableEq ι] {t : ι → Package ι} (out : Outside ι)
    {status : ι → PackageStatus} {n : ℕ} {p : ι} (h : Shallow t status n p) :
    ∃ N, ∀ m ≥ N, Returns (diConfigPackage t out m) status n p := by
  -- one more level of nesting than the entries need
  have hsucc : ∀ (N : ℕ) {P : ℕ → Prop}, (∀ m ≥ N, P (m + 1)) → ∃ N, ∀ m ≥ N, P m := by
    intro N P hP
    refine ⟨N + 1, fun m hm => ?_⟩
    obtain ⟨k, rfl⟩ : ∃ k, m = k + 1 := ⟨m - 1, by omega⟩
    exact hP k (by omega)
  induction h with
  | nonExistent htype =>
      refine hsucc 0 fun m _ s _ => ?_
      show Returned s (configPackage t out _ _ s)
      rw [configPackage, htype]
      exact ⟨fun h => (by cases h), Kept.refl s, fun _ => Stays.refl s⟩
  | provided htype hprov _ ih =>
      obtain ⟨N, hN⟩ := exists_bound (P := fun d => d.type = .depends ∧ status d.ptr ≠ .installed)
        _ fun d hd hP => ih d hd hP.1 hP.2
      refine hsucc N fun m hm s hs => ?_
      show Returned s (configPackage t out _ _ s)
      rw [configPackage, htype]
      exact satisfyVirtual_returned _ s hs (fun d hd h₁ h₂ => hN m hm d hd ⟨h₁, h₂⟩) (.inl hprov)
  | virtual htype _ ih =>
      obtain ⟨N, hN⟩ := exists_bound (P := fun _ => True) _ fun d hd _ => ih d hd
      refine hsucc N fun m hm s hs => ?_
      show Returned s (configPackage t out _ _ s)
      rw [configPackage, htype]
      exact satisfyVirtual_returned _ s hs (fun d hd _ _ => hN m hm d hd trivial)
        (.inr fun d hd => hN m hm d hd trivial)
  | leaf htype hleaf =>
      refine hsucc 0 fun m _ s hs => configPackage_real htype s ?_
      rw [configureDepends_leaf _ _ s fun d hd hdep => hs.installed _ (hleaf d hd hdep)]
      exact passed_next (Kept.refl s) (Stays.refl s) ()
  | real htype _ ih =>
      obtain ⟨N, hN⟩ := exists_bound (P := fun d => d.type = .depends ∧ status d.ptr ≠ .installed)
        _ fun d hd hP => ih d hd hP.1 hP.2
      refine hsucc N fun m hm s hs => configPackage_real htype s ?_
      exact configureDepends_passed _ _ s hs fun d hd h₁ h₂ => hN m hm d hd ⟨h₁, h₂⟩

/-! ## The menu -/

/-- A choice in the menu: the packages as they were read, what happens outside, and the
item. -/
structure MenuCall (ι : Type) where
  table : ι → Package ι
  outside : Outside ι
  item : ι

section Menu

variable [DecidableEq ι]

/-- `do_menu_item`, with the counter as it was left. -/
def doMenuItem (n : ℕ) (c : MenuCall ι) (depth : Int) : Option Int × MenuState ι :=
  diConfigPackage c.table c.outside n c.item
    { status := fun p => (c.table p).status, depth := depth }

/-- The states after each choice, if all calls return. -/
def runMenu (n : ℕ) : Int → List (MenuCall ι) → Option (List (MenuState ι))
  | _, [] => some []
  | depth, c :: cs =>
      match doMenuItem n c depth with
      | (none, _) => none
      | (some _, s) => (runMenu n s.depth cs).map (s :: ·)

/-- Every call returns with the counter at zero, and below the limit all the time, and so
each does what it would do if it were the first. -/
def DepthRestored (calls : List (MenuCall ι)) : Prop :=
  ∃ N, ∀ n ≥ N, runMenu n 0 calls = some (calls.map fun c => (doMenuItem n c 0).2) ∧
    ∀ c ∈ calls, (doMenuItem n c 0).2.depth = 0 ∧ ∀ p, .deep p ∉ (doMenuItem n c 0).2.log

theorem doMenuItem_returns {c : MenuCall ι}
    (h : Shallow c.table (fun p => (c.table p).status) 1000 c.item) :
    ∃ N, ∀ n ≥ N, (doMenuItem n c 0).1 ≠ none ∧ (doMenuItem n c 0).2.depth = 0 ∧
      ∀ p, .deep p ∉ (doMenuItem n c 0).2.log := by
  obtain ⟨N, hN⟩ := diConfigPackage_returns c.outside h
  refine ⟨N, fun n hn => ?_⟩
  have hr := hN n hn { status := fun p => (c.table p).status } ⟨fun _ hq => hq, le_rfl⟩
  exact ⟨hr.returns, hr.kept.depth, fun p hp => absurd (hr.kept.notDeep p hp) List.not_mem_nil⟩

/-- Where no chain of dependencies through packages that are not installed is longer than
the limit, every choice in the menu leaves the counter at zero. -/
theorem runMenu_depthRestored (calls : List (MenuCall ι))
    (h : ∀ c ∈ calls, Shallow c.table (fun p => (c.table p).status) 1000 c.item) :
    DepthRestored calls := by
  obtain ⟨N, hN⟩ := exists_bound (P := fun _ => True) calls fun c hc _ => doMenuItem_returns (h c hc)
  refine ⟨N, fun n hn => ⟨?_, fun c hc => (hN n hn c hc trivial).2⟩⟩
  have hcalls := hN n hn
  clear h hN
  induction calls with
  | nil => rfl
  | cons c cs ih =>
      obtain ⟨hsome, hdepth, -⟩ := hcalls c List.mem_cons_self trivial
      have ih := ih fun c' hc' => hcalls c' (List.mem_cons_of_mem _ hc')
      rw [runMenu, List.map_cons]
      split
      · next heq =>
          rw [heq] at hsome
          exact absurd rfl hsome
      · next s heq =>
          rw [heq] at hdepth ⊢
          rw [show s.depth = 0 from hdepth, ih]
          rfl

end Menu

/-! ## A package that depends on itself -/

/-- One package, which depends on itself. -/
def loopPackages : Unit → Package Unit :=
  fun _ => { type := .realPackage, status := .unpacked, depends := [⟨.depends, ()⟩] }

def loopCall : MenuCall Unit where
  table := loopPackages
  outside := { metaget := fun _ _ => none, udpkg := fun _ _ => exitOk, answer := fun _ => none }
  item := ()

theorem loopPackages_leaks (out : Outside Unit) {k m : ℕ} (hm : k < m) (s : MenuState Unit)
    (hdepth : s.depth = 1000 - k) (hstatus : s.status () ≠ .installed) :
    (diConfigPackage loopPackages out m () s).1 = some (-1) ∧
      (diConfigPackage loopPackages out m () s).2.depth = s.depth + 1 := by
  induction k generalizing m s with
  | zero =>
      obtain ⟨m, rfl⟩ : ∃ m', m = m' + 1 := ⟨m - 1, by omega⟩
      have hlimit : s.depth + 1 > depthLimit := by
        rw [hdepth]
        decide
      have hloop : configureDepends (diConfigPackage loopPackages out m) () [⟨.depends, ()⟩] s =
          (.done (some (-1)), { s with depth := s.depth + 1, log := s.log ++ [.deep ()] }) := by
        rw [configureDepends, if_neg hstatus, if_neg (by simp), if_pos hlimit]
      rw [diConfigPackage, configPackage, show (loopPackages ()).type = .realPackage from rfl,
        show (loopPackages ()).depends = [⟨.depends, ()⟩] from rfl]
      dsimp only
      rw [hloop]
      exact ⟨rfl, rfl⟩
  | succ k ih =>
      obtain ⟨m, rfl⟩ : ∃ m', m = m' + 1 := ⟨m - 1, by omega⟩
      have hlimit : ¬ s.depth + 1 > depthLimit := by
        rw [hdepth, depthLimit]
        push_cast
        omega
      obtain ⟨hret, hleak⟩ := ih (m := m) (by omega) { s with depth := s.depth + 1 }
        (by rw [hdepth]; push_cast; omega) hstatus
      have hloop : configureDepends (diConfigPackage loopPackages out m) () [⟨.depends, ()⟩] s =
          (.done (some (-1)), { (diConfigPackage loopPackages out m ()
            { s with depth := s.depth + 1 }).2 with depth := s.depth + 1 }) := by
        rw [configureDepends, if_neg hstatus, if_neg (by simp), if_neg hlimit]
        cases heq : diConfigPackage loopPackages out m () { s with depth := s.depth + 1 } with
        | mk ret s' =>
            rw [heq] at hret hleak
            cases hret
            dsimp only at hleak ⊢
            rw [if_pos (.inr (.inl rfl)), hleak]
            simp
      rw [diConfigPackage, configPackage, show (loopPackages ()).type = .realPackage from rfl,
        show (loopPackages ()).depends = [⟨.depends, ()⟩] from rfl]
      dsimp only
      rw [hloop]
      exact ⟨rfl, rfl⟩

/-- The loop is noticed, and the counter stays at one. -/
theorem runMenu_leaks_on_loop : ¬ ∀ calls : List (MenuCall Unit), DepthRestored calls := by
  intro h
  obtain ⟨N, hN⟩ := h [loopCall]
  obtain ⟨-, hdepth⟩ := hN (max N 1001) (le_max_left _ _)
  have hzero := (hdepth loopCall List.mem_cons_self).1
  have hleak := (loopPackages_leaks loopCall.outside (k := 1000) (m := max N 1001)
    (Nat.lt_of_lt_of_le (by decide) (le_max_right _ _))
    { status := fun p => (loopPackages p).status } rfl nofun).2
  rw [show (diConfigPackage loopPackages loopCall.outside (max N 1001) ()
    { status := fun p => (loopPackages p).status }).2 = (doMenuItem (max N 1001) loopCall 0).2
    from rfl, hzero] at hleak
  cases hleak

/-- A choice in the menu that goes through a virtual package. -/
theorem runMenu_depthRestored_network :
    DepthRestored [⟨networkPackages, answering none, 0⟩, ⟨networkPackages, answering none, 0⟩] := by
  have hnetcfg : ∀ n, Shallow networkPackages (fun p => (networkPackages p).status) n 2 := by
    refine fun n => .leaf rfl fun d hd hdep => ?_
    rw [List.mem_singleton.mp hd] at hdep
    cases hdep
  have hnetwork : ∀ n, Shallow networkPackages (fun p => (networkPackages p).status) n 1 := by
    refine fun n => .virtual rfl fun d hd => ?_
    rw [List.mem_singleton.mp hd]
    exact hnetcfg n
  have hitem : Shallow networkPackages (fun p => (networkPackages p).status) 1000 0 := by
    refine .real rfl fun d hd _ _ => ?_
    rw [List.mem_singleton.mp hd]
    exact hnetwork 999
  exact runMenu_depthRestored _ (by simpa using hitem)

end DebianInstaller.MainMenu
