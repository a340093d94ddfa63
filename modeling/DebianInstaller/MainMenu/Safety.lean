import DebianInstaller.MainMenu.Config
import Mathlib.Tactic.FinCases

/-!
# What is installed when a package is configured

When `di_config_package` comes to `udpkg --configure` it has gone through the `Depends`
entries of the package, and every call it made there has returned with a value other than
`-1` and `EXIT_BACKUP`. That is meant to say that the target is installed. It does for a
real package. `satisfy_virtual` however also returns when the question was answered with
go-back, when the answer was not the entry of a provider, and when there is no provider,
and the package is configured all the same. Where none of this happens, all `Depends`
entries are met whenever a package is configured.
-/

namespace DebianInstaller.MainMenu

variable {ι : Type}

/-! ## Statements about statuses and events -/

section Statements

variable (t : ι → Package ι)

/-- A provider of `v` is installed. -/
def Provided (status : ι → PackageStatus) (v : ι) : Prop :=
  ∃ d ∈ (t v).depends, d.type = .reverseProvides ∧ status d.ptr = .installed

/-- The target of an entry is installed, or has an installed provider. -/
def Met (status : ι → PackageStatus) (p : ι) : Prop :=
  match (t p).type with
  | .nonExistent => True
  | .realPackage => status p = .installed
  | .virtualPackage => Provided t status p

/-- When a package is configured, its `Depends` entries are met. -/
def Event.Safe : Event ι → Prop
  | .configured p status => ∀ d ∈ (t p).depends, d.type = .depends → Met t status d.ptr
  | _ => True

/-- A real package depends on `v`. -/
def Named (v : ι) : Prop :=
  ∃ p, (t p).type = .realPackage ∧ ∃ d ∈ (t p).depends, d.type = .depends ∧ d.ptr = v

/-- A virtual package that is depended on has a provider. -/
def Provisioned : Prop :=
  ∀ v, (t v).type = .virtualPackage → Named t v →
    ∃ d ∈ (t v).depends, d.type = .reverseProvides ∧ (t d.ptr).type ≠ .nonExistent

/-- A virtual package that is depended on is not marked installed without a provider that
is. -/
def Backed (status : ι → PackageStatus) : Prop :=
  ∀ v, (t v).type = .virtualPackage → Named t v → status v = .installed → Provided t status v

/-- A question was answered, and the first entry with that text is a provider. -/
def Event.Answered (out : Outside ι) : Event ι → Prop
  | .asked v runs _ _ answer =>
      ∃ text d, answer = some text ∧
        (t v).depends.find? (fun d => menuEntry out runs (t d.ptr) = text) = some d ∧
        d.type = .reverseProvides ∧ (t d.ptr).type ≠ .nonExistent
  | _ => True

/-- What a call that goes well leaves of its package. -/
def Settled (s : MenuState ι) (p : ι) : Prop :=
  (t p).type ≠ .nonExistent → s.status p = .installed

/-- Installed packages stay installed. -/
def Stays (s s' : MenuState ι) : Prop :=
  ∀ q, s.status q = .installed → s'.status q = .installed

end Statements

variable {t : ι → Package ι} {out : Outside ι}

theorem Stays.refl (s : MenuState ι) : Stays s s := fun _ h => h

theorem Stays.trans {s s' s'' : MenuState ι} (h : Stays s s') (h' : Stays s' s'') : Stays s s'' :=
  fun q hq => h' q (h q hq)

theorem Stays.provided {s s' : MenuState ι} (h : Stays s s') {v : ι}
    (hv : Provided t s.status v) : Provided t s'.status v := by
  obtain ⟨d, hd, htype, hstatus⟩ := hv
  exact ⟨d, hd, htype, h _ hstatus⟩

theorem Stays.settled {s s' : MenuState ι} (h : Stays s s') {p : ι} (hp : Settled t s p) :
    Settled t s' p :=
  fun htype => h _ (hp htype)

theorem stays_setStatus [DecidableEq ι] (s : MenuState ι) (p : ι) :
    Stays s (s.setStatus p .installed) := by
  intro q hq
  by_cases h : q = p
  · subst h
    exact Function.update_self ..
  · exact (Function.update_of_ne h ..).trans hq

/-! ## The log only grows -/

/-- Nothing is taken out of the log. -/
def Grows (s s' : MenuState ι) : Prop := ∀ e ∈ s.log, e ∈ s'.log

theorem Grows.refl (s : MenuState ι) : Grows s s := fun _ h => h

theorem Grows.trans {s s' s'' : MenuState ι} (h : Grows s s') (h' : Grows s' s'') : Grows s s'' :=
  fun e he => h' e (h e he)

section Log

variable [DecidableEq ι] {call : Call ι} (hcall : ∀ p s, Grows s (call p s).2)

include hcall

theorem collectProviders_grows (ds : List (PackageDependency ι)) (a : Providing ι)
    (s : MenuState ι) : Grows s (collectProviders t out call ds a s).2 := by
  induction ds generalizing a s with
  | nil => exact Grows.refl s
  | cons d ds ih =>
      rw [collectProviders]
      split
      · split
        · dsimp only
          split
          · exact hcall d.ptr s
          · exact (hcall d.ptr s).trans (ih a _)
        · exact ih a s
      · split
        · exact ih a s
        · split
          · exact Grows.refl s
          · exact ih _ s

omit [DecidableEq ι] in
theorem configureChosen_grows (chosen : Option Text) (ds : List (PackageDependency ι))
    (s : MenuState ι) : Grows s (configureChosen t out call chosen ds s).2 := by
  induction ds generalizing s with
  | nil => exact Grows.refl s
  | cons d ds ih =>
      rw [configureChosen]
      split
      · dsimp only
        split
        · exact hcall d.ptr s
        · split
          · exact hcall d.ptr s
          · exact (hcall d.ptr s).trans (ih _)
      · exact ih s

theorem configureProviders_grows (v : ι) (chosen : Option Text) (s : MenuState ι) :
    Grows s (configureProviders t out call v chosen s).2 := by
  have h : Grows s (configureChosen t out call chosen (t v).depends s).2 :=
    configureChosen_grows hcall chosen (t v).depends s
  rw [configureProviders]
  split <;> next heq => rw [heq] at h; exact h

theorem satisfyVirtual_grows (v : ι) (s : MenuState ι) :
    Grows s (satisfyVirtual t out call v s).2 := by
  have h : Grows s (collectProviders t out call (t v).depends {} s).2 :=
    collectProviders_grows hcall (t v).depends {} s
  rw [satisfyVirtual]
  split
  · next heq => rw [heq] at h; exact h
  · next a s' heq =>
      rw [heq] at h
      have hask : Grows s (s'.ask t out v a).2 :=
        fun e he => List.mem_append_left _ (h e he)
      split
      · split
        · split
          · next heq' => rw [heq'] at hask; exact hask
          · next heq' =>
              rw [heq'] at hask
              exact hask.trans (configureProviders_grows hcall v _ _)
        · exact h.trans (configureProviders_grows hcall v _ _)
      · exact h

omit [DecidableEq ι] in
theorem configureDepends_grows (p : ι) (ds : List (PackageDependency ι)) (s : MenuState ι) :
    Grows s (configureDepends call p ds s).2 := by
  induction ds generalizing s with
  | nil => exact Grows.refl s
  | cons d ds ih =>
      rw [configureDepends]
      split
      · exact ih s
      · split
        · exact ih s
        · split
          · exact fun e he => List.mem_append_left _ he
          · have h := hcall d.ptr { s with depth := s.depth + 1 }
            split
            · next heq => rw [heq] at h; exact h
            · next heq =>
                rw [heq] at h
                dsimp only
                split
                · exact h
                · exact fun e he => ih _ e (h e he)

omit hcall in
theorem runConfigure_log (p : ι) (s : MenuState ι) :
    (runConfigure out p s).2.log = s.log ++ [.configured p s.status] := by
  rw [runConfigure]
  split
  · rfl
  · split <;> rfl

theorem configPackage_grows (p : ι) (s : MenuState ι) :
    Grows s (configPackage t out call p s).2 := by
  rw [configPackage]
  split
  · exact satisfyVirtual_grows hcall p s
  · exact Grows.refl s
  · have h := configureDepends_grows hcall p (t p).depends s
    split
    · next heq => rw [heq] at h; exact h
    · next s' heq =>
        rw [heq] at h
        refine h.trans fun e he => ?_
        show e ∈ (runConfigure out p s').2.log
        rw [runConfigure_log]
        exact List.mem_append_left _ he

end Log

theorem diConfigPackage_grows [DecidableEq ι] (n : ℕ) (p : ι) (s : MenuState ι) :
    Grows s (diConfigPackage t out n p s).2 := by
  induction n generalizing p s with
  | zero => exact Grows.refl s
  | succ n ih => exact configPackage_grows ih p s

/-! ## Calls that keep the dependencies -/

section Calls

variable [DecidableEq ι]

variable (t) in
/-- What is shown of a call that ends: what was configured is safe, and unless the call
stops its caller its package is installed and nothing was uninstalled. -/
def Ends (s : MenuState ι) (p : ι) (r : Option Int × MenuState ι) : Prop :=
  (∀ e ∈ r.2.log, e.Safe t) ∧
    (¬ stops r.1 → Backed t r.2.status ∧ Stays s r.2 ∧ Settled t r.2 p)

variable (t out) in
/-- Calls from a state in which no virtual package is wrongly marked, with all questions
answered. -/
def Sound (call : Call ι) : Prop :=
  ∀ p s, Backed t s.status → (∀ e ∈ (call p s).2.log, e.Answered t out) →
    (∀ e ∈ s.log, e.Safe t) → Ends t s p (call p s)

variable (t) in
/-- The same of a loop, which goes on with `Q`. -/
def Goes {α : Type} (s : MenuState ι) (r : Flow α × MenuState ι) (Q : α → MenuState ι → Prop) :
    Prop :=
  (∀ e ∈ r.2.log, e.Safe t) ∧
    match r.1 with
    | .done ret => stops ret
    | .next a => Backed t r.2.status ∧ Stays s r.2 ∧ Q a r.2

omit [DecidableEq ι] in
theorem Goes.of_stays {α : Type} {s s' : MenuState ι} {r : Flow α × MenuState ι}
    {Q Q' : α → MenuState ι → Prop} (h : Goes t s' r Q) (hs : Stays s s')
    (hQ : ∀ a s'', Stays s' s'' → Q a s'' → Q' a s'') : Goes t s r Q' := by
  obtain ⟨flow, s''⟩ := r
  obtain ⟨hsafe, hflow⟩ := h
  refine ⟨hsafe, ?_⟩
  cases flow with
  | done ret => exact hflow
  | next a => exact ⟨hflow.1, hs.trans hflow.2.1, hQ a s'' hflow.2.1 hflow.2.2⟩

variable {call : Call ι} (hgrows : ∀ p s, Grows s (call p s).2) (hcall : Sound t out call)

include hgrows hcall

theorem collectProviders_goes (ds : List (PackageDependency ι)) (a : Providing ι)
    (s : MenuState ι) (hback : Backed t s.status)
    (hans : ∀ e ∈ (collectProviders t out call ds a s).2.log, e.Answered t out)
    (hsafe : ∀ e ∈ s.log, e.Safe t) (hused : 0 < a.menuUsed) :
    Goes t s (collectProviders t out call ds a s) fun a' s' => a'.menuUsed = 0 →
      ∃ d ∈ ds, d.type = .reverseProvides ∧ s'.status d.ptr = .installed := by
  induction ds generalizing a s with
  | nil => exact ⟨hsafe, hback, Stays.refl s, fun h => absurd h hused.ne'⟩
  | cons d ds ih =>
      have hlater : ∀ (a' : Providing ι) (s' : MenuState ι), (a'.menuUsed = 0 →
          ∃ d ∈ ds, d.type = .reverseProvides ∧ s'.status d.ptr = .installed) →
          (a'.menuUsed = 0 →
            ∃ d' ∈ d :: ds, d'.type = .reverseProvides ∧ s'.status d'.ptr = .installed) := by
        intro a' s' h h0
        obtain ⟨d', hd', h'⟩ := h h0
        exact ⟨d', List.mem_cons_of_mem _ hd', h'⟩
      have hskip : (∀ e ∈ (collectProviders t out call ds a s).2.log, e.Answered t out) →
          Goes t s (collectProviders t out call ds a s) fun a' s' => a'.menuUsed = 0 →
            ∃ d' ∈ d :: ds, d'.type = .reverseProvides ∧ s'.status d'.ptr = .installed := by
        intro hans
        exact (ih a s hback hans hsafe hused).of_stays (Stays.refl s) fun a' s' _ => hlater a' s'
      rw [collectProviders] at hans ⊢
      by_cases htype : d.type = .depends
      · rw [if_pos htype] at hans ⊢
        by_cases hstatus : s.status d.ptr ≠ .installed
        · rw [if_pos hstatus] at hans ⊢
          dsimp only at hans ⊢
          by_cases hstops : stops (call d.ptr s).1
          · rw [if_pos hstops] at hans ⊢
            exact ⟨(hcall d.ptr s hback hans hsafe).1, hstops⟩
          · rw [if_neg hstops] at hans ⊢
            have hans' : ∀ e ∈ (call d.ptr s).2.log, e.Answered t out :=
              fun e he => hans e (collectProviders_grows hgrows ds a _ e he)
            obtain ⟨hsafe', hgo⟩ := hcall d.ptr s hback hans' hsafe
            obtain ⟨hback', hstays, -⟩ := hgo hstops
            exact (ih a _ hback' hans hsafe' hused).of_stays hstays fun a' s' _ => hlater a' s'
        · rw [if_neg hstatus] at hans ⊢
          exact hskip hans
      · rw [if_neg htype] at hans ⊢
        by_cases hprov : d.type ≠ .reverseProvides
        · rw [if_pos hprov] at hans ⊢
          exact hskip hans
        · rw [if_neg hprov] at hans ⊢
          by_cases hstatus : s.status d.ptr = .installed
          · rw [if_pos hstatus] at hans ⊢
            exact ⟨hsafe, hback, Stays.refl s,
              fun _ => ⟨d, List.mem_cons_self, not_not.mp hprov, hstatus⟩⟩
          · rw [if_neg hstatus] at hans ⊢
            refine (ih _ s hback hans hsafe ?_).of_stays (Stays.refl s) fun a' s' _ => hlater a' s'
            exact Nat.succ_pos _

omit [DecidableEq ι] in
theorem configureAll_goes (ds : List (PackageDependency ι)) (s : MenuState ι)
    (hback : Backed t s.status)
    (hans : ∀ e ∈ (configureChosen t out call none ds s).2.log, e.Answered t out)
    (hsafe : ∀ e ∈ s.log, e.Safe t) :
    Goes t s (configureChosen t out call none ds s) fun _ s' => ∀ d ∈ ds, Settled t s' d.ptr := by
  induction ds generalizing s with
  | nil => exact ⟨hsafe, hback, Stays.refl s, fun d hd => absurd hd List.not_mem_nil⟩
  | cons d ds ih =>
      rw [configureChosen, if_pos (.inl rfl)] at hans ⊢
      dsimp only at hans ⊢
      by_cases hstops : stops (call d.ptr s).1
      · rw [if_pos hstops] at hans ⊢
        exact ⟨(hcall d.ptr s hback hans hsafe).1, hstops⟩
      · rw [if_neg hstops, if_neg (by simp)] at hans ⊢
        have hans' : ∀ e ∈ (call d.ptr s).2.log, e.Answered t out :=
          fun e he => hans e (configureChosen_grows hgrows none ds _ e he)
        obtain ⟨hsafe', hgo⟩ := hcall d.ptr s hback hans' hsafe
        obtain ⟨hback', hstays, hsettled⟩ := hgo hstops
        refine (ih _ hback' hans hsafe').of_stays hstays fun _ s' hs' hds => ?_
        exact List.forall_mem_cons.mpr ⟨hs'.settled hsettled, hds⟩

omit [DecidableEq ι] hgrows in
theorem configureChosen_goes (text : Text) (ds : List (PackageDependency ι)) (s : MenuState ι)
    {d : PackageDependency ι}
    (hfind : ds.find? (fun d => menuEntry out s.runs (t d.ptr) = text) = some d)
    (hback : Backed t s.status)
    (hans : ∀ e ∈ (configureChosen t out call (some text) ds s).2.log, e.Answered t out)
    (hsafe : ∀ e ∈ s.log, e.Safe t) :
    Goes t s (configureChosen t out call (some text) ds s) fun _ s' => Settled t s' d.ptr := by
  induction ds with
  | nil => simp at hfind
  | cons d' ds ih =>
      rw [configureChosen] at hans ⊢
      by_cases htext : menuEntry out s.runs (t d'.ptr) = text
      · rw [List.find?_cons_of_pos (by simpa using htext), Option.some.injEq] at hfind
        subst hfind
        rw [if_pos (.inr (by rw [htext]))] at hans ⊢
        dsimp only at hans ⊢
        by_cases hstops : stops (call d'.ptr s).1
        · rw [if_pos hstops] at hans ⊢
          exact ⟨(hcall d'.ptr s hback hans hsafe).1, hstops⟩
        · rw [if_neg hstops, if_pos Option.isSome_some] at hans ⊢
          obtain ⟨hsafe', hgo⟩ := hcall d'.ptr s hback hans hsafe
          exact ⟨hsafe', hgo hstops⟩
      · rw [List.find?_cons_of_neg (by simpa using htext)] at hfind
        have hother : ¬ (some text = none ∨ some text = some (menuEntry out s.runs (t d'.ptr))) := by
          rintro (h | h)
          · cases h
          · exact htext (Option.some.inj h).symm
        rw [if_neg hother] at hans ⊢
        exact ih hfind hans

omit hgrows hcall in
theorem collectProviders_used (ds : List (PackageDependency ι)) (a : Providing ι)
    (s : MenuState ι) {a' : Providing ι} {s' : MenuState ι}
    (h : collectProviders t out call ds a s = (.next a', s')) :
    a'.menuUsed = 0 ∨ a.menuUsed ≤ a'.menuUsed ∧
      ((∃ d ∈ ds, d.type = .reverseProvides) → a.menuUsed < a'.menuUsed) := by
  induction ds generalizing a s with
  | nil =>
      cases h
      exact .inr ⟨le_rfl, fun ⟨d, hd, _⟩ => absurd hd List.not_mem_nil⟩
  | cons d ds ih =>
      have hother : d.type ≠ .reverseProvides → (∃ d' ∈ d :: ds, d'.type = .reverseProvides) →
          ∃ d' ∈ ds, d'.type = .reverseProvides := by
        rintro hne ⟨d', hd', htype⟩
        rcases List.mem_cons.mp hd' with heq | hmem
        · exact absurd (heq ▸ htype) hne
        · exact ⟨d', hmem, htype⟩
      have hskip : ∀ s, d.type ≠ .reverseProvides →
          collectProviders t out call ds a s = (.next a', s') →
          a'.menuUsed = 0 ∨ a.menuUsed ≤ a'.menuUsed ∧
            ((∃ d' ∈ d :: ds, d'.type = .reverseProvides) → a.menuUsed < a'.menuUsed) := by
        intro s hne h
        rcases ih a s h with h0 | ⟨hle, hlt⟩
        · exact .inl h0
        · exact .inr ⟨hle, fun hex => hlt (hother hne hex)⟩
      rw [collectProviders] at h
      by_cases htype : d.type = .depends
      · have hne : d.type ≠ .reverseProvides := by
          rw [htype]
          exact nofun
        rw [if_pos htype] at h
        split at h
        · dsimp only at h
          split at h
          · cases h
          · exact hskip _ hne h
        · exact hskip _ hne h
      · rw [if_neg htype] at h
        split at h
        · next hne => exact hskip _ hne h
        · split at h
          · cases h
            exact .inl rfl
          · have hmore : a.menuUsed < (addProvider t out s.runs d.ptr a).menuUsed := by
              simp only [addProvider]
              omega
            rcases ih _ s h with h0 | ⟨hle, -⟩
            · exact .inl h0
            · exact .inr ⟨by omega, fun _ => by omega⟩

omit hgrows hcall in
theorem backed_setStatus {s : MenuState ι} {p : ι} (hback : Backed t s.status)
    (hp : (t p).type = .virtualPackage → Named t p → Provided t s.status p) :
    Backed t (s.setStatus p .installed).status := by
  intro v hv hnamed hstatus
  refine (stays_setStatus s p).provided ?_
  by_cases h : v = p
  · subst h
    exact hp hv hnamed
  · exact hback v hv hnamed ((Function.update_of_ne h ..).symm.trans hstatus)

omit hgrows hcall in
theorem ends_setStatus {s s' : MenuState ι} {v : ι} (hsafe : ∀ e ∈ s'.log, e.Safe t)
    (hback : Backed t s'.status) (hstays : Stays s s')
    (hv : Named t v → Provided t s'.status v) :
    Ends t s v (some 1, s'.setStatus v .installed) := by
  refine ⟨hsafe, fun _ => ⟨backed_setStatus hback fun _ => hv,
    hstays.trans (stays_setStatus s' v), fun _ => ?_⟩⟩
  exact Function.update_self ..

omit hgrows hcall in
theorem configureProviders_ends {s : MenuState ι} {v : ι} {chosen : Option Text}
    {Q : MenuState ι → Prop}
    (h : Goes t s (configureChosen t out call chosen (t v).depends s) fun _ s' => Q s')
    (hQ : ∀ s', Q s' → Named t v → Provided t s'.status v) :
    Ends t s v (configureProviders t out call v chosen s) := by
  rw [configureProviders]
  split
  · next heq =>
      rw [heq] at h
      exact ⟨h.1, fun hstops => absurd h.2 hstops⟩
  · next s' heq =>
      rw [heq] at h
      obtain ⟨hsafe, hback, hstays, hq⟩ := h
      exact ends_setStatus hsafe hback hstays (hQ s' hq)

omit [DecidableEq ι] hgrows hcall in
theorem Ends.of_stays {s s' : MenuState ι} {p : ι} {r : Option Int × MenuState ι}
    (h : Ends t s' p r) (hs : Stays s s') : Ends t s p r := by
  refine ⟨h.1, fun hstops => ?_⟩
  obtain ⟨hback, hstays, hsettled⟩ := h.2 hstops
  exact ⟨hback, hs.trans hstays, hsettled⟩

omit hgrows hcall in
theorem configureProviders_log (v : ι) (chosen : Option Text) (s : MenuState ι) :
    (configureProviders t out call v chosen s).2.log =
      (configureChosen t out call chosen (t v).depends s).2.log := by
  rw [configureProviders]
  split
  · next heq => rw [heq]
  · next heq =>
      rw [heq]
      rfl

theorem satisfyVirtual_chosen (v : ι) (a : Providing ι) (s : MenuState ι) {answer : Text}
    (hanswer : out.answer s.questions = some answer) (hback : Backed t s.status)
    (hans : ∀ e ∈ (configureProviders t out call v (some answer) (s.ask t out v a).2).2.log,
      e.Answered t out)
    (hsafe : ∀ e ∈ s.log, e.Safe t) :
    Ends t s v (configureProviders t out call v (some answer) (s.ask t out v a).2) := by
  have hasked := hans _ (configureProviders_grows hgrows v _ _ _
    (List.mem_append_right _ (List.mem_singleton_self _)))
  obtain ⟨text, d, htext, hfind, htype, hexists⟩ := hasked
  rw [hanswer, Option.some.injEq] at htext
  subst htext
  rw [configureProviders_log] at hans
  have hsafe' : ∀ e ∈ (s.ask t out v a).2.log, e.Safe t := by
    intro e he
    rcases List.mem_append.mp he with h | h
    · exact hsafe e h
    · rw [List.mem_singleton.mp h]
      trivial
  refine configureProviders_ends (configureChosen_goes hcall answer (t v).depends
    (s.ask t out v a).2 hfind hback hans hsafe') fun s'' hsettled _ => ?_
  exact ⟨d, List.mem_of_find?_eq_some hfind, htype, hsettled hexists⟩

theorem satisfyVirtual_ends (hprov : Provisioned t) {v : ι}
    (hvirtual : (t v).type = .virtualPackage) (s : MenuState ι) (hback : Backed t s.status)
    (hans : ∀ e ∈ (satisfyVirtual t out call v s).2.log, e.Answered t out)
    (hsafe : ∀ e ∈ s.log, e.Safe t) : Ends t s v (satisfyVirtual t out call v s) := by
  have hcollect := collectProviders_goes hgrows hcall (t v).depends {} s hback
  rw [satisfyVirtual] at hans ⊢
  cases heq : collectProviders t out call (t v).depends {} s with
  | mk flow s' =>
      rw [heq] at hans hcollect
      cases flow with
      | done ret =>
          obtain ⟨hsafe', hstops⟩ := hcollect hans hsafe Nat.one_pos
          exact ⟨hsafe', fun h => absurd hstops h⟩
      | next a =>
          dsimp only at hans hcollect ⊢
          by_cases hmenu : a.menuUsed > 1
          · rw [if_pos hmenu] at hans ⊢
            by_cases hitem : a.isMenuItem
            · rw [if_pos hitem] at hans ⊢
              have hanswer : (s'.ask t out v a).1 = out.answer s'.questions := rfl
              cases hgo : out.answer s'.questions with
              | none =>
                  -- go-back: the question stands in the log
                  rw [show s'.ask t out v a = (none, (s'.ask t out v a).2) from
                    Prod.ext (hanswer.trans hgo) rfl] at hans
                  obtain ⟨text, d, htext, -⟩ := hans (.asked v s'.runs _ a.menu none)
                    (List.mem_append_right _ (by rw [hgo]; exact List.mem_singleton_self _))
                  cases htext
              | some answer =>
                  rw [show s'.ask t out v a = (some answer, (s'.ask t out v a).2) from
                    Prod.ext (hanswer.trans hgo) rfl] at hans ⊢
                  dsimp only at hans ⊢
                  have hgrow : Grows s' (configureProviders t out call v (some answer)
                      (s'.ask t out v a).2).2 := fun e he =>
                    configureProviders_grows hgrows v _ _ e (List.mem_append_left _ he)
                  obtain ⟨hsafe', hback', hstays, -⟩ :=
                    hcollect (fun e he => hans e (hgrow e he)) hsafe Nat.one_pos
                  exact (satisfyVirtual_chosen hgrows hcall v a s' hgo hback' hans
                    hsafe').of_stays hstays
            · rw [if_neg hitem] at hans ⊢
              obtain ⟨hsafe', hback', hstays, -⟩ := hcollect
                (fun e he => hans e (configureProviders_grows hgrows v none s' e he)) hsafe
                Nat.one_pos
              rw [configureProviders_log] at hans
              refine (configureProviders_ends (configureAll_goes hgrows hcall (t v).depends s'
                hback' hans hsafe') fun s'' hsettled hnamed => ?_).of_stays hstays
              obtain ⟨d, hd, htype, hexists⟩ := hprov v hvirtual hnamed
              exact ⟨d, hd, htype, hsettled d hd hexists⟩
          · rw [if_neg hmenu] at hans ⊢
            obtain ⟨hsafe', hback', hstays, hinstalled⟩ := hcollect hans hsafe Nat.one_pos
            refine ends_setStatus hsafe' hback' hstays fun hnamed => ?_
            rcases collectProviders_used _ _ _ heq with h0 | ⟨-, hlt⟩
            · exact hinstalled h0
            · obtain ⟨d, hd, htype, -⟩ := hprov v hvirtual hnamed
              exact absurd (hlt ⟨d, hd, htype⟩) hmenu

omit [DecidableEq ι] in
theorem configureDepends_goes (p : ι) (ds : List (PackageDependency ι)) (s : MenuState ι)
    (hback : Backed t s.status)
    (hans : ∀ e ∈ (configureDepends call p ds s).2.log, e.Answered t out)
    (hsafe : ∀ e ∈ s.log, e.Safe t) :
    Goes t s (configureDepends call p ds s) fun _ s' =>
      ∀ d ∈ ds, d.type = .depends → Settled t s' d.ptr := by
  induction ds generalizing s with
  | nil => exact ⟨hsafe, hback, Stays.refl s, fun d hd => absurd hd List.not_mem_nil⟩
  | cons d ds ih =>
      rw [configureDepends] at hans ⊢
      by_cases hstatus : s.status d.ptr = .installed
      · rw [if_pos hstatus] at hans ⊢
        refine (ih s hback hans hsafe).of_stays (Stays.refl s) fun _ s' hs' hds => ?_
        exact List.forall_mem_cons.mpr ⟨fun _ => hs'.settled fun _ => hstatus, hds⟩
      · rw [if_neg hstatus] at hans ⊢
        by_cases htype : d.type ≠ .depends
        · rw [if_pos htype] at hans ⊢
          refine (ih s hback hans hsafe).of_stays (Stays.refl s) fun _ s' hs' hds => ?_
          exact List.forall_mem_cons.mpr ⟨fun h => absurd h htype, hds⟩
        · rw [if_neg htype] at hans ⊢
          by_cases hdeep : s.depth + 1 > depthLimit
          · rw [if_pos hdeep]
            refine ⟨fun e he => ?_, .inr (.inl rfl)⟩
            rcases List.mem_append.mp he with h | h
            · exact hsafe e h
            · rw [List.mem_singleton.mp h]
              trivial
          · rw [if_neg hdeep] at hans ⊢
            have hd := hcall d.ptr { s with depth := s.depth + 1 } hback
            cases heq : call d.ptr { s with depth := s.depth + 1 } with
            | mk ret s' =>
                rw [heq] at hans hd
                cases ret with
                | none => exact ⟨(hd hans hsafe).1, .inl rfl⟩
                | some ret =>
                    dsimp only at hans ⊢
                    by_cases hstops : stops (some ret)
                    · rw [if_pos hstops] at hans ⊢
                      exact ⟨(hd hans hsafe).1, hstops⟩
                    · rw [if_neg hstops] at hans ⊢
                      obtain ⟨hsafe', hgo⟩ := hd (fun e he =>
                        hans e (configureDepends_grows hgrows p ds _ e he)) hsafe
                      obtain ⟨hback', hstays, hsettled⟩ := hgo hstops
                      refine (ih { s' with depth := s'.depth - 1 } hback' hans hsafe').of_stays
                        hstays fun _ s'' hs'' hds => ?_
                      exact List.forall_mem_cons.mpr ⟨fun _ => hs''.settled hsettled, hds⟩

omit hgrows hcall in
theorem runConfigure_ends {p : ι} (hreal : (t p).type = .realPackage) {s s' : MenuState ι}
    (hsafe : ∀ e ∈ s'.log, e.Safe t) (hback : Backed t s'.status) (hstays : Stays s s')
    (hmet : ∀ d ∈ (t p).depends, d.type = .depends → Met t s'.status d.ptr) :
    Ends t s p (some (runConfigure out p s').1, (runConfigure out p s').2) := by
  refine ⟨fun e he => ?_, fun hstops => ?_⟩
  · rw [runConfigure_log] at he
    rcases List.mem_append.mp he with h | h
    · exact hsafe e h
    · rw [List.mem_singleton.mp h]
      exact hmet
  · rw [runConfigure] at hstops ⊢
    dsimp only at hstops ⊢
    by_cases hok : out.udpkg s'.runs p = exitOk ∨ out.udpkg s'.runs p = exitInstaller
    · rw [if_pos hok]
      refine ⟨backed_setStatus (s := { s' with runs := _, log := _ }) hback fun hv => ?_,
        hstays.trans (stays_setStatus _ p), fun _ => Function.update_self ..⟩
      rw [hreal] at hv
      cases hv
    · rw [if_neg hok] at hstops
      by_cases hbackup : out.udpkg s'.runs p = exitBackup
      · rw [if_pos hbackup, hbackup] at hstops
        exact absurd (.inr (.inr rfl)) hstops
      · rw [if_neg hbackup] at hstops
        exact absurd (.inr (.inl rfl)) hstops

theorem configPackage_sound (hprov : Provisioned t) : Sound t out (configPackage t out call) := by
  intro p s hback hans hsafe
  rw [configPackage] at hans ⊢
  cases htype : (t p).type with
  | virtualPackage =>
      rw [htype] at hans
      exact satisfyVirtual_ends hgrows hcall hprov htype s hback hans hsafe
  | nonExistent =>
      rw [htype] at hans
      exact ⟨hsafe, fun _ => ⟨hback, Stays.refl s, fun h => absurd htype h⟩⟩
  | realPackage =>
      rw [htype] at hans
      dsimp only at hans ⊢
      have hloop := configureDepends_goes hgrows hcall p (t p).depends s hback
      cases heq : configureDepends call p (t p).depends s with
      | mk flow s' =>
          rw [heq] at hans hloop
          cases flow with
          | done ret =>
              obtain ⟨hsafe', hstops⟩ := hloop hans hsafe
              exact ⟨hsafe', fun h => absurd hstops h⟩
          | next _ =>
              have hans' : ∀ e ∈ s'.log, e.Answered t out := by
                intro e he
                refine hans e ?_
                show e ∈ (runConfigure out p s').2.log
                rw [runConfigure_log]
                exact List.mem_append_left _ he
              obtain ⟨hsafe', hback', hstays, hsettled⟩ := hloop hans' hsafe
              refine runConfigure_ends htype hsafe' hback' hstays fun d hd hdep => ?_
              have hd' := hsettled d hd hdep
              rw [Met]
              split
              · trivial
              · next h => exact hd' (by rw [h]; exact nofun)
              · next h => exact hback' _ h ⟨p, htype, d, hd, hdep, rfl⟩ (hd' (by rw [h]; exact nofun))

end Calls

theorem diConfigPackage_sound [DecidableEq ι] (hprov : Provisioned t) (n : ℕ) :
    Sound t out (diConfigPackage t out n) := by
  induction n with
  | zero =>
      intro p s hback hans hsafe
      exact ⟨hsafe, fun h => absurd (.inl rfl) h⟩
  | succ n ih => exact configPackage_sound (diConfigPackage_grows n) ih hprov

/-- In every run in which each question is answered with the entry of a provider, from
statuses that mark no virtual package without reason, a package is configured only when all
it depends on is installed. -/
theorem diConfigPackage_safe [DecidableEq ι] (t : ι → Package ι) (out : Outside ι) (n : ℕ) (p : ι)
    (s : MenuState ι) (hstart : s.log = []) (hprov : Provisioned t) (hback : Backed t s.status)
    (hans : ∀ e ∈ (diConfigPackage t out n p s).2.log, e.Answered t out) :
    ∀ e ∈ (diConfigPackage t out n p s).2.log, e.Safe t := by
  have hnone : ∀ e ∈ s.log, e.Safe t := by simp [hstart]
  exact (diConfigPackage_sound hprov n p s hback hans hnone).1

/-! ## A network that was not configured -/

def networkTitle : Text := ['N', 'e', 't', 'w', 'o', 'r', 'k']

/-- `choose-mirror` depends on `configured-network`, which `netcfg` provides. -/
def networkPackages : Fin 3 → Package (Fin 3)
  | 0 => { package := "choose-mirror", type := .realPackage, status := .unpacked
           depends := [⟨.depends, 1⟩], installerMenuItem := 2300 }
  | 1 => { package := "configured-network", type := .virtualPackage
           depends := [⟨.reverseProvides, 2⟩] }
  | 2 => { package := "netcfg", type := .realPackage, status := .unpacked
           shortDescription := some networkTitle
           depends := [⟨.provides, 1⟩], installerMenuItem := 1800 }

/-- A system without titles, on which every configuration succeeds. -/
def answering (answer : Option Text) : Outside (Fin 3) where
  metaget _ _ := none
  udpkg _ _ := exitOk
  answer _ := answer

def networkStart : MenuState (Fin 3) where
  status i := (networkPackages i).status

/-- The question about the network is answered with go-back, and the mirror is chosen
without a network. -/
theorem diConfigPackage_after_goBack :
    ¬ ∀ (t : Fin 3 → Package (Fin 3)) (out : Outside (Fin 3)) (n : ℕ) (p : Fin 3)
      (s : MenuState (Fin 3)), s.log = [] →
        ∀ e ∈ (diConfigPackage t out n p s).2.log, e.Safe t := by
  intro h
  have hlog : ∃ preset choices,
      (diConfigPackage networkPackages (answering none) 2 0 networkStart).2.log =
        [.asked 1 0 preset choices none, .configured 0 networkStart.status] := ⟨_, _, rfl⟩
  obtain ⟨preset, choices, hlog⟩ := hlog
  have hsafe := h networkPackages (answering none) 2 0 networkStart rfl
    (.configured 0 networkStart.status) (by simp [hlog])
  obtain ⟨d, hd, -, hinstalled⟩ := hsafe ⟨.depends, 1⟩ (List.mem_singleton.mpr rfl) rfl
  rw [List.mem_singleton.mp hd] at hinstalled
  cases hinstalled

/-- With `netcfg` chosen, the network is configured first. -/
theorem diConfigPackage_safe_network :
    ∃ preset choices status,
      (diConfigPackage networkPackages (answering (some networkTitle)) 3 0 networkStart).2.log =
          [.asked 1 0 preset choices (some networkTitle),
            .configured 2 networkStart.status, .configured 0 status] ∧
        (Event.configured 0 status).Safe networkPackages := by
  have hlog : ∃ preset choices status,
      (diConfigPackage networkPackages (answering (some networkTitle)) 3 0 networkStart).2.log =
        [.asked 1 0 preset choices (some networkTitle),
          .configured 2 networkStart.status, .configured 0 status] := ⟨_, _, _, rfl⟩
  obtain ⟨preset, choices, status, hlog⟩ := hlog
  refine ⟨preset, choices, status, hlog,
    diConfigPackage_safe networkPackages (answering (some networkTitle)) 3 0 networkStart rfl
      ?_ ?_ ?_ _ (by simp [hlog])⟩
  · intro v hv _
    fin_cases v
    · cases hv
    · exact ⟨⟨.reverseProvides, 2⟩, List.mem_singleton.mpr rfl, rfl, nofun⟩
    · cases hv
  · intro v hv _ hstatus
    fin_cases v <;> cases hstatus
  · rw [hlog]
    simp only [List.mem_cons, List.not_mem_nil, or_false, forall_eq_or_imp, forall_eq]
    exact ⟨⟨_, ⟨.reverseProvides, 2⟩, rfl, rfl, rfl, nofun⟩, trivial, trivial⟩

end DebianInstaller.MainMenu
