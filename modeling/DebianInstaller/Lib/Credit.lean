import DebianInstaller.Lib.Search

/-!
# When the credit of a search is good

A search marks a node `okay` when it enters it, and a node below that runs into
the mark is accepted on credit. If the node on the stack fails later, whoever
was accepted on its credit stays accepted.

A search that fails does so along one path: from each node to the first of its
successors that cannot be had without going through the path. The members of
that path are the nodes that fail, so the credit is good exactly if none of the
successors that were accepted before leads back to the path. `FailPath` and
`Honest` say this of the graph alone, and `visitRoots_sound` shows that an
honest search leaves a sound state behind: whatever is `okay` has only `okay`
successors.
-/

namespace Search

variable {ι : Type*} [DecidableEq ι] {g : Graph ι}

variable {F : Set ι} {S : List ι} {fuel : Nat} {st mid : St ι} {x : ι}

/-- No dead node can be reached without going through `S`. -/
def Clean (g : Graph ι) (S : List ι) (x : ι) : Prop :=
  x ∉ S → ∀ y, Relation.ReflTransGen (fun a b => g.Edge a b ∧ b ∉ S) x y →
    g.dead y = false

/-- `FailPath g F S x y T`: a visit of `x` below the open nodes `S` fails, and
on its way it fails at `y` below the open nodes `T`. The nodes `F` have failed
before. -/
inductive FailPath (g : Graph ι) (F : Set ι) : List ι → ι → ι → List ι → Prop where
  | here {S : List ι} {x : ι} (hx : x ∉ F) (hc : ¬ Clean g S x) : FailPath g F S x x S
  | down {S T pre post : List ι} {x d y : ι} (hx : x ∉ F) (hc : ¬ Clean g S x)
      (hd : g.dead x = false) (hnext : g.next [] x = pre ++ d :: post)
      (hpre : ∀ c ∈ pre, Clean g (x :: S) c) (h : FailPath g F (x :: S) d y T) :
      FailPath g F S x y T

/-- No successor that is accepted before `y` fails leads back to `y`. -/
def Honest (g : Graph ι) (y : ι) (T : List ι) : Prop :=
  ∀ pre d post, g.next [] y = pre ++ d :: post → (∀ c ∈ pre, Clean g (y :: T) c) →
    ¬ Clean g (y :: T) d → ∀ c ∈ pre, c ∉ y :: T → ¬ g.Reach c y

/-- The state of a search with the open nodes `S` in which no credit is bad. -/
structure Sound (g : Graph ι) (S : List ι) (st : St ι) : Prop where
  okay : ∀ y, st.mark y = .okay → y ∉ S →
    g.dead y = false ∧ ∀ z, g.Edge y z → st.mark z = .okay
  failed : ∀ y, st.mark y = .failed → ∃ x, g.dead x = true ∧
    Relation.ReflTransGen (fun a b => g.Edge a b ∧ st.mark b = .failed) y x
  log : ∀ y, y ∈ st.log ↔ st.mark y = .okay ∧ y ∉ S ∧ g.emit y = true
  stack : ∀ s ∈ S, st.mark s = .okay

section Marks

variable {S : List ι} {st : St ι}

omit [DecidableEq ι] in
theorem Sound.clean (h : Sound g S st) {x : ι} (hx : st.mark x = .okay) :
    Clean g S x := by
  intro hxS y hr
  have hkey : st.mark y = .okay ∧ y ∉ S := by
    induction hr with
    | refl => exact ⟨hx, hxS⟩
    | tail _ hab ih => exact ⟨(h.okay _ ih.1 ih.2).2 _ hab.1, hab.2⟩
  exact (h.okay y hkey.1 hkey.2).1

omit [DecidableEq ι] in
theorem Sound.not_clean (h : Sound g S st) {x : ι} (hx : st.mark x = .failed) :
    ¬ Clean g S x := by
  intro hc
  have hfail : ∀ y, st.mark y = .failed → y ∉ S := fun y hy hyS => by
    rw [h.stack y hyS] at hy
    cases hy
  obtain ⟨y, hd, hr⟩ := h.failed x hx
  have := hc (hfail x hx) y (hr.lift id fun a b hab => ⟨hab.1, hfail b hab.2⟩)
  rw [hd] at this
  cases this

theorem Sound.enter (h : Sound g S st) (hx : st.mark x = .unseen) :
    Sound g (x :: S) (st.set x .okay) := by
  have hmark : ∀ y, y ≠ x → (st.set x .okay).mark y = st.mark y :=
    fun y hy => St.set_mark_of_ne st _ hy
  have hseen : ∀ y, st.mark y ≠ .unseen → (st.set x .okay).mark y = st.mark y :=
    fun y hy => hmark y fun hyx => hy (hyx ▸ hx)
  constructor
  case okay =>
    intro y hy hyS
    rw [List.mem_cons, not_or] at hyS
    rw [hmark y hyS.1] at hy
    obtain ⟨hd, hz⟩ := h.okay y hy hyS.2
    refine ⟨hd, fun z he => ?_⟩
    rw [hseen z (by rw [hz z he]; decide), hz z he]
  case failed =>
    intro y hy
    have hyx : y ≠ x := fun hyx => by
      subst hyx
      rw [St.set_mark_self] at hy
      cases hy
    rw [hmark y hyx] at hy
    obtain ⟨z, hd, hr⟩ := h.failed y hy
    refine ⟨z, hd, hr.lift id fun a b hab => ⟨hab.1, ?_⟩⟩
    show (st.set x .okay).mark b = _
    rw [hseen b (by rw [hab.2]; decide), hab.2]
  case log =>
    intro y
    rw [St.set_log, h.log]
    by_cases hyx : y = x
    · subst hyx
      simp [hx]
    · rw [hmark y hyx]
      simp [hyx]
  case stack =>
    intro s hs
    by_cases hsx : s = x
    · subst hsx
      simp
    · rw [hmark s hsx]
      exact h.stack s ((List.mem_cons.mp hs).resolve_left hsx)

/-- A node whose successors were all accepted. -/
theorem Sound.leave (h : Sound g (x :: S) st) (hxS : x ∉ S) (hd : g.dead x = false)
    (hall : ∀ z, g.Edge x z → st.mark z = .okay) : Sound g S (st.finish g x) := by
  have hx := h.stack x (by simp)
  constructor
  case okay =>
    intro y hy hyS
    rw [St.finish_mark] at hy ⊢
    by_cases hyx : y = x
    · subst hyx
      exact ⟨hd, hall⟩
    · exact h.okay y hy (by simp [hyx, hyS])
  case failed =>
    intro y hy
    rw [St.finish_mark] at hy ⊢
    exact h.failed y hy
  case log =>
    intro y
    rw [St.finish_mark]
    have hlog := h.log y
    rw [List.mem_cons, not_or] at hlog
    unfold St.finish
    by_cases hyx : y = x
    · subst hyx
      split
      · next he => simp [hx, hxS, he]
      · next he => simp [hlog, he]
    · split <;> simp [hlog, hyx]
  case stack =>
    intro s hs
    rw [St.finish_mark]
    exact h.stack s (by simp [hs])

/-- A node that fails, when nobody was accepted on its credit. -/
theorem Sound.fail (h : Sound g (x :: S) st) (hxS : x ∉ S)
    (hfail : g.dead x = true ∨ ∃ z, g.Edge x z ∧ st.mark z = .failed)
    (hcredit : ∀ y, st.mark y = .okay → y ∉ x :: S → ¬ g.Edge y x) :
    Sound g S (st.set x .failed) := by
  have hmark : ∀ y, y ≠ x → (st.set x .failed).mark y = st.mark y :=
    fun y hy => St.set_mark_of_ne st _ hy
  have hx := h.stack x (by simp)
  constructor
  case okay =>
    intro y hy hyS
    have hyx : y ≠ x := fun hyx => by
      subst hyx
      rw [St.set_mark_self] at hy
      cases hy
    rw [hmark y hyx] at hy
    have hyxS : y ∉ x :: S := by simp [hyx, hyS]
    obtain ⟨hd, hz⟩ := h.okay y hy hyxS
    refine ⟨hd, fun z he => ?_⟩
    rw [hmark z fun hzx => hcredit y hy hyxS (hzx ▸ he), hz z he]
  case failed =>
    have hold : ∀ y, st.mark y = .failed → ∃ z, g.dead z = true ∧
        Relation.ReflTransGen
          (fun a b => g.Edge a b ∧ (st.set x .failed).mark b = .failed) y z := by
      intro y hy
      obtain ⟨z, hd, hr⟩ := h.failed y hy
      refine ⟨z, hd, hr.lift id fun a b hab => ⟨hab.1, ?_⟩⟩
      show (st.set x .failed).mark b = _
      by_cases hbx : b = x
      · subst hbx
        simp
      · rw [hmark b hbx, hab.2]
    intro y hy
    by_cases hyx : y = x
    · subst hyx
      rcases hfail with hd | ⟨z, he, hz⟩
      · exact ⟨y, hd, .refl⟩
      · obtain ⟨w, hw, hr⟩ := hold z hz
        have hzy : z ≠ y := fun hzy => by
          rw [hzy, hx] at hz
          cases hz
        exact ⟨w, hw, .head ⟨he, by rw [hmark z hzy, hz]⟩ hr⟩
    · rw [hmark y hyx] at hy
      exact hold y hy
  case log =>
    intro y
    rw [St.set_log, h.log]
    by_cases hyx : y = x
    · subst hyx
      simp
    · rw [hmark y hyx]
      simp [hyx]
  case stack =>
    intro s hs
    rw [hmark s fun hsx => hxS (hsx ▸ hs)]
    exact h.stack s (by simp [hs])

end Marks

/-! ## The path on which a visit fails -/

omit [DecidableEq ι] in
theorem FailPath.not_clean {F : Set ι} {S T : List ι} {x y : ι}
    (h : FailPath g F S x y T) : x ∉ F ∧ ¬ Clean g S x := by
  cases h with
  | here hx hc => exact ⟨hx, hc⟩
  | down hx hc => exact ⟨hx, hc⟩

omit [DecidableEq ι] in
theorem not_clean_of_edge {S : List ι} {x z : ι} (he : g.Edge x z) (hxS : x ∉ S)
    (hz : ¬ Clean g (x :: S) z) : ¬ Clean g S x := by
  intro hc
  refine hz fun hzS y hr => hc hxS y (.head ⟨he, fun h => hzS (by simp [h])⟩ ?_)
  exact hr.lift id fun a b hab => ⟨hab.1, fun h => hab.2 (List.mem_cons_of_mem _ h)⟩

/-- What an honest visit leaves behind. -/
structure Repaid (g : Graph ι) (F : Set ι) (S : List ι) (x : ι) (st st' : St ι)
    (b : Bool) : Prop where
  sound : Sound g S st'
  /-- The nodes that have failed are those on the path. -/
  failed : ∀ y, st'.mark y = .failed ↔ y ∈ F ∨ ∃ T, FailPath g F S x y T
  /-- Nothing that was accepted on the way leads back to a node that fails. -/
  credit : b = false → ∀ y, st.mark y = .unseen → st'.mark y = .okay → ¬ g.Reach y x

omit [DecidableEq ι] in
theorem repaid_seen {F : Set ι} {S : List ι} {x : ι} {st : St ι} {b : Bool}
    (h : Sound g S st) (hF : ∀ y, y ∈ F ↔ st.mark y = .failed)
    (hx : st.mark x ≠ .unseen) : Repaid g F S x st st b := by
  refine ⟨h, fun y => ?_, fun _ y hu hk => by rw [hu] at hk; cases hk⟩
  rw [← hF]
  refine ⟨.inl, fun hy => hy.resolve_right ?_⟩
  rintro ⟨T, hp⟩
  obtain ⟨hxF, hc⟩ := hp.not_clean
  cases hm : st.mark x with
  | unseen => exact hx hm
  | okay => exact hc (h.clean hm)
  | failed => exact hxF ((hF x).mpr hm)

theorem set_set (st : St ι) (x : ι) (m m' : Mark) : (st.set x m).set x m' = st.set x m' := by
  simp [St.set]

/-- A dead node. -/
theorem repaid_dead (h : Sound g S st) (hF : ∀ y, y ∈ F ↔ st.mark y = .failed)
    (hx : st.mark x = .unseen) (hd : g.dead x = true) :
    Repaid g F S x st (st.set x .failed) false := by
  have hxS : x ∉ S := fun hm => by
    rw [h.stack x hm] at hx
    cases hx
  have hxF : x ∉ F := fun hm => by
    rw [(hF x).mp hm] at hx
    cases hx
  have hc : ¬ Clean g S x := fun hc => by
    rw [hc hxS x .refl] at hd
    cases hd
  have hnew : ∀ y, y ≠ x → (st.set x .failed).mark y = st.mark y :=
    fun y hy => St.set_mark_of_ne st _ hy
  refine ⟨?_, fun y => ?_, fun _ y hu hk => ?_⟩
  · rw [← set_set st x .okay]
    refine (h.enter hx).fail hxS (.inl hd) fun y hy hyS he => ?_
    rw [List.mem_cons, not_or] at hyS
    rw [St.set_mark_of_ne _ _ hyS.1] at hy
    have := (h.okay y hy hyS.2).2 x he
    rw [hx] at this
    cases this
  · by_cases hyx : y = x
    · subst hyx
      simp only [St.set_mark_self, true_iff]
      exact .inr ⟨S, .here hxF hc⟩
    · rw [hnew y hyx, ← hF]
      refine ⟨.inl, fun hy => hy.resolve_right ?_⟩
      rintro ⟨T, hp⟩
      cases hp with
      | here => exact hyx rfl
      | down _ _ hd' => rw [hd] at hd'; cases hd'
  · by_cases hyx : y = x
    · subst hyx
      rw [St.set_mark_self] at hk
      cases hk
    · rw [hnew y hyx, hu] at hk
      cases hk

theorem visit_again {st' : St ι} {b : Bool} (hv : visit g fuel x st = some (b, st'))
    (hx : st.mark x ≠ .unseen) : st' = st := by
  cases fuel with
  | zero => cases hv
  | succ fuel =>
      rw [visit_seen hx] at hv
      cases hv
      rfl

/-- What the visits of the successors of `x` leave behind: `pre` has been
accepted before, and of `zs` everything up to the one that fails is. -/
structure RepaidAll (g : Graph ι) (F : Set ι) (S : List ι) (x : ι) (pre zs : List ι)
    (st st' : St ι) (b : Bool) : Prop where
  sound : Sound g (x :: S) st'
  accepted : b = true → (∀ z ∈ zs, st'.mark z = .okay) ∧
    ∀ y, st'.mark y = .failed ↔ y ∈ F
  refused : b = false → ∃ zs₁ d zs₂, zs = zs₁ ++ d :: zs₂ ∧
    (∀ c ∈ pre ++ zs₁, Clean g (x :: S) c) ∧ ¬ Clean g (x :: S) d ∧
    st'.mark d = .failed ∧
    (∀ y, st'.mark y = .failed ↔ y ∈ F ∨ ∃ T, FailPath g F (x :: S) d y T) ∧
    ∀ y, st.mark y = .unseen → st'.mark y = .okay →
      ¬ g.Reach y d ∨ ∃ c ∈ zs₁, c ∉ x :: S ∧ g.Reach c y

/-- The successors of an open node, one after another. -/
theorem repaidAll (ih : ∀ z st b st', Sound g (x :: S) st → g.Edge x z →
      (∀ y, y ∈ F ↔ st.mark y = .failed) →
      (∀ y T, FailPath g F (x :: S) z y T → Honest g y T) →
      visit g fuel z st = some (b, st') → Repaid g F (x :: S) z st st' b) :
    ∀ (zs pre : List ι) (st st' : St ι) (b : Bool),
      (∀ z ∈ zs, g.Edge x z) → (∀ c ∈ pre, Clean g (x :: S) c) →
      Sound g (x :: S) st → (∀ y, y ∈ F ↔ st.mark y = .failed) →
      (∀ zs₁ d zs₂, zs = zs₁ ++ d :: zs₂ → (∀ c ∈ pre ++ zs₁, Clean g (x :: S) c) →
        ∀ y T, FailPath g F (x :: S) d y T → Honest g y T) →
      visitAll (visit g fuel) zs st = some (b, st') →
      RepaidAll g F S x pre zs st st' b := by
  intro zs
  induction zs with
  | nil =>
      intro pre st st' b _ _ hst hF _ h
      cases h
      exact ⟨hst, fun _ => ⟨by simp, fun y => (hF y).symm⟩, fun h => by cases h⟩
  | cons z zs ihz =>
      intro pre st st' b hedge hpre hst hF hhon h
      have hrec := ih z st
      rw [visitAll] at h
      split at h
      · cases h
      · next mid hv =>
          cases h
          have hz := hrec false st' hst (hedge z (by simp)) hF
            (hhon [] z zs rfl (by simpa using hpre)) hv
          have hmark : st'.mark z = .failed := by
            simpa using (visit_visited g fuel z st false st' hv).answer
          refine ⟨hz.sound, fun h => by (cases h), fun _ => ⟨[], z, zs, rfl,
            by simpa using hpre, hz.sound.not_clean hmark, hmark, hz.failed, ?_⟩⟩
          exact fun y hu hk => .inl (hz.credit rfl y hu hk)
      · next mid hv =>
          have hz := hrec true mid hst (hedge z (by simp)) hF
            (hhon [] z zs rfl (by simpa using hpre)) hv
          have hvis := visit_visited g fuel z st true mid hv
          have hmark : mid.mark z = .okay := by simpa using hvis.answer
          have hclean : Clean g (x :: S) z := hz.sound.clean hmark
          have hF' : ∀ y, y ∈ F ↔ mid.mark y = .failed := by
            intro y
            rw [hz.failed]
            refine ⟨.inl, fun hy => hy.resolve_right ?_⟩
            rintro ⟨T, hp⟩
            exact hp.not_clean.2 hclean
          have hpre' : ∀ c ∈ pre ++ [z], Clean g (x :: S) c := by
            intro c hc
            rcases List.mem_append.mp hc with hc | hc
            · exact hpre c hc
            · rw [List.mem_singleton.mp hc]
              exact hclean
          have hrest := ihz (pre ++ [z]) mid st' b (fun w hw => hedge w (by simp [hw]))
            hpre' hz.sound hF' (fun zs₁ d zs₂ heq hall => hhon (z :: zs₁) d zs₂
              (by simp [heq]) (by simpa using hall)) h
          refine ⟨hrest.sound, fun hb => ?_, fun hb => ?_⟩
          · obtain ⟨hall, hfail⟩ := hrest.accepted hb
            refine ⟨fun w hw => ?_, hfail⟩
            rcases List.mem_cons.mp hw with rfl | hw
            · have hgrow := (visitAll_grows (visit_visited g fuel) zs mid b st' h).1
              rw [hgrow.keep w (by rw [hmark]; decide), hmark]
            · exact hall w hw
          · obtain ⟨zs₁, d, zs₂, heq, hall, hd, hdm, hfail, hcredit⟩ := hrest.refused hb
            refine ⟨z :: zs₁, d, zs₂, by simp [heq], by simpa using hall, hd, hdm, hfail,
              fun y hu hk => ?_⟩
            by_cases hum : mid.mark y = .unseen
            · rcases hcredit y hum hk with hr | ⟨c, hc, hcS, hr⟩
              · exact .inl hr
              · exact .inr ⟨c, by simp [hc], hcS, hr⟩
            · -- `y` was touched by the visit of `z`, which was therefore unseen.
              obtain ⟨c, hc, hr⟩ := hvis.grows.reach y hu hum
              obtain rfl := List.mem_singleton.mp hc
              refine .inr ⟨c, by simp, fun hcS => hum ?_, hr⟩
              rw [visit_again hv (by rw [hst.stack c hcS]; decide), hu]

omit [DecidableEq ι] in
theorem first_split_unique {P : ι → Prop} : ∀ {pre pre' : List ι} {d d' : ι}
    {post post' : List ι}, pre ++ d :: post = pre' ++ d' :: post' →
    (∀ c ∈ pre, P c) → ¬ P d → (∀ c ∈ pre', P c) → ¬ P d' → pre = pre' ∧ d = d' := by
  intro pre
  induction pre with
  | nil =>
      intro pre' d d' post post' heq _ hd hpre' _
      cases pre' with
      | nil => exact ⟨rfl, (List.cons.inj heq).1⟩
      | cons c pre' =>
          rw [List.nil_append, List.cons_append, List.cons.injEq] at heq
          exact absurd (hpre' c (by simp)) (heq.1 ▸ hd)
  | cons c pre ih =>
      intro pre' d d' post post' heq hpre hd hpre' hd'
      cases pre' with
      | nil =>
          rw [List.nil_append, List.cons_append, List.cons.injEq] at heq
          exact absurd (hpre c (by simp)) (heq.1 ▸ hd')
      | cons c' pre' =>
          rw [List.cons_append, List.cons_append, List.cons.injEq] at heq
          obtain ⟨rfl, rfl⟩ := ih heq.2 (fun e he => hpre e (by simp [he])) hd
            (fun e he => hpre' e (by simp [he])) hd'
          exact ⟨by rw [heq.1], rfl⟩

section Visit

variable (hstatic : ∀ l l' x, g.next l x = g.next l' x)

include hstatic

/-- All successors of `x` have been accepted. -/
theorem RepaidAll.accept (hxS : x ∉ S) (hd : g.dead x = false)
    (hall : RepaidAll g F S x [] (g.next [] x) (st.set x .okay) mid true) :
    Repaid g F S x st (mid.finish g x) true := by
  obtain ⟨hok, hfail⟩ := hall.accepted rfl
  have hleave : Sound g S (mid.finish g x) :=
    hall.sound.leave hxS hd fun z ⟨l, hz⟩ => hok z (by
      rw [hstatic [] l]
      exact hz)
  refine ⟨hleave, fun y => ?_, fun hb => by cases hb⟩
  rw [St.finish_mark, hfail]
  refine ⟨.inl, fun hy => hy.resolve_right ?_⟩
  rintro ⟨T, hp⟩
  refine hp.not_clean.2 (hleave.clean ?_)
  rw [St.finish_mark]
  exact hall.sound.stack x (by simp)

omit hstatic in
/-- One of the successors of `x` has failed. What was `okay` before `x` was entered has no edge
to `x`, and what came to be since does not lead back to it, or `x` would not be honest. -/
theorem RepaidAll.refuse (hst : Sound g S st) (hx : st.mark x = .unseen) (hxS : x ∉ S)
    (hxF : x ∉ F) (hd : g.dead x = false)
    (hhon : ∀ T, FailPath g F S x x T → Honest g x T)
    (hmid : Grows g (g.next [] x) (st.set x .okay) mid)
    (hall : RepaidAll g F S x [] (g.next [] x) (st.set x .okay) mid false) :
    Repaid g F S x st (mid.set x .failed) false := by
  obtain ⟨pre, d, post, heq, hpre, hdc, hdm, hfail, hcredit⟩ := hall.refused rfl
  rw [List.nil_append] at hpre
  have hxd : g.Edge x d := ⟨[], by simp [heq]⟩
  have hxc : ¬ Clean g S x := not_clean_of_edge hxd hxS hdc
  have hmark : ∀ y, y ≠ x → (st.set x .okay).mark y = st.mark y :=
    fun y hy => St.set_mark_of_ne st _ hy
  have hback : ∀ y, (st.set x .okay).mark y = .unseen → mid.mark y = .okay →
      ¬ g.Reach y x := by
    intro y hu hk hr
    rcases hcredit y hu hk with hyd | ⟨c, hc, hcS, hcy⟩
    · exact hyd (hr.tail hxd)
    · exact hhon S (.here hxF hxc) pre d post heq hpre hdc c hc hcS (hcy.trans hr)
  have hnew : ∀ y, y ≠ x → (mid.set x .failed).mark y = mid.mark y :=
    fun y hy => St.set_mark_of_ne mid _ hy
  refine ⟨hall.sound.fail hxS (.inr ⟨d, hxd, hdm⟩) fun y hy hyS he => ?_,
    fun y => ?_, fun _ y hu hk => ?_⟩
  · by_cases hu : (st.set x .okay).mark y = .unseen
    · exact hback y hu hy (.single he)
    · have hkeep := hmid.keep y hu
      rw [List.mem_cons, not_or] at hyS
      rw [hy, hmark y hyS.1] at hkeep
      have := (hst.okay y hkeep.symm hyS.2).2 x he
      rw [hx] at this
      cases this
  · by_cases hyx : y = x
    · subst hyx
      simp only [St.set_mark_self, true_iff]
      exact .inr ⟨S, .here hxF hxc⟩
    · rw [hnew y hyx, hfail]
      refine or_congr_right ⟨?_, ?_⟩
      · rintro ⟨T, hp⟩
        exact ⟨T, .down hxF hxc hd heq hpre hp⟩
      · rintro ⟨T, hp⟩
        cases hp with
        | here => exact absurd rfl hyx
        | down _ _ _ heq' hpre' hp =>
            obtain ⟨-, rfl⟩ := first_split_unique (heq.symm.trans heq') hpre hdc
              hpre' hp.not_clean.2
            exact ⟨T, hp⟩
  · have hyx : y ≠ x := fun hyx => by
      subst hyx
      rw [St.set_mark_self] at hk
      cases hk
    rw [hnew y hyx] at hk
    exact hback y (by rw [hmark y hyx]; exact hu) hk

/-- An honest visit repays its credit. -/
theorem visit_repaid : ∀ (fuel : Nat) (x : ι) (S : List ι) (F : Set ι) (st : St ι)
    (b : Bool) (st' : St ι), Sound g S st → (∀ y, y ∈ F ↔ st.mark y = .failed) →
    (∀ y T, FailPath g F S x y T → Honest g y T) →
    visit g fuel x st = some (b, st') → Repaid g F S x st st' b := by
  intro fuel
  induction fuel with
  | zero =>
      intro x S F st b st' _ _ _ h
      cases h
  | succ fuel ih =>
      intro x S F st b st' hst hF hhon h
      rcases visit_cases h with ⟨hx, -, rfl⟩ | ⟨hx, hd, rfl, rfl⟩ |
        ⟨hx, hd, mid, hmid, hst'⟩
      · exact repaid_seen hst hF hx
      · exact repaid_dead hst hF hx hd
      · have hxS : x ∉ S := fun hm => by
          rw [hst.stack x hm] at hx
          cases hx
        have hxF : x ∉ F := fun hm => by
          rw [(hF x).mp hm] at hx
          cases hx
        have hedge : ∀ z ∈ g.next [] x, g.Edge x z := fun z hz => ⟨[], hz⟩
        have hF' : ∀ y, y ∈ F ↔ (st.set x .okay).mark y = .failed := by
          intro y
          rw [hF]
          by_cases hyx : y = x
          · subst hyx
            simp [hx]
          · rw [St.set_mark_of_ne st _ hyx]
        rw [hstatic st.log []] at hmid
        have hall := repaidAll (S := S) (x := x)
          (fun z st b st' hs _ hF hh hv => ih z (x :: S) F st b st' hs hF hh hv)
          (g.next [] x) [] (st.set x .okay) mid b hedge (by simp) (hst.enter hx) hF'
          (fun zs₁ d zs₂ heq hpre y T hp => hhon y T (.down hxF
            (not_clean_of_edge (hedge d (by simp [heq])) hxS hp.not_clean.2) hd heq
            (by simpa using hpre) hp)) hmid
        cases b with
        | true =>
            obtain rfl : st' = mid.finish g x := by simpa using hst'
            exact hall.accept hstatic hxS hd
        | false =>
            obtain rfl : st' = mid.set x .failed := by simpa using hst'
            exact hall.refuse hst hx hxS hxF hd (fun T => hhon x T)
              (visitAll_grows (visit_visited g fuel) _ _ _ _ hmid).1

omit hstatic in
/-- The searches from the roots are all honest, each with the failures of those
before it. -/
def HonestRoots (g : Graph ι) : Set ι → List ι → Prop
  | _, [] => True
  | F, r :: rs => (∀ y T, FailPath g F [] r y T → Honest g y T) ∧
      HonestRoots g (F ∪ { y | ∃ T, FailPath g F [] r y T }) rs

theorem visitRoots_sound {P : List ι → Prop} (hP : ∀ st, Sound g [] st → P st.log) :
    ∀ (rs : List ι) (F : Set ι) (st st' : St ι) (kept kept' : List ι),
    Sound g [] st → (∀ y, y ∈ F ↔ st.mark y = .failed) → HonestRoots g F rs → P kept →
    visitRoots (visit g fuel) rs st kept = some (st', kept') → P kept' := by
  intro rs
  induction rs with
  | nil =>
      intro F st st' kept kept' _ _ _ hk h
      cases h
      exact hk
  | cons r rs ih =>
      intro F st st' kept kept' hst hF hhon hk h
      rw [visitRoots] at h
      split at h
      · cases h
      · next b mid hv =>
          have hrep := visit_repaid hstatic fuel r [] F st b mid hst hF hhon.1 hv
          refine ih _ mid st' _ kept' hrep.sound (fun y => (hrep.failed y).symm) hhon.2 ?_ h
          cases b with
          | true => exact hP mid hrep.sound
          | false => exact hk

end Visit

end Search
