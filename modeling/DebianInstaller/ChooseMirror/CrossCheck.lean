import DebianInstaller.ChooseMirror.Release

/-!
# How deep the cross-check goes

The bit that `cross_validate_release` presets is the one under which the release was got,
and that is also the bit that the nested call sets if its release is got in the same way. So
nothing stops a chain of releases that each have their own codename and the name of the next
one as their suite: every call sets `GET_CODENAME` again and goes on to check the suite, and
on a ring of two such releases the recursion does not end. The other direction is the same
with the two fields exchanged.

A release that is checked under its codename need not have a suite there, nor need one that
`find_releases` got under a codename; both hand the suite to `strcmp`. `Shallow` and
`SuitesNamed` are what a mirror must not do, and together they are exact.
-/

namespace DebianInstaller.ChooseMirror

open Lib

variable {c s : Text} {r t : Release}

/-! ## What a mirror says -/

/-- The fields of the Release file of a name. -/
def Mirror.fields (m : Mirror) (n : Text) : Release := m.read {} (some n)

/-- The release includes the architecture, and it is the one that was asked for. -/
def Usable (m : Mirror) (n : Text) : Prop :=
  m.lacksArch (m.fields n) = false ∧ ((m.fields n).name = some n ∨ (m.fields n).suite = some n)

/-- The codename that `get_release` gives to the release. -/
def shown (m : Mirror) (n : Text) : Option Text :=
  if m.lacksArch (m.fields n) then none
  else if (m.fields n).name = none ∧ (m.fields n).suite = some n then some n
  else (m.fields n).name

/-- The release under the other name is not there, or it is the same one. -/
def Confirmed (m : Mirror) (n : Text) : Prop :=
  Usable m n ∧
  (∀ s, (m.fields n).name = some n → (m.fields n).suite = some s → s ≠ n →
    shown m s = none ∨ Usable m s ∧ shown m s = some n) ∧
  ∀ c, (m.fields n).suite = some n → (m.fields n).name = some c → c ≠ n →
    shown m c = none ∨ Usable m c ∧ (m.fields c).suite = some n

/-- There is a release, but it is not the one that was asked for. -/
def Broken (m : Mirror) (n : Text) : Prop := shown m n ≠ none ∧ ¬ Confirmed m n

/-- The release under the other name names no third one, and has a suite to compare. -/
structure Shallow (m : Mirror) : Prop where
  suite : ∀ n s, m.lacksArch (m.fields n) = false → (m.fields n).name = some n →
    (m.fields n).suite = some s → s ≠ n → Usable m s →
    (m.fields s).suite = none ∨ (m.fields s).suite = some s
  codename : ∀ n c, m.lacksArch (m.fields n) = false → (m.fields n).suite = some n →
    (m.fields n).name = some c → c ≠ n → Usable m c →
    ((m.fields c).name = none ∨ (m.fields c).name = some c) ∧ (m.fields c).suite ≠ none

/-- A release that `find_releases` comes to is the default one, or it has a suite; and there
is a default to compare it with. -/
structure SuitesNamed (m : Mirror) (baseOnCd : Bool) (defaultSuite : Option Text) : Prop where
  suite : baseOnCd = false → ∀ pre n post, suites = pre ++ n :: post → (∀ k ∈ pre, ¬ Broken m k) →
    Confirmed m n → defaultSuite ≠ none ∧ (shown m n = defaultSuite ∨ (m.fields n).suite ≠ none)
  default : defaultSuite = none → (baseOnCd = true ∨ ∀ k ∈ suites, ¬ Broken m k) →
    (m.read {} none).name = none ∧ (m.read {} none).suite = none

/-! ## Reading -/

/-- The bits of a status. -/
def Release.withBits (r : Release) (getSuite getCodename : Bool) : Release :=
  { r with getSuite := getSuite, getCodename := getCodename }

theorem readLine_withBits (r : Release) (line : Text) (gs gc : Bool) :
    readLine (r.withBits gs gc) line = (readLine r line).withBits gs gc := by
  unfold readLine
  dsimp only
  split <;> rfl

theorem read_withBits (m : Mirror) (n : Text) (gs gc : Bool) :
    m.read { getSuite := gs, getCodename := gc } (some n) = (m.fields n).withBits gs gc := by
  have hfold : ∀ (lines : List Text) (r : Release),
      lines.foldl readLine (r.withBits gs gc) = (lines.foldl readLine r).withBits gs gc := by
    intro lines
    induction lines with
    | nil => exact fun _ => rfl
    | cons line lines ih =>
        intro r
        rw [List.foldl_cons, readLine_withBits, ih]
        rfl
  unfold Mirror.fields Mirror.read
  split
  · rfl
  · exact hfold _ {}

theorem readLine_isValid (r : Release) (line : Text) :
    (readLine r line).isValid = r.isValid := by
  unfold readLine
  dsimp only
  split <;> rfl

theorem read_isValid (m : Mirror) (name : Option Text) : (m.read {} name).isValid = false := by
  have hfold : ∀ (lines : List Text) (r : Release),
      (lines.foldl readLine r).isValid = r.isValid := by
    intro lines
    induction lines with
    | nil => exact fun _ => rfl
    | cons line lines ih => exact fun r => (ih _).trans (readLine_isValid r line)
  unfold Mirror.read
  split
  · rfl
  · exact hfold _ {}

/-! ## One call -/

section Call

variable (m : Mirror) (get : Get) (n : Text) (gs gc : Bool)

theorem isName_some (field : Option Text) (n : Text) :
    isName field (some n) = .done (field == some n) := by
  cases field <;> rfl

/-- A release that the cross-check starts from. -/
def Mirror.got : Release :=
  { m.fields n with
    isValid := true
    getSuite := gs || (m.fields n).suite == some n
    getCodename := gc || (m.fields n).name == some n }

/-- What `get_release` makes of a release after the cross-check. -/
def named (r : Release) : Release :=
  { r with name := if r.isValid ∧ r.name = none then some n else r.name }

theorem getReleaseWith_lacks (h : m.lacksArch (m.fields n) = true) :
    ∃ r, getReleaseWith m get { getSuite := gs, getCodename := gc } (some n) =
      .done (false, r) := by
  have hlacks : ∀ r : Release, r.archs = (m.fields n).archs → m.lacksArch r = true := by
    intro r hr
    rw [Mirror.lacksArch, hr, ← h, Mirror.lacksArch]
  unfold getReleaseWith
  rw [read_withBits]
  simp only [isName_some, Run.done_bind]
  rw [hlacks]
  · simp
  · rfl

theorem getReleaseWith_other (ha : m.lacksArch (m.fields n) = false) (h : ¬ Usable m n) :
    ∃ r, getReleaseWith m get { getSuite := gs, getCodename := gc } (some n) =
      .done ((m.fields n).name.isSome, r) ∧ r.isValid = false := by
  have hname : (m.fields n).name ≠ some n := fun hn => h ⟨ha, .inl hn⟩
  have hsuite : (m.fields n).suite ≠ some n := fun hs => h ⟨ha, .inr hs⟩
  have hvalid : (m.fields n).isValid = false := read_isValid m (some n)
  have hlacks : ∀ r : Release, r.archs = (m.fields n).archs → m.lacksArch r = false := by
    intro r hr
    rw [Mirror.lacksArch, hr, ← ha, Mirror.lacksArch]
  unfold getReleaseWith
  rw [read_withBits]
  simp only [isName_some, Run.done_bind]
  rw [hlacks]
  · simp [Release.withBits, hname, hsuite, hvalid]
  · rfl

theorem getReleaseWith_usable (h : Usable m n) :
    getReleaseWith m get { getSuite := gs, getCodename := gc } (some n) =
      crossValidate get (m.got n gs gc) >>= fun a =>
        .done ((named n a.2).name.isSome, named n a.2) := by
  have hlacks : ∀ r : Release, r.archs = (m.fields n).archs → m.lacksArch r = false := by
    intro r hr
    rw [Mirror.lacksArch, hr, ← h.1, Mirror.lacksArch]
  have hvalid : ((m.fields n).isValid || (m.fields n).name == some n ||
      (m.fields n).suite == some n) = true := by
    rcases h.2 with hn | hs
    · simp [hn]
    · simp [hs]
  unfold getReleaseWith
  rw [read_withBits]
  simp only [isName_some, Run.done_bind]
  rw [hlacks]
  · simp only [Release.withBits, Bool.not_false, Bool.and_true, Bool.false_eq_true, if_false]
    rw [if_pos hvalid, hvalid]
    rfl
  · rfl

theorem crossValidate_eq (r : Release) : crossValidate get r =
    crossSuite get r { getSuite := r.getSuite, getCodename := r.getCodename } >>= fun a =>
      crossCodename get a.1 a.2.1 a.2.2 := rfl

theorem crossSuite_skip (h : r.suite = none ∨ r.getSuite = true) (t : Release) :
    crossSuite get r t = .done (true, r, t) := by
  have h' : ¬ (r.suite ≠ none ∧ r.getSuite = false) := by
    rcases h with h | h <;> simp [h]
  rw [crossSuite, if_neg h', Run.pure_eq]

theorem crossCodename_skip (h : r.name = none ∨ r.getCodename = true) (ret : Bool) (t : Release) :
    crossCodename get ret r t = .done (ret, r) := by
  have h' : ¬ (r.name ≠ none ∧ r.getCodename = false) := by
    rcases h with h | h <;> simp [h]
  rw [crossCodename, if_neg h', Run.pure_eq]

theorem crossValidate_flat (hs : r.suite = none ∨ r.getSuite = true)
    (hc : r.name = none ∨ r.getCodename = true) : crossValidate get r = .done (true, r) := by
  rw [crossValidate_eq, crossSuite_skip get hs, Run.done_bind, crossCodename_skip get hc]

/-- What the answer of the nested call does to the release. -/
def verdict (r : Release) (same : Bool) (bits : Release) : Bool × Release :=
  (same, if same then bits else { r with isValid := false })

theorem crossValidate_suite (hs : r.suite = some s) (hgs : r.getSuite = false)
    (hgc : r.getCodename = true) :
    crossValidate get r = get { getCodename := true } (some s) >>= fun a =>
      if a.1 = true then isSame a.2 a.2.name r.name >>= fun same =>
        .done (verdict r same { r with getSuite := a.2.getSuite })
      else .done (true, r) := by
  cases r
  dsimp only at hs hgs hgc
  subst hs hgs hgc
  rw [crossValidate_eq, crossSuite, if_pos ⟨by simp, rfl⟩]
  cases get { getCodename := true } (some s) with
  | tooDeep => rfl
  | nullPassed => rfl
  | done a =>
      obtain ⟨found, t⟩ := a
      rw [Run.done_bind, Run.done_bind]
      cases found with
      | false => exact crossCodename_skip get (.inr rfl) _ _
      | true =>
          dsimp only
          rw [if_pos rfl, if_pos rfl]
          cases isSame t t.name _ with
          | tooDeep => rfl
          | nullPassed => rfl
          | done same =>
              cases same <;> exact crossCodename_skip get (.inr rfl) _ _

theorem crossValidate_codename (hc : r.name = some c) (hgs : r.getSuite = true)
    (hgc : r.getCodename = false) :
    crossValidate get r = get { getSuite := true } (some c) >>= fun a =>
      if a.1 = true then isSame a.2 a.2.suite r.suite >>= fun same =>
        .done (verdict r same { r with getCodename := a.2.getCodename })
      else .done (true, r) := by
  cases r
  dsimp only at hc hgs hgc
  subst hc hgs hgc
  rw [crossValidate_eq, crossSuite_skip get (.inr rfl), Run.done_bind, crossCodename,
    if_pos ⟨by simp, rfl⟩]
  congr 1
  funext a
  obtain ⟨found, t⟩ := a
  cases found with
  | false => rfl
  | true =>
      dsimp only
      rw [if_pos rfl, if_pos rfl]
      congr 1
      funext same
      cases same <;> rfl

theorem verdict_done (r bits : Release) (hname : bits.name = r.name) (hsuite : bits.suite = r.suite)
    (hvalid : bits.isValid = true) (same : Bool) :
    (verdict r same bits).2.name = r.name ∧ (verdict r same bits).2.suite = r.suite ∧
      ((verdict r same bits).2.isValid = true ↔ same = true) := by
  cases same with
  | false => simp [verdict]
  | true => simp [verdict, hname, hsuite, hvalid]

theorem crossValidate_suite_done {found same : Bool} (hs : r.suite = some s)
    (hgs : r.getSuite = false) (hgc : r.getCodename = true) (hvalid : r.isValid = true)
    (hget : get { getCodename := true } (some s) = .done (found, t))
    (hsame : found = true → isSame t t.name r.name = .done same) :
    ∃ v r', crossValidate get r = .done (v, r') ∧ r'.name = r.name ∧ r'.suite = r.suite ∧
      (r'.isValid = true ↔ found = true → same = true) := by
  rw [crossValidate_suite get hs hgs hgc, hget, Run.done_bind]
  cases found with
  | false => exact ⟨true, r, rfl, rfl, rfl, by simp [hvalid]⟩
  | true =>
      rw [if_pos rfl, hsame rfl, Run.done_bind]
      obtain ⟨hn, hsu, hv⟩ := verdict_done r { r with getSuite := t.getSuite } rfl rfl hvalid
        same
      exact ⟨_, _, rfl, hn, hsu, hv.trans (by simp)⟩

theorem crossValidate_codename_done {found same : Bool} (hc : r.name = some c)
    (hgs : r.getSuite = true) (hgc : r.getCodename = false) (hvalid : r.isValid = true)
    (hget : get { getSuite := true } (some c) = .done (found, t))
    (hsame : found = true → isSame t t.suite r.suite = .done same) :
    ∃ v r', crossValidate get r = .done (v, r') ∧ r'.name = r.name ∧ r'.suite = r.suite ∧
      (r'.isValid = true ↔ found = true → same = true) := by
  rw [crossValidate_codename get hc hgs hgc, hget, Run.done_bind]
  cases found with
  | false => exact ⟨true, r, rfl, rfl, rfl, by simp [hvalid]⟩
  | true =>
      rw [if_pos rfl, hsame rfl, Run.done_bind]
      obtain ⟨hn, hsu, hv⟩ := verdict_done r { r with getCodename := t.getCodename } rfl rfl
        hvalid same
      exact ⟨_, _, rfl, hn, hsu, hv.trans (by simp)⟩

end Call

/-! ## A check that goes no deeper -/

section Depth

variable {m : Mirror} {n : Text}

theorem not_usable_of_lacks (h : m.lacksArch (m.fields n) = true) : ¬ Usable m n :=
  fun hu => by simp [hu.1] at h

theorem shown_of_usable (h : Usable m n) : shown m n = some ((m.fields n).name.getD n) := by
  rw [shown, h.1]
  rcases h.2 with hn | hs
  · simp [hn]
  · cases hn : (m.fields n).name <;> simp [hs]

theorem shown_ne_none (h : Usable m n) : shown m n ≠ none := by
  rw [shown_of_usable h]
  simp

theorem shown_of_other (ha : m.lacksArch (m.fields n) = false) (h : ¬ Usable m n) :
    shown m n = (m.fields n).name := by
  have hs : ¬ ((m.fields n).name = none ∧ (m.fields n).suite = some n) :=
    fun hs => h ⟨ha, .inr hs.2⟩
  rw [shown, ha, if_neg hs]
  simp

theorem getReleaseWith_flat (get : Get) (gs gc : Bool)
    (hs : Usable m n → (m.fields n).suite = none ∨ gs = true ∨ (m.fields n).suite = some n)
    (hc : Usable m n → (m.fields n).name = none ∨ gc = true ∨ (m.fields n).name = some n) :
    ∃ r, getReleaseWith m get { getSuite := gs, getCodename := gc } (some n) =
        .done ((shown m n).isSome, r) ∧
      ((shown m n).isSome = true → (r.isValid = true ↔ Usable m n)) ∧
      (Usable m n → r.name = shown m n ∧ r.suite = (m.fields n).suite) := by
  by_cases ha : m.lacksArch (m.fields n) = true
  · obtain ⟨r, hr⟩ := getReleaseWith_lacks m get n gs gc ha
    have hshown : shown m n = none := by simp [shown, ha]
    exact ⟨r, by rw [hr, hshown]; rfl, by simp [hshown], fun h => absurd h (not_usable_of_lacks ha)⟩
  have ha' : m.lacksArch (m.fields n) = false := by simpa using ha
  by_cases hu : Usable m n
  · have hcross : crossValidate get (m.got n gs gc) = .done (true, m.got n gs gc) := by
      refine crossValidate_flat get ?_ ?_
      · rcases hs hu with h | h | h <;> simp [Mirror.got, h]
      · rcases hc hu with h | h | h <;> simp [Mirror.got, h]
    have hname : (named n (m.got n gs gc)).name = shown m n := by
      rw [shown_of_usable hu, named, Mirror.got]
      cases (m.fields n).name <;> simp
    refine ⟨named n (m.got n gs gc), ?_, fun _ => ⟨fun _ => hu, fun _ => rfl⟩, fun _ => ⟨hname, rfl⟩⟩
    rw [getReleaseWith_usable m get n gs gc hu, hcross, Run.done_bind, hname]
  · obtain ⟨r, hr, hvalid⟩ := getReleaseWith_other m get n gs gc ha' hu
    refine ⟨r, by rw [hr, shown_of_other ha' hu], fun _ => ?_, fun h => absurd h hu⟩
    simp [hvalid, hu]

theorem named_of_some (h : r.name = some c) : named n r = r := by
  cases r
  dsimp only at h
  subst h
  simp [named]

theorem getReleaseWith_checked {get : Get} {v : Bool} (h : Usable m n) (hc : r.name = some c)
    (hcross : crossValidate get (m.got n false false) = .done (v, r)) :
    getReleaseWith m get {} (some n) = .done (true, r) := by
  have hcall : getReleaseWith m get {} (some n) = _ :=
    getReleaseWith_usable m get n false false h
  rw [hcall, hcross, Run.done_bind, named_of_some hc, hc]
  rfl

theorem isSame_done {field : Option Text} {a : Text} (h : t.isValid = true → field ≠ none) :
    isSame t field (some a) = .done (t.isValid && field == some a) := by
  cases hv : t.isValid with
  | false => simp [isSame, hv]
  | true =>
      obtain ⟨b, rfl⟩ := Option.ne_none_iff_exists'.1 (h hv)
      simp [isSame, hv, strcmp]

theorem getRelease_suite (ha : m.lacksArch (m.fields n) = false) (hn : (m.fields n).name = some n)
    (hs : (m.fields n).suite = some s) (hne : s ≠ n)
    (hflat : Usable m s → (m.fields s).suite = none ∨ (m.fields s).suite = some s) :
    ∃ r, getRelease m 1 {} (some n) = .done (true, r) ∧ r.name = some n ∧ r.suite = some s ∧
      (r.isValid = true ↔ shown m s = none ∨ Usable m s ∧ shown m s = some n) := by
  obtain ⟨t, ht, hvalid, hname⟩ := getReleaseWith_flat (m := m) (n := s)
    (fun _ _ => .tooDeep) false true (fun hu => (hflat hu).imp_right .inr) (fun _ => .inr (.inl rfl))
  have hsame : (shown m s).isSome = true →
      isSame t t.name (m.got n false false).name = .done (t.isValid && t.name == some n) := by
    intro hsome
    rw [show (m.got n false false).name = some n from hn]
    refine isSame_done fun hv => ?_
    rw [(hname ((hvalid hsome).1 hv)).1]
    exact Option.isSome_iff_ne_none.1 hsome
  obtain ⟨v, r, hcross, hrn, hrs, hrv⟩ := crossValidate_suite_done (getRelease m 0)
    (r := m.got n false false) hs (by simp [Mirror.got, hs, hne]) (by simp [Mirror.got, hn]) rfl
    ht hsame
  refine ⟨r, getReleaseWith_checked ⟨ha, .inl hn⟩ (hrn.trans hn) hcross, hrn.trans hn, hrs.trans hs,
    hrv.trans ?_⟩
  cases hshown : shown m s with
  | none => simp
  | some c =>
      rw [hshown] at hvalid hname
      simp only [Option.isSome_some, forall_true_left, Bool.and_eq_true, beq_iff_eq, reduceCtorEq,
        false_or] at hvalid ⊢
      rw [hvalid]
      exact and_congr_right fun hu => by rw [(hname hu).1]

theorem getRelease_codename (ha : m.lacksArch (m.fields n) = false)
    (hs : (m.fields n).suite = some n) (hc : (m.fields n).name = some c) (hne : c ≠ n)
    (hflat : Usable m c →
      ((m.fields c).name = none ∨ (m.fields c).name = some c) ∧ (m.fields c).suite ≠ none) :
    ∃ r, getRelease m 1 {} (some n) = .done (true, r) ∧ r.name = some c ∧ r.suite = some n ∧
      (r.isValid = true ↔ shown m c = none ∨ Usable m c ∧ (m.fields c).suite = some n) := by
  obtain ⟨t, ht, hvalid, hname⟩ := getReleaseWith_flat (m := m) (n := c)
    (fun _ _ => .tooDeep) true false (fun _ => .inr (.inl rfl)) (fun hu => (hflat hu).1.imp_right .inr)
  have hsame : (shown m c).isSome = true →
      isSame t t.suite (m.got n false false).suite = .done (t.isValid && t.suite == some n) := by
    intro hsome
    rw [show (m.got n false false).suite = some n from hs]
    refine isSame_done fun hv => ?_
    rw [(hname ((hvalid hsome).1 hv)).2]
    exact (hflat ((hvalid hsome).1 hv)).2
  obtain ⟨v, r, hcross, hrn, hrs, hrv⟩ := crossValidate_codename_done (getRelease m 0)
    (r := m.got n false false) hc (by simp [Mirror.got, hs]) (by simp [Mirror.got, hc, hne]) rfl
    ht hsame
  refine ⟨r, getReleaseWith_checked ⟨ha, .inr hs⟩ (hrn.trans hc) hcross, hrn.trans hc, hrs.trans hs,
    hrv.trans ?_⟩
  cases hshown : shown m c with
  | none => simp
  | some c' =>
      rw [hshown] at hvalid
      simp only [Option.isSome_some, forall_true_left, Bool.and_eq_true, beq_iff_eq, reduceCtorEq,
        false_or] at hvalid ⊢
      rw [hvalid]
      exact and_congr_right fun hu => by rw [(hname hu).2]

theorem getRelease_suite_deep {s' : Text} (ha : m.lacksArch (m.fields n) = false)
    (hn : (m.fields n).name = some n) (hs : (m.fields n).suite = some s) (hne : s ≠ n)
    (hu : Usable m s) (hs' : (m.fields s).suite = some s') (hne' : s' ≠ s) :
    getRelease m 1 {} (some n) = .tooDeep := by
  have hinner : getRelease m 0 { getCodename := true } (some s) = .tooDeep := by
    rw [getRelease, getReleaseWith_usable m _ s false true hu,
      crossValidate_suite _ (r := m.got s false true) hs' (by simp [Mirror.got, hs', hne']) rfl]
    rfl
  have hcall : getRelease m 1 {} (some n) = _ :=
    getReleaseWith_usable m (getRelease m 0) n false false ⟨ha, .inl hn⟩
  rw [hcall, crossValidate_suite _ (r := m.got n false false) hs (by simp [Mirror.got, hs, hne])
    (by simp [Mirror.got, hn]), hinner]
  rfl

/-- The recursion goes on when the codename names a third release, and a release that is got
under the codename only has no suite to compare. -/
theorem getRelease_codename_deep (ha : m.lacksArch (m.fields n) = false)
    (hs : (m.fields n).suite = some n) (hc : (m.fields n).name = some c) (hne : c ≠ n)
    (hu : Usable m c)
    (h : ¬ (((m.fields c).name = none ∨ (m.fields c).name = some c) ∧ (m.fields c).suite ≠ none)) :
    ∀ a, getRelease m 1 {} (some n) ≠ .done a := by
  have hcall : getRelease m 1 {} (some n) = _ :=
    getReleaseWith_usable m (getRelease m 0) n false false ⟨ha, .inr hs⟩
  rw [crossValidate_codename _ (r := m.got n false false) hc (by simp [Mirror.got, hs])
    (by simp [Mirror.got, hc, hne])] at hcall
  by_cases hflat : (m.fields c).name = none ∨ (m.fields c).name = some c
  · -- the suite that is compared is `NULL`
    have hnull : (m.fields c).suite = none := by
      by_contra hsome
      exact h ⟨hflat, hsome⟩
    obtain ⟨t, ht, hvalid, hname⟩ := getReleaseWith_flat (m := m) (n := c)
      (fun _ _ => .tooDeep) true false (fun _ => .inr (.inl rfl)) (fun _ => hflat.imp_right .inr)
    have hsome : (shown m c).isSome = true := Option.isSome_iff_ne_none.2 (shown_ne_none hu)
    rw [show getRelease m 0 = getReleaseWith m fun _ _ => .tooDeep from rfl, ht, Run.done_bind,
      if_pos hsome, isSame, if_pos ((hvalid hsome).2 hu), (hname hu).2, hnull] at hcall
    rw [hcall]
    exact fun a ha => by simp [strcmp] at ha
  · push Not at hflat
    obtain ⟨c', hc'⟩ := Option.ne_none_iff_exists'.1 hflat.1
    have hne' : c' ≠ c := fun he => hflat.2 (he ▸ hc')
    have hsc : (m.fields c).suite = some c := hu.2.resolve_left hflat.2
    have hinner : getRelease m 0 { getSuite := true } (some c) = .tooDeep := by
      rw [getRelease, getReleaseWith_usable m _ c true false hu,
        crossValidate_codename _ (r := m.got c true false) hc' rfl (by simp [Mirror.got, hc', hne'])]
      rfl
    rw [hinner] at hcall
    rw [hcall]
    exact fun a ha => by simp at ha

/-- What `get_release` answers. -/
structure Answers (m : Mirror) (n : Text) (r : Release) : Prop where
  call : getRelease m 1 {} (some n) = .done ((shown m n).isSome, r)
  valid : shown m n ≠ none → (r.isValid = true ↔ Confirmed m n)
  fields : Confirmed m n → r.name = shown m n ∧ r.suite = (m.fields n).suite

/-- The other name has an answer without a third one. -/
theorem Shallow.answers (h : Shallow m) (n : Text) : ∃ r, Answers m n r := by
  by_cases hs : ∃ s, m.lacksArch (m.fields n) = false ∧ (m.fields n).name = some n ∧
      (m.fields n).suite = some s ∧ s ≠ n
  · obtain ⟨s, ha, hn, hs, hne⟩ := hs
    obtain ⟨r, hr, hname, hsuite, hvalid⟩ := getRelease_suite ha hn hs hne
      (h.suite n s ha hn hs hne)
    have hu : Usable m n := ⟨ha, .inl hn⟩
    have hshown := shown_of_usable hu
    rw [hn, Option.getD_some] at hshown
    refine ⟨r, by rw [hshown]; exact hr, fun _ => hvalid.trans ⟨fun hk => ⟨hu, ?_, ?_⟩, fun hk => ?_⟩,
      fun _ => ⟨hname.trans hshown.symm, hsuite.trans hs.symm⟩⟩
    · intro s' _ hs' _
      rw [hs, Option.some.injEq] at hs'
      exact hs' ▸ hk
    · intro c hsn _ _
      rw [hs, Option.some.injEq] at hsn
      exact absurd hsn hne
    · exact hk.2.1 s hn hs hne
  by_cases hc : ∃ c, m.lacksArch (m.fields n) = false ∧ (m.fields n).suite = some n ∧
      (m.fields n).name = some c ∧ c ≠ n
  · obtain ⟨c, ha, hsn, hc, hne⟩ := hc
    obtain ⟨r, hr, hname, hsuite, hvalid⟩ := getRelease_codename ha hsn hc hne
      (h.codename n c ha hsn hc hne)
    have hu : Usable m n := ⟨ha, .inr hsn⟩
    have hshown := shown_of_usable hu
    rw [hc, Option.getD_some] at hshown
    refine ⟨r, by rw [hshown]; exact hr, fun _ => hvalid.trans ⟨fun hk => ⟨hu, ?_, ?_⟩, fun hk => ?_⟩,
      fun _ => ⟨hname.trans hshown.symm, hsuite.trans hsn.symm⟩⟩
    · intro s hn _ _
      rw [hc, Option.some.injEq] at hn
      exact absurd hn hne
    · intro c' _ hc' _
      rw [hc, Option.some.injEq] at hc'
      exact hc' ▸ hk
    · exact hk.2.2 c hsn hc hne
  · -- both names are the one that was asked for, or there is only one
    have hflat : ∀ hu : Usable m n,
        ((m.fields n).suite = none ∨ (m.fields n).suite = some n) ∧
          ((m.fields n).name = none ∨ (m.fields n).name = some n) := by
      intro hu
      cases hsn : (m.fields n).suite with
      | none => exact ⟨.inl rfl, .inr (hu.2.resolve_right (by simp [hsn]))⟩
      | some s =>
          cases hcn : (m.fields n).name with
          | none =>
              have hs' := hu.2.resolve_left (by simp [hcn])
              exact ⟨.inr (hsn ▸ hs'), .inl rfl⟩
          | some c =>
              have hsame : s = n ∨ c = n := by
                rcases hu.2 with h | h
                · exact .inr (by simpa [hcn] using h)
                · exact .inl (by simpa [hsn] using h)
              have hsn' : s = n := by
                by_contra hne
                exact hs ⟨s, hu.1, by rw [hcn, hsame.resolve_left hne], hsn, hne⟩
              have hcn' : c = n := by
                by_contra hne
                exact hc ⟨c, hu.1, by rw [hsn, hsn'], hcn, hne⟩
              exact ⟨.inr (by rw [hsn']), .inr (by rw [hcn'])⟩
    obtain ⟨r, hr, hvalid, hname⟩ := getReleaseWith_flat (m := m) (n := n) (getRelease m 0) false
      false (fun hu => (hflat hu).1.imp_right .inr) (fun hu => (hflat hu).2.imp_right .inr)
    refine ⟨r, hr, fun hne => (hvalid (Option.isSome_iff_ne_none.2 hne)).trans
      ⟨fun hu => ⟨hu, ?_, ?_⟩, fun hk => hk.1⟩, fun hk => hname hk.1⟩
    · exact fun s hn hs' hne => absurd ⟨s, hu.1, hn, hs', hne⟩ hs
    · exact fun c hs' hc' hne => absurd ⟨c, hu.1, hs', hc', hne⟩ hc

theorem Shallow.of_done (h : ∀ n, ∃ a, getRelease m 1 {} (some n) = .done a) : Shallow m := by
  constructor
  · intro n s ha hn hs hne hu
    by_contra hdeep
    push Not at hdeep
    obtain ⟨s', hs'⟩ := Option.ne_none_iff_exists'.1 hdeep.1
    obtain ⟨a, hdone⟩ := h n
    rw [getRelease_suite_deep ha hn hs hne hu hs' fun he => hdeep.2 (he ▸ hs')] at hdone
    cases hdone
  · intro n c ha hs hc hne hu
    by_contra hdeep
    obtain ⟨a, hdone⟩ := h n
    exact getRelease_codename_deep ha hs hc hne hu hdeep a hdone

end Depth

/-! ## `find_releases` -/

section Find

variable {m : Mirror} {dflt : Option Text}

theorem isDefaultSuite_done (hname : r.name ≠ none) :
    (∃ b, isDefaultSuite r dflt = .done b) ↔
      dflt ≠ none ∧ (r.name = dflt ∨ r.suite ≠ none) := by
  obtain ⟨a, ha⟩ := Option.ne_none_iff_exists'.1 hname
  rw [isDefaultSuite, ha]
  cases dflt with
  | none => simp [strcmp]
  | some d =>
      simp only [strcmp, Run.done_bind]
      by_cases he : a = d
      · simp [he]
      · cases r.suite <;> simp [he]

theorem length_list_le (s : Search) (suite : Text) (r : Release) (b : Bool) :
    (s.list suite r b).releases.length ≤ s.releases.length + 1 := by
  rw [Search.list]
  split <;> simp

/-- The comparisons in the loop. -/
def Named (m : Mirror) (dflt : Option Text) (l : List Text) : Prop :=
  ∀ pre n post, l = pre ++ n :: post → (∀ k ∈ pre, ¬ Broken m k) → Confirmed m n →
    dflt ≠ none ∧ (shown m n = dflt ∨ (m.fields n).suite ≠ none)

theorem named_cons {n : Text} {l : List Text} : Named m dflt (n :: l) ↔
    (Confirmed m n → dflt ≠ none ∧ (shown m n = dflt ∨ (m.fields n).suite ≠ none)) ∧
      (¬ Broken m n → Named m dflt l) := by
  constructor
  · refine fun h => ⟨fun hk => h [] n l rfl (by simp) hk, fun hb pre k post hl hpre hk => ?_⟩
    refine h (n :: pre) k post (by rw [hl]; rfl) ?_ hk
    simpa using ⟨hb, hpre⟩
  · rintro ⟨hn, hl⟩ pre k post heq hpre hk
    cases pre with
    | nil =>
        obtain ⟨rfl, rfl⟩ := List.cons.inj heq
        exact hn hk
    | cons n' pre =>
        obtain ⟨rfl, rfl⟩ := List.cons.inj heq
        exact hl (hpre n (by simp)) pre k post rfl (fun j hj => hpre j (by simp [hj])) hk

theorem findSuites_done (h : Shallow m) (l : List Text) (s : Search)
    (hlen : s.releases.length + l.length ≤ maxReleases) (hs : s.badMirror = false) :
    (∃ s', findSuites (getRelease m 1) dflt l s = .done s') ↔ Named m dflt l := by
  induction l generalizing s with
  | nil =>
      refine ⟨fun _ pre n post heq => by simp at heq, fun _ => ⟨s, rfl⟩⟩
  | cons n l ih =>
      obtain ⟨r, hr⟩ := h.answers n
      rw [List.length_cons] at hlen
      rw [named_cons, findSuites, if_neg (by omega), hr.call, Run.done_bind]
      cases hshown : shown m n with
      | none =>
          have hk : ¬ Confirmed m n := fun hk => shown_ne_none hk.1 hshown
          have hb : ¬ Broken m n := fun hb => hb.1 hshown
          simp only [Option.isSome_none, Bool.false_eq_true, if_false]
          rw [ih s (by omega) hs]
          simp [hk, hb]
      | some c =>
          have hne : shown m n ≠ none := by simp [hshown]
          simp only [Option.isSome_some, if_true]
          by_cases hk : Confirmed m n
          swap
          · have hb : Broken m n := ⟨hne, hk⟩
            rw [if_neg fun hv => hk ((hr.valid hne).1 hv)]
            simp [hk, hb]
          have hb : ¬ Broken m n := fun hb => hb.2 hk
          obtain ⟨hrn, hrs⟩ := hr.fields hk
          rw [if_pos ((hr.valid hne).2 hk)]
          have hdone : (∃ b, isDefaultSuite r dflt = .done b) ↔ _ :=
            isDefaultSuite_done (by rw [hrn]; exact hne)
          rw [hrn, hrs, hshown] at hdone
          simp only [hk, hb, forall_true_left, not_false_eq_true]
          rw [← hdone]
          constructor
          · rintro ⟨s', hs'⟩
            cases hcmp : isDefaultSuite r dflt with
            | tooDeep => simp [hcmp] at hs'
            | nullPassed => simp [hcmp] at hs'
            | done b =>
                rw [hcmp, Run.done_bind] at hs'
                refine ⟨⟨b, rfl⟩, (ih (s.list n r b) ?_ hs).1 ⟨s', hs'⟩⟩
                have := length_list_le s n r b
                omega
          · rintro ⟨⟨b, hcmp⟩, hl⟩
            rw [hcmp, Run.done_bind]
            refine (ih (s.list n r b) ?_ hs).2 hl
            have := length_list_le s n r b
            omega

theorem findSuites_result (h : Shallow m) (l : List Text) {s s' : Search}
    (hlen : s.releases.length + l.length ≤ maxReleases) (hs : s.badMirror = false)
    (hdone : findSuites (getRelease m 1) dflt l s = .done s') :
    (s'.badMirror = false ↔ ∀ k ∈ l, ¬ Broken m k) ∧
      (dflt = none → s'.haveDefault = s.haveDefault) := by
  induction l generalizing s with
  | nil =>
      rw [findSuites] at hdone
      obtain rfl : s = s' := by simpa using hdone
      simp [hs]
  | cons n l ih =>
      obtain ⟨r, hr⟩ := h.answers n
      rw [List.length_cons] at hlen
      rw [findSuites, if_neg (by omega), hr.call, Run.done_bind] at hdone
      simp only [List.forall_mem_cons]
      cases hshown : shown m n with
      | none =>
          have hb : ¬ Broken m n := fun hb => hb.1 hshown
          simp only [hshown, Option.isSome_none, Bool.false_eq_true, if_false] at hdone
          simpa [hb] using ih (by omega) hs hdone
      | some c =>
          have hne : shown m n ≠ none := by simp [hshown]
          simp only [hshown, Option.isSome_some, if_true] at hdone
          by_cases hk : Confirmed m n
          · have hb : ¬ Broken m n := fun hb => hb.2 hk
            rw [if_pos ((hr.valid hne).2 hk)] at hdone
            cases hcmp : isDefaultSuite r dflt with
            | tooDeep => simp [hcmp] at hdone
            | nullPassed => simp [hcmp] at hdone
            | done b =>
                rw [hcmp, Run.done_bind] at hdone
                have hlist := length_list_le s n r b
                obtain ⟨hbad, -⟩ := ih (s := s.list n r b) (by omega) hs hdone
                refine ⟨by simpa [hb] using hbad, fun hd => ?_⟩
                have hcompared := (isDefaultSuite_done (by rw [(hr.fields hk).1]; exact hne)).1
                  ⟨b, hcmp⟩
                exact absurd hd hcompared.1
          · have hb : Broken m n := ⟨hne, hk⟩
            rw [if_neg fun hv => hk ((hr.valid hne).1 hv)] at hdone
            obtain rfl : { s with badMirror := true } = s' := by simpa using hdone
            simp [hb]

theorem isName_none (field : Option Text) :
    isName field none = if field = none then .done false else .nullPassed := by
  cases field <;> rfl

theorem getRelease_null : (∃ a, getRelease m 1 {} none = .done a) ↔
    (m.read {} none).name = none ∧ (m.read {} none).suite = none := by
  have hvalid := read_isValid m none
  rw [getRelease, getReleaseWith]
  by_cases hn : (m.read {} none).name = none
  · by_cases hs : (m.read {} none).suite = none
    · simp [isName_none, hn, hs, hvalid]
    · simp [isName_none, hn, hs]
  · simp [isName_none, hn]

theorem findDefault_done (h : Shallow m) (s : Search) :
    (∃ s', findDefault (getRelease m 1) dflt s = .done s') ↔
      (dflt = none → (m.read {} none).name = none ∧ (m.read {} none).suite = none) := by
  have htotal : (∃ s', findDefault (getRelease m 1) dflt s = .done s') ↔
      ∃ a, getRelease m 1 {} dflt = .done a := by
    rw [findDefault]
    cases getRelease m 1 {} dflt with
    | tooDeep => simp
    | nullPassed => simp
    | done a =>
        obtain ⟨found, release⟩ := a
        cases found
        · simp
        · cases hv : release.isValid <;> simp [hv]
  rw [htotal]
  cases dflt with
  | none => simpa using getRelease_null
  | some d =>
      obtain ⟨r, hr⟩ := h.answers d
      simp [hr.call]

theorem findReleases_done (h : Shallow m) (baseOnCd : Bool) :
    (∃ s, findReleases m baseOnCd dflt 1 = .done s) ↔ SuitesNamed m baseOnCd dflt := by
  cases baseOnCd with
  | true =>
      have hlast : (∃ s', findDefault (getRelease m 1) dflt {} = .done s') ↔ _ :=
        findDefault_done h {}
      rw [findReleases, if_pos rfl, Run.pure_eq, Run.done_bind]
      dsimp only
      rw [if_pos ⟨rfl, .inl rfl⟩, hlast]
      exact ⟨fun hl => ⟨by simp, fun hd _ => hl hd⟩, fun hl hd => hl.default hd (.inl rfl)⟩
  | false =>
      have hsuites : (∃ s', findSuites (getRelease m 1) dflt suites {} = .done s') ↔ _ :=
        findSuites_done h suites {} (by decide) rfl
      rw [findReleases, if_neg (by simp)]
      cases hrun : findSuites (getRelease m 1) dflt suites {} with
      | tooDeep =>
          rw [hrun] at hsuites
          refine ⟨fun hs => by simp at hs, fun hl => ?_⟩
          simpa using hsuites.2 (hl.suite rfl)
      | nullPassed =>
          rw [hrun] at hsuites
          refine ⟨fun hs => by simp at hs, fun hl => ?_⟩
          simpa using hsuites.2 (hl.suite rfl)
      | done s =>
          obtain ⟨hbad, hdflt⟩ := findSuites_result h suites (s := {}) (by decide) rfl hrun
          have hnamed := hsuites.1 ⟨s, hrun⟩
          have hlast : (∃ s', findDefault (getRelease m 1) dflt s = .done s') ↔ _ :=
            findDefault_done h s
          rw [Run.done_bind]
          dsimp only
          constructor
          · refine fun hs => ⟨fun _ => hnamed, fun hd hk => ?_⟩
            have hk' : s.badMirror = false := hbad.2 (by simpa using hk)
            rw [if_pos ⟨hk', .inr (hdflt hd)⟩, hlast] at hs
            exact hs hd
          · intro hl
            split
            · next hcond => exact hlast.2 fun hd => hl.default hd (.inr (hbad.1 hcond.1))
            · exact ⟨s, rfl⟩

end Find

/-- Every call of `get_release` returns after one cross-check at most, `find_releases` returns,
and none of them passes `NULL` to `strcmp`, exactly if the releases of the mirror are shallow
and those that are compared with the default one are named. -/
theorem getRelease_findReleases_iff (m : Mirror) (baseOnCd : Bool) (defaultSuite : Option Text) :
    ((∀ name, ∃ a, getRelease m 1 {} (some name) = .done a) ∧
      ∃ s, findReleases m baseOnCd defaultSuite 1 = .done s) ↔
    Shallow m ∧ SuitesNamed m baseOnCd defaultSuite := by
  constructor
  · rintro ⟨hget, hfind⟩
    have h := Shallow.of_done hget
    exact ⟨h, (findReleases_done h baseOnCd).1 hfind⟩
  · rintro ⟨h, hnamed⟩
    refine ⟨fun name => ?_, (findReleases_done h baseOnCd).2 hnamed⟩
    obtain ⟨r, hr⟩ := h.answers name
    exact ⟨_, hr.call⟩

/-! ## Two mirrors -/

/-- Two releases that each name the other one as their suite. -/
def ring : Mirror where
  file n :=
    if n = "etch" then some "Suite: lenny\nCodename: etch\n"
    else if n = "lenny" then some "Suite: etch\nCodename: lenny\n"
    else none
  archText := "i386"

/-- A stable release whose codename is `stable`, and that has no suite. -/
def noSuite : Mirror where
  file n := if n = "stable" then some "Codename: stable\n" else none
  archText := "i386"

theorem ring_step (get : Get) {a b : Text} (gc : Bool) (ha : (ring.fields a).name = some a)
    (hb : (ring.fields a).suite = some b) (hne : b ≠ a) (harch : (ring.fields a).archs = none)
    (hget : get { getCodename := true } (some b) = .tooDeep) :
    getReleaseWith ring get { getCodename := gc } (some a) = .tooDeep := by
  have hu : Usable ring a := ⟨by rw [Mirror.lacksArch, harch]; rfl, .inl ha⟩
  rw [getReleaseWith_usable ring get a false gc hu,
    crossValidate_suite get (r := ring.got a false gc) hb (by simp [Mirror.got, hb, hne])
      (by simp [Mirror.got, ha]), hget]
  rfl

theorem ring_tooDeep (depth : ℕ) (gc : Bool) :
    getRelease ring depth { getCodename := gc } (some "etch") = .tooDeep ∧
      getRelease ring depth { getCodename := gc } (some "lenny") = .tooDeep := by
  induction depth generalizing gc with
  | zero =>
      exact ⟨ring_step (b := "lenny") _ gc (by decide) (by decide)
          (by decide) (by decide) rfl,
        ring_step (b := "etch") _ gc (by decide) (by decide)
          (by decide) (by decide) rfl⟩
  | succ depth ih =>
      exact ⟨ring_step (b := "lenny") _ gc (by decide) (by decide)
          (by decide) (by decide) (ih true).2,
        ring_step (b := "etch") _ gc (by decide) (by decide)
          (by decide) (by decide) (ih true).1⟩

/-- On the ring `get_release` does not come back from any depth, and without a suite
`find_releases` passes `NULL` to `strcmp`. -/
theorem getRelease_findReleases_fail :
    (∀ depth, getRelease ring depth {} (some "etch") = .tooDeep) ∧
      findReleases noSuite false (some "sid") 1 = .nullPassed :=
  ⟨fun depth => (ring_tooDeep depth false).1, by decide⟩

end DebianInstaller.ChooseMirror
