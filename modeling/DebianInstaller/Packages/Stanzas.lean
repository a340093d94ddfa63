import DebianInstaller.Packages.Listed

/-!
# The fields of a stanza and its package

`di_packages_special_read_file` has no `entry_new`, so each stanza begins with a `NULL` entry,
and only the reader of the `Package` field sets one. A field in front of that is written to an
address near `NULL`. A second `Package` field with another name leaves the fields behind it in
another package than those before it. And a `Package` field without a value makes a package
that the table forgets, and destroys, when a dependency has no name either: an empty name is
never found, so each one makes a package of its own that replaces the last.

The stanza of a call is what is around it up to the next `entry_new` on either side. While the
calls are made, the last `Package` field of the stanza so far has the package that the entry
is; a dependency keeps that as long as not both are without a name.
-/

namespace DebianInstaller.Packages.Reader

/-! ## What is claimed of a file -/

def sameStanza (e : Event Field) : Bool := decide (e ≠ .entryNew)

/-- The calls for the stanza that a call is in. -/
def ownStanza (before : List (Event Field)) (e : Event Field) (after : List (Event Field)) :
    List (Event Field) :=
  before.rtakeWhile sameStanza ++ e :: after.takeWhile sameStanza

/-- The values of the `Package` fields. -/
def packageNames (events : List (Event Field)) : List Text :=
  events.filterMap fun
    | .read .package value => some value
    | _ => none

/-- A field is read with an entry, which is the package that the `Package` fields of its own
stanza name, before and afterwards. -/
def Stored (before : List (Event Field)) (fip : Field) (value : Text)
    (after : List (Event Field)) : Prop :=
  ∃ r r' p, run {} (before.map .parse) = some r ∧ r.step (.parse (.read fip value)) = some r' ∧
    r.data = some p ∧ packageNames (ownStanza before (.read fip value) after) ≠ [] ∧
    ∀ name ∈ packageNames (ownStanza before (.read fip value) after),
      r.getPackage (cstring name) = some p ∧ r'.getPackage (cstring name) = some p

/-- No reader is given `NULL`, and every field is stored in the package of its own stanza. -/
def StoresOwn (lookup : Text → Option Field) (file behind : Text) : Prop :=
  ∀ a ∈ diParserRfc822Read lookup file behind, specialReadFile lookup file behind ≠ none ∧
    ∀ before fip value after, a.1 = before ++ .read fip value :: after → fip ≠ .package →
      Stored before fip value after

/-- The stanza of a field begins with a `Package` field and has no other name, and not both the
package and a dependency in the field are without a name. -/
def Headed (before : List (Event Field)) (fip : Field) (value : Text)
    (after : List (Event Field)) : Prop :=
  ∃ name rest, ownStanza before (.read fip value) after = .read .package name :: rest ∧
    (∀ name' ∈ packageNames rest, rstringKeys.equal (cstring name) (cstring name') = true) ∧
    ((cstring name).string = [] → ∀ type, fip = .dependency type →
      ∀ n ∈ dependencyNames value.length value, n.string ≠ [])

/-- Every field but `Package` is in such a stanza. -/
def AllHeaded (events : List (Event Field)) : Prop :=
  ∀ before fip value after, events = before ++ .read fip value :: after → fip ≠ .package →
    Headed before fip value after

/-! ## The table -/

variable {r : Reader}

theorem getPackage_equal {a b : RString} (h : rstringKeys.equal a b = true) :
    r.getPackage a = r.getPackage b := by
  rw [getPackage, getPackage, lookup_eq, lookup_eq]
  exact congrArg Option.join
    (value_congr (K := packageKeys) (a := ⟨a, none⟩) (b := ⟨b, none⟩) h)

/-- What the table loses and gets when a package of a name is looked for or made. -/
structure Got (r : Reader) (name : RString) (r' : Reader) (p : ℕ) : Prop where
  sound : r'.Sound
  data : r'.data = r.data
  next : r.next ≤ r'.next
  found : r'.getPackage name = some p
  kept : ∀ v q, r.getPackage v = some q → (v.string = [] → name.string ≠ []) →
    r'.getPackage v = some q
  made : name.string = [] → r.next ≤ p
  same : ∀ q < r.next, r'.nameOf q = r.nameOf q
  fresh : ∀ q, r.next ≤ q → q < r'.next → r'.nameOf q = name

theorem Sound.modify (h : r.Sound) (p : ℕ) (f : Package ℕ → Package ℕ)
    (hname : (f (r.heap p)).package = (r.heap p).package) : (r.modify p f).Sound :=
  h.congr rfl le_rfl fun q _ => modify_nameOf hname q

theorem Got.modify {name : RString} {r' : Reader} {p : ℕ} (h : Got r name r' p) (q : ℕ)
    (f : Package ℕ → Package ℕ) (hname : (f (r'.heap q)).package = (r'.heap q).package) :
    Got r name (r'.modify q f) p where
  sound := h.sound.modify q f hname
  data := h.data
  next := h.next
  found := h.found
  kept := h.kept
  made := h.made
  same := fun x hx => (modify_nameOf hname x).trans (h.same x hx)
  fresh := fun x hle hlt => (modify_nameOf hname x).trans (h.fresh x hle hlt)

theorem Sound.getPackageNew (h : r.Sound) (name : RString) :
    Got r name (r.getPackageNew name).1 (r.getPackageNew name).2 := by
  rw [Reader.getPackageNew]
  cases hfind : r.find name with
  | some p =>
      have hne : name.string ≠ [] := by
        intro he
        rw [find, if_pos he] at hfind
        cases hfind
      rw [find, if_neg hne] at hfind
      exact ⟨h, rfl, le_rfl, hfind, fun _ _ hq _ => hq, fun he => absurd he hne, fun _ _ => rfl,
        fun _ hle hlt => absurd hle (Nat.not_le.2 hlt)⟩
  | none =>
      obtain ⟨hins, hname, hold⟩ := h.insert_new hfind
      have hnext : ((r.alloc { package := name.string }).insert r.next).next = r.next + 1 :=
        hins.next
      refine ⟨hins.sound, hins.data, (Nat.le_succ _).trans_eq hnext.symm, ?_,
        fun v q hq hne => ?_, fun _ => le_rfl, fun q hq => ?_, fun q hle hlt => ?_⟩
      · rw [hins.getPackage, hname, if_pos (rstringKeys.refl name)]
      · have hother : rstringKeys.equal name v ≠ true := by
          intro hequal
          rw [← getPackage_equal hequal] at hq
          have hnil := hold q hq
          have hv := eq_empty_of_equal (rstringKeys.symm hequal) hnil
          exact hne (by rw [hv]; rfl) hnil
        rw [hins.getPackage, hname, if_neg hother]
        exact hq
      · rw [hins.name, nameOf, nameOf, alloc_old _ hq]
      · obtain rfl : q = r.next :=
          Nat.le_antisymm (Nat.le_of_lt_succ (hlt.trans_eq hnext)) hle
        rw [hins.name, hname]

/-! ## The readers -/

theorem Sound.readDependencyName (h : r.Sound) (type : DependencyType) (p : ℕ) (name : RString) :
    ∃ q, Got r name (r.readDependencyName type p name) q := by
  have hgot := h.getPackageNew name
  rw [Reader.readDependencyName]
  generalize r.getPackageNew name = a at *
  obtain ⟨r', q⟩ := a
  dsimp only at hgot ⊢
  have hdepends := hgot.modify p
    (fun package => { package with depends := package.depends ++ [⟨type, q⟩] }) rfl
  refine ⟨q, ?_⟩
  split
  · exact hdepends.modify q _ (provided_package _ _).1
  · exact hdepends.modify q _ (provided_package _ _).1
  · exact hdepends

/-- What a dependency field does to the table. -/
structure Depended (r : Reader) (names : List RString) (r' : Reader) : Prop where
  sound : r'.Sound
  data : r'.data = r.data
  next : r.next ≤ r'.next
  kept : ∀ v q, r.getPackage v = some q → (v.string = [] → ∀ n ∈ names, n.string ≠ []) →
    r'.getPackage v = some q
  made : ∀ v : RString, v.string = [] → ∀ n ∈ names, n.string = [] →
    ∃ q, r'.getPackage v = some q ∧ r.next ≤ q
  same : ∀ q < r.next, r'.nameOf q = r.nameOf q
  fresh : ∀ q, r.next ≤ q → q < r'.next → r'.nameOf q ∈ names

theorem Sound.foldl_readDependencyName (h : r.Sound) (type : DependencyType) (p : ℕ)
    (names : List RString) :
    Depended r names (names.foldl (Reader.readDependencyName type p) r) := by
  induction names generalizing r with
  | nil => exact ⟨h, rfl, le_rfl, fun _ _ hq _ => hq, fun _ _ n hn => (nomatch hn),
      fun _ _ => rfl, fun _ hle hlt => absurd hle (Nat.not_le.2 hlt)⟩
  | cons name names ih =>
      obtain ⟨q, hgot⟩ := h.readDependencyName type p name
      have hrest := ih hgot.sound
      rw [List.foldl_cons]
      refine ⟨hrest.sound, hrest.data.trans hgot.data, hgot.next.trans hrest.next,
        fun v x hx hne => ?_, fun v hv n hn he => ?_,
        fun x hx => (hrest.same x (hx.trans_le hgot.next)).trans (hgot.same x hx),
        fun x hle hlt => ?_⟩
      · refine hrest.kept v x (hgot.kept v x hx fun hv => ?_) fun hv n hn => ?_
        · exact hne hv name List.mem_cons_self
        · exact hne hv n (List.mem_cons_of_mem _ hn)
      · by_cases hlater : ∃ n' ∈ names, n'.string = []
        · obtain ⟨n', hn', he'⟩ := hlater
          obtain ⟨x, hx, hle⟩ := hrest.made v hv n' hn' he'
          exact ⟨x, hx, hgot.next.trans hle⟩
        · push Not at hlater
          obtain rfl : n = name := by
            rcases List.mem_cons.1 hn with hn | hn
            · exact hn
            · exact absurd he (hlater n hn)
          obtain rfl : v = n := rstring_ext (hv.trans he.symm)
          exact ⟨q, hrest.kept v q hgot.found fun _ => hlater, hgot.made he⟩
      · by_cases hx : x < (r.readDependencyName type p name).next
        · rw [hrest.same x hx, hgot.fresh x hle hx]
          exact List.mem_cons_self
        · exact List.mem_cons_of_mem _ (hrest.fresh x (Nat.not_lt.1 hx) hlt)

theorem Sound.readName (h : r.Sound) (value : Text) :
    ∃ p, (r.readName value).Sound ∧ (r.readName value).data = some p ∧
      (r.readName value).getPackage (cstring value) = some p := by
  have hgot := h.getPackageNew (cstring value)
  rw [Reader.readName]
  generalize r.getPackageNew (cstring value) = a at *
  obtain ⟨r', p⟩ := a
  have hreal := hgot.modify p (fun package => { package with type := .realPackage }) rfl
  exact ⟨p, hreal.sound.congr rfl le_rfl fun _ _ => rfl, rfl, hreal.found⟩

theorem Sound.readDependency (h : r.Sound) (type : DependencyType) (p : ℕ) (value : Text) :
    Depended r (dependencyNames value.length value) (r.readDependency type p value) :=
  h.foldl_readDependencyName type p _

theorem Sound.parse (h : r.Sound) {e : Event Field} {r' : Reader}
    (hr : r.step (.parse e) = some r') : r'.Sound := by
  cases e with
  | entryNew =>
      obtain rfl := Option.some.inj hr
      exact h.congr rfl le_rfl fun _ _ => rfl
  | read fip value =>
      cases fip with
      | package =>
          obtain rfl := Option.some.inj hr
          obtain ⟨p, hsound, -⟩ := h.readName value
          exact hsound
      | dependency type =>
          obtain ⟨p, -, rfl⟩ := Option.map_eq_some_iff.1 hr
          exact (h.readDependency type p value).sound
      | other =>
          obtain ⟨p, -, rfl⟩ := Option.map_eq_some_iff.1 hr
          exact h

/-! ## The calls of a stanza -/

theorem packageNames_append (a b : List (Event Field)) :
    packageNames (a ++ b) = packageNames a ++ packageNames b := List.filterMap_append

theorem run_concat (before : List (Event Field)) (e : Event Field) :
    run r ((before ++ [e]).map .parse) = (run r (before.map .parse)).bind (step · (.parse e)) := by
  rw [List.map_append, run, List.foldlM_append]
  exact Option.bind_congr fun r' _ => by simp [List.foldlM]

/-- The state after some calls: the entry is the package of the last `Package` field of the
stanza, and `NULL` in front of that. -/
structure Within (r : Reader) (own : List (Event Field)) : Prop where
  sound : r.Sound
  first : packageNames own = [] → r.data = none
  last : ∀ name ∈ (packageNames own).getLast?, ∃ p, r.data = some p ∧
    r.getPackage (cstring name) = some p

theorem new_within : Within {} [] :=
  ⟨new_good.sound, fun _ => rfl, fun _ hname => nomatch hname⟩

theorem Within.entryNew {own : List (Event Field)} (h : Within r own) :
    Within { r with data := none } [] :=
  ⟨h.sound.congr rfl le_rfl fun _ _ => rfl, fun _ => rfl, fun _ hname => nomatch hname⟩

theorem Within.readName {own : List (Event Field)} (h : Within r own) (value : Text) :
    Within (r.readName value) (own ++ [.read .package value]) := by
  have hnames : packageNames (own ++ [.read .package value]) = packageNames own ++ [value] := by
    rw [packageNames_append]
    rfl
  obtain ⟨p, hsound, hdata, hget⟩ := h.sound.readName value
  refine ⟨hsound, fun hnil => ?_, fun name hname => ?_⟩
  · rw [hnames] at hnil
    simp at hnil
  · rw [hnames, List.getLast?_concat] at hname
    obtain rfl := Option.some.inj hname
    exact ⟨p, hdata, hget⟩

variable {before after : List (Event Field)} {fip : Field} {value : Text}

theorem Headed.step (h : Headed before fip value after) (hfip : fip ≠ .package)
    (hr : Within r (before.rtakeWhile sameStanza)) :
    ∃ r' p, r.step (.parse (.read fip value)) = some r' ∧ r.data = some p ∧
      r'.data = some p ∧ packageNames (before.rtakeWhile sameStanza) ≠ [] ∧
      ∀ name ∈ packageNames (ownStanza before (.read fip value) after),
        r.getPackage (cstring name) = some p ∧ r'.getPackage (cstring name) = some p := by
  obtain ⟨name, rest, hown, hnames, hempty⟩ := h
  have hequal : ∀ name' ∈ packageNames (ownStanza before (.read fip value) after),
      rstringKeys.equal (cstring name) (cstring name') = true := by
    intro name' hname'
    rw [hown] at hname'
    rcases List.mem_cons.1 hname' with rfl | hname'
    · exact rstringKeys.refl _
    · exact hnames name' hname'
  obtain ⟨own, hbefore⟩ : ∃ own, before.rtakeWhile sameStanza = .read .package name :: own := by
    rw [ownStanza] at hown
    rcases hcase : before.rtakeWhile sameStanza with _ | ⟨e, own⟩
    · rw [hcase] at hown
      exact absurd (Event.read.inj (List.cons.inj hown).1).1 hfip
    · rw [hcase] at hown
      exact ⟨own, by rw [(List.cons.inj hown).1]⟩
  have hne : packageNames (before.rtakeWhile sameStanza) ≠ [] := by
    rw [hbefore]
    exact List.cons_ne_nil _ _
  obtain ⟨p, hdata, hlast⟩ := hr.last _ (List.getLast?_eq_some_getLast hne)
  have hget : r.getPackage (cstring name) = some p := by
    rw [← hlast]
    refine getPackage_equal (hequal _ ?_)
    rw [ownStanza, packageNames_append]
    exact List.mem_append_left _ (List.getLast_mem hne)
  cases fip with
  | package => exact absurd rfl hfip
  | dependency type =>
      have hdep := hr.sound.readDependency type p value
      have hkept := hdep.kept _ p hget fun he => hempty he type rfl
      refine ⟨_, p, by rw [Reader.step, hdata]; rfl, hdata, hdep.data.trans hdata, hne,
        fun name' hname' => ?_⟩
      exact ⟨getPackage_equal (hequal name' hname') ▸ hget,
        (getPackage_equal (hequal name' hname')).symm.trans hkept⟩
  | other =>
      refine ⟨r, p, by rw [Reader.step, hdata]; rfl, hdata, hdata, hne, fun name' hname' => ?_⟩
      have hname := getPackage_equal (r := r) (hequal name' hname')
      exact ⟨hname ▸ hget, hname ▸ hget⟩

theorem AllHeaded.within {events : List (Event Field)} (h : AllHeaded events) :
    ∀ before after, events = before ++ after →
      ∃ r, run {} (before.map .parse) = some r ∧ Within r (before.rtakeWhile sameStanza) := by
  intro before
  induction before using List.reverseRecOn with
  | nil => exact fun after _ => ⟨{}, rfl, new_within⟩
  | append_singleton before e ih =>
      intro after he
      obtain ⟨r, hrun, hr⟩ := ih (e :: after) (by rw [he, List.append_assoc]; rfl)
      rw [run_concat, hrun, Option.bind_some]
      cases e with
      | entryNew =>
          rw [List.rtakeWhile_concat_neg _ _ _ (by decide)]
          exact ⟨_, rfl, hr.entryNew⟩
      | read fip value =>
          rw [List.rtakeWhile_concat_pos _ _ _ (by rfl)]
          by_cases hfip : fip = .package
          · subst hfip
            exact ⟨_, rfl, hr.readName value⟩
          · have hhead := h before fip value after (by rw [he, List.append_assoc]; rfl) hfip
            obtain ⟨r', p, hstep, -, hdata, hne, hget⟩ := hhead.step hfip hr
            have hnames : packageNames (before.rtakeWhile sameStanza ++ [.read fip value]) =
                packageNames (before.rtakeWhile sameStanza) := by
              rw [packageNames_append]
              cases fip <;> simp_all [packageNames]
            refine ⟨r', hstep, hr.sound.parse hstep, fun hnil => absurd (hnames ▸ hnil) hne,
              fun name hname => ?_⟩
            rw [hnames] at hname
            refine ⟨p, hdata, (hget name ?_).2⟩
            rw [ownStanza, packageNames_append]
            exact List.mem_append_left _ (List.mem_of_mem_getLast? hname)

theorem AllHeaded.stored {events : List (Event Field)} (h : AllHeaded events)
    (he : events = before ++ .read fip value :: after) (hfip : fip ≠ .package) :
    Stored before fip value after := by
  obtain ⟨r, hrun, hr⟩ := h.within before _ he
  obtain ⟨r', p, hstep, hdata, -, hne, hget⟩ := (h before fip value after he hfip).step hfip hr
  refine ⟨r, r', p, hrun, hstep, hdata, ?_, hget⟩
  rw [ownStanza, packageNames_append]
  exact List.append_ne_nil_of_left_ne_nil hne _

/-! ## Fields without an entry -/

theorem sound_run {events : List (Event Field)} (h : run {} (events.map .parse) = some r) :
    r.Sound := by
  induction events using List.reverseRecOn generalizing r with
  | nil =>
      obtain rfl := Option.some.inj h
      exact new_good.sound
  | append_singleton before e ih =>
      rw [run_concat] at h
      obtain ⟨r₀, hrun, hstep⟩ := Option.bind_eq_some_iff.1 h
      exact (ih hrun).parse hstep

theorem data_eq_none (hown : before.rtakeWhile sameStanza = [])
    (h : run {} (before.map .parse) = some r) : r.data = none := by
  rcases List.eq_nil_or_concat' before with rfl | ⟨before, e, rfl⟩
  · obtain rfl := Option.some.inj h
    rfl
  · rw [run_concat] at h
    obtain ⟨r₀, -, hstep⟩ := Option.bind_eq_some_iff.1 h
    cases e with
    | entryNew =>
        obtain rfl := Option.some.inj hstep
        rfl
    | read fip value =>
        rw [List.rtakeWhile_concat_pos _ _ _ (by rfl)] at hown
        simp at hown

theorem rtakeWhile_rdropWhile {α : Type} (p : α → Bool) (l : List α) :
    (l.rdropWhile p).rtakeWhile p = [] :=
  List.rtakeWhile_eq_nil_iff.2 fun hne => List.rdropWhile_last_not p l hne

theorem exists_ownStanza (h : ∀ before' fip' value' after', before ++ .read fip value :: after =
      before' ++ .read fip' value' :: after' → fip' ≠ .package →
      Stored before' fip' value' after') (hfip : fip ≠ .package) :
    ∃ name rest, ownStanza before (.read fip value) after = .read .package name :: rest := by
  rcases hown : before.rtakeWhile sameStanza with _ | ⟨e, own⟩
  · obtain ⟨r, r', p, hrun, -, hdata, -⟩ := h before fip value after rfl hfip
    rw [data_eq_none hown hrun] at hdata
    cases hdata
  · have hsplit := List.rdropWhile_append_rtakeWhile (p := sameStanza) (l := before)
    rw [hown] at hsplit
    have hsame : sameStanza e = true := by
      refine List.mem_rtakeWhile_imp (l := before) ?_
      rw [hown]
      exact List.mem_cons_self
    rw [ownStanza, hown]
    cases e with
    | entryNew => cases hsame
    | read fip' value' =>
        by_cases hfip' : fip' = .package
        · subst hfip'
          exact ⟨value', _, rfl⟩
        · have he : before ++ .read fip value :: after = before.rdropWhile sameStanza ++
              .read fip' value' :: (own ++ .read fip value :: after) := by
            conv_lhs => rw [← hsplit]
            simp
          obtain ⟨r, r', p, hrun, -, hdata, -⟩ := h _ fip' value' _ he hfip'
          rw [data_eq_none (rtakeWhile_rdropWhile sameStanza before) hrun] at hdata
          cases hdata

theorem Stored.headed (h : Stored before fip value after)
    (hfirst : ∃ name rest, ownStanza before (.read fip value) after = .read .package name :: rest) :
    Headed before fip value after := by
  obtain ⟨r, r', p, hrun, hstep, hdata, -, hget⟩ := h
  obtain ⟨name, rest, hown⟩ := hfirst
  have hsound := sound_run hrun
  rw [hown] at hget
  obtain ⟨hname, hname'⟩ := hget name List.mem_cons_self
  obtain ⟨hlt, hequal, -⟩ := hsound.getPackage_nameOf hname
  refine ⟨name, rest, hown, fun other hother => ?_, fun he type htype n hn hnil => ?_⟩
  · have hother := (hget other (List.mem_cons_of_mem _ hother)).1
    exact rstringKeys.trans (rstringKeys.symm hequal) (hsound.getPackage_nameOf hother).2.1
  · subst htype
    rw [Reader.step, hdata] at hstep
    obtain rfl := Option.some.inj hstep
    obtain ⟨q, hq, hle⟩ := (hsound.readDependency type p value).made _ he n hn hnil
    rw [hname'] at hq
    obtain rfl := Option.some.inj hq
    omega

/-! ## Files -/

/-- Every field of a file is stored in the package of its own stanza, exactly if each stanza with
a field has one name and begins with it, and no field of a stanza without a name depends on a
package without a name. -/
theorem specialReadFile_storesOwn_iff (lookup : Text → Option Field) (file behind : Text) :
    StoresOwn lookup file behind ↔
      ∀ a ∈ diParserRfc822Read lookup file behind, AllHeaded a.1 := by
  constructor
  · rintro h a ha before fip value after he hfip
    have hstored := (h a ha).2
    rw [he] at hstored
    exact (hstored before fip value after rfl hfip).headed (exists_ownStanza hstored hfip)
  · rintro h ⟨events, nr⟩ ha
    have hall := h _ ha
    refine ⟨?_, fun before fip value after he hfip => hall.stored he hfip⟩
    obtain ⟨r, hrun, -⟩ := hall.within events [] (List.append_nil _).symm
    rw [specialReadFile, Option.mem_def.1 ha]
    dsimp only
    rw [hrun]
    exact Option.some_ne_none _

/-- A version in front of the name. -/
theorem specialReadFile_versionFirst :
    ¬ StoresOwn packagesInfo "Version: 1\nPackage: a\n\n" [] := by
  intro h
  obtain ⟨a, ha⟩ := Option.isSome_iff_exists.1 (show
    (diParserRfc822Read packagesInfo "Version: 1\nPackage: a\n\n" []).isSome = true by
      decide +kernel)
  exact (h a ha).1 (by decide +kernel)

end DebianInstaller.Packages.Reader
