import DebianInstaller.Packages.Dependencies

/-!
# The writer of a dependency field

`di_package_parser_write_dependency` joins the names of the dependencies of a type in a buffer.
Before a name is appended the buffer grows by 1024 bytes if the names so far and the new one are
longer than it is. The NUL that `strcat` writes is not counted, so names that fill the buffer
have it written behind the end; and it grows once, however long the name is. An empty first name
needs no buffer, and is appended to `NULL`.

After each name the buffer has the names and a NUL in it, and is as long as the next multiple of
1024 above the length of the names; a name fits if that multiple is reached by one step.
-/

namespace DebianInstaller.Packages

variable {before names : List Text}

/-! ## The code -/

/-- `strlen` in a buffer. -/
def strlen : Text → Option ℕ
  | [] => none
  | c :: buffer => if c = '\x00' then some 0 else (strlen buffer).map (· + 1)

/-- `strcat`, and a fault if it gets to the end of the buffer. -/
def strcat (buffer s : Text) : Option Text :=
  (strlen buffer).bind fun n =>
    if n + s.length < buffer.length then
      some (buffer.take n ++ (s ++ '\x00' :: buffer.drop (n + s.length + 1)))
    else none

/-- `value`. Its string is `NULL` or a buffer of `value_size` bytes. -/
structure Value where
  string : Text := []
  size : ℕ := 0

variable {value : Value}

/-- `di_renew`, and a NUL behind what was there. `fresh` is what the new memory holds. -/
def renew (fresh : ℕ → Char) (buffer : Text) : Text :=
  buffer ++ '\x00' :: (List.range 1023).map fun i => fresh (buffer.length + 1 + i)

/-- One name in `di_package_parser_write_dependency`. -/
def writeName (fresh : ℕ → Char) (value : Value) (name : Text) : Option Value :=
  let needed := if value.size ≠ 0 then name.length + 2 else name.length
  let string :=
    if value.size + needed > value.string.length then renew fresh value.string else value.string
  let separated := if value.size ≠ 0 then strcat string ", " else some string
  (separated.bind (strcat · name)).map fun string => ⟨string, value.size + needed⟩

/-- The loop over the names of a type, and what the callback is called with, if it is called. -/
def writeNames (fresh : ℕ → Char) (names : List Text) : Option (Option Text) :=
  (names.foldlM (writeName fresh) {}).map fun value =>
    if value.size ≠ 0 then some (value.string.take value.size) else none

namespace Reader

/-- `di_package_parser_write_dependency`: a fault, or what the callback is called with, if it is
called. -/
def writeDependency (fresh : ℕ → Char) (r : Reader) (type : DependencyType) (p : ℕ) :
    Option (Option Text) :=
  ((r.heap p).depends.foldlM (fun value d =>
    if d.type = type then writeName fresh value (r.nameOf d.ptr).string else some value) {}).map
    fun value => if value.size ≠ 0 then some (value.string.take value.size) else none

/-- The names of the dependencies of a type. -/
def targetNames (r : Reader) (type : DependencyType) (p : ℕ) : List Text :=
  (r.dependsOf type p).map fun d => (r.nameOf d.ptr).string

end Reader

/-! ## What is claimed of names -/

def withCommas (names : List Text) : Text := ", ".toList.intercalate names

/-- What the callback should be called with. -/
def passed (names : List Text) : Option Text := if names = [] then none else some (withCommas names)

/-- The names do not fill the buffer, and one step is enough for the new one. -/
structure FitsNext (before : List Text) (name : Text) : Prop where
  notFull : (withCommas (before ++ [name])).length % 1024 ≠ 0
  oneStep : (withCommas (before ++ [name])).length / 1024 ≤
    if before = [] then 0 else (withCommas before).length / 1024 + 1

/-- Every name fits behind those in front of it. -/
def Fits (names : List Text) : Prop :=
  ∀ before name after, names = before ++ name :: after → FitsNext before name

/-! ## The buffer -/

theorem strcat_eq {a : Text} (ha : '\x00' ∉ a) (rest s : Text) :
    strcat (a ++ '\x00' :: rest) s =
      if s.length ≤ rest.length then some (a ++ s ++ '\x00' :: rest.drop s.length) else none := by
  have hlen : strlen (a ++ '\x00' :: rest) = some a.length := by
    induction a with
    | nil => rfl
    | cons c a ih =>
        rw [List.mem_cons, not_or] at ha
        rw [List.cons_append, strlen, if_neg (Ne.symm ha.1), ih ha.2]
        rfl
  have hdrop : (a ++ '\x00' :: rest).drop (a.length + s.length + 1) = rest.drop s.length := by
    rw [Nat.add_assoc, ← List.drop_drop, List.drop_left]
    rfl
  rw [strcat, hlen, Option.bind_some, List.take_left, hdrop, List.append_assoc]
  refine if_congr ?_ rfl rfl
  rw [List.length_append, List.length_cons]
  omega

theorem withCommas_concat (hne : before ≠ []) (name : Text) :
    withCommas (before ++ [name]) = withCommas before ++ ", " ++ name := by
  rw [withCommas, withCommas]
  induction before with
  | nil => exact absurd rfl hne
  | cons first rest ih =>
      by_cases hrest : rest = []
      · subst hrest
        rw [List.singleton_append, List.intercalate_cons_cons, List.intercalate_singleton,
          List.intercalate_singleton]
      · rw [List.cons_append, List.intercalate_cons_of_ne_nil (by simp),
          List.intercalate_cons_of_ne_nil hrest, ih hrest]
        simp only [List.append_assoc]

theorem withCommas_singleton (name : Text) : withCommas [name] = name := List.intercalate_singleton

theorem noNul_withCommas (h : ∀ n ∈ names, '\x00' ∉ n) : '\x00' ∉ withCommas names := by
  induction names using List.reverseRecOn with
  | nil => exact List.not_mem_nil
  | append_singleton before name ih =>
      have hname := h name (by simp)
      by_cases hne : before = []
      · subst hne
        rwa [List.nil_append, withCommas_singleton]
      · rw [withCommas_concat hne, List.mem_append, List.mem_append, not_or, not_or]
        exact ⟨⟨ih fun n hn => h n (by simp [hn]), by decide⟩, hname⟩

/-- The value after some names. -/
structure Holds (names : List Text) (value : Value) : Prop where
  size : value.size = (withCommas names).length
  atFirst : names = [] → value.string = []
  behind : names ≠ [] → value.size % 1024 ≠ 0 ∧
    value.string.length = 1024 * (value.size / 1024 + 1) ∧
    ∃ rest, value.string = withCommas names ++ '\x00' :: rest

theorem length_renew (fresh : ℕ → Char) (buffer : Text) :
    (renew fresh buffer).length = buffer.length + 1024 := by
  rw [renew, List.length_append, List.length_cons, List.length_map, List.length_range]

theorem Holds.writeName_first (h : Holds [] value) (fresh : ℕ → Char) (name : Text) :
    (FitsNext [] name → ∃ value', writeName fresh value name = some value' ∧
      Holds [name] value') ∧
    (¬ FitsNext [] name → writeName fresh value name = none) := by
  have hsize : value.size = 0 := h.size
  have hfits : FitsNext [] name ↔ name.length ≠ 0 ∧ name.length < 1024 := by
    constructor
    · rintro ⟨hfull, hstep⟩
      rw [List.nil_append, withCommas_singleton] at hfull hstep
      rw [if_pos rfl] at hstep
      omega
    · rintro ⟨hne, hlt⟩
      refine ⟨?_, ?_⟩
      · rw [List.nil_append, withCommas_singleton]
        omega
      · rw [List.nil_append, withCommas_singleton, if_pos rfl]
        omega
  rw [hfits, writeName, h.atFirst rfl, hsize]
  simp only [ne_eq, not_true_eq_false, if_false, Nat.zero_add, List.length_nil, Option.bind_some]
  by_cases hne : name.length = 0
  · rw [if_neg (by omega)]
    exact ⟨fun hfit => absurd hne hfit.1, fun _ => rfl⟩
  · rw [if_pos (by omega), renew, strcat_eq List.not_mem_nil]
    simp only [List.length_map, List.length_range]
    refine ⟨fun hfit => ?_, fun hfit => ?_⟩
    · rw [if_pos (by omega)]
      refine ⟨_, rfl, ?_, fun hnil => absurd hnil (List.cons_ne_nil _ _), fun _ => ⟨?_, ?_, ?_⟩⟩
      · rw [withCommas_singleton]
      · show name.length % 1024 ≠ 0
        omega
      · show ([] ++ name ++ _ :: _ : Text).length = 1024 * (name.length / 1024 + 1)
        simp only [List.length_append, List.length_cons, List.length_drop, List.length_map,
          List.length_range, List.length_nil]
        omega
      · rw [withCommas_singleton]
        exact ⟨_, rfl⟩
    · rw [if_neg (by omega)]
      rfl

theorem Holds.grown (h : Holds before value) (hne : before ≠ []) (fresh : ℕ → Char) (needed : ℕ) :
    ∃ rest, (if value.size + needed > value.string.length then renew fresh value.string
        else value.string) = withCommas before ++ '\x00' :: rest ∧
      value.size + 1 + rest.length = if value.size + needed > 1024 * (value.size / 1024 + 1) then
        1024 * (value.size / 1024 + 2) else 1024 * (value.size / 1024 + 1) := by
  obtain ⟨-, hlen, rest, hrest⟩ := h.behind hne
  have hsize := h.size
  rw [hlen]
  have hcount := congrArg List.length hrest
  rw [List.length_append, List.length_cons, ← hsize] at hcount
  split
  · have hgrown := length_renew fresh value.string
    have hstring : renew fresh value.string = withCommas before ++ '\x00' :: (rest ++
        '\x00' :: (List.range 1023).map fun i => fresh (value.string.length + 1 + i)) := by
      rw [renew, ← List.cons_append, ← List.append_assoc, ← hrest]
    refine ⟨_, hstring, ?_⟩
    rw [hstring, List.length_append, List.length_cons, ← hsize] at hgrown
    omega
  · exact ⟨rest, hrest, by omega⟩

theorem Holds.writeName_next (h : Holds before value) (hne : before ≠ [])
    (hnul : ∀ n ∈ before, '\x00' ∉ n) (fresh : ℕ → Char) (name : Text) :
    (FitsNext before name → ∃ value', writeName fresh value name = some value' ∧
      Holds (before ++ [name]) value') ∧
    (¬ FitsNext before name → writeName fresh value name = none) := by
  obtain ⟨hfull, hlen, -⟩ := h.behind hne
  have hsize := h.size
  have hconcat := withCommas_concat hne name
  have hnext : (withCommas (before ++ [name])).length = value.size + (name.length + 2) := by
    rw [hconcat, List.length_append, List.length_append, ← hsize,
      show ", ".toList.length = 2 from rfl]
    omega
  obtain ⟨rest, hstring, hrest⟩ := h.grown hne fresh (name.length + 2)
  have hfits : FitsNext before name ↔ name.length + 2 ≤ rest.length := by
    constructor
    · rintro ⟨hmod, hstep⟩
      rw [hnext] at hmod hstep
      rw [if_neg hne, ← hsize] at hstep
      split at hrest <;> omega
    · intro hle
      refine ⟨?_, ?_⟩
      · rw [hnext]
        split at hrest <;> omega
      · rw [hnext, if_neg hne, ← hsize]
        split at hrest <;> omega
  have hzero : value.size ≠ 0 := fun he => hfull (by rw [he])
  have hjoined := noNul_withCommas hnul
  have hseparated : '\x00' ∉ withCommas before ++ ", " := by
    rw [List.mem_append, not_or]
    exact ⟨hjoined, by decide⟩
  rw [hfits, writeName]
  simp only [hzero, ne_eq, not_false_eq_true, if_true, hstring]
  rw [strcat_eq hjoined, show ", ".toList.length = 2 from rfl]
  refine ⟨fun hle => ?_, fun hle => ?_⟩
  · rw [if_pos (by omega), Option.bind_some, strcat_eq hseparated,
      if_pos (by rw [List.length_drop]; omega)]
    refine ⟨_, rfl, hnext.symm, fun hnil => absurd hnil (by simp), fun _ => ⟨?_, ?_, ?_⟩⟩
    · show (value.size + (name.length + 2)) % 1024 ≠ 0
      split at hrest <;> omega
    · show (withCommas before ++ ", ".toList ++ name ++ _ :: _ : Text).length =
        1024 * ((value.size + (name.length + 2)) / 1024 + 1)
      rw [← hconcat, List.length_append, hnext, List.length_cons, List.length_drop,
        List.length_drop]
      split at hrest <;> omega
    · rw [hconcat]
      exact ⟨_, rfl⟩
  · by_cases htwo : 2 ≤ rest.length
    · rw [if_pos htwo, Option.bind_some, strcat_eq hseparated,
        if_neg (by rw [List.length_drop]; omega)]
      rfl
    · rw [if_neg htwo]
      rfl

/-! ## The loop -/

theorem Holds.writeName (h : Holds before value) (hnul : ∀ n ∈ before, '\x00' ∉ n)
    (fresh : ℕ → Char) (name : Text) :
    (FitsNext before name → ∃ value', writeName fresh value name = some value' ∧
      Holds (before ++ [name]) value') ∧
    (¬ FitsNext before name → writeName fresh value name = none) := by
  by_cases hne : before = []
  · subst hne
    exact h.writeName_first fresh name
  · exact h.writeName_next hne hnul fresh name

theorem fits_nil : Fits [] := fun _ _ _ he =>
  absurd he.symm (List.append_ne_nil_of_right_ne_nil _ (List.cons_ne_nil _ _))

theorem fits_concat (before : List Text) (name : Text) :
    Fits (before ++ [name]) ↔ Fits before ∧ FitsNext before name := by
  constructor
  · intro h
    refine ⟨fun b n a he => h b n (a ++ [name]) ?_, h before name [] rfl⟩
    rw [he, List.append_assoc, List.cons_append]
  · rintro ⟨hbefore, hname⟩ b n a he
    rcases List.eq_nil_or_concat' a with rfl | ⟨a, last, rfl⟩
    · obtain ⟨rfl, hn⟩ := List.append_inj' he rfl
      rw [← List.singleton_inj.1 hn]
      exact hname
    · rw [← List.cons_append, ← List.append_assoc] at he
      exact hbefore b n a (List.append_inj' he rfl).1

theorem foldlM_writeName (fresh : ℕ → Char) (hnul : ∀ n ∈ names, '\x00' ∉ n) :
    (Fits names → ∃ value, names.foldlM (writeName fresh) {} = some value ∧ Holds names value) ∧
    (¬ Fits names → names.foldlM (writeName fresh) {} = none) := by
  induction names using List.reverseRecOn with
  | nil =>
      exact ⟨fun _ => ⟨{}, rfl, rfl, fun _ => rfl, fun h => absurd rfl h⟩,
        fun h => absurd fits_nil h⟩
  | append_singleton before name ih =>
      have hbefore : ∀ n ∈ before, '\x00' ∉ n := fun n hn => hnul n (by simp [hn])
      obtain ⟨hfits, hnot⟩ := ih hbefore
      have hlast (value : Value) : [name].foldlM (writeName fresh) value =
          writeName fresh value name := by
        simp [List.foldlM]
      rw [fits_concat, List.foldlM_append]
      by_cases hfit : Fits before
      · obtain ⟨value, hvalue, hholds⟩ := hfits hfit
        obtain ⟨hnext, hfull⟩ := hholds.writeName hbefore fresh name
        rw [hvalue, Option.bind_eq_bind, Option.bind_some, hlast]
        exact ⟨fun h => hnext h.2, fun h => hfull fun hname => h ⟨hfit, hname⟩⟩
      · rw [hnot hfit]
        exact ⟨fun h => absurd h.1 hfit, fun _ => rfl⟩

/-- The names are joined without a fault, exactly if each of them fits. -/
theorem writeNames_iff (fresh : ℕ → Char) (hnul : ∀ n ∈ names, '\x00' ∉ n) :
    writeNames fresh names = some (passed names) ↔ Fits names := by
  obtain ⟨hfits, hnot⟩ := foldlM_writeName fresh hnul
  rw [writeNames]
  constructor
  · intro h
    by_contra hno
    rw [hnot hno] at h
    cases h
  · intro hfit
    obtain ⟨value, hvalue, hholds⟩ := hfits hfit
    rw [hvalue, Option.map_some, passed]
    by_cases hnil : names = []
    · have hsize := hholds.size
      rw [hnil] at hsize
      rw [if_pos hnil, if_neg (by simpa [withCommas] using hsize)]
    · obtain ⟨hfull, -, rest, hstring⟩ := hholds.behind hnil
      rw [if_neg hnil, if_pos (fun he => hfull (by rw [he])), hstring, hholds.size,
        List.take_left]

namespace Reader

variable {r : Reader}

theorem foldlM_depends (fresh : ℕ → Char) (type : DependencyType)
    (ds : List (PackageDependency ℕ)) (value : Value) :
    ds.foldlM (fun value d =>
      if d.type = type then writeName fresh value (r.nameOf d.ptr).string else some value) value =
    ((ds.filter fun d => d.type = type).map fun d => (r.nameOf d.ptr).string).foldlM
      (writeName fresh) value := by
  induction ds generalizing value with
  | nil => rfl
  | cons d ds ih =>
      rw [List.foldlM_cons]
      by_cases hd : d.type = type
      · rw [if_pos hd, List.filter_cons_of_pos (by simpa using hd), List.map_cons,
          List.foldlM_cons]
        exact Option.bind_congr fun value' _ => ih value'
      · rw [if_neg hd, List.filter_cons_of_neg (by simpa using hd)]
        exact ih value

/-- The writer stays in its buffer and passes the joined names on, exactly if each name fits. -/
theorem writeDependency_iff (fresh : ℕ → Char) (r : Reader) (type : DependencyType) (p : ℕ) :
    r.writeDependency fresh type p = some (passed (r.targetNames type p)) ↔
      Fits (r.targetNames type p) := by
  have hnul : ∀ n ∈ r.targetNames type p, '\x00' ∉ n := by
    intro n hn
    obtain ⟨d, -, rfl⟩ := List.mem_map.1 hn
    exact (r.nameOf d.ptr).noNul
  rw [writeDependency, foldlM_depends, ← dependsOf, ← targetNames]
  exact writeNames_iff fresh hnul

/-- A package that depends on one other, which has a name of this length. -/
def longName (n : ℕ) : Reader where
  heap := fun i => if i = 0 then { depends := [⟨.depends, 1⟩] } else
    { package := List.replicate n 'a' }

/-- The NUL behind a name of 1024 bytes is written behind the buffer. -/
theorem writeDependency_full :
    (longName 1024).writeDependency (fun _ => 'x') .depends 0 ≠
      some (passed ((longName 1024).targetNames .depends 0)) := by
  have hfault : (longName 1024).writeDependency (fun _ => 'x') .depends 0 = none := by
    decide +kernel
  rw [hfault]
  exact (Option.some_ne_none _).symm

end Reader

end DebianInstaller.Packages
