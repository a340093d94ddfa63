import DebianInstaller.Debconf.Lists

/-!
# The stack of seen questions

A `GO` that succeeds puts the tags of its questions on a stack, one that goes back or fails
takes them off again, and `X_SAVE` flags all of them as seen and empties the stack. It
empties it entry by entry, and it stops at a tag that is not registered any more. The
entries it has come by are null pointers then, and the number of entries is what it was, so
that the next command that looks at the stack reads them.

That is the one step that does not keep the entries strings. `GO` keeps them, and it takes
off what it has put on. There is one thing to look at: the loop that takes off goes back
along `prev`, and where the first question of the list stands on the list of questions that
are not shown, too, there is a question before it.
-/

namespace DebianInstaller.Debconf

open Text Lib

variable {registered : Text → Bool} {ts : List Text}

/-! ## The three actions -/

/-- `seen_questions` up to `number_seen_questions`: an entry may be null, and so may the
whole array. -/
abbrev SeenEntries := Option (List (Option Text))

variable {entries : SeenEntries}

/-- The questions of the frontend: the tags along `next`, and those that `prev` leads to
from the first one. -/
structure QuestionList where
  tags : List Text
  before : List Text := []

/-- The tags along `prev`, from the last question. -/
def QuestionList.back (l : QuestionList) : List Text :=
  if l.tags.isEmpty then [] else l.tags.reverse ++ l.before

/-- `STACK_SEEN_ADD`. -/
def seenAdd (entries : SeenEntries) (l : QuestionList) : SeenEntries :=
  let narg := (entries.getD []).length + l.tags.length
  if narg = 0 then entries else some (entries.getD [] ++ l.tags.map some)

/-- The loop of `STACK_SEEN_REMOVE`. -/
def popSeen (seen : List (Option Text)) : List Text → Except Stop SeenEntries
  | [] => .ok (some seen)
  | tag :: tags =>
      match seen.getLast? with
      | none | some none => .error .nullPointer
      | some (some t) =>
          if t ≠ tag then .ok (some seen)
          else if seen.dropLast = [] then .ok none
          else popSeen seen.dropLast tags

/-- `STACK_SEEN_REMOVE`. -/
def seenRemove (entries : SeenEntries) (l : QuestionList) : Except Stop SeenEntries :=
  match entries with
  | none => .ok none
  | some seen => popSeen seen l.back

/-- The loop of `STACK_SEEN_SAVE`: whether it comes to its end, and the entries then. -/
def saveEntries (registered : Text → Bool) :
    List (Option Text) → Except Stop (Bool × List (Option Text))
  | [] => .ok (true, [])
  | none :: _ => .error .nullPointer
  | some t :: seen =>
      if !registered t then .ok (false, some t :: seen)
      else (saveEntries registered seen).map fun r => (r.1, none :: r.2)

/-- `STACK_SEEN_SAVE`. -/
def seenSave (registered : Text → Bool) (entries : SeenEntries) :
    Except Stop (Status × SeenEntries) :=
  match entries with
  | none => .ok (.ok, none)
  | some seen =>
      (saveEntries registered seen).map fun r =>
        if r.1 then (.ok, none) else (.notOk, some r.2)

/-! ## Commands -/

/-- What of the module the stack depends on. -/
structure SeenModule where
  entries : SeenEntries := none
  backedUp : Bool := false

variable {m : SeenModule}

/-- The commands that change it: an `INPUT` that is shown or not, a `GO` with what the
frontend returns and its questions, and an `X_SAVE` with the tags that are registered and
with what saving the databases gives. -/
inductive SeenStep where
  | input (visible : Bool)
  | go (ret : Int) (questions : QuestionList)
  | xSave (registered : Text → Bool) (questions templates : Status)

/-- `command_go`, from where the frontend has returned. -/
def SeenModule.go (m : SeenModule) (ret : Int) (l : QuestionList) : Except Stop SeenModule :=
  if ret = goBack ∨ m.backedUp then
    (seenRemove m.entries l).map fun e => { entries := e, backedUp := true }
  else if ret = 0 then
    (seenRemove m.entries l).map fun e => { entries := e, backedUp := false }
  else .ok { entries := seenAdd m.entries l, backedUp := false }

/-- `confmodule_save`, behind the translations. -/
def SeenModule.save (m : SeenModule) (registered : Text → Bool) (questions templates : Status) :
    Except Stop (Status × SeenModule) :=
  (seenSave registered m.entries).map fun r =>
    let ret := Status.ok.code ||| r.1.code ||| questions.code ||| templates.code
    (if ret ≠ Status.ok.code then .notOk else .ok, { m with entries := r.2 })

def SeenModule.step (m : SeenModule) : SeenStep → Except Stop SeenModule
  | .input visible => .ok (if visible then { m with backedUp := false } else m)
  | .go ret l => m.go ret l
  | .xSave registered questions templates =>
      (m.save registered questions templates).map Prod.snd

/-- A run of commands. -/
def SeenModule.run (m : SeenModule) : List SeenStep → Except Stop SeenModule
  | [] => .ok m
  | step :: steps =>
      match m.step step with
      | .error stop => .error stop
      | .ok m' => m'.run steps

/-! ## Strings -/

/-- All entries are strings, and there is no array without entries. -/
def ValidEntries (entries : SeenEntries) : Prop :=
  ∀ seen, entries = some seen → seen ≠ [] ∧ ∀ e ∈ seen, e ≠ none

theorem validEntries_none : ValidEntries none := by
  intro seen h
  cases h

theorem validEntries_some (h : ts ≠ []) : ValidEntries (some (ts.map some)) := by
  rintro seen ⟨⟩
  refine ⟨fun h' => h (List.map_eq_nil_iff.mp h'), fun e he => ?_⟩
  obtain ⟨t, -, rfl⟩ := List.mem_map.mp he
  exact Option.some_ne_none t

theorem ValidEntries.cases (h : ValidEntries entries) :
    entries = none ∨ ∃ ts : List Text, ts ≠ [] ∧ entries = some (ts.map some) := by
  cases entries with
  | none => exact .inl rfl
  | some seen =>
      obtain ⟨hne, hsome⟩ := h seen rfl
      obtain ⟨ts, hts⟩ : ∃ ts : List Text, ts.map some = seen := by
        clear h hne
        induction seen with
        | nil => exact ⟨[], rfl⟩
        | cons e seen ih =>
            obtain ⟨ts, rfl⟩ := ih fun e' he' => hsome e' (List.mem_cons_of_mem _ he')
            obtain ⟨t, rfl⟩ := Option.ne_none_iff_exists'.mp (hsome e List.mem_cons_self)
            exact ⟨t :: ts, rfl⟩
      refine .inr ⟨ts, ?_, by rw [hts]⟩
      rintro rfl
      exact hne hts.symm

/-! ## `GO` -/

theorem seenAdd_none {l : QuestionList} (h : l.tags ≠ []) :
    seenAdd none l = some (l.tags.map some) := by
  have hpos : 0 < l.tags.length := List.length_pos_of_ne_nil h
  exact if_neg (by show (0 : Nat) + _ ≠ 0; omega)

theorem seenAdd_some (h : ts ≠ []) (l : QuestionList) :
    seenAdd (some (ts.map some)) l = some ((ts ++ l.tags).map some) := by
  have hpos : 0 < ts.length := List.length_pos_of_ne_nil h
  unfold seenAdd
  rw [Option.getD_some, List.length_map, if_neg (by omega), List.map_append]

theorem seenAdd_valid (h : ValidEntries entries) (l : QuestionList) :
    ValidEntries (seenAdd entries l) := by
  obtain rfl | ⟨ts, hts, rfl⟩ := h.cases
  · by_cases hl : l.tags = []
    · have : seenAdd none l = none := if_pos (by rw [hl]; rfl)
      rw [this]
      exact validEntries_none
    · rw [seenAdd_none hl]
      exact validEntries_some hl
  · rw [seenAdd_some hts]
    exact validEntries_some fun h' => hts (List.append_eq_nil_iff.mp h').1

theorem popSeen_cons (ts : List Text) (t tag : Text) (tags : List Text) :
    popSeen ((ts ++ [t]).map some) (tag :: tags) =
      if t ≠ tag then .ok (some ((ts ++ [t]).map some))
      else if ts = [] then .ok none
      else popSeen (ts.map some) tags := by
  have hlast : ((ts ++ [t]).map some).getLast? = some (some t) := by
    rw [List.map_append, List.map_singleton, List.getLast?_concat]
  have hdrop : ((ts ++ [t]).map some).dropLast = ts.map some := by
    rw [List.map_append, List.map_singleton, List.dropLast_concat]
  rw [popSeen]
  simp only [hlast, hdrop, List.map_eq_nil_iff]

theorem popSeen_valid (h : ts ≠ []) (tags : List Text) :
    ∃ e, popSeen (ts.map some) tags = .ok e ∧ ValidEntries e := by
  induction tags generalizing ts with
  | nil => exact ⟨_, rfl, validEntries_some h⟩
  | cons tag tags ih =>
      obtain ⟨ts, t, rfl⟩ := (List.eq_nil_or_concat' ts).resolve_left h
      rw [popSeen_cons]
      split
      · exact ⟨_, rfl, validEntries_some h⟩
      · split
        · exact ⟨_, rfl, validEntries_none⟩
        · next hne => exact ih hne

theorem seenRemove_valid (h : ValidEntries entries) (l : QuestionList) :
    ∃ e, seenRemove entries l = .ok e ∧ ValidEntries e := by
  obtain rfl | ⟨ts, hts, rfl⟩ := h.cases
  · exact ⟨none, rfl, validEntries_none⟩
  · exact popSeen_valid hts l.back

/-- The tags that have been put on are taken off, and the loop goes on with what stands
before them. -/
theorem popSeen_pushed (hts : ts ≠ []) (new before : List Text) :
    popSeen ((ts ++ new).map some) (new.reverse ++ before) = popSeen (ts.map some) before := by
  induction new using List.reverseRecOn with
  | nil => rw [List.append_nil, List.reverse_nil, List.nil_append]
  | append_singleton new t ih =>
      have hne : ts ++ new ≠ [] := fun h => hts (List.append_eq_nil_iff.mp h).1
      rw [← List.append_assoc, List.reverse_concat, List.cons_append, popSeen_cons,
        if_neg (not_not.mpr rfl), if_neg hne, ih]

theorem popSeen_all {new : List Text} (hnew : new ≠ []) (before : List Text) :
    popSeen (new.map some) (new.reverse ++ before) = .ok none := by
  induction new using List.reverseRecOn with
  | nil => exact absurd rfl hnew
  | append_singleton new t ih =>
      rw [List.reverse_concat, List.cons_append, popSeen_cons, if_neg (not_not.mpr rfl)]
      split
      · rfl
      · next hne => exact ih hne

theorem length_popSeen_le {tags : List Text} {e : List (Option Text)}
    (h : popSeen (ts.map some) tags = .ok (some e)) : e.length ≤ ts.length := by
  induction tags generalizing ts with
  | nil =>
      cases h
      rw [List.length_map]
  | cons tag tags ih =>
      obtain rfl | ⟨ts, t, rfl⟩ := List.eq_nil_or_concat' ts
      · cases h
      · rw [popSeen_cons] at h
        split at h
        · cases h
          rw [List.length_map]
        · split at h
          · cases h
          · have := ih h
            rw [List.length_append, List.length_singleton]
            omega

theorem popSeen_eq_self_iff (hts : ts ≠ []) (tags : List Text) :
    popSeen (ts.map some) tags = .ok (some (ts.map some)) ↔
      ∀ t, tags.head? = some t → ts.getLast? ≠ some t := by
  obtain ⟨ts, t, rfl⟩ := (List.eq_nil_or_concat' ts).resolve_left hts
  cases tags with
  | nil =>
      refine iff_of_true rfl fun t' ht' => ?_
      cases ht'
  | cons tag tags =>
      rw [popSeen_cons, List.getLast?_concat]
      by_cases htag : t = tag
      · subst htag
        rw [if_neg (not_not.mpr rfl)]
        refine iff_of_false (fun h => ?_) fun h => h t rfl rfl
        -- the stack is shorter now
        split at h
        · cases h
        · have := length_popSeen_le h
          rw [List.length_map, List.length_append, List.length_singleton] at this
          omega
      · rw [if_pos htag]
        refine iff_of_true rfl fun t' ht' h => htag ?_
        cases ht'
        cases h
        rfl

/-- The question before the list is not the last one seen. -/
def QuestionList.EndsAtFirst (l : QuestionList) (entries : SeenEntries) : Prop :=
  l.tags = [] ∨ ∀ t, l.before.head? = some t → (entries.getD []).getLast? ≠ some (some t)

/-- What `STACK_SEEN_ADD` puts on the stack is what `STACK_SEEN_REMOVE` takes off it exactly
if the question before the list is not the last one that was there. -/
theorem seenRemove_seenAdd_iff (h : ValidEntries entries) (l : QuestionList) :
    seenRemove (seenAdd entries l) l = .ok entries ↔ l.EndsAtFirst entries := by
  unfold QuestionList.EndsAtFirst
  by_cases hl : l.tags = []
  · have hback : l.back = [] := if_pos (by rw [hl]; rfl)
    refine iff_of_true ?_ (.inl hl)
    obtain rfl | ⟨ts, hts, rfl⟩ := h.cases
    · have : seenAdd none l = none := if_pos (by rw [hl]; rfl)
      rw [this]
      rfl
    · rw [seenAdd_some hts, hl, List.append_nil, seenRemove, hback]
      rfl
  · have hback : l.back = l.tags.reverse ++ l.before := if_neg (by simp [hl])
    rw [or_iff_right hl]
    obtain rfl | ⟨ts, hts, rfl⟩ := h.cases
    · refine iff_of_true ?_ fun t _ h' => by cases h'
      rw [seenAdd_none hl, seenRemove, hback, popSeen_all hl]
    · have hlast : ∀ t, ((some (ts.map some)).getD []).getLast? ≠ some (some t) ↔
          ts.getLast? ≠ some t := by
        intro t
        rw [Option.getD_some, List.getLast?_map]
        simp
      rw [seenAdd_some hts, seenRemove, hback, popSeen_pushed hts, popSeen_eq_self_iff hts]
      simp only [hlast]

/-! ## `X_SAVE` -/

/-- The tags are all registered, or the first one is not. -/
def SavedWhole (registered : Text → Bool) (entries : SeenEntries) : Prop :=
  ∀ t ts, entries = some ((t :: ts).map some) →
    (∀ t' ∈ t :: ts, registered t' = true) ∨ registered t = false

theorem saveEntries_append {done : List Text} (h : ∀ t ∈ done, registered t = true)
    (seen : List (Option Text)) :
    saveEntries registered (done.map some ++ seen) =
      (saveEntries registered seen).map fun r => (r.1, done.map (fun _ => none) ++ r.2) := by
  induction done with
  | nil =>
      show saveEntries registered seen = _
      cases saveEntries registered seen <;> rfl
  | cons t done ih =>
      obtain ⟨ht, hdone⟩ := List.forall_mem_cons.mp h
      rw [List.map_cons, List.cons_append, saveEntries, if_neg (by simp [ht]), ih hdone]
      cases saveEntries registered seen <;> rfl

theorem saveEntries_all (h : ∀ t ∈ ts, registered t = true) :
    saveEntries registered (ts.map some) = .ok (true, ts.map fun _ => none) := by
  have := saveEntries_append h []
  rw [List.append_nil] at this
  rw [this]
  show Except.ok (true, _ ++ []) = _
  rw [List.append_nil]

theorem saveEntries_stop {done rest : List Text} {t : Text} (h : ∀ t' ∈ done, registered t' = true)
    (ht : registered t = false) :
    saveEntries registered ((done ++ t :: rest).map some) =
      .ok (false, done.map (fun _ => none) ++ (t :: rest).map some) := by
  rw [List.map_append, saveEntries_append h, List.map_cons, saveEntries, if_pos (by simp [ht])]
  rfl

theorem registered_or_append (registered : Text → Bool) (ts : List Text) :
    (∀ t ∈ ts, registered t = true) ∨ ∃ done t rest, ts = done ++ t :: rest ∧
      (∀ t' ∈ done, registered t' = true) ∧ registered t = false := by
  induction ts with
  | nil => exact .inl fun t h => absurd h List.not_mem_nil
  | cons t ts ih =>
      cases ht : registered t with
      | false => exact .inr ⟨[], t, ts, rfl, fun t h => absurd h List.not_mem_nil, ht⟩
      | true =>
          rcases ih with hall | ⟨done, u, rest, rfl, hdone, hu⟩
          · exact .inl (List.forall_mem_cons.mpr ⟨ht, hall⟩)
          · exact .inr ⟨t :: done, u, rest, rfl, List.forall_mem_cons.mpr ⟨ht, hdone⟩, hu⟩

theorem seenSave_valid_iff (h : ValidEntries entries) (registered : Text → Bool) :
    ∃ r, seenSave registered entries = .ok r ∧
      (ValidEntries r.2 ↔ SavedWhole registered entries) ∧
      (ValidEntries r.2 → r.1 ≠ .ok → r.2 = entries) := by
  obtain rfl | ⟨ts, hts, rfl⟩ := h.cases
  · refine ⟨(.ok, none), rfl, iff_of_true validEntries_none fun t ts h' => ?_, fun _ h' => ?_⟩
    · cases h'
    · exact absurd rfl h'
  · rcases registered_or_append registered ts with hall | ⟨done, t, rest, rfl, hdone, ht⟩
    · refine ⟨(.ok, none), ?_, iff_of_true validEntries_none fun t us h' => ?_, fun _ h' => ?_⟩
      · rw [seenSave, saveEntries_all hall]
        rfl
      · obtain rfl : ts = t :: us :=
          (List.map_injective_iff.mpr (Option.some_injective _)) (Option.some.inj h')
        exact .inl hall
      · exact absurd rfl h'
    · refine ⟨(.notOk, some (done.map (fun _ => none) ++ (t :: rest).map some)), ?_, ?_, ?_⟩
      · rw [seenSave, saveEntries_stop hdone ht]
        rfl
      · cases done with
        | nil =>
            refine iff_of_true (validEntries_some (List.cons_ne_nil t rest)) fun u us h' => ?_
            obtain ⟨rfl, rfl⟩ : t = u ∧ rest = us := List.cons.inj
              ((List.map_injective_iff.mpr (Option.some_injective _)) (Option.some.inj h'))
            exact .inr ht
        | cons d done =>
            refine iff_of_false (fun hv => ?_) fun hw => ?_
            · exact (hv _ rfl).2 none List.mem_cons_self rfl
            · rcases hw d (done ++ t :: rest) rfl with hall | hd
              · rw [hall t (List.mem_cons_of_mem _ (List.mem_append_right _ List.mem_cons_self))]
                  at ht
                cases ht
              · rw [hdone d List.mem_cons_self] at hd
                cases hd
      · intro hv _
        cases done with
        | nil => rfl
        | cons d done => exact absurd rfl ((hv _ rfl).2 none List.mem_cons_self)

/-! ## Runs -/

/-- What a command has to find: an `X_SAVE` saves all or nothing. -/
def SeenStep.Whole (m : SeenModule) : SeenStep → Prop
  | .input _ => True
  | .go _ _ => True
  | .xSave registered _ _ => SavedWhole registered m.entries

/-- All commands of a run find it. -/
def SeenModule.AllWhole (m : SeenModule) : List SeenStep → Prop
  | [] => True
  | step :: steps => step.Whole m ∧ ∀ m', m.step step = .ok m' → m'.AllWhole steps

theorem SeenModule.go_valid (h : ValidEntries m.entries) (ret : Int) (l : QuestionList) :
    ∃ m', m.go ret l = .ok m' ∧ ValidEntries m'.entries := by
  obtain ⟨e, he, hv⟩ := seenRemove_valid h l
  unfold SeenModule.go
  rw [he]
  split
  · exact ⟨_, rfl, hv⟩
  · split
    · exact ⟨_, rfl, hv⟩
    · exact ⟨_, rfl, seenAdd_valid h l⟩

theorem SeenModule.step_valid (h : ValidEntries m.entries) {step : SeenStep}
    (hstep : step.Whole m) : ∃ m', m.step step = .ok m' ∧ ValidEntries m'.entries := by
  cases step with
  | input visible =>
      refine ⟨_, rfl, ?_⟩
      cases visible <;> exact h
  | go ret l => exact SeenModule.go_valid h ret l
  | xSave registered questions templates =>
      obtain ⟨r, hr, hv, -⟩ := seenSave_valid_iff h registered
      refine ⟨{ m with entries := r.2 }, ?_, hv.mpr hstep⟩
      show Except.map _ (m.save registered questions templates) = _
      unfold SeenModule.save
      rw [hr]
      rfl

theorem SeenModule.run_valid (h : ValidEntries m.entries) {steps : List SeenStep}
    (hsteps : m.AllWhole steps) : ∃ m', m.run steps = .ok m' ∧ ValidEntries m'.entries := by
  induction steps generalizing m with
  | nil => exact ⟨m, rfl, h⟩
  | cons step steps ih =>
      obtain ⟨m', hm', hv⟩ := SeenModule.step_valid h hsteps.1
      unfold SeenModule.run
      rw [hm']
      exact ih hv (hsteps.2 m' hm')

/-- In a run in which each `X_SAVE` finds all tags registered or the first one not, no
command reads a null pointer, the entries are strings in every state, a further `X_SAVE`
leaves them so exactly if it finds that, too, and `STACK_SEEN_REMOVE` undoes what
`STACK_SEEN_ADD` does with the same list exactly if the question before the list is not the
last one seen. -/
theorem seen_entries_valid {steps : List SeenStep} (h : SeenModule.AllWhole {} steps) :
    ∃ m, SeenModule.run {} steps = .ok m ∧ ValidEntries m.entries ∧
      (∀ registered, ∃ r, seenSave registered m.entries = .ok r ∧
        (ValidEntries r.2 ↔ SavedWhole registered m.entries)) ∧
      ∀ l : QuestionList,
        seenRemove (seenAdd m.entries l) l = .ok m.entries ↔ l.EndsAtFirst m.entries := by
  obtain ⟨m, hm, hv⟩ := SeenModule.run_valid validEntries_none h
  refine ⟨m, hm, hv, fun registered => ?_, seenRemove_seenAdd_iff hv⟩
  obtain ⟨r, hr, hiff, -⟩ := seenSave_valid_iff hv registered
  exact ⟨r, hr, hiff⟩

/-- Two questions are asked, one of them again, and all are saved. -/
theorem seen_entries_valid_saved :
    ∃ m, SeenModule.run {} [.go 1 ⟨[['a'], ['b']], []⟩, .go 30 ⟨[['b']], []⟩,
        .xSave (fun _ => true) .ok .ok] = .ok m ∧ ValidEntries m.entries ∧
      (∀ registered, ∃ r, seenSave registered m.entries = .ok r ∧
        (ValidEntries r.2 ↔ SavedWhole registered m.entries)) ∧
      ∀ l : QuestionList,
        seenRemove (seenAdd m.entries l) l = .ok m.entries ↔ l.EndsAtFirst m.entries :=
  seen_entries_valid
    ⟨trivial, fun _ _ => ⟨trivial, fun _ _ => ⟨fun _ _ _ => .inl fun _ _ => rfl,
      fun _ _ => trivial⟩⟩⟩

/-- The second of two questions is not registered any more. -/
theorem seen_entries_unregistered :
    ∃ m, SeenModule.run {} [.go 1 ⟨[['a'], ['b']], []⟩, .xSave (· == ['a']) .ok .ok] = .ok m ∧
      m.entries = some [none, some ['b']] ∧ ¬ ValidEntries m.entries ∧
      SeenModule.run {} [.go 1 ⟨[['a'], ['b']], []⟩, .xSave (· == ['a']) .ok .ok,
        .xSave (· == ['a']) .ok .ok] = .error .nullPointer := by
  refine ⟨{ entries := some [none, some ['b']] }, rfl, rfl, fun h => ?_, rfl⟩
  exact (h _ rfl).2 none List.mem_cons_self rfl

end DebianInstaller.Debconf
