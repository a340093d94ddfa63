import DebianInstaller.FlashKernel.Database

/-!
# What get_machine_field prints

The loop is at its beginning after every empty line, so it can be followed stanza by stanza. In a
stanza it ends at the field, or at a name that comes too late. From this it is clear when the
value is the one in the first stanza that lists the machine and has the field: if no stanza before
it is interrupted, and if the stanza at the end of the local file has not lent its machine to a
field of the shipped one behind it.
-/

namespace DebianInstaller.FlashKernel

open Text

variable {a b s : Stanza} {db : List Stanza} {p : Entry} {β : Type}

variable {machine : Text} {fieldName : FieldName}

/-! ## A stanza and the loop -/

theorem key_ne_nil (name : Text) : key name ≠ [] := by
  simp [key]

theorem key_inj {a b : Text} : key a = key b ↔ a = b := by
  simp [key]

theorem machineKey_eq : machineKey = key machineField := rfl

/-- The loop on one stanza, and whether it returns. -/
def stanzaLoop (machine fieldName : Text) : State → Stanza → Option (Option Text)
  | _, [] => none
  | state, line :: rest =>
      match step machine fieldName state line with
      | .next state => stanzaLoop machine fieldName state rest
      | .returns value => some value

/-- What is printed for the line at which the loop ends. -/
def printed (fieldName : FieldName) (p : Entry) : Option Text :=
  if p.1 = key fieldName.name then some p.2 else none

theorem step_empty (machine name : Text) (state : State) (hp : p.1 = []) :
    step machine name state p = .next .machine := by
  obtain ⟨field, value⟩ := p
  obtain rfl : field = [] := hp
  have hkey : ¬ [] = key name := fun h => key_ne_nil name h.symm
  have hmachine : ¬ ([] : Text) = machineKey := by decide
  unfold step
  simp only [hkey, hmachine, false_and, and_false, if_false, if_true]
  cases state <;> rfl

theorem loop_stanzas {ps : List Entry} {others : List Stanza} {state : State} {name : Text}
    (h : ps.splitOnP (·.1 = []) = s :: others) :
    loop machine name state ps =
      match stanzaLoop machine name state s with
      | some r => r
      | none => (others.findSome? (stanzaLoop machine name .machine)).join := by
  induction ps generalizing s others state with
  | nil =>
      obtain ⟨rfl, rfl⟩ := List.cons.inj h
      rfl
  | cons p ps ih =>
      obtain ⟨s', others', hps⟩ := List.exists_cons_of_ne_nil
        (List.splitOnP_ne_nil (fun p : Entry => decide (p.1 = [])) ps)
      rw [List.splitOnP_cons_eq_if_modifyHead, hps] at h
      by_cases hp : p.1 = []
      · rw [if_pos (decide_eq_true hp)] at h
        obtain ⟨rfl, rfl⟩ := List.cons.inj h
        rw [loop, step_empty machine name state hp]
        simp only []
        rw [ih hps, stanzaLoop, List.findSome?_cons]
        cases stanzaLoop machine name .machine s' <;> rfl
      · rw [if_neg (by simpa using hp), List.modifyHead_cons] at h
        obtain ⟨rfl, rfl⟩ := List.cons.inj h
        rw [loop, stanzaLoop]
        cases step machine name state p with
        | next state' => exact ih hps
        | returns value => rfl

theorem stanzaLoop_fields (machine : Text) (fieldName : FieldName) (hs : ∀ p ∈ s, p.1 ≠ []) :
    stanzaLoop machine fieldName.name .fields s =
      (s.find? fun p => p.1 = key fieldName.name ∨ isMachine p = true).map
        (printed fieldName) := by
  induction s with
  | nil => rfl
  | cons p s ih =>
      obtain ⟨hp, hs'⟩ := List.forall_mem_cons.1 hs
      obtain ⟨field, value⟩ := p
      have hrest := ih hs'
      unfold stanzaLoop step
      by_cases hkey : field = key fieldName.name
      · subst hkey
        simp [printed]
      · by_cases hmachine : field = machineKey
        · subst hmachine
          simp [hkey, printed, isMachine]
        · have hnil : ¬ field = [] := hp
          simp [hkey, hmachine, hnil, isMachine, hrest]

theorem stanzaLoop_gotmachine (machine : Text) (hname : fieldName.name ≠ machineField)
    (hs : ∀ p ∈ s, p.1 ≠ []) :
    stanzaLoop machine fieldName.name .gotmachine s =
      ((s.dropWhile isMachine).find? fun p => p.1 = key fieldName.name ∨ isMachine p = true).map
        (printed fieldName) := by
  induction s with
  | nil => rfl
  | cons p s ih =>
      obtain ⟨hp, hs'⟩ := List.forall_mem_cons.1 hs
      obtain ⟨field, value⟩ := p
      have hrest := ih hs'
      have hfields := stanzaLoop_fields machine fieldName hs'
      have hne : key fieldName.name ≠ machineKey := fun h => hname (key_inj.1 h)
      unfold stanzaLoop step
      by_cases hkey : field = key fieldName.name
      · subst hkey
        simp [printed, isMachine, hne]
      · by_cases hmachine : field = machineKey
        · subst hmachine
          simp [hkey, isMachine, hrest]
        · have hnil : ¬ field = [] := hp
          simp [hkey, hmachine, hnil, isMachine, hfields]

theorem lists_cons (h : p ≠ (machineKey, machine)) :
    Stanza.Lists machine (p :: s) ↔ Stanza.Lists machine s := by
  simp [Stanza.Lists, List.mem_cons, Ne.symm h]

theorem stanzaLoop_machine (hs : ∀ p ∈ s, p.1 ≠ []) :
    stanzaLoop machine fieldName.name .machine s =
      (Stanza.last machine fieldName s).map (printed fieldName) := by
  induction s with
  | nil => rfl
  | cons p s ih =>
      obtain ⟨hp, hs'⟩ := List.forall_mem_cons.1 hs
      have hrest := ih hs'
      by_cases hmine : p = (machineKey, machine)
      · subst hmine
        have hlists : Stanza.Lists machine ((machineKey, machine) :: s) := List.mem_cons_self
        have hbehind :
            Stanza.rest machine ((machineKey, machine) :: s) = s.dropWhile isMachine := by
          simp [Stanza.rest]
        rw [Stanza.last, if_pos hlists, hbehind]
        unfold stanzaLoop step
        by_cases hname : fieldName.name = machineField
        · simp [hname, printed, machineKey_eq]
        · have hgot := stanzaLoop_gotmachine machine hname hs'
          have hne : machineKey ≠ key fieldName.name := fun h =>
            hname (key_inj.1 (h.symm.trans machineKey_eq))
          simp [hname, hne, hgot]
      · have hlast : Stanza.last machine fieldName (p :: s) =
            Stanza.last machine fieldName s := by
          unfold Stanza.last Stanza.rest
          simp only [lists_cons hmine]
          rw [List.dropWhile_cons_of_pos (by simpa using hmine)]
        have hstep : step machine fieldName.name .machine p = .next .machine := by
          obtain ⟨field, value⟩ := p
          have hnot : ¬ (field = machineKey ∧ value = machine) := fun h => hmine (by rw [h.1, h.2])
          simp [step, hnot]
        rw [stanzaLoop, hstep, hlast]
        exact hrest

/-! ## The lines of the database -/

theorem loop_append_empty (machine name : Text) (state : State) (ps : List Entry) (n : ℕ) :
    loop machine name state (ps ++ List.replicate n ([], [])) = loop machine name state ps := by
  induction ps generalizing state with
  | nil =>
      induction n generalizing state with
      | zero => rfl
      | succ n ih =>
          have hstep : loop machine name state (([], []) :: List.replicate n ([], [])) =
              loop machine name .machine (List.replicate n ([], [])) := by
            have hempty : step machine name state ([], []) = .next .machine :=
              step_empty machine name state rfl
            rw [loop, hempty]
          rw [List.nil_append, List.replicate_succ, hstep]
          exact ih .machine
  | cons p ps ih =>
      rw [List.cons_append, loop, loop]
      cases step machine name state p with
      | next state' => exact ih state'
      | returns value => rfl

theorem splitOn_newlines (t : Text) (n : ℕ) :
    (t ++ List.replicate n '\n').splitOn '\n' = t.splitOn '\n' ++ List.replicate n [] := by
  induction n generalizing t with
  | zero => rw [List.replicate_zero, List.replicate_zero, List.append_nil, List.append_nil]
  | succ n ih =>
      rw [List.replicate_succ, List.splitOn_append_cons_self, List.replicate_succ]
      have hrest := ih []
      rw [List.nil_append, List.splitOn_nil] at hrest
      rw [hrest]
      rfl

theorem getMachineField_machineDb {etcDb db : List Text} (hetc : ∀ l ∈ etcDb, '\n' ∉ l)
    (hdb : ∀ l ∈ db, '\n' ∉ l) (machine name : Text) :
    getMachineField (machineDb etcDb db) machine name =
      loop machine name .machine ((etcDb ++ db).map readLine) := by
  have hlines : ∀ l ∈ etcDb ++ db, '\n' ∉ l := fun l hl =>
    (List.mem_append.1 hl).elim (hetc l) (hdb l)
  have hsplit := Lib.splitOn_unlines '\n' hlines []
  rw [List.append_nil, List.splitOn_nil] at hsplit
  have htext : Lib.unlines '\n' (etcDb ++ db) = machineDb etcDb db ++
      List.replicate ((Lib.unlines '\n' (etcDb ++ db)).rtakeWhile (· = '\n')).length '\n' := by
    have hnewlines : (Lib.unlines '\n' (etcDb ++ db)).rtakeWhile (· = '\n') =
        List.replicate ((Lib.unlines '\n' (etcDb ++ db)).rtakeWhile (· = '\n')).length '\n' :=
      List.eq_replicate_length.2 fun c hc => by simpa using List.mem_rtakeWhile_imp hc
    rw [← hnewlines, machineDb, ← Lib.unlines_append]
    exact List.rdropWhile_append_rtakeWhile.symm
  rw [htext, splitOn_newlines] at hsplit
  have hempty : readLine [] = ([], []) := rfl
  have hloop := loop_append_empty machine name .machine ((etcDb ++ db).map readLine) 1
  rw [getMachineField, ← loop_append_empty machine name .machine _
    ((Lib.unlines '\n' (etcDb ++ db)).rtakeWhile (· = '\n')).length, ← hempty,
    ← List.map_replicate, ← List.map_append, hsplit, List.map_append]
  exact hloop

/-! ## Two files

The last stanza of the local file and the first of the shipped one are read as one. -/

theorem splitOnP_append {α : Type} (p : α → Bool) (xs ys : List α) :
    ∃ I a b T, xs.splitOnP p = I ++ [a] ∧ ys.splitOnP p = b :: T ∧
      (xs ++ ys).splitOnP p = I ++ (a ++ b) :: T := by
  obtain ⟨b, T, hys⟩ := List.exists_cons_of_ne_nil (List.splitOnP_ne_nil p ys)
  induction xs with
  | nil => exact ⟨[], [], b, T, List.splitOnP_nil, hys, hys⟩
  | cons x xs ih =>
      obtain ⟨I, a, b', T', hxs, hys', hall⟩ := ih
      rw [List.cons_append, List.splitOnP_cons_eq_if_modifyHead,
        List.splitOnP_cons_eq_if_modifyHead, hxs, hall]
      by_cases hx : p x = true
      · rw [if_pos hx, if_pos hx]
        exact ⟨[] :: I, a, b', T', rfl, hys', rfl⟩
      · rw [if_neg hx, if_neg hx]
        cases I with
        | nil => exact ⟨[], x :: a, b', T', rfl, hys', rfl⟩
        | cons i I => exact ⟨(x :: i) :: I, a, b', T', rfl, hys', rfl⟩

/-! ## Proper stanzas -/

theorem find_dropWhile {name : Text} (hne : key name ≠ machineKey) (q : Stanza) :
    q.find? (·.1 = key name) = (q.dropWhile isMachine).find? (·.1 = key name) := by
  induction q with
  | nil => rfl
  | cons p q ih =>
      by_cases hp : isMachine p = true
      · have hkey : ¬ p.1 = key name := fun h => hne (h.symm.trans (of_decide_eq_true hp))
        rw [List.dropWhile_cons_of_pos hp, List.find?_cons_of_neg (by simpa using hkey), ih]
      · rw [List.dropWhile_cons_of_neg hp]

theorem isComment_machine (h : isMachine p = true) : isComment p = false := by
  have hkey : p.1 = machineKey := of_decide_eq_true h
  rw [isComment, hkey]
  decide

theorem isComment_key (h : p.1 = key fieldName.name) : isComment p = false := by
  rw [isComment, h, decide_eq_false_iff_not]
  have hplain := fieldName.plain
  cases hname : fieldName.name with
  | nil => decide
  | cons c name =>
      rw [hname] at hplain
      exact hplain

theorem Stanza.Proper.before (h : Stanza.Proper s) (hs : s = a ++ p :: b)
    (hp : isMachine p = true) : ∀ q ∈ a, isComment q = true ∨ isMachine q = true := by
  obtain ⟨machines, fields, hfilter, hmachines, hfields, -⟩ := h
  have hkept : (!isComment p) = true := by
    rw [isComment_machine hp]
    rfl
  have hcons : (p :: b).filter (!isComment ·) = p :: b.filter (!isComment ·) :=
    List.filter_cons_of_pos hkept
  rw [hs, List.filter_append, hcons] at hfilter
  intro q hq
  by_cases hcomment : isComment q = true
  · exact .inl hcomment
  · have hmem : q ∈ a.filter (!isComment ·) :=
      List.mem_filter.2 ⟨hq, by simpa using hcomment⟩
    rcases List.append_eq_append_iff.1 hfilter with ⟨c, hc, -⟩ | ⟨c, -, hc⟩
    · exact .inr (hmachines q (hc ▸ List.mem_append_left _ hmem))
    · have hmachine := hfields p (hc ▸ List.mem_append_right _ List.mem_cons_self)
      rw [hmachine] at hp
      cases hp

theorem rest_eq (h : (machineKey, machine) ∉ a) (q : Stanza) :
    Stanza.rest machine (a ++ (machineKey, machine) :: q) = q.dropWhile isMachine := by
  have hdrop : (a ++ (machineKey, machine) :: q).dropWhile
      (fun p : Entry => decide (p ≠ (machineKey, machine))) = (machineKey, machine) :: q := by
    have hbefore : ∀ p ∈ a, decide (p ≠ (machineKey, machine)) = true := fun p hp =>
      decide_eq_true fun heq => h (heq ▸ hp)
    rw [List.dropWhile_append_of_pos hbefore, List.dropWhile_cons_of_neg (by simp)]
  rw [Stanza.rest, hdrop, List.tail_cons]

theorem Stanza.Lists.split (h : Stanza.Lists machine s) :
    ∃ a q, s = a ++ (machineKey, machine) :: q ∧ (machineKey, machine) ∉ a := by
  obtain ⟨a, q, hs, ha⟩ := List.eq_append_cons_of_mem h
  exact ⟨a, q, hs, ha⟩

theorem Stanza.Proper.find (h : Stanza.Proper s) (hlists : Stanza.Lists machine s)
    (hname : fieldName.name ≠ machineField) :
    s.find? (·.1 = key fieldName.name) =
      (Stanza.rest machine s).find? (·.1 = key fieldName.name) := by
  have hne : key fieldName.name ≠ machineKey := fun heq => hname (key_inj.1 heq)
  obtain ⟨a, q, hs, hnot⟩ := hlists.split
  have hmachine : isMachine (machineKey, machine) = true := decide_eq_true rfl
  have ha : a.find? (·.1 = key fieldName.name) = none := by
    rw [List.find?_eq_none]
    intro p hp hkey
    have hkey' : p.1 = key fieldName.name := of_decide_eq_true hkey
    rcases h.before hs hmachine p hp with hcomment | hmach
    · rw [isComment_key hkey'] at hcomment
      cases hcomment
    · exact hne (hkey'.symm.trans (of_decide_eq_true hmach))
  rw [hs, rest_eq hnot, List.find?_append, ha, Option.none_or,
    List.find?_cons_of_neg (by simpa using hne.symm), find_dropWhile hne]

theorem last_of_not_lists (h : ¬ Stanza.Lists machine s) :
    Stanza.last machine fieldName s = none := if_neg h

theorem last_machineField (h : Stanza.Lists machine s) (hname : fieldName.name = machineField) :
    Stanza.last machine fieldName s = some (machineKey, machine) := by
  rw [Stanza.last, if_pos h, if_pos hname]

theorem last_field (h : Stanza.Lists machine s) (hname : fieldName.name ≠ machineField) :
    Stanza.last machine fieldName s = (Stanza.rest machine s).find? fun p =>
      p.1 = key fieldName.name ∨ isMachine p = true := by
  rw [Stanza.last, if_pos h, if_neg hname]

theorem find_of_find_or {P Q : β → Prop} [DecidablePred P] [DecidablePred Q] {l : List β} {p : β}
    (h : (l.find? fun p => P p ∨ Q p) = some p) (hp : P p) : l.find? (fun p => P p) = some p := by
  obtain ⟨-, a, b, rfl, ha⟩ := List.find?_eq_some_iff_append.1 h
  refine List.find?_eq_some_iff_append.2 ⟨decide_eq_true hp, a, b, rfl, fun q hq => ?_⟩
  have hnot := ha q hq
  simp only [Bool.not_eq_true', decide_eq_false_iff_not, not_or] at hnot ⊢
  exact hnot.1

theorem find_none_of_find_or {P Q : β → Prop} [DecidablePred P] [DecidablePred Q] {l : List β}
    (h : (l.find? fun p => P p ∨ Q p) = none) : l.find? (fun p => P p) = none := by
  rw [List.find?_eq_none] at h ⊢
  intro p hp hP
  exact h p hp (decide_eq_true (.inl (of_decide_eq_true hP)))

/-- What a stanza contributes to the answer. -/
def entry (machine : Text) (fieldName : FieldName) (s : Stanza) : Option Text :=
  if Stanza.Lists machine s then Stanza.value machine fieldName s else none

theorem Stanza.Proper.entry_none (h : Stanza.Proper s)
    (hlast : Stanza.last machine fieldName s = none) : entry machine fieldName s = none := by
  unfold entry
  split
  · next hlists =>
      by_cases hname : fieldName.name = machineField
      · rw [last_machineField hlists hname] at hlast
        cases hlast
      · rw [last_field hlists hname] at hlast
        rw [Stanza.value, if_neg hname, h.find hlists hname, find_none_of_find_or hlast]
        rfl
  · rfl

theorem Stanza.Proper.entry_some (h : Stanza.Proper s)
    (hlast : Stanza.last machine fieldName s = some p) (hp : p.1 = key fieldName.name) :
    entry machine fieldName s = some p.2 := by
  have hlists : Stanza.Lists machine s := by
    by_contra hnot
    rw [last_of_not_lists hnot] at hlast
    cases hlast
  rw [entry, if_pos hlists, Stanza.value]
  by_cases hname : fieldName.name = machineField
  · rw [last_machineField hlists hname] at hlast
    rw [if_pos hname, ← Option.some.inj hlast]
  · rw [last_field hlists hname] at hlast
    rw [if_neg hname, h.find hlists hname, find_of_find_or hlast hp]
    rfl

/-! ## Two stanzas in one

The loop ends in the first part, or it goes on in the second with the machine of the first. -/

theorem lists_append :
    Stanza.Lists machine (a ++ b) ↔ Stanza.Lists machine a ∨ Stanza.Lists machine b :=
  List.mem_append

theorem last_append_of_not_lists (h : ¬ Stanza.Lists machine a) (b : Stanza) :
    Stanza.last machine fieldName (a ++ b) = Stanza.last machine fieldName b := by
  have hdrop : (a ++ b).dropWhile (fun p : Entry => decide (p ≠ (machineKey, machine))) =
      b.dropWhile fun p : Entry => decide (p ≠ (machineKey, machine)) :=
    List.dropWhile_append_of_pos fun p hp => decide_eq_true fun heq =>
      h (show (machineKey, machine) ∈ a from heq ▸ hp)
  unfold Stanza.last Stanza.rest
  simp only [lists_append, h, false_or, hdrop]

theorem rest_append (h : Stanza.Lists machine a) (b : Stanza) :
    Stanza.rest machine (a ++ b) =
      if Stanza.rest machine a = [] then b.dropWhile isMachine else Stanza.rest machine a ++ b := by
  obtain ⟨u, q, rfl, hnot⟩ := h.split
  rw [List.append_assoc, List.cons_append, rest_eq hnot, rest_eq hnot, List.dropWhile_append]
  simp only [List.isEmpty_iff]

theorem last_append_of_some (h : Stanza.last machine fieldName a = some p) (b : Stanza) :
    Stanza.last machine fieldName (a ++ b) = some p := by
  have hlists : Stanza.Lists machine a := by
    by_contra hnot
    rw [last_of_not_lists hnot] at h
    cases h
  have hboth : Stanza.Lists machine (a ++ b) := lists_append.2 (.inl hlists)
  by_cases hname : fieldName.name = machineField
  · rw [last_machineField hlists hname] at h
    rw [last_machineField hboth hname, h]
  · rw [last_field hlists hname] at h
    have hne : Stanza.rest machine a ≠ [] := by
      intro hnil
      rw [hnil] at h
      cases h
    rw [last_field hboth hname, rest_append hlists, if_neg hne, List.find?_append, h]
    rfl

theorem find_of_last_append (hlists : Stanza.Lists machine a)
    (ha : Stanza.last machine fieldName a = none) (b : Stanza) :
    (Stanza.last machine fieldName (a ++ b) = none → b.find? (·.1 = key fieldName.name) = none) ∧
    ∀ p, Stanza.last machine fieldName (a ++ b) = some p → p.1 = key fieldName.name →
      b.find? (·.1 = key fieldName.name) = some p := by
  have hboth : Stanza.Lists machine (a ++ b) := lists_append.2 (.inl hlists)
  have hname : fieldName.name ≠ machineField := by
    intro hname
    rw [last_machineField hlists hname] at ha
    cases ha
  have hne : key fieldName.name ≠ machineKey := fun heq => hname (key_inj.1 heq)
  rw [last_field hlists hname] at ha
  have hlast : Stanza.last machine fieldName (a ++ b) =
      (if Stanza.rest machine a = [] then b.dropWhile isMachine else b).find? fun p =>
        p.1 = key fieldName.name ∨ isMachine p = true := by
    rw [last_field hboth hname, rest_append hlists]
    split
    · rfl
    · rw [List.find?_append, ha, Option.none_or]
  have hfind : b.find? (·.1 = key fieldName.name) =
      (if Stanza.rest machine a = [] then b.dropWhile isMachine else b).find?
        (·.1 = key fieldName.name) := by
    split
    · exact find_dropWhile hne b
    · rfl
  rw [hlast, hfind]
  exact ⟨find_none_of_find_or, fun p hp hkey => find_of_find_or hp hkey⟩

/-! ## The whole database -/

/-- The loop ends in this stanza. -/
def Ends (machine : Text) (fieldName : FieldName) (s : Stanza) : Bool :=
  (Stanza.last machine fieldName s).isSome

/-- What is printed, stanza by stanza. -/
def shown (machine : Text) (fieldName : FieldName) (db : List Stanza) : Option Text :=
  (db.findSome? fun s => (Stanza.last machine fieldName s).map (printed fieldName)).join

/-- Of the stanzas that are seen, the one in which the loop ends is interrupted. -/
def Blocked (machine : Text) (fieldName : FieldName) (seen : List Stanza) : Prop :=
  ∃ s, seen.find? (Ends machine fieldName) = some s ∧ Stanza.Interrupted machine fieldName s

/-- The last stanza of the first file lists the machine without this field, and the first one of
the second file is for other machines, has the field and is not parted from it. -/
def Lent (machine : Text) (fieldName : FieldName) (before : List Stanza) (a b : Stanza)
    (value : Text) : Prop :=
  (∀ s ∈ before, Ends machine fieldName s = false) ∧
    Stanza.Lists machine a ∧ Stanza.value machine fieldName a = none ∧
    ¬ Stanza.Lists machine b ∧ Stanza.value machine fieldName b = some value ∧
    ¬ Stanza.Interrupted machine fieldName (a ++ b)

theorem ends_eq_false :
    Ends machine fieldName s = false ↔ Stanza.last machine fieldName s = none := by
  rw [Ends, Option.isSome_eq_false_iff, Option.isNone_iff_eq_none]

theorem shown_append (h : ∀ s ∈ db, Ends machine fieldName s = false) (rest : List Stanza) :
    shown machine fieldName (db ++ rest) = shown machine fieldName rest := by
  have hnone : db.findSome? (fun s =>
      (Stanza.last machine fieldName s).map (printed fieldName)) = none := by
    rw [List.findSome?_eq_none_iff]
    intro s hs
    rw [ends_eq_false.1 (h s hs)]
    rfl
  rw [shown, List.findSome?_append, hnone, Option.none_or]
  rfl

theorem shown_cons (h : Stanza.last machine fieldName s = some p) (rest : List Stanza) :
    shown machine fieldName (s :: rest) = printed fieldName p := by
  rw [shown, List.findSome?_cons, h]
  rfl

theorem blocked_append (h : ∀ s ∈ db, Ends machine fieldName s = false) (rest : List Stanza) :
    Blocked machine fieldName (db ++ rest) ↔ Blocked machine fieldName rest := by
  have hnone : db.find? (Ends machine fieldName) = none := by
    rw [List.find?_eq_none]
    intro s hs
    rw [h s hs]
    decide
  unfold Blocked
  rw [List.find?_append, hnone, Option.none_or]

theorem blocked_cons (h : Stanza.last machine fieldName s = some p) (rest : List Stanza) :
    Blocked machine fieldName (s :: rest) ↔ p.1 ≠ key fieldName.name := by
  have hends : Ends machine fieldName s = true := by
    rw [Ends, h]
    rfl
  unfold Blocked Stanza.Interrupted
  rw [List.find?_cons_of_pos hends]
  constructor
  · rintro ⟨s', hs', q, hq, hne⟩
    obtain rfl := Option.some.inj hs'
    rw [h] at hq
    exact Option.some.inj hq ▸ hne
  · exact fun hne => ⟨s, rfl, p, h, hne⟩

theorem answer_append (hproper : ∀ s ∈ db, Stanza.Proper s)
    (h : ∀ s ∈ db, Ends machine fieldName s = false) (rest : List Stanza) :
    answer machine fieldName (db ++ rest) = answer machine fieldName rest := by
  have hnone : db.findSome? (entry machine fieldName) = none := by
    rw [List.findSome?_eq_none_iff]
    exact fun s hs => (hproper s hs).entry_none (ends_eq_false.1 (h s hs))
  have hanswer : ∀ l, answer machine fieldName l = l.findSome? (entry machine fieldName) :=
    fun _ => rfl
  rw [hanswer, hanswer, List.findSome?_append, hnone, Option.none_or]

theorem answer_cons_none (h : entry machine fieldName s = none) (rest : List Stanza) :
    answer machine fieldName (s :: rest) = answer machine fieldName rest := by
  have hanswer : ∀ l, answer machine fieldName l = l.findSome? (entry machine fieldName) :=
    fun _ => rfl
  rw [hanswer, hanswer, List.findSome?_cons, h]

theorem answer_cons_some {v : Text} (h : entry machine fieldName s = some v) (rest : List Stanza) :
    answer machine fieldName (s :: rest) = some v := by
  have hanswer : ∀ l, answer machine fieldName l = l.findSome? (entry machine fieldName) :=
    fun _ => rfl
  rw [hanswer, List.findSome?_cons, h]

theorem exists_ends (machine : Text) (fieldName : FieldName) (db : List Stanza) :
    (∀ s ∈ db, Ends machine fieldName s = false) ∨
      ∃ before s after p, db = before ++ s :: after ∧
        (∀ s ∈ before, Ends machine fieldName s = false) ∧
        Stanza.last machine fieldName s = some p := by
  cases hfind : db.find? (Ends machine fieldName) with
  | none =>
      left
      intro s hs
      exact Bool.eq_false_iff.2 (List.find?_eq_none.1 hfind s hs)
  | some s =>
      right
      obtain ⟨hs, before, after, rfl, hbefore⟩ := List.find?_eq_some_iff_append.1 hfind
      obtain ⟨p, hp⟩ := Option.isSome_iff_exists.1 hs
      exact ⟨before, s, after, p, rfl, fun q hq => by simpa using hbefore q hq, hp⟩

theorem shown_eq_answer (hproper : ∀ s ∈ db, Stanza.Proper s) :
    shown machine fieldName db = answer machine fieldName db ↔
      (Blocked machine fieldName db → answer machine fieldName db = none) := by
  rcases exists_ends machine fieldName db with
    hnone | ⟨before, s, after, p, rfl, hbefore, hp⟩
  · have hshown := shown_append hnone []
    have hanswer := answer_append hproper hnone []
    rw [List.append_nil] at hshown hanswer
    rw [hshown, hanswer]
    exact iff_of_true rfl fun _ => rfl
  · have hb : ∀ q ∈ before, Stanza.Proper q := fun q hq =>
      hproper q (List.mem_append_left _ hq)
    have hs := hproper s (List.mem_append_right _ List.mem_cons_self)
    rw [shown_append hbefore, answer_append hb hbefore, blocked_append hbefore, shown_cons hp,
      blocked_cons hp, printed]
    by_cases hkey : p.1 = key fieldName.name
    · rw [if_pos hkey, answer_cons_some (hs.entry_some hp hkey)]
      exact iff_of_true rfl fun h => absurd hkey h
    · rw [if_neg hkey, eq_comm]
      exact ⟨fun h _ => h, fun h => h hkey⟩

theorem entry_of_not_lists (h : ¬ Stanza.Lists machine s) :
    entry machine fieldName s = none := if_neg h

theorem entry_of_lists (h : Stanza.Lists machine s) :
    entry machine fieldName s = Stanza.value machine fieldName s := if_pos h

theorem ne_machineField (hlists : Stanza.Lists machine s)
    (h : Stanza.last machine fieldName s = none) : fieldName.name ≠ machineField := by
  intro hname
  rw [last_machineField hlists hname] at h
  cases h

theorem value_eq_find (hname : fieldName.name ≠ machineField) :
    Stanza.value machine fieldName s = (s.find? (·.1 = key fieldName.name)).map Prod.snd :=
  if_neg hname

theorem joined_none (ha : Stanza.Proper a) (hb : Stanza.Proper b)
    (h : Stanza.last machine fieldName (a ++ b) = none) :
    entry machine fieldName a = none ∧ entry machine fieldName b = none ∧
      ∀ before v, ¬ Lent machine fieldName before a b v := by
  have hlast : Stanza.last machine fieldName a = none := by
    cases hlast : Stanza.last machine fieldName a with
    | none => rfl
    | some p =>
        rw [last_append_of_some hlast b] at h
        cases h
  refine ⟨ha.entry_none hlast, ?_⟩
  by_cases hlists : Stanza.Lists machine a
  · have hvalue : Stanza.value machine fieldName b = none := by
      rw [value_eq_find (ne_machineField hlists hlast), (find_of_last_append hlists hlast b).1 h]
      rfl
    refine ⟨?_, ?_⟩
    · unfold entry
      split
      · exact hvalue
      · rfl
    · rintro before v ⟨-, -, -, -, hsome, -⟩
      rw [hvalue] at hsome
      cases hsome
  · rw [last_append_of_not_lists hlists] at h
    exact ⟨hb.entry_none h, fun before v hlent => hlists hlent.2.1⟩

theorem joined_some {before : List Stanza} (ha : Stanza.Proper a) (hb : Stanza.Proper b)
    (hbefore : ∀ s ∈ before, Ends machine fieldName s = false)
    (h : Stanza.last machine fieldName (a ++ b) = some p) (hp : p.1 = key fieldName.name) :
    ((∀ after, answer machine fieldName (a :: b :: after) = some p.2) ∧
        ∀ v, ¬ Lent machine fieldName before a b v) ∨
      ∀ v, Lent machine fieldName before a b v ↔ v = p.2 := by
  by_cases hlists : Stanza.Lists machine a
  · cases hlast : Stanza.last machine fieldName a with
    | some q =>
        rw [last_append_of_some hlast b] at h
        obtain rfl := Option.some.inj h
        have hsome := ha.entry_some hlast hp
        refine .inl ⟨fun after => answer_cons_some hsome _, fun v hv => ?_⟩
        rw [entry_of_lists hlists, hv.2.2.1] at hsome
        cases hsome
    | none =>
        have hname := ne_machineField hlists hlast
        have hvalue : Stanza.value machine fieldName b = some p.2 := by
          rw [value_eq_find hname, (find_of_last_append hlists hlast b).2 p h hp]
          rfl
        have hnone : entry machine fieldName a = none := ha.entry_none hlast
        by_cases hlists' : Stanza.Lists machine b
        · refine .inl ⟨fun after => ?_, fun v hv => hv.2.2.2.1 hlists'⟩
          rw [answer_cons_none hnone, answer_cons_some]
          rw [entry_of_lists hlists', hvalue]
        · right
          have hnot : ¬ Stanza.Interrupted machine fieldName (a ++ b) := by
            rintro ⟨q, hq, hne⟩
            rw [h] at hq
            exact hne (Option.some.inj hq ▸ hp)
          rw [entry_of_lists hlists] at hnone
          intro v
          constructor
          · rintro ⟨-, -, -, -, hv, -⟩
            rw [hvalue] at hv
            exact (Option.some.inj hv).symm
          · rintro rfl
            exact ⟨hbefore, hlists, hnone, hlists', hvalue, hnot⟩
  · refine .inl ⟨fun after => ?_, fun v hv => hlists hv.2.1⟩
    rw [last_append_of_not_lists hlists] at h
    rw [answer_cons_none (entry_of_not_lists hlists), answer_cons_some (hb.entry_some h hp)]

theorem shown_eq_answer_joined {before after : List Stanza}
    (hproper : ∀ s ∈ before ++ a :: b :: after, Stanza.Proper s) :
    shown machine fieldName (before ++ (a ++ b) :: after) =
        answer machine fieldName (before ++ a :: b :: after) ↔
      (Blocked machine fieldName (before ++ (a ++ b) :: after) →
        answer machine fieldName (before ++ a :: b :: after) = none) ∧
      ∀ v, Lent machine fieldName before a b v →
        answer machine fieldName (before ++ a :: b :: after) = some v := by
  have hbefore : ∀ s ∈ before, Stanza.Proper s := fun s hs =>
    hproper s (List.mem_append_left _ hs)
  have ha : Stanza.Proper a := hproper a (by simp)
  have hb : Stanza.Proper b := hproper b (by simp)
  have hafter : ∀ s ∈ after, Stanza.Proper s := fun s hs => hproper s (by simp [hs])
  rcases exists_ends machine fieldName before with
    hnone | ⟨before', s, rest, p, rfl, hbefore', hp⟩
  · rw [shown_append hnone, answer_append hbefore hnone, blocked_append hnone]
    cases hlast : Stanza.last machine fieldName (a ++ b) with
    | none =>
        obtain ⟨hentry, hentry', hlent⟩ := joined_none ha hb hlast
        have hends : ∀ s ∈ [a ++ b], Ends machine fieldName s = false := fun s hs =>
          List.mem_singleton.1 hs ▸ ends_eq_false.2 hlast
        have hshown := shown_append hends after
        have hblocked := blocked_append hends after
        rw [List.singleton_append] at hshown hblocked
        rw [hshown, hblocked, answer_cons_none hentry, answer_cons_none hentry',
          shown_eq_answer hafter]
        exact ⟨fun h => ⟨h, fun v hv => absurd hv (hlent before v)⟩, fun h => h.1⟩
    | some p =>
        rw [shown_cons hlast, blocked_cons hlast, printed]
        by_cases hkey : p.1 = key fieldName.name
        · rw [if_pos hkey]
          rcases joined_some ha hb hnone hlast hkey with ⟨hanswer, hlent⟩ | hlent
          · rw [hanswer after]
            exact iff_of_true rfl ⟨fun h => absurd hkey h, fun v hv => absurd hv (hlent v)⟩
          · simp only [hlent, forall_eq]
            exact ⟨fun h => ⟨fun hne => absurd hkey hne, h.symm⟩, fun h => h.2.symm⟩
        · rw [if_neg hkey, eq_comm]
          refine ⟨fun h => ⟨fun _ => h, fun v hv => ?_⟩, fun h => h.1 hkey⟩
          exact absurd ⟨p, hlast, hkey⟩ hv.2.2.2.2.2
  · -- The loop ends before the place where the files meet.
    have hb' : ∀ q ∈ before', Stanza.Proper q := fun q hq =>
      hbefore q (List.mem_append_left _ hq)
    have hs := hbefore s (List.mem_append_right _ List.mem_cons_self)
    have hlent : ∀ v, ¬ Lent machine fieldName (before' ++ s :: rest) a b v := by
      rintro v ⟨hends, -⟩
      have hnot := ends_eq_false.1 (hends s (List.mem_append_right _ List.mem_cons_self))
      rw [hp] at hnot
      cases hnot
    rw [List.append_assoc, List.append_assoc, List.cons_append, List.cons_append,
      shown_append hbefore', answer_append hb' hbefore', blocked_append hbefore', shown_cons hp,
      blocked_cons hp, printed]
    by_cases hkey : p.1 = key fieldName.name
    · rw [if_pos hkey, answer_cons_some (hs.entry_some hp hkey)]
      exact iff_of_true rfl ⟨fun h => absurd hkey h, fun v hv => absurd hv (hlent v)⟩
    · rw [if_neg hkey, eq_comm]
      exact ⟨fun h => ⟨fun _ => h, fun v hv => absurd hv (hlent v)⟩, fun h => h.1 hkey⟩

theorem exists_joined (etcDb db : Database) : ∃ before a b after,
    stanzas etcDb.lines = before ++ [a] ∧ stanzas db.lines = b :: after ∧
      stanzas (etcDb.lines ++ db.lines) = before ++ (a ++ b) :: after := by
  unfold stanzas
  rw [List.map_append]
  exact splitOnP_append _ _ _

theorem stanza_ne_nil {lines : List Text} (h : s ∈ stanzas lines) :
    ∀ p ∈ s, p.1 ≠ [] := fun p hp =>
  of_decide_eq_false ((Lib.mem_of_mem_splitOnP h).1 p hp)

theorem findSome?_eq {γ : Type} {f g : β → Option γ} {l : List β} (h : ∀ x ∈ l, f x = g x) :
    l.findSome? f = l.findSome? g := by
  induction l with
  | nil => rfl
  | cons x l ih =>
      obtain ⟨hx, hl⟩ := List.forall_mem_cons.1 h
      rw [List.findSome?_cons, List.findSome?_cons, hx, ih hl]

theorem getMachineField_shown (etcDb db : Database) (machine : Text) (fieldName : FieldName) :
    getMachineField (machineDb etcDb.lines db.lines) machine fieldName.name =
      shown machine fieldName (stanzas (etcDb.lines ++ db.lines)) := by
  rw [getMachineField_machineDb (fun l hl => (etcDb.plain l hl).1)
    fun l hl => (db.plain l hl).1]
  obtain ⟨s, others, hsplit⟩ := List.exists_cons_of_ne_nil (List.splitOnP_ne_nil
    (fun p : Entry => decide (p.1 = [])) ((etcDb.lines ++ db.lines).map readLine))
  have hstanzas : stanzas (etcDb.lines ++ db.lines) = s :: others := hsplit
  have hne : ∀ q ∈ s :: others, ∀ p ∈ q, p.1 ≠ [] := fun q hq => stanza_ne_nil (hstanzas ▸ hq)
  have hothers : others.findSome? (stanzaLoop machine fieldName.name .machine) =
      others.findSome? fun s => (Stanza.last machine fieldName s).map (printed fieldName) :=
    findSome?_eq fun q hq => stanzaLoop_machine (hne q (List.mem_cons_of_mem _ hq))
  rw [loop_stanzas hsplit, stanzaLoop_machine (hne s List.mem_cons_self), hothers, hstanzas, shown,
    List.findSome?_cons]
  cases (Stanza.last machine fieldName s).map (printed fieldName) <;> rfl

/-- The value is the one in the first stanza that lists the machine and has the field, unless the
stanza in which the loop ends is interrupted, or the local file has no empty line at its end and
its last stanza lends its machine to the first one of the shipped database. -/
theorem getMachineField_answer (etcDb db : Database) (machine : Text) (fieldName : FieldName) :
    getMachineField (machineDb etcDb.lines db.lines) machine fieldName.name =
        answer machine fieldName (stanzas etcDb.lines ++ stanzas db.lines) ↔
      (Blocked machine fieldName (stanzas (etcDb.lines ++ db.lines)) →
        answer machine fieldName (stanzas etcDb.lines ++ stanzas db.lines) = none) ∧
      ∀ before a b after v, stanzas etcDb.lines = before ++ [a] → stanzas db.lines = b :: after →
        Lent machine fieldName before a b v →
          answer machine fieldName (stanzas etcDb.lines ++ stanzas db.lines) = some v := by
  obtain ⟨before, a, b, after, hetc, hdb, hall⟩ := exists_joined etcDb db
  have hdbs : stanzas etcDb.lines ++ stanzas db.lines = before ++ a :: b :: after := by
    rw [hetc, hdb, List.append_assoc, List.singleton_append]
  have hproper : ∀ s ∈ before ++ a :: b :: after, Stanza.Proper s := by
    intro s hs
    rw [← hdbs] at hs
    exact (List.mem_append.1 hs).elim (etcDb.proper s) (db.proper s)
  rw [getMachineField_shown, hall, hdbs, shown_eq_answer_joined hproper]
  refine and_congr_right fun _ => ⟨?_, fun h v => h before a b after v hetc hdb⟩
  intro h before' a' b' after' v hetc' hdb' hlent
  rw [hetc] at hetc'
  rw [hdb] at hdb'
  obtain ⟨rfl, ha⟩ := List.append_inj' hetc' rfl
  obtain rfl := (List.cons.inj ha).1
  obtain rfl := (List.cons.inj hdb').1
  exact h v hlent

/-- The second line is a comment, which parts the first name from the second. -/
def commentedDb : Database where
  lines := ["Machine: A", "# by another name", "Machine: B",
    "Method: slug"]
  plain := by decide
  proper := by
    intro s hs
    have hstanzas : stanzas ["Machine: A", "# by another name",
        "Machine: B", "Method: slug"] =
        [[(machineKey, "A".toList), ("#".toList, "by another name".toList),
          (machineKey, "B"), ("Method:", "slug")]] := by
      decide
    rw [hstanzas, List.mem_singleton] at hs
    subst hs
    refine ⟨[(machineKey, "A"), (machineKey, "B")],
      [("Method:", "slug")], ?_, ?_, ?_, ?_⟩
    all_goals decide

def noDb : Database := ⟨[], by simp, fun s hs => by
  obtain rfl := List.mem_singleton.1 hs
  exact ⟨[], [], rfl, by simp, by simp, fun _ => rfl⟩⟩

def methodField : FieldName := ⟨"Method", by decide⟩

/-- The field of the stanza is not found under the name before the comment. -/
theorem getMachineField_commentedDb :
    getMachineField (machineDb noDb.lines commentedDb.lines) "A" methodField.name = none ∧
      answer "A" methodField (stanzas noDb.lines ++ stanzas commentedDb.lines) =
        some "slug".toList := by
  constructor
  · decide
  · decide

end DebianInstaller.FlashKernel
