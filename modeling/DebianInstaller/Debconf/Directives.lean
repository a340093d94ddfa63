import DebianInstaller.Debconf.Expand
import DebianInstaller.Debconf.Frontend

/-!
# Directives in a question's texts

`question_get_field` expands a text twice: once for the variables of the question, and once
more for the directives of the frontend, which are variables whose names start with `!`. The
first pass leaves these where they are. It also leaves what it has put in, and the second
pass reads that like the rest of the text.

To tell the two apart, every character is given its source here, the text of the field or
the value of a variable. The code does not see it. What the second pass looks up is then a
directive of the field itself, or it is not: a value may hold a variable, a value and what
stands beside it may make one, and an empty value may join what has been apart.
-/

namespace DebianInstaller.Debconf

open Text

/-! ## The two passes -/

/-- `question_expand_vars`, where a text that is not there is made an empty one. -/
def questionExpandVars (q : Question) (field : Option Text) : Except ExpandFault Text :=
  match field with
  | none => .ok []
  | some t => strexpandText (lookupVars q.vars) t

/-- The owners, with commas between them. -/
def joinOwners : List Text → Text
  | [] => []
  | [o] => o
  | o :: os => o ++ ", " ++ joinOwners os

/-- Whether the field is the list of owners. -/
def isOwners (field : Text) : Bool :=
  field != "value" && sameIgnoringCase field "owners"

/-- The text of a field before its variables are put in. -/
def fieldText (env : Env) (q : Question) (lang : Option Text) (field : Text) : Option Text :=
  if field = "value" then questionGetvalue env q lang
  else if sameIgnoringCase field "owners" then some (joinOwners q.owners)
  else q.template.bind fun t => templateLget env t lang field

/-- `question_get_raw_field`. -/
def questionGetRawField (env : Env) (q : Question) (lang : Option Text) (field : Text) :
    Except ExpandFault Text :=
  if isOwners field then .ok ((fieldText env q lang field).getD [])
  else questionExpandVars q (fieldText env q lang field)

/-- `lookup_directive`, with the one of the frontend. -/
def lookupDirective (fe : Text → Option Text) (directive : Text) :
    Except ExpandFault (Option Text) :=
  if directive.head? = some '!' then .ok (fe directive.tail) else .error .assertion

/-- `question_get_field`. -/
def questionGetField (fe : Text → Option Text) (env : Env) (q : Question) (lang : Option Text)
    (field : Text) : Except ExpandFault Text :=
  match questionGetRawField env q lang field with
  | .error f => .error f
  | .ok raw => strexpandRun id '\x00' (lookupDirective fe) raw

/-! ## Where the characters come from -/

/-- A character, and whether it is of the field itself. -/
abbrev Sourced := Char × Bool

/-- The text of the field. -/
def fromField (t : Text) : List Sourced := t.map fun c => (c, true)

/-- The value of a variable. -/
def fromValue (t : Text) : List Sourced := t.map fun c => (c, false)

/-- The text of a field with the values in place of the variables. -/
def withValues (env : Env) (q : Question) (lang : Option Text) (field : Text) : List Sourced :=
  let t := (fieldText env q lang field).getD []
  if isOwners field then fromField t
  else
    replaced Prod.fst (fun name => (lookupVars q.vars (name.map Prod.fst)).map fromValue) t.length
      (fromField t)

/-- The variables that `strexpand` finds in a text, each with its `${` and its brace. -/
def variablesIn : Nat → List Sourced → List (List Sourced)
  | _, [] => []
  | 0, _ :: _ => []
  | n + 1, c :: t =>
      if !isOpening Prod.fst c t then variablesIn n t
      else
        match behindName Prod.fst t with
        | none => []
        | some rest => (c :: t.take ((nameOf Prod.fst t).length + 2)) :: variablesIn n rest

/-- A name that a directive may have. -/
def isDirective (name : List Sourced) : Bool := name.head?.map Prod.fst == some '!'

/-- Every `${` that is closed is, up to its brace, of the field itself, and a directive with
fewer than `VAR_SIZE` characters; behind one that is not closed there are no more than that. -/
def onlyDirectives : Nat → List Sourced → Bool
  | _, [] => true
  | 0, _ :: _ => true
  | n + 1, c :: t =>
      if !isOpening Prod.fst c t then onlyDirectives n t
      else
        match behindName Prod.fst t with
        | none => t.tail.length ≤ varSize
        | some rest =>
            ((nameOf Prod.fst t).length < varSize && isDirective (nameOf Prod.fst t)) &&
              (c :: t.take ((nameOf Prod.fst t).length + 2)).all Prod.snd && onlyDirectives n rest

theorem onlyDirectives_eq (n : Nat) (t : List Sourced) :
    onlyDirectives n t =
      (namesFit Prod.fst isDirective n t && (variablesIn n t).all fun v => v.all Prod.snd) := by
  induction n generalizing t with
  | zero => cases t <;> rfl
  | succ n ih =>
      cases t with
      | nil => rfl
      | cons c t =>
          rw [onlyDirectives, namesFit, variablesIn]
          cases isOpening Prod.fst c t with
          | false => exact ih t
          | true =>
              cases behindName Prod.fst t with
              | none => exact (Bool.and_true _).symm
              | some rest =>
                  have hall : ∀ v : List Sourced,
                      ((v :: variablesIn n rest).all fun v => v.all Prod.snd) =
                        (v.all Prod.snd && (variablesIn n rest).all fun v => v.all Prod.snd) :=
                    fun _ => List.all_cons
                  simp only [Bool.not_true, Bool.false_eq_true, if_false]
                  rw [ih, hall]
                  simp only [Bool.and_assoc, Bool.and_left_comm]

/-! ## Both passes -/

theorem map_fst_fromField (t : Text) : (fromField t).map Prod.fst = t := by
  unfold fromField
  rw [List.map_map]
  exact List.map_id t

theorem map_fst_fromValue (t : Text) : (fromValue t).map Prod.fst = t := by
  unfold fromValue
  rw [List.map_map]
  exact List.map_id t

theorem map_fst_withValues (env : Env) (q : Question) (lang : Option Text) (field : Text) :
    (withValues env q lang field).map Prod.fst =
      if isOwners field then (fieldText env q lang field).getD []
      else withVariables (lookupVars q.vars) ((fieldText env q lang field).getD []) := by
  unfold withValues
  by_cases howners : isOwners field = true
  · rw [if_pos howners, if_pos howners, map_fst_fromField]
  · rw [if_neg howners, if_neg howners]
    have hlookup : ∀ name : List Sourced,
        ((lookupVars q.vars (name.map Prod.fst)).map fromValue).map (List.map Prod.fst) =
          lookupVars q.vars (name.map Prod.fst) := by
      intro name
      rw [Option.map_map]
      cases lookupVars q.vars (name.map Prod.fst) with
      | none => rfl
      | some v => exact congrArg some (map_fst_fromValue v)
    have hmap := @replaced_map Sourced Char id Prod.fst _ _ hlookup
      ((fieldText env q lang field).getD []).length (fromField ((fieldText env q lang field).getD []))
    rw [map_fst_fromField] at hmap
    exact hmap

/-- The first pass does not leave its buffers. -/
def FirstPassFits (env : Env) (q : Question) (lang : Option Text) (field : Text) : Prop :=
  isOwners field = true ∨
    namesFit id (fun _ => true) ((fieldText env q lang field).getD []).length
        ((fieldText env q lang field).getD []) = true ∧
      ((fieldText env q lang field).getD []).length ≤ intMax

theorem questionGetRawField_spec (env : Env) (q : Question) (lang : Option Text) (field : Text) :
    (FirstPassFits env q lang field → questionGetRawField env q lang field =
      .ok ((withValues env q lang field).map Prod.fst)) ∧
    (¬ FirstPassFits env q lang field → ∃ e, questionGetRawField env q lang field = .error e) := by
  rw [map_fst_withValues]
  unfold FirstPassFits questionGetRawField
  by_cases howners : isOwners field = true
  · rw [if_pos howners, if_pos howners]
    exact ⟨fun _ => rfl, fun h => absurd (.inl howners) h⟩
  · rw [if_neg howners, if_neg howners, or_iff_right howners]
    unfold questionExpandVars
    cases fieldText env q lang field with
    | none =>
        refine ⟨fun _ => rfl, fun h => absurd ⟨rfl, ?_⟩ h⟩
        exact Nat.zero_le _
    | some t =>
        exact @strexpandRun_spec Char id (fun name => .ok (lookupVars q.vars name))
          (fun _ => true) (lookupVars q.vars) '\x00' (fun _ _ => rfl) (fun _ h => by cases h) t

theorem secondPass_spec (fe : Text → Option Text) (raw : List Sourced) :
    (∃ r, strexpandRun id '\x00' (lookupDirective fe) (raw.map Prod.fst) = .ok r) ↔
      namesFit Prod.fst isDirective raw.length raw = true ∧ raw.length ≤ intMax := by
  have hok : ∀ name : Text, (name.head? == some '!') = true →
      lookupDirective fe name = .ok (fe name.tail) := by
    intro name h
    exact if_pos (eq_of_beq h)
  have herr : ∀ name : Text, (name.head? == some '!') = false →
      ∃ e, lookupDirective fe name = .error e := by
    intro name h
    exact ⟨.assertion, if_neg fun h' => by rw [h'] at h; cases h⟩
  have hfit : namesFit Prod.fst isDirective raw.length raw =
      namesFit id (fun name => name.head? == some '!') raw.length (raw.map Prod.fst) := by
    refine @namesFit_map Sourced Char id Prod.fst isDirective _ (fun name => ?_) raw.length raw
    rw [isDirective, List.head?_map]
  obtain ⟨hrun, hbad⟩ := @strexpandRun_spec Char id (lookupDirective fe)
    (fun name => name.head? == some '!') (fun name => fe name.tail) '\x00' hok herr
    (raw.map Prod.fst)
  rw [List.length_map, ← hfit] at hrun hbad
  constructor
  · rintro ⟨r, hr⟩
    by_contra hno
    obtain ⟨e, he⟩ := hbad hno
    rw [he] at hr
    cases hr
  · exact fun h => ⟨_, hrun h⟩

theorem questionGetField_of_raw {fe : Text → Option Text} {env : Env} {q : Question}
    {lang : Option Text} {field raw : Text} (h : questionGetRawField env q lang field = .ok raw) :
    questionGetField fe env q lang field = strexpandRun id '\x00' (lookupDirective fe) raw := by
  unfold questionGetField
  rw [h]

/-- `question_get_field` fails no assertion, leaves no buffer and looks nothing up that a
value has brought in exactly if the first pass fits and the text it gives, of no more
characters than an `int` counts, has only directives of its own. -/
theorem questionGetField_iff (fe : Text → Option Text) (env : Env) (q : Question)
    (lang : Option Text) (field : Text) :
    ((∃ r, questionGetField fe env q lang field = .ok r) ∧
        ∀ v ∈ variablesIn (withValues env q lang field).length (withValues env q lang field),
          ∀ c ∈ v, c.2 = true) ↔
      FirstPassFits env q lang field ∧ (withValues env q lang field).length ≤ intMax ∧
        onlyDirectives (withValues env q lang field).length (withValues env q lang field) = true := by
  obtain ⟨hraw, hno⟩ := questionGetRawField_spec env q lang field
  rw [onlyDirectives_eq, Bool.and_eq_true]
  have hall : ∀ vs : List (List Sourced),
      (vs.all fun v => v.all Prod.snd) = true ↔ ∀ v ∈ vs, ∀ c ∈ v, c.2 = true := by
    intro vs
    simp only [List.all_eq_true]
  rw [hall]
  by_cases hfirst : FirstPassFits env q lang field
  · rw [questionGetField_of_raw (hraw hfirst), secondPass_spec, and_iff_right hfirst]
    constructor
    · rintro ⟨⟨hfit, hlen⟩, hown⟩
      exact ⟨hlen, hfit, hown⟩
    · rintro ⟨hlen, hfit, hown⟩
      exact ⟨⟨hfit, hlen⟩, hown⟩
  · obtain ⟨e, he⟩ := hno hfirst
    refine iff_of_false (fun h => ?_) fun h => hfirst h.1
    obtain ⟨r, hr⟩ := h.1
    unfold questionGetField at hr
    rw [he] at hr
    cases hr

/-- A value that holds a variable. -/
theorem questionGetField_subst :
    questionGetField (fun _ => none) {}
        (questionVariableAdd (questionSetvalue (questionNew ['a']) (some "$\x7bv\x7d")) ['v']
          "$\x7bx\x7d") none "value" = .error .assertion := by
  decide

end DebianInstaller.Debconf
