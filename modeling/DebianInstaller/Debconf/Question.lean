import DebianInstaller.Debconf.Template

/-!
# Questions

What `question.c` keeps of a question. Owners and variables are lists that are
only added to after a search, so no owner and no name of a variable stands in
them twice. The links of the frontend's lists are left to the frontend.
-/

namespace DebianInstaller.Debconf

open Text

/-- `struct question`. -/
@[ext]
structure Question where
  tag : Text
  value : Option Text := none
  /-- The only flag there is. -/
  seen : Bool := false
  template : Option Template := none
  vars : List (Text × Text) := []
  owners : List Text := []
  vars_nodup : (vars.map Prod.fst).Nodup := by simp
  owners_nodup : owners.Nodup := by simp

theorem noVars_nodup : (([] : List (Text × Text)).map Prod.fst).Nodup := List.nodup_nil

theorem noOwners_nodup : ([] : List Text).Nodup := List.nodup_nil

/-- `question_new`. -/
def questionNew (tag : Text) : Question := { tag := tag }

/-- `question_setvalue`. -/
def questionSetvalue (q : Question) (value : Option Text) : Question := { q with value := value }

/-- `question_getvalue`. -/
def questionGetvalue (env : Env) (q : Question) (lang : Option Text) : Option Text :=
  match q.value with
  | some v => some v
  | none => q.template.bind fun t => templateLget env t lang "default"

/-! ## Variables -/

/-- The list after `question_variable_add`. -/
def addVariable (var value : Text) : List (Text × Text) → List (Text × Text)
  | [] => [(var, value)]
  | p :: ps => if p.1 = var then (var, value) :: ps else p :: addVariable var value ps

theorem map_fst_addVariable (var value : Text) (ps : List (Text × Text)) :
    (addVariable var value ps).map Prod.fst =
      if var ∈ ps.map Prod.fst then ps.map Prod.fst else ps.map Prod.fst ++ [var] := by
  induction ps with
  | nil => rfl
  | cons p ps ih =>
      unfold addVariable
      split
      · next h => simp [h]
      · next h =>
          rw [List.map_cons, ih]
          by_cases hmem : var ∈ ps.map Prod.fst
          · simp [hmem]
          · simp [hmem, Ne.symm h]

/-- `question_variable_add`. -/
def questionVariableAdd (q : Question) (var value : Text) : Question :=
  { q with
    vars := addVariable var value q.vars
    vars_nodup := by
      rw [map_fst_addVariable]
      split
      · exact q.vars_nodup
      · next h =>
          exact List.nodup_append.mpr ⟨q.vars_nodup, by simp,
            fun a ha b hb hab => h (List.mem_singleton.mp hb ▸ hab ▸ ha)⟩ }

/-! ## Owners -/

/-- The list after `question_owner_add`. -/
def addOwner (owners : List Text) (owner : Text) : List Text :=
  if owner ∈ owners then owners else owners ++ [owner]

theorem nodup_addOwner {owners : List Text} (h : owners.Nodup) (owner : Text) :
    (addOwner owners owner).Nodup := by
  unfold addOwner
  split
  · exact h
  · next hn =>
      exact List.nodup_append.mpr ⟨h, by simp,
        fun a ha b hb hab => hn (List.mem_singleton.mp hb ▸ hab ▸ ha)⟩

/-- `question_owner_add`. -/
def questionOwnerAdd (q : Question) (owner : Text) : Question :=
  { q with
    owners := addOwner q.owners owner
    owners_nodup := nodup_addOwner q.owners_nodup owner }

/-- `question_owner_delete`. -/
def questionOwnerDelete (q : Question) (owner : Text) : Question :=
  { q with
    owners := q.owners.filter fun o => o ≠ owner
    owners_nodup := q.owners_nodup.filter _ }

/-! ## Flags -/

/-- `flag_value`, which is not 0. -/
def flagValue (flag : Text) : Bool := flag == "seen"

/-- `question_set_flag`. -/
def questionSetFlag (q : Question) (flag : Text) : Question :=
  { q with seen := q.seen || flagValue flag }

/-- `question_clear_flag`. -/
def questionClearFlag (q : Question) (flag : Text) : Question :=
  { q with seen := q.seen && !flagValue flag }

/-- `question_get_flag`. -/
def questionGetFlag (q : Question) (flag : Text) : Bool := q.seen && flagValue flag

/-! ## Copies -/

/-- `question_dup`. -/
def questionDup (q : Question) : Question :=
  q.owners.foldl questionOwnerAdd
    (q.vars.foldl (fun r p => questionVariableAdd r p.1 p.2)
      { tag := q.tag, value := q.value, seen := q.seen, template := q.template })

theorem addVariable_append {var value : Text} {ps : List (Text × Text)}
    (h : var ∉ ps.map Prod.fst) : addVariable var value ps = ps ++ [(var, value)] := by
  induction ps with
  | nil => rfl
  | cons p ps ih =>
      rw [List.map_cons, List.mem_cons, not_or] at h
      rw [addVariable, if_neg (Ne.symm h.1), ih h.2]
      rfl

theorem foldl_variableAdd (ps : List (Text × Text)) (q : Question)
    (h : (q.vars.map Prod.fst ++ ps.map Prod.fst).Nodup) :
    (ps.foldl (fun r p => questionVariableAdd r p.1 p.2) q).vars = q.vars ++ ps ∧
      (ps.foldl (fun r p => questionVariableAdd r p.1 p.2) q).owners = q.owners ∧
      (ps.foldl (fun r p => questionVariableAdd r p.1 p.2) q).tag = q.tag ∧
      (ps.foldl (fun r p => questionVariableAdd r p.1 p.2) q).value = q.value ∧
      (ps.foldl (fun r p => questionVariableAdd r p.1 p.2) q).seen = q.seen ∧
      (ps.foldl (fun r p => questionVariableAdd r p.1 p.2) q).template = q.template := by
  induction ps generalizing q with
  | nil => simp
  | cons p ps ih =>
      have hadd : (questionVariableAdd q p.1 p.2).vars = q.vars ++ [p] := by
        refine addVariable_append fun hmem => ?_
        exact (List.nodup_append.mp h).2.2 _ hmem p.1 (by simp) rfl
      have := ih (questionVariableAdd q p.1 p.2) (by
        rw [hadd]
        simpa using h)
      rw [hadd] at this
      simpa [questionVariableAdd] using this

theorem foldl_ownerAdd (os : List Text) (q : Question) (h : (q.owners ++ os).Nodup) :
    (os.foldl questionOwnerAdd q).owners = q.owners ++ os ∧
      (os.foldl questionOwnerAdd q).vars = q.vars ∧
      (os.foldl questionOwnerAdd q).tag = q.tag ∧
      (os.foldl questionOwnerAdd q).value = q.value ∧
      (os.foldl questionOwnerAdd q).seen = q.seen ∧
      (os.foldl questionOwnerAdd q).template = q.template := by
  induction os generalizing q with
  | nil => simp
  | cons o os ih =>
      have hadd : (questionOwnerAdd q o).owners = q.owners ++ [o] := by
        refine if_neg fun hmem => ?_
        exact (List.nodup_append.mp h).2.2 _ hmem o (by simp) rfl
      have := ih (questionOwnerAdd q o) (by
        rw [hadd]
        simpa using h)
      rw [hadd] at this
      simpa [questionOwnerAdd] using this

theorem questionDup_eq (q : Question) : questionDup q = q := by
  obtain ⟨hv, ho, ht, hval, hs, htp⟩ := foldl_variableAdd q.vars
    { tag := q.tag, value := q.value, seen := q.seen, template := q.template }
    (by simpa using q.vars_nodup)
  have h := foldl_ownerAdd q.owners
    (q.vars.foldl (fun r p => questionVariableAdd r p.1 p.2)
      { tag := q.tag, value := q.value, seen := q.seen, template := q.template })
    (by rw [ho]; simpa using q.owners_nodup)
  rw [ho, hv, ht, hval, hs, htp] at h
  obtain ⟨h₁, h₂, h₃, h₄, h₅, h₆⟩ := h
  exact Question.ext h₃ h₄ h₅ h₆ h₂ h₁

end DebianInstaller.Debconf
