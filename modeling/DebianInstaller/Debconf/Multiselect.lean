import DebianInstaller.Debconf.SortedChoices
import DebianInstaller.Debconf.TemplateLoad

/-!
# Several choices in the text frontend

`text_handler_multiselect` shows the choices with numbers, reads which of them are wanted,
and stores these as one value, with a comma and a blank between them. Nothing is escaped,
and the buffer has 4096 bytes. The value is taken apart by `strchoicesplit` again when the
question comes up the next time, and whatever reads like one of its pieces is marked.

What is joined comes back if each choice is one that the splitter leaves alone. The proof
of the other direction counts: a choice that comes back is as long as before and has as many
commas, so that the splitter cannot have passed over anything in it, nor gone past its end.
A choice that the buffer has no room for and an empty one in front are lost commas, too.
-/

namespace DebianInstaller.Debconf

open Text

variable {answer before rest t v w : Text} {n : Nat} {r : SortedChoices} {selected : List Bool}
  {ws : List Text}

/-! ## The handler -/

/-- `choices_get`, where it returns any. -/
def choicesGet (vals trans : Text) (indices : Option Text) : Option SortedChoices :=
  if strgetargc vals = 0 then none else strchoicesplitsort vals trans indices (strgetargc vals)

/-- `tindex`: the choices that the lines show. -/
def SortedChoices.tindex (r : SortedChoices) : List Nat := r.oindex.map Int.toNat

/-- `selected`, as it is allocated. -/
def SortedChoices.unselected (r : SortedChoices) : List Bool := r.oargv.map fun _ => false

/-- `selected[k] = 1` for all of some choices. -/
def selectAll (selected : List Bool) (ks : List Nat) : List Bool :=
  ks.foldl (fun selected k => selected.set k true) selected

/-- The choices that are selected by default. -/
def markDefaults (r : SortedChoices) (value : Text) : List Bool :=
  selectAll r.unselected ((strchoicesplit r.oargv.length value).flatMap fun w =>
    r.tindex.filter fun k => r.oargv.getD k [] = w)

/-- The places in an answer behind its first one where `strchr` stops. -/
def blanksIn : Text → List Text
  | [] => []
  | c :: t => if c = ' ' then (c :: t) :: blanksIn t else blanksIn t

/-- The numbers in an answer, less one. -/
def answerNumbers (answer : Text) : List Int :=
  if answer = [] then [] else (answer :: blanksIn answer.tail).map readIndex

/-- The choices that an answer names. The test is the one of `strchoicesplitsort`. -/
def answerChoices (r : SortedChoices) (answer : Text) : List Nat :=
  ((answerNumbers answer).filter fun choice => !outOfRange r.oargv.length choice).map
    fun choice => r.tindex.getD choice.toNat 0

/-- What is selected behind the loop of the prompt. -/
def answerSelected (r : SortedChoices) (selected : List Bool) (answer : Text) : List Bool :=
  if answer = [] then selected else selectAll r.unselected (answerChoices r answer)

/-- `text_handler_multiselect` up to the value, for the answers that come in: what is then
selected, if it does not go back or wait for more. -/
def promptMultiselect (r : SortedChoices) (canGoBack : Bool) (selected : List Bool) :
    List Text → Option (List Bool)
  | [] => none
  | answer :: answers =>
      if answer = ['?'] then promptMultiselect r canGoBack selected answers
      else if answer = ['!'] then some (answerSelected r r.unselected answer)
      else if canGoBack ∧ answer = ['<'] then none
      else if answer = ['+'] then promptMultiselect r canGoBack selected answers
      else if answer = ['-'] then promptMultiselect r canGoBack selected answers
      else some (answerSelected r selected answer)

/-- The choices that are selected. -/
def selectedChoices (choices : List Text) (selected : List Bool) : List Text :=
  ((choices.zip selected).filter Prod.snd).map Prod.fst

/-- The size of the answer. -/
def answerSize : Nat := 4096

/-- `strvacat` to the answer, unless the end of the string is then written behind it. -/
def appendAnswer (answer str : Text) : Option Text :=
  if (strvacat answer answerSize str).length < answerSize then
    some (strvacat answer answerSize str)
  else none

/-- The loop that writes the selected choices. -/
def joinSelected : Text → List Text → Option Text
  | answer, [] => some answer
  | answer, w :: ws =>
      (if answer = [] then some answer else appendAnswer answer ", ").bind fun answer =>
        (appendAnswer answer w).bind fun answer => joinSelected answer ws

/-- `text_handler_multiselect`: what is selected and the value that is stored. -/
def textHandlerMultiselect (r : SortedChoices) (canGoBack : Bool) (value : Text)
    (answers : List Text) : Option (List Bool × Option Text) :=
  (promptMultiselect r canGoBack (markDefaults r value) answers).map fun selected =>
    (selected, joinSelected [] (selectedChoices r.oargv selected))

/-! ## What comes back -/

/-- A choice that the splitter leaves as it is. -/
structure StaysWhole (w : Text) : Prop where
  comma : ',' ∉ w
  escape : ¬ ['\\', ' '] <:+: w
  front : ∀ c ∈ w.head?, isSpace c = false
  back : w.getLast? ≠ some ' '

/-- Choices that the splitter leaves as they are, and tells apart. -/
structure StayApart (ws : List Text) : Prop where
  whole : ∀ w ∈ ws, StaysWhole w
  backslash : ∀ w ∈ ws.dropLast, w.getLast? ≠ some '\\'

/-- Choices that come back from the text they are joined to. -/
structure ComeBack (ws : List Text) : Prop where
  first : ws.head? ≠ some []
  apart : StayApart ws
  fits : (List.intercalate ", " ws).length < answerSize

/-- No choice that is shown and not selected reads like a selected one. -/
def NoTwin (r : SortedChoices) (selected : List Bool) : Prop :=
  ∀ k ∈ r.tindex, selected[k]? = some false →
    r.oargv.getD k [] ∉ selectedChoices r.oargv selected

/-! ## The first piece -/

theorem comma_of_not_isSpace {c : Char} (h : isSpace c = true) : c ≠ ',' := by
  rintro rfl
  cases h

theorem count_comma_blanks (h : ∀ c ∈ t, isSpace c = true) : t.count ',' = 0 :=
  List.count_eq_zero.mpr fun hmem => comma_of_not_isSpace (h _ hmem) rfl

theorem stripChoice_kept (w : Text) : stripChoice w <+: w := by
  cases w with
  | nil => exact List.prefix_rfl
  | cons c t => exact (List.prefix_cons_inj c).mpr (List.rdropWhile_prefix _ t)

theorem count_comma_stripChoice (w : Text) : (stripChoice w).count ',' = w.count ',' := by
  cases w with
  | nil => rfl
  | cons c t =>
      have hcut := List.rdropWhile_append_rtakeWhile (p := (· == ' ')) (l := t)
      have hblanks : (t.rtakeWhile (· == ' ')).count ',' = 0 := by
        refine List.count_eq_zero.mpr fun hmem => ?_
        have := List.mem_rtakeWhile_imp hmem
        cases this
      have hcount := congrArg (List.count ',') hcut
      rw [List.count_append, hblanks] at hcount
      show (c :: t.rdropWhile (· == ' ')).count ',' = _
      rw [List.count_cons, List.count_cons]
      omega

theorem stripChoice_eq_self (h : w.getLast? ≠ some ' ') : stripChoice w = w := by
  cases w with
  | nil => rfl
  | cons c t =>
      refine congrArg (c :: ·) (List.rdropWhile_eq_self_iff.mpr fun hne hlast => h ?_)
      rw [List.getLast?_cons, List.getLast?_eq_getLast_of_ne_nil hne, Option.getD_some]
      exact congrArg some (by simpa using hlast)

theorem getLast?_of_stripChoice (hfront : ∀ c ∈ w.head?, isSpace c = false)
    (h : stripChoice w = w) : w.getLast? ≠ some ' ' := by
  intro hlast
  cases w with
  | nil => cases hlast
  | cons c t =>
      cases t with
      | nil =>
          obtain rfl := Option.some.inj hlast
          exact absurd (hfront ' ' rfl) (by decide)
      | cons d t =>
          have hkeep : (d :: t).rdropWhile (· == ' ') = d :: t := (List.cons.inj h).2
          rw [List.getLast?_cons_cons, List.getLast?_eq_getLast_of_ne_nil (List.cons_ne_nil d t)]
            at hlast
          refine List.rdropWhile_eq_self_iff.mp hkeep (List.cons_ne_nil d t) ?_
          rw [Option.some.inj hlast]
          rfl

theorem choiceEnd_rest (t : Text) : ∀ c ∈ (choiceEnd t).2.head?, c = ',' := by
  fun_induction choiceEnd t with
  | case1 => exact fun c hc => by cases hc
  | case2 t w r h ih => rwa [h] at ih
  | case3 t w r h ih => rwa [h] at ih
  | case4 t h₁ h₂ =>
      intro c hc
      exact (Option.mem_some.mp hc).symm
  | case5 c t h₁ h₂ hc w r h ih => rwa [h] at ih

/-- What the loop has gone over when it stops: at least as many characters as it keeps, and
the same commas. If it keeps all of them there was nothing to pass over. -/
theorem choiceEnd_taken (t : Text) : ∃ p, t = p ++ (choiceEnd t).2 ∧
    (choiceEnd t).1.length ≤ p.length ∧ (choiceEnd t).1.count ',' = p.count ',' ∧
      (p.length ≤ (choiceEnd t).1.length → (choiceEnd t).1 = p ∧ ',' ∉ p ∧
        ¬ ['\\', ' '] <:+: p ∧
          ((choiceEnd t).2 ≠ [] → p.getLast? ≠ some '\\')) := by
  have hrest := choiceEnd_rest t
  fun_induction choiceEnd t with
  | case1 =>
      exact ⟨[], rfl, Nat.le_refl 0, rfl, fun _ =>
        ⟨rfl, List.not_mem_nil, by decide, fun h => absurd rfl h⟩⟩
  | case2 t w r h ih =>
      rw [h] at ih
      dsimp only at ih hrest ⊢
      obtain ⟨p, hp, hlen, hcount, -⟩ := ih hrest
      refine ⟨'\\' :: ',' :: p, by rw [hp]; rfl, ?_, ?_, fun hle => ?_⟩
      · simp only [List.length_cons] at hlen ⊢
        omega
      · simpa using hcount
      · simp only [List.length_cons] at hlen hle
        omega
  | case3 t w r h ih =>
      rw [h] at ih
      dsimp only at ih hrest ⊢
      obtain ⟨p, hp, hlen, hcount, -⟩ := ih hrest
      refine ⟨'\\' :: ' ' :: p, by rw [hp]; rfl, ?_, ?_, fun hle => ?_⟩
      · simp only [List.length_cons] at hlen ⊢
        omega
      · simpa using hcount
      · simp only [List.length_cons] at hlen hle
        omega
  | case4 t h₁ h₂ =>
      exact ⟨[], rfl, Nat.le_refl 0, rfl, fun _ =>
        ⟨rfl, List.not_mem_nil, by decide, fun _ h => by cases h⟩⟩
  | case5 c t h₁ h₂ hc w r h ih =>
      rw [h] at ih
      dsimp only at ih hrest ⊢
      obtain ⟨p, hp, hlen, hcount, hall⟩ := ih hrest
      refine ⟨c :: p, by rw [hp]; rfl, ?_, ?_, fun hle => ?_⟩
      · simp only [List.length_cons] at hlen ⊢
        omega
      · simpa [List.count_cons, hc] using hcount
      · simp only [List.length_cons, Nat.add_le_add_iff_right] at hle
        obtain ⟨hw, hcomma, hesc, hlast⟩ := hall hle
        refine ⟨congrArg (c :: ·) hw, ?_, ?_, ?_⟩
        · exact List.not_mem_cons_of_ne_of_not_mem (Ne.symm hc) hcomma
        · rw [List.infix_cons_iff, not_or]
          refine ⟨?_, hesc⟩
          rintro ⟨q, hq⟩
          obtain ⟨rfl, rfl⟩ := List.cons.inj hq
          exact h₂ (q ++ r) rfl hp
        · intro hr hback
          cases p with
          | nil =>
              obtain rfl : c = '\\' := by simpa using hback
              obtain ⟨d, r, rfl⟩ := List.exists_cons_of_ne_nil hr
              obtain rfl := hrest d rfl
              exact h₁ r rfl hp
          | cons d p =>
              rw [List.getLast?_cons_cons] at hback
              exact hlast hr hback

theorem choiceEnd_append (hcomma : ',' ∉ w) (hesc : ¬ ['\\', ' '] <:+: w)
    (hback : rest ≠ [] → w.getLast? ≠ some '\\') (hrest : ∀ c ∈ rest.head?, c = ',') :
    choiceEnd (w ++ rest) = (w, rest) := by
  induction w with
  | nil =>
      cases rest with
      | nil => rfl
      | cons c rest =>
          obtain rfl := hrest c rfl
          rfl
  | cons c w ih =>
      rw [List.infix_cons_iff, not_or] at hesc
      have hc : c ≠ ',' := fun h => hcomma (h ▸ List.mem_cons_self)
      have hback' : rest ≠ [] → w.getLast? ≠ some '\\' := by
        intro hr hw
        cases w with
        | nil => cases hw
        | cons d w => exact hback hr (by rwa [List.getLast?_cons_cons])
      have hnext := ih (fun h => hcomma (List.mem_cons_of_mem c h)) hesc.2 hback'
      rw [List.cons_append, choiceEnd, if_neg hc, hnext]
      · rintro t rfl ht
        cases w with
        | nil =>
            have hr : rest ≠ [] := by
              rintro rfl
              cases ht
            exact hback hr rfl
        | cons d w =>
            obtain ⟨rfl, -⟩ := List.cons.inj ht
            exact hcomma (List.mem_cons_of_mem _ List.mem_cons_self)
      · rintro t rfl ht
        cases w with
        | nil =>
            rw [List.nil_append] at ht
            have := hrest ' ' (by rw [ht]; rfl)
            cases this
        | cons d w =>
            obtain ⟨rfl, -⟩ := List.cons.inj ht
            exact hesc.1 ⟨w, rfl⟩

theorem choiceEnd_whole (hbefore : ∀ c ∈ before, isSpace c = true)
    (hrest : ∀ c ∈ rest.head?, c = ',') (hw : StaysWhole w)
    (hback : rest ≠ [] → w.getLast? ≠ some '\\') :
    choiceEnd ((before ++ w ++ rest).dropWhile isSpace) = (w, rest) := by
  have hfront : (w ++ rest).dropWhile isSpace = w ++ rest := by
    refine List.dropWhile_eq_self_iff.mpr fun hlen hspace => ?_
    cases w with
    | nil =>
        cases rest with
        | nil => cases hlen
        | cons c rest => exact comma_of_not_isSpace hspace (hrest c rfl)
    | cons c w => exact absurd hspace (Bool.eq_false_iff.mp (hw.front c rfl))
  rw [List.append_assoc, List.dropWhile_append_of_pos hbefore, hfront]
  exact choiceEnd_append hw.comma hw.escape hback hrest

/-- What is split off reads like the choice that has been written there exactly if that one
is whole and no backslash of its hides the comma behind it. -/
theorem piece_eq_iff (hbefore : ∀ c ∈ before, isSpace c = true)
    (hrest : ∀ c ∈ rest.head?, c = ',') :
    stripChoice (choiceEnd ((before ++ w ++ rest).dropWhile isSpace)).1 = w ↔
      StaysWhole w ∧ (rest ≠ [] → w.getLast? ≠ some '\\') := by
  constructor
  · intro hpiece
    have htext := List.takeWhile_append_dropWhile (p := isSpace) (l := before ++ w ++ rest)
    have hblanks : ∀ c ∈ (before ++ w ++ rest).takeWhile isSpace, isSpace c = true :=
      fun c hc => List.mem_takeWhile_imp hc
    have hstart : before <+: (before ++ w ++ rest).takeWhile isSpace := by
      rw [List.append_assoc, List.takeWhile_append_of_pos hbefore]
      exact List.prefix_append _ _
    have hfirst := List.head?_dropWhile_not isSpace (before ++ w ++ rest)
    generalize (before ++ w ++ rest).dropWhile isSpace = t at *
    generalize (before ++ w ++ rest).takeWhile isSpace = blanks at *
    obtain ⟨p, hp, hlen, hcount, hall⟩ := choiceEnd_taken t
    have hleft := choiceEnd_rest t
    generalize (choiceEnd t).1 = u at *
    generalize (choiceEnd t).2 = left at *
    have hu : w.length ≤ u.length := hpiece ▸ (stripChoice_kept u).length_le
    have hcommas : w.count ',' = p.count ',' := by
      rw [← hpiece, count_comma_stripChoice, hcount]
    rw [hp, ← List.append_assoc] at htext
    -- with more than the choice a comma too many has been taken
    have hshort : (blanks ++ p).length ≤ (before ++ w).length := by
      by_contra hlong
      have hpre : before ++ w <+: blanks ++ p :=
        List.prefix_of_prefix_length_le ⟨rest, rfl⟩ ⟨left, htext⟩ (by omega)
      obtain ⟨more, hmore⟩ := hpre
      have hrest' : rest = more ++ left := by
        rw [← hmore, List.append_assoc] at htext
        exact (List.append_cancel_left htext).symm
      cases more with
      | nil =>
          rw [List.append_nil] at hmore
          rw [hmore] at hlong
          omega
      | cons c more =>
          obtain rfl : c = ',' := hrest c (by rw [hrest']; rfl)
          have hsum := congrArg (List.count ',') hmore
          simp only [List.count_append, List.count_cons_self, count_comma_blanks hbefore,
            count_comma_blanks hblanks] at hsum
          omega
    rw [List.length_append, List.length_append] at hshort
    have hbl := hstart.length_le
    obtain ⟨rfl, hcomma, hesc, hback⟩ := hall (by omega)
    obtain rfl : before = blanks := hstart.eq_of_length (by omega)
    have hwu : stripChoice u = u := (stripChoice_kept u).eq_of_length (by rw [hpiece]; omega)
    rw [hwu] at hpiece
    subst hpiece
    rw [List.append_assoc, List.append_assoc, List.append_cancel_left_eq,
      List.append_cancel_left_eq] at htext
    subst htext
    have hfront : ∀ c ∈ u.head?, isSpace c = false := by
      intro c hc
      obtain ⟨u, rfl⟩ := List.head?_eq_some_iff.mp hc
      rw [hp] at hfirst
      exact hfirst
    exact ⟨⟨hcomma, hesc, hfront, getLast?_of_stripChoice hfront hwu⟩, hback⟩
  · rintro ⟨hw, hback⟩
    rw [choiceEnd_whole hbefore hrest hw hback]
    exact stripChoice_eq_self hw.back

/-! ## All pieces -/

theorem strchoicesplit_nil (n : Nat) : strchoicesplit n [] = [] := by
  cases n <;> rfl

theorem strchoicesplit_succ (n : Nat) (ht : t ≠ []) :
    strchoicesplit (n + 1) t = stripChoice (choiceEnd (t.dropWhile isSpace)).1 ::
      strchoicesplit n (choiceEnd (t.dropWhile isSpace)).2.tail := by
  obtain ⟨c, t, rfl⟩ := List.exists_cons_of_ne_nil ht
  have hrest := choiceEnd_rest ((c :: t).dropWhile isSpace)
  show stripChoice (choiceEnd _).1 :: strchoicesplit n (if _ then _ else _) = _
  cases hleft : (choiceEnd ((c :: t).dropWhile isSpace)).2 with
  | nil => rfl
  | cons d r =>
      obtain rfl := hrest d (by rw [hleft]; rfl)
      rfl

theorem strchoicesplit_cons_iff {q : Prop} (hbefore : ∀ c ∈ before, isSpace c = true)
    (hrest : ∀ c ∈ rest.head?, c = ',') (hne : before ++ w ++ rest ≠ [])
    (hnext : strchoicesplit n rest.tail = ws ↔ q) (hlast : ws = [] → rest = []) :
    strchoicesplit (n + 1) (before ++ w ++ rest) = w :: ws ↔
      (StaysWhole w ∧ (ws ≠ [] → w.getLast? ≠ some '\\')) ∧ q := by
  rw [strchoicesplit_succ n hne, List.cons_eq_cons, piece_eq_iff hbefore hrest]
  constructor
  · rintro ⟨⟨hw, hback⟩, hsplit⟩
    rw [choiceEnd_whole hbefore hrest hw hback] at hsplit
    refine ⟨⟨hw, fun hws => hback ?_⟩, hnext.mp hsplit⟩
    rintro rfl
    rw [List.tail_nil, strchoicesplit_nil] at hsplit
    exact hws hsplit.symm
  · rintro ⟨⟨hw, hback⟩, hq⟩
    have hback' : rest ≠ [] → w.getLast? ≠ some '\\' :=
      fun hr => hback fun hws => hr (hlast hws)
    rw [choiceEnd_whole hbefore hrest hw hback']
    exact ⟨⟨hw, hback'⟩, hnext.mpr hq⟩

theorem length_le_of_mem_strchoicesplit (h : w ∈ strchoicesplit n t) : w.length ≤ t.length := by
  induction n generalizing t with
  | zero => cases h
  | succ n ih =>
      by_cases ht : t = []
      · subst ht
        cases h
      · have hdrop := (List.dropWhile_suffix isSpace (l := t)).length_le
        obtain ⟨p, hp, hlen, -⟩ := choiceEnd_taken (t.dropWhile isSpace)
        have hsum := congrArg List.length hp
        rw [List.length_append] at hsum
        rw [strchoicesplit_succ n ht] at h
        rcases List.mem_cons.mp h with rfl | h
        · have := (stripChoice_kept (choiceEnd (t.dropWhile isSpace)).1).length_le
          omega
        · have := ih h
          rw [List.length_tail] at this
          omega

theorem count_comma_strchoicesplit (n : Nat) (t : Text) :
    ((strchoicesplit n t).map (List.count ',')).sum + (strchoicesplit n t).length ≤
      t.count ',' + 1 := by
  induction n generalizing t with
  | zero => exact Nat.zero_le _
  | succ n ih =>
      by_cases ht : t = []
      · subst ht
        exact Nat.zero_le _
      · obtain ⟨p, hp, -, hcount, -⟩ := choiceEnd_taken (t.dropWhile isSpace)
        have hdrop := ((List.dropWhile_sublist isSpace (l := t)).count_le ',')
        have hsum := congrArg (List.count ',') hp
        rw [List.count_append] at hsum
        have hrest := choiceEnd_rest (t.dropWhile isSpace)
        have hnext := ih (choiceEnd (t.dropWhile isSpace)).2.tail
        rw [strchoicesplit_succ n ht, List.map_cons, List.sum_cons, List.length_cons,
          count_comma_stripChoice]
        cases hleft : (choiceEnd (t.dropWhile isSpace)).2 with
        | nil =>
            rw [hleft] at hsum
            rw [List.tail_nil, strchoicesplit_nil, List.map_nil, List.sum_nil, List.length_nil]
            omega
        | cons d r =>
            obtain rfl := hrest d (by rw [hleft]; rfl)
            rw [hleft, List.tail_cons] at hnext
            rw [hleft, List.count_cons_self] at hsum
            rw [List.tail_cons]
            omega

/-! ## The joined choices -/

/-- Choices written behind others. -/
def behind (ws : List Text) : Text := ws.flatMap fun w => ", " ++ w

theorem length_behind_cons (w : Text) (ws : List Text) :
    (behind (w :: ws)).length = 2 + w.length + (behind ws).length := by
  unfold behind
  rw [List.flatMap_cons, List.length_append, List.length_append]
  rfl

theorem intercalate_eq_behind (w : Text) (ws : List Text) :
    List.intercalate ", " (w :: ws) = w ++ behind ws := by
  induction ws generalizing w with
  | nil => simp [behind]
  | cons x ws ih =>
      rw [List.intercalate_cons_cons, ih, List.append_assoc]
      rfl

theorem stayApart_cons :
    StayApart (w :: ws) ↔
      (StaysWhole w ∧ (ws ≠ [] → w.getLast? ≠ some '\\')) ∧ StayApart ws := by
  cases ws with
  | nil =>
      constructor
      · exact fun h => ⟨⟨h.whole w List.mem_cons_self, fun hne => absurd rfl hne⟩,
          ⟨fun _ hx => (by cases hx), fun _ hx => (by cases hx)⟩⟩
      · refine fun h => ⟨fun x hx => ?_, fun _ hx => (by cases hx)⟩
        rw [List.mem_singleton.mp hx]
        exact h.1.1
  | cons x ws =>
      constructor
      · intro h
        refine ⟨⟨h.whole w List.mem_cons_self, fun _ => ?_⟩, fun y hy => ?_, fun y hy => ?_⟩
        · exact h.backslash w List.mem_cons_self
        · exact h.whole y (List.mem_cons_of_mem w hy)
        · exact h.backslash y (List.mem_cons_of_mem w hy)
      · refine fun h => ⟨List.forall_mem_cons.mpr ⟨h.1.1, h.2.whole⟩, ?_⟩
        exact List.forall_mem_cons.mpr ⟨h.1.2 (List.cons_ne_nil x ws), h.2.backslash⟩

theorem appendAnswer_cases {str a : Text} (h : appendAnswer answer str = some a) :
    a.length < answerSize ∧ (a = answer ++ str ∨
      a = answer ∧ answerSize < answer.length + str.length) := by
  unfold appendAnswer at h
  split at h
  case isFalse => cases h
  case isTrue hlt =>
    obtain rfl := Option.some.inj h
    refine ⟨hlt, ?_⟩
    unfold strvacat
    split
    case isTrue hfull => exact .inr ⟨rfl, hfull⟩
    case isFalse => exact .inl rfl

theorem appendAnswer_fits {str : Text} (h : (answer ++ str).length < answerSize) :
    appendAnswer answer str = some (answer ++ str) := by
  have hlen := @List.length_append _ answer str
  have hroom : strvacat answer answerSize str = answer ++ str := by
    unfold strvacat
    rw [if_neg (by omega)]
  unfold appendAnswer
  rw [hroom, if_pos h]

theorem joinSelected_fits (hne : answer ≠ []) (h : (answer ++ behind ws).length < answerSize) :
    joinSelected answer ws = some (answer ++ behind ws) := by
  induction ws generalizing answer with
  | nil =>
      rw [behind, List.flatMap_nil, List.append_nil]
      rfl
  | cons w ws ih =>
      have htext : answer ++ behind (w :: ws) = answer ++ ", " ++ w ++ behind ws := by
        rw [List.append_assoc, List.append_assoc, ← List.append_assoc ", ".toList]
        rfl
      rw [htext] at h ⊢
      have hlen := @List.length_append _ (answer ++ ", ".toList ++ w) (behind ws)
      have hlen' := @List.length_append _ (answer ++ ", ".toList) w
      rw [joinSelected, if_neg hne, appendAnswer_fits (by omega), Option.bind_some,
        appendAnswer_fits (by omega), Option.bind_some]
      refine ih ?_ h
      rw [List.append_assoc]
      exact List.append_ne_nil_of_left_ne_nil hne _

theorem length_joinSelected (hlen : answer.length < answerSize)
    (h : joinSelected answer ws = some v) : v.length < answerSize := by
  induction ws generalizing answer with
  | nil =>
      obtain rfl := Option.some.inj h
      exact hlen
  | cons w ws ih =>
      obtain ⟨a, -, h⟩ := Option.bind_eq_some_iff.mp h
      obtain ⟨b, hb, h⟩ := Option.bind_eq_some_iff.mp h
      exact ih (appendAnswer_cases hb).1 h

theorem count_comma_joinSelected (h : joinSelected answer ws = some v) :
    v.count ',' ≤ answer.count ',' + (ws.map (List.count ',')).sum + ws.length := by
  induction ws generalizing answer with
  | nil =>
      obtain rfl := Option.some.inj h
      exact Nat.le_refl _
  | cons w ws ih =>
      obtain ⟨a, ha, h⟩ := Option.bind_eq_some_iff.mp h
      obtain ⟨b, hb, h⟩ := Option.bind_eq_some_iff.mp h
      have hnext := ih h
      have hacount : a.count ',' ≤ answer.count ',' + 1 := by
        split at ha
        · obtain rfl := Option.some.inj ha
          exact Nat.le_succ _
        · rcases (appendAnswer_cases ha).2 with rfl | ⟨rfl, -⟩
          · rw [List.count_append]
            exact Nat.le_refl _
          · exact Nat.le_succ _
      have hbcount : b.count ',' ≤ a.count ',' + w.count ',' := by
        rcases (appendAnswer_cases hb).2 with rfl | ⟨rfl, -⟩
        · rw [List.count_append]
        · exact Nat.le_add_right _ _
      rw [List.map_cons, List.sum_cons, List.length_cons]
      omega

theorem staysWhole_nil : StaysWhole [] where
  comma := List.not_mem_nil
  escape := by decide
  front _ hc := by cases hc
  back := by decide

/-- What is written behind an answer comes back exactly if the choices stay apart and there
is room for all of them. -/
theorem joinSelected_behind (hne : answer ≠ []) (hlen : answer.length < answerSize)
    (h : joinSelected answer ws = some v) :
    ∃ rest, v = answer ++ rest ∧ (∀ c ∈ rest.head?, c = ',') ∧
      (ws = [] → rest = []) ∧
        ∀ n, ws.length ≤ n → (strchoicesplit n rest.tail = ws ↔
          StayApart ws ∧ (answer ++ behind ws).length < answerSize) := by
  induction ws generalizing answer with
  | nil =>
      obtain rfl := Option.some.inj h
      refine ⟨[], (List.append_nil _).symm, fun c hc => (by cases hc), fun _ => rfl,
        fun n _ => ?_⟩
      rw [List.tail_nil, strchoicesplit_nil, behind, List.flatMap_nil, List.append_nil]
      exact iff_of_true rfl ⟨⟨fun _ hx => (by cases hx), fun _ hx => (by cases hx)⟩, hlen⟩
  | cons w ws ih =>
      have htotal : (answer ++ behind (w :: ws)).length =
          answer.length + 2 + w.length + (behind ws).length := by
        rw [List.length_append, length_behind_cons]
        omega
      rw [htotal]
      obtain ⟨a, ha, h⟩ := Option.bind_eq_some_iff.mp h
      obtain ⟨b, hb, h⟩ := Option.bind_eq_some_iff.mp h
      rw [if_neg hne] at ha
      obtain ⟨halen, hacases⟩ := appendAnswer_cases ha
      obtain ⟨hblen, hbcases⟩ := appendAnswer_cases hb
      have hblank : ∀ c ∈ [' '], isSpace c = true := List.forall_mem_singleton.mpr rfl
      have hcons : w :: ws ≠ [] := List.cons_ne_nil w ws
      rcases hacases with rfl | ⟨hsame, hfull⟩
      · have hane : answer ++ ", ".toList ≠ [] := List.append_ne_nil_of_left_ne_nil hne _
        have hsep : (answer ++ ", ").length = answer.length + 2 := List.length_append
        rcases hbcases with rfl | ⟨rfl, hfull⟩
        · -- there is room for both
          obtain ⟨rest, rfl, hrest, hlast, hiff⟩ :=
            ih (List.append_ne_nil_of_left_ne_nil hane w) hblen h
          refine ⟨", " ++ w ++ rest, by simp only [List.append_assoc],
            fun c hc => (Option.mem_some.mp hc).symm, fun hws => absurd hws hcons, fun n hn => ?_⟩
          rw [List.length_cons] at hn
          obtain ⟨n, rfl⟩ : ∃ m, n = m + 1 := ⟨n - 1, by omega⟩
          have htail : (", " ++ w ++ rest).tail = [' '] ++ w ++ rest := rfl
          have hfits : (answer ++ ", " ++ w ++ behind ws).length =
              answer.length + 2 + w.length + (behind ws).length := by
            rw [List.length_append, List.length_append, hsep]
          rw [htail, strchoicesplit_cons_iff hblank hrest (List.cons_ne_nil _ _)
            (hiff n (by omega)) hlast, stayApart_cons, hfits]
          exact and_assoc.symm
        · -- the choice is left out, and an empty piece comes back for it
          obtain ⟨rest, rfl, hrest, hlast, hiff⟩ := ih hane hblen h
          refine ⟨", " ++ rest, by simp only [List.append_assoc],
            fun c hc => (Option.mem_some.mp hc).symm, fun hws => absurd hws hcons, fun n hn => ?_⟩
          rw [List.length_cons] at hn
          obtain ⟨n, rfl⟩ : ∃ m, n = m + 1 := ⟨n - 1, by omega⟩
          have htail : (", " ++ rest).tail = [' '] ++ [] ++ rest := rfl
          have htail' : [' '] ++ [] ++ rest ≠ [] := List.cons_ne_nil _ _
          have hempty := choiceEnd_whole hblank hrest staysWhole_nil fun _ => (by decide)
          rw [htail, strchoicesplit_succ n htail', hempty]
          refine iff_of_false (fun heq => ?_) fun hfits => ?_
          · rw [← (List.cons.inj heq).1, hsep] at hfull
            rw [hsep] at hblen
            exact Nat.lt_asymm hfull hblen
          · have := hfits.2
            omega
      · -- there is no room for the separator, and then for nothing else
        have hfull' : answerSize < answer.length + 2 := hfull
        rw [hsame] at hbcases
        have hsame' : b = answer := by
          rcases hbcases with hb' | ⟨hb', -⟩
          · rw [hb', List.length_append] at hblen
            rw [hb', List.eq_nil_of_length_eq_zero (l := w) (by omega), List.append_nil]
          · exact hb'
        rw [hsame'] at h
        obtain ⟨rest, rfl, hrest, hlast, hiff⟩ := ih hne hlen h
        have hnone : rest = [] := by
          have hvlen := length_joinSelected hlen h
          rw [List.length_append] at hvlen
          exact List.eq_nil_of_length_eq_zero (by omega)
        subst hnone
        refine ⟨[], rfl, hrest, fun _ => rfl, fun n _ => ?_⟩
        rw [List.tail_nil, strchoicesplit_nil]
        refine iff_of_false (fun heq => hcons heq.symm) fun hfits => ?_
        have := hfits.2
        omega

theorem joinSelected_first (w : Text) (ws : List Text) :
    joinSelected [] (w :: ws) = (appendAnswer [] w).bind fun answer => joinSelected answer ws :=
  rfl

theorem not_comesBack_empty (h : joinSelected [] ([] :: ws) = some v) :
    strchoicesplit n v ≠ [] :: ws := by
  rw [joinSelected_first, appendAnswer_fits (by decide), Option.bind_some, List.append_nil] at h
  intro hsplit
  have hsum := count_comma_strchoicesplit n v
  rw [hsplit, List.map_cons, List.sum_cons, List.count_nil, List.length_cons] at hsum
  cases ws with
  | nil =>
      obtain rfl := Option.some.inj h
      rw [strchoicesplit_nil] at hsplit
      cases hsplit
  | cons w ws =>
      rw [joinSelected_first] at h
      obtain ⟨a, ha, h⟩ := Option.bind_eq_some_iff.mp h
      have hcount := count_comma_joinSelected h
      have hacount : a.count ',' ≤ w.count ',' := by
        rcases (appendAnswer_cases ha).2 with rfl | ⟨rfl, -⟩
        · exact Nat.le_refl _
        · exact Nat.zero_le _
      rw [List.map_cons, List.sum_cons, List.length_cons] at hsum
      omega

theorem comesBack_iff (hn : ws.length ≤ n) :
    (∃ v, joinSelected [] ws = some v ∧ ∀ m, n ≤ m → strchoicesplit m v = ws) ↔
      ComeBack ws := by
  cases ws with
  | nil =>
      refine iff_of_true ⟨[], rfl, fun m _ => strchoicesplit_nil m⟩ ⟨by decide, ?_, by decide⟩
      exact ⟨fun _ hx => (by cases hx), fun _ hx => (by cases hx)⟩
  | cons w ws =>
      rw [List.length_cons] at hn
      obtain ⟨n, rfl⟩ : ∃ m, n = m + 1 := ⟨n - 1, by omega⟩
      have hnone : ∀ c ∈ ([] : Text), isSpace c = true := fun _ hc => (by cases hc)
      constructor
      · rintro ⟨v, hv, hsplit⟩
        have hpieces := hsplit (n + 1) (Nat.le_refl _)
        have hw : w ≠ [] := by
          rintro rfl
          exact not_comesBack_empty hv hpieces
        have hvlen := length_joinSelected (by decide) hv
        obtain ⟨b, hb, h⟩ := Option.bind_eq_some_iff.mp ((joinSelected_first w ws).symm.trans hv)
        obtain ⟨hblen, rfl | ⟨rfl, hfull⟩⟩ := appendAnswer_cases hb
        · obtain ⟨rest, rfl, hrest, hlast, hiff⟩ := joinSelected_behind hw hblen h
          obtain ⟨hwhole, hapart, hfits⟩ := (strchoicesplit_cons_iff hnone hrest
            (List.append_ne_nil_of_left_ne_nil hw rest) (hiff n (by omega)) hlast).mp hpieces
          refine ⟨fun hfirst => hw (Option.some.inj hfirst), ?_, ?_⟩
          · exact stayApart_cons.mpr ⟨hwhole, hapart⟩
          · rwa [intercalate_eq_behind]
        · -- a choice that is longer than the text is no piece of it
          have hmem : w ∈ strchoicesplit (n + 1) v := by
            rw [hpieces]
            exact List.mem_cons_self
          have := length_le_of_mem_strchoicesplit hmem
          rw [List.length_nil] at hfull
          omega
      · rintro ⟨hfirst, hapart, hfits⟩
        have hw : w ≠ [] := fun hw => hfirst (congrArg some hw)
        rw [intercalate_eq_behind] at hfits
        have hlen := @List.length_append _ w (behind ws)
        have hwlen : w.length < answerSize := by omega
        have hjoin := joinSelected_fits hw hfits
        refine ⟨w ++ behind ws, ?_, fun m hm => ?_⟩
        · rw [joinSelected_first, appendAnswer_fits (by rwa [List.nil_append]), Option.bind_some]
          exact hjoin
        · obtain ⟨rest, hrest', hrest, hlast, hiff⟩ := joinSelected_behind hw hwlen hjoin
          obtain ⟨m, rfl⟩ : ∃ k, m = k + 1 := ⟨m - 1, by omega⟩
          obtain ⟨hwhole, hws⟩ := stayApart_cons.mp hapart
          rw [hrest']
          exact (strchoicesplit_cons_iff hnone hrest (List.append_ne_nil_of_left_ne_nil hw rest)
            (hiff m (by omega)) hlast).mpr ⟨hwhole, hws, hfits⟩

/-! ## What is selected -/

theorem getElem?_selectAll (selected : List Bool) (ks : List Nat) (k : Nat) :
    (selectAll selected ks)[k]? =
      if k ∈ ks then selected[k]?.map fun _ => true else selected[k]? := by
  induction ks generalizing selected with
  | nil => rfl
  | cons j ks ih =>
      show (selectAll (selected.set j true) ks)[k]? = _
      rw [ih, List.getElem?_set]
      by_cases hk : k = j
      · subst hk
        rw [if_pos List.mem_cons_self, if_pos rfl]
        by_cases hlt : k < selected.length
        · simp [hlt]
        · simp [hlt]
      · rw [if_neg (Ne.symm hk)]
        simp [hk]

theorem getElem?_unselected {k : Nat} (hk : k < r.oargv.length) :
    r.unselected[k]? = some false := by
  unfold SortedChoices.unselected
  rw [List.getElem?_map, List.getElem?_eq_getElem hk]
  rfl

/-- Only what a line shows is selected. -/
structure SelectedLines (r : SortedChoices) (selected : List Bool) : Prop where
  length : selected.length = r.oargv.length
  shown : ∀ k, selected[k]? = some true → k ∈ r.tindex

theorem selectedLines_selectAll {ks : List Nat} (h : ∀ k ∈ ks, k ∈ r.tindex) :
    SelectedLines r (selectAll r.unselected ks) where
  length := by
    have hlen : ∀ selected, (selectAll selected ks).length = selected.length := by
      clear h
      induction ks with
      | nil => exact fun _ => rfl
      | cons j ks ih =>
          intro selected
          show (selectAll (selected.set j true) ks).length = _
          rw [ih, List.length_set]
    rw [hlen, SortedChoices.unselected, List.length_map]
  shown k hk := by
    rw [getElem?_selectAll] at hk
    by_cases hmem : k ∈ ks
    · exact h k hmem
    · rw [if_neg hmem, SortedChoices.unselected, List.getElem?_map, Option.map_eq_some_iff] at hk
      obtain ⟨_, _, hfalse⟩ := hk
      cases hfalse

theorem selectedLines_markDefaults (r : SortedChoices) (value : Text) :
    SelectedLines r (markDefaults r value) := by
  refine selectedLines_selectAll fun k hk => ?_
  obtain ⟨_, _, hk⟩ := List.mem_flatMap.mp hk
  exact (List.mem_filter.mp hk).1

theorem choicesGet_lengths {vals trans : Text} {indices : Option Text}
    (h : choicesGet vals trans indices = some r) : r.tindex.length = r.oargv.length := by
  unfold choicesGet at h
  split at h
  case isTrue => cases h
  case isFalse =>
    obtain ⟨hpair, -⟩ := strchoicesplitsort_spec h
    have hlen : (strchoicesplit (strgetargc vals) vals).length = strgetargc vals := by
      by_contra hne
      unfold strchoicesplitsort at h
      simp only [if_pos hne] at h
      cases h
    rw [SortedChoices.tindex, List.length_map, hpair.indices, hpair.choices, hlen]

theorem answerChoices_mem (hr : r.tindex.length = r.oargv.length) (answer : Text) :
    ∀ k ∈ answerChoices r answer, k ∈ r.tindex := by
  intro k hk
  obtain ⟨choice, hchoice, rfl⟩ := List.mem_map.mp hk
  obtain ⟨hpos, hlt⟩ := outOfRange_eq_false.mp (by simpa using (List.mem_filter.mp hchoice).2)
  have hlt' : choice.toNat < r.tindex.length := by omega
  rw [List.getD_eq_getElem?_getD, List.getElem?_eq_getElem hlt', Option.getD_some]
  exact List.getElem_mem hlt'

theorem selectedLines_answerSelected (hr : r.tindex.length = r.oargv.length)
    (h : SelectedLines r selected) (answer : Text) :
    SelectedLines r (answerSelected r selected answer) := by
  unfold answerSelected
  split
  · exact h
  · exact selectedLines_selectAll (answerChoices_mem hr answer)

theorem selectedLines_prompt (hr : r.tindex.length = r.oargv.length) {canGoBack : Bool}
    (h : SelectedLines r selected) {answers : List Text} {selected' : List Bool}
    (hp : promptMultiselect r canGoBack selected answers = some selected') :
    SelectedLines r selected' := by
  have hnone : SelectedLines r r.unselected :=
    @selectedLines_selectAll r [] fun _ hk => (by cases hk)
  fun_induction promptMultiselect r canGoBack selected answers with
  | case1 => cases hp
  | case2 answers ih => exact ih hp
  | case3 => exact Option.some.inj hp ▸ selectedLines_answerSelected hr hnone _
  | case4 => cases hp
  | case5 answers _ _ _ ih => exact ih hp
  | case6 answers _ _ _ _ ih => exact ih hp
  | case7 answer => exact Option.some.inj hp ▸ selectedLines_answerSelected hr h _

theorem mem_selectedChoices {choices : List Text} :
    w ∈ selectedChoices choices selected ↔
      ∃ k : Nat, choices[k]? = some w ∧ selected[k]? = some true := by
  unfold selectedChoices
  rw [List.mem_map]
  constructor
  · rintro ⟨x, hx, rfl⟩
    obtain ⟨hx, hsel⟩ := List.mem_filter.mp hx
    obtain ⟨k, hk⟩ := List.mem_iff_getElem?.mp hx
    obtain ⟨hc, hs⟩ := List.getElem?_zip_eq_some.mp hk
    rw [hsel] at hs
    exact ⟨k, hc, hs⟩
  · rintro ⟨k, hc, hs⟩
    have hk := List.getElem?_zip_eq_some (z := (w, true)).mpr ⟨hc, hs⟩
    exact ⟨(w, true), List.mem_filter.mpr ⟨List.mem_of_getElem? hk, rfl⟩, rfl⟩

theorem length_selectedChoices_le (choices : List Text) (selected : List Bool) :
    (selectedChoices choices selected).length ≤ choices.length := by
  unfold selectedChoices
  rw [List.length_map]
  calc _ ≤ (choices.zip selected).length := List.length_filter_le _ _
    _ ≤ choices.length := by
        rw [List.length_zip]
        exact Nat.min_le_left _ _

theorem markDefaults_eq_iff (h : SelectedLines r selected)
    (hsplit : strchoicesplit r.oargv.length v = selectedChoices r.oargv selected) :
    markDefaults r v = selected ↔ NoTwin r selected := by
  have hmarked : ∀ k, k ∈ ((strchoicesplit r.oargv.length v).flatMap fun w =>
        r.tindex.filter fun k => r.oargv.getD k [] = w) ↔
      k ∈ r.tindex ∧ r.oargv.getD k [] ∈ selectedChoices r.oargv selected := by
    intro k
    rw [hsplit, List.mem_flatMap]
    constructor
    · rintro ⟨w, hw, hk⟩
      obtain ⟨hk, hread⟩ := List.mem_filter.mp hk
      rw [of_decide_eq_true hread]
      exact ⟨hk, hw⟩
    · rintro ⟨hk, hmem⟩
      exact ⟨_, hmem, List.mem_filter.mpr ⟨hk, decide_eq_true rfl⟩⟩
  unfold markDefaults
  constructor
  · intro heq k hk hsel hmem
    have hlt : k < r.oargv.length := h.length ▸ (List.getElem?_eq_some_iff.mp hsel).1
    rw [← heq, getElem?_selectAll, if_pos ((hmarked k).mpr ⟨hk, hmem⟩),
      getElem?_unselected hlt] at hsel
    cases hsel
  · intro htwin
    refine List.ext_getElem? fun k => ?_
    rw [getElem?_selectAll]
    by_cases hlt : k < r.oargv.length
    · rw [getElem?_unselected hlt]
      have hlt' : k < selected.length := by
        rw [h.length]
        exact hlt
      have hsel := List.getElem?_eq_getElem hlt'
      cases hs : selected[k] with
      | true =>
          rw [hs] at hsel
          have hchoice : r.oargv.getD k [] ∈ selectedChoices r.oargv selected := by
            rw [List.getD_eq_getElem?_getD, List.getElem?_eq_getElem hlt]
            exact mem_selectedChoices.mpr ⟨k, List.getElem?_eq_getElem hlt, hsel⟩
          rw [if_pos ((hmarked k).mpr ⟨h.shown k hsel, hchoice⟩), hsel]
          rfl
      | false =>
          rw [hs] at hsel
          have hnot := fun hk => htwin k ((hmarked k).mp hk).1 hsel ((hmarked k).mp hk).2
          rw [if_neg hnot, hsel]
    · have hout : r.unselected[k]? = none := by
        rw [List.getElem?_eq_none_iff, SortedChoices.unselected, List.length_map]
        omega
      have hout' : selected[k]? = none := by
        rw [List.getElem?_eq_none_iff, h.length]
        omega
      rw [hout, hout']
      split <;> rfl

/-- The value that is stored splits into the selected choices, and marks them again, exactly
if these come back from a joined text and no other choice reads like one of them. -/
theorem multiselect_iff {vals trans : Text} {indices : Option Text} {r : SortedChoices}
    (hr : choicesGet vals trans indices = some r) {canGoBack : Bool} {value : Text}
    {answers : List Text} {selected : List Bool} {stored : Option Text}
    (h : textHandlerMultiselect r canGoBack value answers = some (selected, stored)) :
    (∃ v, stored = some v ∧
        (∀ n, r.oargv.length ≤ n → strchoicesplit n v = selectedChoices r.oargv selected) ∧
          markDefaults r v = selected) ↔
      ComeBack (selectedChoices r.oargv selected) ∧ NoTwin r selected := by
  obtain ⟨selected', hp, heq⟩ := Option.map_eq_some_iff.mp h
  obtain ⟨rfl, rfl⟩ := Prod.mk.inj heq
  have hlines :=
    selectedLines_prompt (choicesGet_lengths hr) (selectedLines_markDefaults r value) hp
  rw [← comesBack_iff (length_selectedChoices_le r.oargv selected')]
  constructor
  · rintro ⟨v, hv, hsplit, hmark⟩
    exact ⟨⟨v, hv, hsplit⟩, (markDefaults_eq_iff hlines (hsplit _ (Nat.le_refl _))).mp hmark⟩
  · rintro ⟨⟨v, hv, hsplit⟩, htwin⟩
    exact ⟨v, hv, hsplit, (markDefaults_eq_iff hlines (hsplit _ (Nat.le_refl _))).mpr htwin⟩

theorem multiselect_iff_two :
    (∃ v, some "a, c".toList = some v ∧
        (∀ n, 3 ≤ n →
          strchoicesplit n v = selectedChoices [['a'], ['b'], ['c']] [true, false, true]) ∧
          markDefaults ⟨[['a'], ['b'], ['c']], [['x'], ['y'], ['z']], [0, 1, 2]⟩ v =
            [true, false, true]) ↔
      ComeBack (selectedChoices [['a'], ['b'], ['c']] [true, false, true]) ∧
        NoTwin ⟨[['a'], ['b'], ['c']], [['x'], ['y'], ['z']], [0, 1, 2]⟩ [true, false, true] :=
  @multiselect_iff "a, b, c".toList "x, y, z".toList none
    ⟨[['a'], ['b'], ['c']], [['x'], ['y'], ['z']], [0, 1, 2]⟩ (by decide) true "b"
    ["?", "1 3"] [true, false, true] (some "a, c".toList) (by decide)

/-- A choice with a comma comes back as two, and is not marked. -/
theorem multiselect_comma :
    choicesGet "a\\, b, c" "x, y" none =
        some ⟨["a, b", ['c']], [['x'], ['y']], [0, 1]⟩ ∧
      textHandlerMultiselect ⟨["a, b", ['c']], [['x'], ['y']], [0, 1]⟩ true []
        ["1".toList] = some ([true, false], some "a, b".toList) ∧
      strchoicesplit 2 "a, b" ≠ selectedChoices ["a, b", ['c']] [true, false] ∧
      markDefaults ⟨["a, b", ['c']], [['x'], ['y']], [0, 1]⟩ "a, b" ≠
        [true, false] := by
  decide

end DebianInstaller.Debconf
