import DebianInstaller.Debconf.TemplateLoad

/-!
# The newlines of a description

`remove_newlines` joins the lines of an extended description, keeps the newlines around a
line that starts with a space and makes an empty line of a single dot. It decides at each
newline from the characters behind it, and what it remembers of the line before is `asis`.

So it gets wrong what it cannot see there. A line that no newline stands before is never
looked at, which is the first line, and the one behind a dot, whose newline has been passed
over with it. And where a dot has been left out, the text is written further in front than
it is read, and only a newline at its end makes it write a new end, if that newline does
not belong to a dot, too.
-/

namespace DebianInstaller.Debconf

open Text Lib

variable {asis : Bool} {l m z : Text} {ls : List Text}

/-! ## Lines and their newlines -/

/-- A line that stands for an empty one. -/
def isDot (l : Text) : Bool := l == ['.']

/-- A line that is kept as it is. -/
def isVerbatim (l : Text) : Bool := l.head? == some ' '

/-- The line as it is shown. -/
def withoutDot (l : Text) : Text := if isDot l then [] else l

/-- What becomes of the newline between two lines. -/
def newlineBetween (l m : Text) : Char :=
  if isVerbatim l || isVerbatim m || isDot l || isDot m then '\n' else ' '

/-- The text that the rules give for some lines. -/
def joinLines : List Text → Text
  | [] => []
  | [l] => withoutDot l
  | l :: m :: ls => withoutDot l ++ newlineBetween l m :: joinLines (m :: ls)

/-- The lines that are wanted behind a newline that has been passed over, or behind one that
has been looked at. -/
def Readable : Bool → List Text → Prop
  | _, [] => True
  | unseen, l :: ls =>
      (unseen = true → isDot l = false ∧
        (isVerbatim l = true → ∀ m, ls.head? = some m → isDot m = true ∨ isVerbatim m = true)) ∧
      Readable (isDot l) ls

/-! ## One line -/

theorem newlinesRemoved_line (hl : '\n' ∉ l) (asis : Bool) (t : Text) :
    newlinesRemoved asis (l ++ t) =
      (l ++ (newlinesRemoved asis t).1, (newlinesRemoved asis t).2) := by
  induction l with
  | nil => rfl
  | cons c l ih =>
      have hc : c ≠ '\n' := fun h => hl (h ▸ List.mem_cons_self)
      have hstep : ∀ s, newlinesRemoved asis (c :: s) =
          (c :: (newlinesRemoved asis s).1, (newlinesRemoved asis s).2) := fun s =>
        newlinesRemoved.eq_6 asis c s (fun _ h _ => hc h) (fun h _ => hc h) (fun _ h _ => hc h)
          fun _ _ h _ => hc h
      rw [List.cons_append, hstep, ih fun h => hl (List.mem_cons_of_mem _ h)]
      rfl

theorem newlinesRemoved_newline {t : Text} (ht : t ≠ []) (hdot : ∀ r, t ≠ '.' :: '\n' :: r) :
    newlinesRemoved asis ('\n' :: t) =
      ((if isVerbatim t || asis then '\n' else ' ') :: (newlinesRemoved (isVerbatim t) t).1,
        (newlinesRemoved (isVerbatim t) t).2) := by
  obtain ⟨c, t, rfl⟩ := List.exists_cons_of_ne_nil ht
  by_cases hc : c = ' '
  · subst hc
    exact newlinesRemoved.eq_4 asis t
  · have hv : isVerbatim (c :: t) = false := by simp [isVerbatim, hc]
    rw [newlinesRemoved.eq_5 asis c t (fun r h₁ h₂ => hdot r (by rw [h₁, h₂])) hc, hv,
      Bool.false_or]

/-- The text of some lines and of what is behind the last newline. -/
def textOf (ls : List Text) (z : Text) : Text := Lib.unlines '\n' ls ++ z

/-- All lines of it. -/
def linesOf (ls : List Text) (z : Text) : List Text := if z = [] then ls else ls ++ [z]

theorem textOf_cons (l : Text) (ls : List Text) (z : Text) :
    textOf (l :: ls) z = l ++ '\n' :: textOf ls z := by
  unfold textOf
  rw [Lib.unlines_cons, List.append_assoc, List.cons_append]

theorem linesOf_cons (l : Text) (ls : List Text) (z : Text) :
    linesOf (l :: ls) z = l :: linesOf ls z := by
  unfold linesOf
  split <;> rfl

theorem textOf_eq_nil_iff : textOf ls z = [] ↔ linesOf ls z = [] := by
  cases ls with
  | nil =>
      unfold textOf linesOf
      by_cases hz : z = []
      · simp [hz]
      · simp [hz]
  | cons l ls =>
      rw [textOf_cons, linesOf_cons]
      simp

theorem textOf_dot_iff (hls : ∀ l ∈ ls, '\n' ∉ l) (hz : '\n' ∉ z) :
    (∃ r, textOf ls z = '.' :: '\n' :: r) ↔ ls.head? = some ['.'] := by
  cases ls with
  | nil =>
      refine iff_of_false ?_ fun h => by cases h
      rintro ⟨r, hr⟩
      have hr : z = '.' :: '\n' :: r := hr
      exact hz (hr ▸ List.mem_cons_of_mem _ List.mem_cons_self)
  | cons l ls =>
      have hl := hls l List.mem_cons_self
      rw [textOf_cons, List.head?_cons, Option.some_inj]
      constructor
      · rintro ⟨r, hr⟩
        match l with
        | [] => cases hr
        | [c] =>
            rw [(List.cons.inj hr).1]
        | c :: d :: l =>
            have hd : d = '\n' := (List.cons.inj (List.cons.inj hr).2).1
            exact absurd (List.mem_cons_of_mem c (hd ▸ List.mem_cons_self)) hl
      · rintro rfl
        exact ⟨_, rfl⟩

theorem isVerbatim_textOf (h : (linesOf ls z).head? = some m) :
    isVerbatim (textOf ls z) = isVerbatim m := by
  cases ls with
  | nil =>
      have hz : z ≠ [] := by
        rintro rfl
        cases h
      obtain rfl : z = m := by simpa [linesOf, hz] using h
      rfl
  | cons l ls =>
      rw [linesOf_cons] at h
      obtain rfl : l = m := by simpa using h
      rw [textOf_cons]
      cases l with
      | nil => rfl
      | cons c l => rfl

theorem linesOf_eq_nil (h : linesOf ls z = []) : ls = [] ∧ z = [] := by
  unfold linesOf at h
  split at h
  · next hz => exact ⟨h, hz⟩
  · simp at h

/-- A line with its newline: the text ends, a dot is passed over, or the next line is looked
at. -/
theorem newlinesRemoved_cases (hl : '\n' ∉ l) (hls : ∀ l ∈ ls, '\n' ∉ l) (hz : '\n' ∉ z)
    (asis : Bool) :
    (ls = [] ∧ z = [] ∧ newlinesRemoved asis (textOf (l :: ls) z) = (l, true)) ∨
    (∃ ls', ls = ['.'] :: ls' ∧ newlinesRemoved asis (textOf (l :: ls) z) =
      (l ++ '\n' :: '\n' :: (newlinesRemoved false (textOf ls' z)).1,
        (newlinesRemoved false (textOf ls' z)).2)) ∨
    ∃ m ms, linesOf ls z = m :: ms ∧ ls.head? ≠ some ['.'] ∧
      newlinesRemoved asis (textOf (l :: ls) z) =
        (l ++ (if isVerbatim m || asis then '\n' else ' ') ::
          (newlinesRemoved (isVerbatim m) (textOf ls z)).1,
          (newlinesRemoved (isVerbatim m) (textOf ls z)).2) := by
  cases hlines : linesOf ls z with
  | nil =>
      obtain ⟨rfl, rfl⟩ := linesOf_eq_nil hlines
      refine .inl ⟨rfl, rfl, ?_⟩
      rw [textOf_cons, newlinesRemoved_line hl]
      exact congrArg (·, true) (List.append_nil l)
  | cons m ms =>
      right
      by_cases hdot : ls.head? = some ['.']
      · cases ls with
        | nil => cases hdot
        | cons l' ls =>
            obtain rfl : l' = ['.'] := by simpa using hdot
            refine .inl ⟨ls, rfl, ?_⟩
            rw [textOf_cons, newlinesRemoved_line hl, textOf_cons]
            rfl
      · have hne : textOf ls z ≠ [] := by
          rw [Ne, textOf_eq_nil_iff, hlines]
          exact List.cons_ne_nil m ms
        have hhead : (linesOf ls z).head? = some m := by rw [hlines]; rfl
        refine .inr ⟨m, ms, rfl, hdot, ?_⟩
        rw [textOf_cons, newlinesRemoved_line hl, newlinesRemoved_newline hne fun r hr =>
          hdot ((textOf_dot_iff hls hz).mp ⟨r, hr⟩), isVerbatim_textOf hhead]

/-! ## What is written -/

theorem append_inj_cons {c d : Char} {s t : Text} : l ++ c :: s = l ++ d :: t ↔ c = d ∧ s = t := by
  rw [List.append_right_inj, List.cons.injEq]

theorem dot_ne_joinLines (hl : isDot l = true) (s : Text) (ms : List Text) :
    l ++ s ≠ joinLines (l :: m :: ms) := by
  obtain rfl : l = ['.'] := by simpa [isDot] using hl
  show '.' :: s ≠ newlineBetween ['.'] m :: joinLines (m :: ms)
  have hchar : newlineBetween ['.'] m = '\n' := if_pos (by simp [isDot])
  rw [hchar]
  intro h
  exact absurd (List.cons.inj h).1 (by decide)

theorem newline_eq_iff {unseen : Bool} (hl : isDot l = false) (hm : isDot m = false)
    (hasis : asis = (!unseen && isVerbatim l)) :
    (if isVerbatim m || asis then '\n' else ' ') = newlineBetween l m ↔
      (unseen = true → isDot l = false ∧
        (isVerbatim l = true → ∀ m', some m = some m' → isDot m' = true ∨ isVerbatim m' = true)) := by
  unfold newlineBetween
  rw [hl, hm, hasis]
  simp only [Option.some_inj, forall_eq', hm]
  cases unseen <;> cases isVerbatim l <;> cases isVerbatim m <;> simp

theorem joinLines_cons (hl : isDot l = false) (m : Text) (ms : List Text) :
    joinLines (l :: m :: ms) = l ++ newlineBetween l m :: joinLines (m :: ms) := by
  show withoutDot l ++ _ = _
  rw [withoutDot, if_neg (by simp [hl])]

theorem eq_withoutDot_iff (l : Text) : l = withoutDot l ↔ isDot l = false := by
  unfold withoutDot isDot
  by_cases hl : l = ['.']
  · simp [hl]
  · simp [hl]

/-- What is written of a text is what the rules give exactly if every line can be read where
it stands, and no dot is the last one. -/
def WrittenRight (asis unseen : Bool) (ls : List Text) (z : Text) : Prop :=
  (newlinesRemoved asis (textOf ls z)).1 = joinLines (linesOf ls z) ↔
    Readable unseen (linesOf ls z) ∧ (linesOf ls z).getLast? ≠ some ['.']

theorem readable_single (unseen : Bool) (l : Text) :
    (Readable unseen [l] ∧ [l].getLast? ≠ some ['.']) ↔ isDot l = false := by
  simp only [Readable, List.head?_nil, List.getLast?_singleton]
  unfold isDot
  by_cases hl : l = ['.']
  · simp [hl]
  · simp [hl]

theorem writtenRight_nil (hz : '\n' ∉ z) (asis unseen : Bool) : WrittenRight asis unseen [] z := by
  unfold WrittenRight
  by_cases hzn : z = []
  · subst hzn
    exact iff_of_true rfl ⟨trivial, by simp [linesOf]⟩
  · have hlines : linesOf [] z = [z] := if_neg hzn
    have htext : (newlinesRemoved asis (textOf [] z)).1 = z := by
      have := newlinesRemoved_line hz asis []
      rw [List.append_nil] at this
      show (newlinesRemoved asis z).1 = z
      rw [this]
      exact List.append_nil z
    rw [htext, hlines, readable_single]
    exact eq_withoutDot_iff z

section Step

variable {asis unseen : Bool} {l m z : Text} {ls ms : List Text}

theorem writtenRight_dot (hdot : isDot l = false)
    (htext : (newlinesRemoved asis (textOf (l :: ['.'] :: ls) z)).1 =
      l ++ '\n' :: '\n' :: (newlinesRemoved false (textOf ls z)).1)
    (ih : WrittenRight false true ls z) : WrittenRight asis unseen (l :: ['.'] :: ls) z := by
  have hbetween : newlineBetween l ['.'] = '\n' := if_pos (by simp [isDot])
  unfold WrittenRight at ih ⊢
  rw [htext, linesOf_cons, linesOf_cons, joinLines_cons hdot, hbetween, append_inj_cons,
    and_iff_right rfl]
  cases hrest : linesOf ls z with
  | nil =>
      rw [textOf_eq_nil_iff.mpr hrest]
      exact iff_of_false (by decide) fun h => h.2 rfl
  | cons m ms =>
      have hjoin : joinLines (['.'] :: m :: ms) = '\n' :: joinLines (m :: ms) := by
        show newlineBetween ['.'] m :: _ = _
        rw [newlineBetween, if_pos (by simp [isDot])]
      have hlast : (l :: ['.'] :: m :: ms).getLast? = (m :: ms).getLast? := by
        rw [List.getLast?_cons_cons, List.getLast?_cons_cons]
      rw [hrest] at ih
      rw [hjoin, List.cons_inj_right, hlast, ih]
      refine and_congr_left fun _ => ⟨fun h => ⟨fun _ => ⟨hdot, fun _ m' hm' => ?_⟩, ?_⟩, ?_⟩
      · obtain rfl : ['.'] = m' := by simpa using hm'
        exact .inl rfl
      · rw [hdot]
        exact ⟨fun h' => (by cases h'), h⟩
      · exact fun h => h.2.2

theorem writtenRight_seen (hdot : isDot l = false) (hlines : linesOf ls z = m :: ms)
    (hno : ls.head? ≠ some ['.']) (hasis : asis = (!unseen && isVerbatim l))
    (htext : (newlinesRemoved asis (textOf (l :: ls) z)).1 =
      l ++ (if isVerbatim m || asis then '\n' else ' ') ::
        (newlinesRemoved (isVerbatim m) (textOf ls z)).1)
    (ih : WrittenRight (isVerbatim m) false ls z) : WrittenRight asis unseen (l :: ls) z := by
  have hlast : (l :: m :: ms).getLast? = (m :: ms).getLast? := List.getLast?_cons_cons
  unfold WrittenRight at ih ⊢
  rw [htext, linesOf_cons, hlines, joinLines_cons hdot, append_inj_cons, hlast, ← hlines, ih,
    ← and_assoc]
  refine and_congr_left fun hend => ?_
  -- a dot here would be the last line
  have hm : isDot m = false := by
    by_contra hm
    obtain rfl : m = ['.'] := by simpa [isDot] using hm
    cases ls with
    | nil =>
        have hms : [['.']] = linesOf [] z := by
          unfold linesOf at hlines ⊢
          split at hlines
          · cases hlines
          · next hz =>
              rw [if_neg hz, List.nil_append, (List.cons.inj hlines).1]
        exact hend (by rw [← hms]; rfl)
    | cons l' ls =>
        rw [linesOf_cons] at hlines
        exact hno (by rw [(List.cons.inj hlines).1]; rfl)
  rw [newline_eq_iff hdot hm hasis, hlines]
  show _ ↔ _ ∧ Readable (isDot l) (m :: ms)
  rw [hdot]
  rfl

end Step

theorem writtenRight (hls : ∀ l ∈ ls, '\n' ∉ l) (hz : '\n' ∉ z) {unseen : Bool}
    (hasis : ∀ l, (linesOf ls z).head? = some l → asis = (!unseen && isVerbatim l))
    (hseen : unseen = false → ls.head? ≠ some ['.']) : WrittenRight asis unseen ls z := by
  induction hn : ls.length using Nat.strongRecOn generalizing ls asis unseen with
  | ind n ih =>
      subst hn
      cases ls with
      | nil => exact writtenRight_nil hz asis unseen
      | cons l ls =>
          obtain ⟨hl, hls⟩ := List.forall_mem_cons.mp hls
          have hcases := newlinesRemoved_cases hl hls hz asis
          by_cases hdot : isDot l = true
          · -- its newline has been passed over
            have hun : unseen = true := by
              by_contra hun
              refine hseen (by simpa using hun) ?_
              rw [List.head?_cons]
              simpa [isDot] using hdot
            refine iff_of_false (fun h => ?_) fun h => ?_
            · rw [textOf_cons, newlinesRemoved_line hl, linesOf_cons] at h
              cases hlines : linesOf ls z with
              | nil =>
                  obtain rfl : l = ['.'] := by simpa [isDot] using hdot
                  rw [hlines] at h
                  cases h
              | cons m ms =>
                  rw [hlines] at h
                  exact dot_ne_joinLines hdot _ ms h
            · rw [linesOf_cons] at h
              have hno := (h.1.1 hun).1
              rw [hdot] at hno
              cases hno
          · have hdot : isDot l = false := by simpa using hdot
            rcases hcases with ⟨rfl, rfl, hrun⟩ | ⟨ls, rfl, hrun⟩ | ⟨m, ms, hlines, hno, hrun⟩
            · unfold WrittenRight
              rw [hrun, show linesOf [l] [] = [l] from rfl, readable_single]
              exact eq_withoutDot_iff l
            · refine writtenRight_dot hdot (congrArg Prod.fst hrun) ?_
              exact ih ls.length (by simp only [List.length_cons]; omega)
                (fun l' h' => hls l' (List.mem_cons_of_mem _ h')) (fun _ _ => rfl)
                (fun h => by cases h) rfl
            · refine writtenRight_seen hdot hlines hno (hasis l (by rw [linesOf_cons]; rfl))
                (congrArg Prod.fst hrun) ?_
              refine ih ls.length (by simp) hls (fun l' h' => ?_) (fun _ => hno) rfl
              rw [hlines] at h'
              obtain rfl : m = l' := by simpa using h'
              rfl

/-! ## The end -/

section End

variable {ls : List Text} {z : Text}

theorem newlinesRemoved_open (hls : ∀ l ∈ ls, '\n' ∉ l) (hz : '\n' ∉ z) (hzn : z ≠ [])
    (asis : Bool) :
    (newlinesRemoved asis (textOf ls z)).2 = false ∧
      (['.'] ∉ ls → (newlinesRemoved asis (textOf ls z)).1.length = (textOf ls z).length) := by
  induction hn : ls.length using Nat.strongRecOn generalizing ls asis with
  | ind n ih =>
      subst hn
      cases ls with
      | nil =>
          have := newlinesRemoved_line hz asis []
          rw [List.append_nil] at this
          show (newlinesRemoved asis z).2 = false ∧ (_ → (newlinesRemoved asis z).1.length = z.length)
          rw [this]
          exact ⟨rfl, fun _ => by rw [show (newlinesRemoved asis []).1 = [] from rfl, List.append_nil]⟩
      | cons l ls =>
          obtain ⟨hl, hls⟩ := List.forall_mem_cons.mp hls
          rcases newlinesRemoved_cases hl hls hz asis with
            ⟨-, hz', -⟩ | ⟨ls, rfl, hrun⟩ | ⟨m, ms, -, -, hrun⟩
          · exact absurd hz' hzn
          · rw [hrun]
            refine ⟨(ih ls.length (by simp only [List.length_cons]; omega)
              (fun l' h' => hls l' (List.mem_cons_of_mem _ h')) false rfl).1, fun hno => ?_⟩
            exact absurd (List.mem_cons_of_mem _ List.mem_cons_self) hno
          · obtain ⟨hflag, hlen⟩ := ih ls.length (by simp) hls (isVerbatim m) rfl
            rw [hrun]
            refine ⟨hflag, fun hno => ?_⟩
            rw [textOf_cons, List.length_append, List.length_append, List.length_cons,
              List.length_cons, hlen fun h => hno (List.mem_cons_of_mem _ h)]

theorem newlinesRemoved_closed (hls : ∀ l ∈ ls, '\n' ∉ l) (hne : ls ≠ [])
    (hlast : ls.getLast? ≠ some ['.']) (asis : Bool) :
    (newlinesRemoved asis (textOf ls [])).2 = true := by
  induction hn : ls.length using Nat.strongRecOn generalizing ls asis with
  | ind n ih =>
      subst hn
      obtain ⟨l, ls, rfl⟩ := List.exists_cons_of_ne_nil hne
      obtain ⟨hl, hls⟩ := List.forall_mem_cons.mp hls
      rcases newlinesRemoved_cases hl hls List.not_mem_nil asis with
        ⟨-, -, hrun⟩ | ⟨ls, rfl, hrun⟩ | ⟨m, ms, hlines, -, hrun⟩
      · rw [hrun]
      · have hne' : ls ≠ [] := by
          rintro rfl
          exact hlast rfl
        rw [hrun]
        refine ih ls.length (by simp only [List.length_cons]; omega)
          (fun l' h' => hls l' (List.mem_cons_of_mem _ h')) hne' ?_ false rfl
        obtain ⟨l', ls, rfl⟩ := List.exists_cons_of_ne_nil hne'
        rwa [List.getLast?_cons_cons, List.getLast?_cons_cons] at hlast
      · have hne' : ls ≠ [] := by
          rintro rfl
          cases hlines
        rw [hrun]
        refine ih ls.length (by simp) hls hne' ?_ (isVerbatim m) rfl
        obtain ⟨l', ls, rfl⟩ := List.exists_cons_of_ne_nil hne'
        rwa [List.getLast?_cons_cons] at hlast

theorem length_joinLines (ls : List Text) (z : Text) :
    (textOf ls z).length = (joinLines (linesOf ls z)).length + (linesOf ls z).countP isDot +
      if z = [] ∧ ls ≠ [] then 1 else 0 := by
  have hwithout : ∀ l : Text, l.length = (withoutDot l).length + if isDot l then 1 else 0 := by
    intro l
    unfold withoutDot
    by_cases hl : isDot l = true
    · obtain rfl : l = ['.'] := by simpa [isDot] using hl
      rfl
    · rw [if_neg hl, if_neg hl]
      rfl
  induction ls with
  | nil =>
      rw [if_neg fun h => h.2 rfl]
      by_cases hz : z = []
      · subst hz
        rfl
      · rw [show linesOf [] z = [z] from if_neg hz, List.countP_singleton]
        exact hwithout z
  | cons l ls ih =>
      have hl := hwithout l
      rw [textOf_cons, linesOf_cons, List.length_append, List.length_cons]
      cases hlines : linesOf ls z with
      | nil =>
          obtain ⟨rfl, rfl⟩ := linesOf_eq_nil hlines
          have hcount : [l].countP isDot = if isDot l then 1 else 0 := List.countP_singleton
          have hcond : (if ([] : Text) = [] ∧ [l] ≠ [] then 1 else 0) = 1 :=
            if_pos ⟨rfl, List.cons_ne_nil l []⟩
          have hjoin : joinLines [l] = withoutDot l := rfl
          have htext : (textOf [] []).length = 0 := rfl
          rw [hcount, hcond, hjoin, htext, hl]
      | cons m ms =>
          have hcond : (z = [] ∧ ls ≠ []) ↔ (z = [] ∧ l :: ls ≠ []) := by
            refine and_congr_right fun hz => iff_of_true ?_ (List.cons_ne_nil l ls)
            rintro rfl
            rw [linesOf, if_pos hz] at hlines
            cases hlines
          have hcount : (l :: m :: ms).countP isDot =
              (m :: ms).countP isDot + if isDot l then 1 else 0 := List.countP_cons
          have hlen : (joinLines (l :: m :: ms)).length =
              (withoutDot l).length + ((joinLines (m :: ms)).length + 1) := by
            show (withoutDot l ++ newlineBetween l m :: joinLines (m :: ms)).length = _
            rw [List.length_append, List.length_cons]
          rw [hlines] at ih
          simp only [hcond] at ih
          rw [ih, hcount, hlen]
          omega

end End

/-! ## The whole text -/

theorem exists_textOf (t : Text) : ∃ ls z, (∀ l ∈ ls, '\n' ∉ l) ∧ '\n' ∉ z ∧ t = textOf ls z ∧
    lines t = linesOf ls z ∧ (t.getLast? = some '\n' ↔ z = [] ∧ ls ≠ []) := by
  obtain ⟨ls, z, hls, hz, rfl⟩ := exists_unlines_append '\n' t
  refine ⟨ls, z, hls, hz, rfl, ?_, ?_⟩
  · have hsplit : (Lib.unlines '\n' ls ++ z).splitOn '\n' = ls ++ [z] := by
      rw [splitOn_unlines '\n' hls, List.splitOn_eq_singleton hz]
    unfold lines linesOf
    rw [hsplit, List.getLast?_concat, List.dropLast_concat]
    simp only [Option.some_inj]
  · rcases List.eq_nil_or_concat' z with rfl | ⟨z, c, rfl⟩
    · rw [List.append_nil]
      rcases List.eq_nil_or_concat' ls with rfl | ⟨ls, l, rfl⟩
      · exact iff_of_false (by decide) fun h => h.2 rfl
      · refine iff_of_true ?_ ⟨rfl, by simp⟩
        rw [Lib.unlines_append, Lib.unlines_cons, Lib.unlines_nil, ← List.append_assoc,
          List.getLast?_concat]
    · refine iff_of_false (fun h => ?_) fun h => by simp at h
      rw [← List.append_assoc, List.getLast?_concat] at h
      exact hz (Option.some.inj h ▸ List.mem_append_right z List.mem_cons_self)

/-- `remove_newlines` gives what the rules say exactly if the first line, and a line behind
a dot, is no dot, and has a dot or another verbatim line behind it if it is verbatim; and
where there is a dot, a newline ends the text, and it is not the newline of a dot. -/
theorem removeNewlines_iff (t : Text) :
    removeNewlines t = joinLines (lines t) ↔
      Readable true (lines t) ∧ (['.'] ∈ lines t →
        t.getLast? = some '\n' ∧ (lines t).getLast? ≠ some ['.']) := by
  obtain ⟨ls, z, hls, hz, rfl, hlines, hends⟩ := exists_textOf t
  rw [hlines, hends]
  have hright : WrittenRight false true ls z := writtenRight hls hz (fun _ _ => rfl) fun h => by cases h
  have hlen := length_joinLines ls z
  have hdots : ['.'] ∈ linesOf ls z ↔ (linesOf ls z).countP isDot ≠ 0 := by
    rw [Ne, List.countP_eq_zero]
    simp [isDot]
  have hlast : (linesOf ls z).getLast? = some ['.'] → ['.'] ∈ linesOf ls z := List.mem_of_getLast?
  unfold WrittenRight at hright
  show (if (newlinesRemoved false (textOf ls z)).2 then (newlinesRemoved false (textOf ls z)).1
    else _ ++ (textOf ls z).drop (newlinesRemoved false (textOf ls z)).1.length) = _ ↔ _
  generalize hrun : newlinesRemoved false (textOf ls z) = r at hright
  -- what is left of the old text makes the result too long
  have hlong : ∀ u : Text, (linesOf ls z).countP isDot ≠ 0 ∨ (z = [] ∧ ls ≠ []) →
      u ++ (textOf ls z).drop u.length ≠ joinLines (linesOf ls z) := by
    intro u hmore h
    have := congrArg List.length h
    rw [List.length_append, List.length_drop] at this
    rcases hmore with hmore | hmore
    · omega
    · rw [if_pos hmore] at hlen
      omega
  by_cases hzn : z = []
  · subst hzn
    have hls' : linesOf ls [] = ls := if_pos rfl
    by_cases hlsn : ls = []
    · subst hlsn
      cases hrun
      exact iff_of_true rfl ⟨trivial, fun h => by simp [linesOf] at h⟩
    · rw [and_iff_right (⟨rfl, hlsn⟩ : ([] : Text) = [] ∧ ls ≠ [])]
      by_cases hdot : (linesOf ls []).getLast? = some ['.']
      · refine iff_of_false (fun h => ?_) fun h => h.2 (hlast hdot) hdot
        split at h
        · exact (hright.mp h).2 hdot
        · exact hlong _ (.inr ⟨rfl, hlsn⟩) h
      · have hflag := newlinesRemoved_closed hls hlsn (hls' ▸ hdot) false
        rw [hrun] at hflag
        rw [if_pos hflag, hright]
        exact and_congr_right fun _ => iff_of_true hdot fun _ => hdot
  · have hopen : ¬ (z = [] ∧ ls ≠ []) := fun h => hzn h.1
    obtain ⟨hflag, hsame⟩ := newlinesRemoved_open hls hz hzn false
    rw [hrun] at hflag hsame
    rw [if_neg (by simp [hflag])]
    by_cases hdot : ['.'] ∈ linesOf ls z
    · exact iff_of_false (hlong _ (.inl (hdots.mp hdot))) fun h => hopen (h.2 hdot).1
    · have hnone : ['.'] ∉ ls := by
        intro h
        refine hdot ?_
        rw [linesOf, if_neg hzn]
        exact List.mem_append_left _ h
      rw [hsame hnone, List.drop_length, List.append_nil, hright]
      exact and_congr_right fun _ => iff_of_true (fun h => hdot (hlast h)) fun h => absurd h hdot

/-- Two dots, a verbatim line in front, a dot at the end, and a dot in a text that no
newline ends. -/
theorem removeNewlines_wrong :
    removeNewlines "a\n.\n.\nb\n" = "a\n\n. b" ∧
      removeNewlines " a\nb\n" = " a b" ∧
      removeNewlines "a\n.\n" = "a\n\n\n" ∧
      removeNewlines "a\n.\nb" = "a\n\nbb" ∧
      ¬ ∀ t, removeNewlines t = joinLines (lines t) := by
  refine ⟨by decide, by decide, by decide, by decide, fun h => ?_⟩
  exact absurd (h " a\nb\n") (by decide)

end DebianInstaller.Debconf
