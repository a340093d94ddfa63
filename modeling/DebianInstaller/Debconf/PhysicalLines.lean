import DebianInstaller.Debconf.TemplateLoad

/-!
# The lines of a templates file

`template_load` puts a line together from the pieces that its buffer takes, and goes on
as long as the buffer is full. A line that fills the last piece to the end looks like one
that is longer: it takes the next line with it, or, at the end of the file, the loop does
not end. The lines of an extended description are not put together at all: what does not
fit into the buffer is the next line.

Which lines the loop sees is written down beside it, and compared with the lines of the
file.
-/

namespace DebianInstaller.Debconf

open Text Lib

variable {env : Env} {file l p rest : Text} {ls : List Text} {n : Nat} {r : Text × Text}
  {t : Option Template}

/-! ## What the loop sees -/

/-- The lines of a file, each with its newline. -/
def physicalLines (file : Text) : List Text := wholeLines '\n' file

/-- Whether an extended description is looked for behind a line of a template. -/
def describes (env : Env) (p : Text) : Bool :=
  begins p "Description: " || !env.noI18n && begins p "Description-"

/-- The lines that `readExtdesc` takes, for a number of rounds. -/
def extdescLines : Nat → Text → List Text
  | n + 1, ' ' :: rest =>
      cString (fgetsFile bufRoom (' ' :: rest)).1 ::
        extdescLines n (fgetsFile bufRoom (' ' :: rest)).2
  | _, _ => []

/-- The lines that a line of a template takes with it. -/
def linesTaken (env : Env) (t : Option Template) (p rest : Text) : List Text :=
  if t.isSome && describes env p then extdescLines rest.length rest else []

/-- The template that a line belongs to. -/
def openAt (t : Option Template) (p : Text) : Option Template := if p = [] then none else t

/-- The lines that the loop of `template_load` works on, for a number of rounds. -/
def logicalLinesFrom (env : Env) : Nat → Option Template → Text → Option (List Text)
  | 0, _, _ => none
  | _, _, [] => some []
  | n + 1, t, c :: file =>
      (readLine (c :: file)).bind fun r =>
        let p := chomp r.1
        let line := templateLine env (openAt t p) p r.2
        (logicalLinesFrom env n line.1 line.2).map fun ls =>
          r.1 :: linesTaken env (openAt t p) p r.2 ++ ls

/-- The lines that `template_load` works on, where it returns. -/
def logicalLines (env : Env) (file : Text) : Option (List Text) :=
  logicalLinesFrom env (file.length + 1) none file

/-- The tag of a line that begins a template. -/
def templateTag (l : Text) : Option Text :=
  if begins (chomp l) "Template: " then some ((chomp l).drop 10) else none

/-- Every line of the file is one line for `template_load`, and every template of the file
is in what it returns, in the order of the file from behind. -/
def LinesKept (env : Env) (file : Text) : Prop :=
  logicalLines env file = some (physicalLines file) ∧
    ∃ ts, templateLoad env file = some ts ∧
      ts.reverse.map Template.tag = (physicalLines file).filterMap templateTag

/-! ## When lines are read as they are -/

/-- The lines are as long as the buffer allows. For a line of an extended description this
is another bound than for the others; `isOpen` says whether a template has begun, and
`extending` whether an extended description may go on. -/
def LinesFit (env : Env) : Bool → Bool → List Text → Prop
  | _, _, [] => True
  | isOpen, extending, l :: ls =>
      if extending && l.head? == some ' ' then l.length ≤ bufRoom ∧ LinesFit env isOpen true ls
      else
        l.length % bufRoom ≠ 0 ∧
          if chomp l = [] then LinesFit env false false ls
          else if begins (chomp l) "Template: " then LinesFit env true false ls
          else LinesFit env isOpen (isOpen && describes env (chomp l)) ls

/-- No template begins before the empty line behind the one before it. -/
def Separated : Bool → List Text → Prop
  | _, [] => True
  | isOpen, l :: ls =>
      if chomp l = [] then Separated false ls
      else if begins (chomp l) "Template: " then isOpen = false ∧ Separated true ls
      else Separated isOpen ls

/-! ## Reading a line -/

theorem fgetsFile_eq_piece (n : Nat) (t : Text) :
    fgetsFile n t = ((piece '\n' n t).1, (piece '\n' n t).2.2) := by
  induction n generalizing t with
  | zero => cases t <;> rfl
  | succ n ih =>
      cases t with
      | nil => rfl
      | cons c t =>
          rw [fgetsFile, piece]
          split
          · rfl
          · rw [ih]

theorem cString_eq {t : Text} (h : '\x00' ∉ t) : cString t = t :=
  List.takeWhile_eq_self_iff.mpr fun c hc => by
    rw [bne_iff_ne]
    exact fun he => h (he ▸ hc)

theorem nul_not_mem_cString (t : Text) : '\x00' ∉ cString t := fun h => by
  have := List.mem_takeWhile_imp h
  exact absurd this (by decide)

theorem joinPieces_line (h : Lib.IsLine '\n' l rest) (hnul : '\x00' ∉ l)
    (hfit : l.length % bufRoom ≠ 0) (acc : Text) (hn : (l ++ rest).length < n) :
    joinPieces n (cString (fgetsFile bufRoom (l ++ rest)).1)
      (acc ++ cString (fgetsFile bufRoom (l ++ rest)).1) (fgetsFile bufRoom (l ++ rest)).2 =
      some (acc ++ l, rest) := by
  induction hlen : l.length using Nat.strong_induction_on generalizing l acc n with
  | _ k ih =>
      subst hlen
      obtain ⟨n, rfl⟩ := Nat.exists_eq_succ_of_ne_zero (Nat.ne_of_gt (Nat.zero_lt_of_lt hn))
      rw [fgetsFile_eq_piece]
      rcases Nat.lt_or_ge bufRoom l.length with hlt | hle
      · obtain ⟨hpiece, hleft, hline⟩ := h.piece_long hlt
        have htake : '\x00' ∉ l.take bufRoom := fun hm => hnul (List.mem_of_mem_take hm)
        have hfull : (l.take bufRoom).length = bufRoom := List.length_take_of_le hlt.le
        have hne : l.drop bufRoom ++ rest ≠ [] := by simp [hline.ne_nil]
        have hroom : 0 < bufRoom := Nat.succ_pos _
        have hmod : (l.drop bufRoom).length % bufRoom ≠ 0 := by
          rw [List.length_drop, ← Nat.mod_eq_sub_mod hlt.le]
          exact hfit
        have hshort : (l.drop bufRoom).length < l.length := by
          rw [List.length_drop]
          omega
        have hrounds : (l.drop bufRoom ++ rest).length < n := by
          rw [List.length_append] at hn ⊢
          omega
        rw [hpiece, hleft, cString_eq htake, joinPieces, if_pos hfull, if_neg hne,
          ih _ hshort hline (fun hm => hnul (List.mem_of_mem_drop hm)) hmod _ hrounds rfl,
          List.append_assoc, List.take_append_drop]
      · obtain ⟨hpiece, hleft⟩ := h.piece hle
        have hpart : l.length ≠ bufRoom := fun he => hfit (he ▸ Nat.mod_self _)
        rw [hpiece, hleft, cString_eq hnul, joinPieces, if_neg hpart]

theorem joinPieces_isPrefix {buf line : Text} (h : joinPieces n buf line rest = some r) :
    line <+: r.1 := by
  induction n generalizing buf line rest with
  | zero => cases h
  | succ n ih =>
      rw [joinPieces] at h
      split at h
      · split at h
        · cases h
        · exact (List.prefix_append _ _).trans (ih h)
      · obtain rfl := Option.some.inj h
        exact List.prefix_rfl

/-- Where a line fills the buffer to the end, more than the line is joined. -/
theorem joinPieces_full (h : Lib.IsLine '\n' l rest) (hnul : '\x00' ∉ l ++ rest)
    (hfull : l.length % bufRoom = 0) (acc : Text)
    (hr : joinPieces n (cString (fgetsFile bufRoom (l ++ rest)).1)
      (acc ++ cString (fgetsFile bufRoom (l ++ rest)).1) (fgetsFile bufRoom (l ++ rest)).2 =
      some r) : (acc ++ l).length < r.1.length := by
  induction hlen : l.length using Nat.strong_induction_on generalizing l acc n with
  | _ k ih =>
      subst hlen
      have hl : 0 < l.length := List.length_pos_iff.mpr h.ne_nil
      have hroom : 0 < bufRoom := Nat.succ_pos _
      cases n with
      | zero => cases hr
      | succ n =>
          rw [fgetsFile_eq_piece] at hr
          rcases Nat.lt_or_ge bufRoom l.length with hlt | hle
          · obtain ⟨hpiece, hleft, hline⟩ := h.piece_long hlt
            have hnul' : '\x00' ∉ l.drop bufRoom ++ rest := fun hm =>
              hnul (List.mem_append.mpr ((List.mem_append.mp hm).imp_left List.mem_of_mem_drop))
            have htake : '\x00' ∉ l.take bufRoom := fun hm =>
              hnul (List.mem_append_left _ (List.mem_of_mem_take hm))
            have hbuf : (l.take bufRoom).length = bufRoom := List.length_take_of_le hlt.le
            have hne : l.drop bufRoom ++ rest ≠ [] := by simp [hline.ne_nil]
            have hmod : (l.drop bufRoom).length % bufRoom = 0 := by
              rw [List.length_drop, ← Nat.mod_eq_sub_mod hlt.le]
              exact hfull
            have hshort : (l.drop bufRoom).length < l.length := by
              rw [List.length_drop]
              omega
            rw [hpiece, hleft, cString_eq htake, joinPieces, if_pos hbuf, if_neg hne] at hr
            have hless := ih _ hshort hline hnul' hmod _ hr rfl
            rwa [List.append_assoc, List.take_append_drop] at hless
          · obtain ⟨hpiece, hleft⟩ := h.piece hle
            have hbuf : l.length = bufRoom := by
              have := Nat.le_of_dvd hl (Nat.dvd_of_mod_eq_zero hfull)
              omega
            have hnul₁ : '\x00' ∉ l := fun hm => hnul (List.mem_append_left _ hm)
            rw [hpiece, hleft, cString_eq hnul₁, joinPieces, if_pos hbuf] at hr
            split at hr
            · cases hr
            · next hne =>
                obtain ⟨m, rest', hm, rfl⟩ := exists_isLine '\n' hne
                have hfirst : (fgetsFile bufRoom (m ++ rest')).1 ≠ [] := by
                  obtain ⟨c, t, hct⟩ := List.exists_cons_of_ne_nil hne
                  rw [hct, bufRoom, fgetsFile]
                  split
                  · exact List.cons_ne_nil _ _
                  · exact List.cons_ne_nil _ _
                have hclean : '\x00' ∉ (fgetsFile bufRoom (m ++ rest')).1 := by
                  intro hmem
                  rw [fgetsFile_eq_piece] at hmem
                  refine hnul (List.mem_append_right _ ?_)
                  rw [← piece_append '\n' bufRoom (m ++ rest')]
                  exact List.mem_append_left _ hmem
                have hlong := (joinPieces_isPrefix hr).length_le
                rw [cString_eq hclean, List.length_append] at hlong
                have := List.length_pos_iff.mpr hfirst
                omega

theorem readLine_line (h : Lib.IsLine '\n' l rest) (hnul : '\x00' ∉ l)
    (hfit : l.length % bufRoom ≠ 0) : readLine (l ++ rest) = some (l, rest) :=
  joinPieces_line h hnul hfit [] (Nat.lt_succ_self _)

theorem readLine_full (h : Lib.IsLine '\n' l rest) (hnul : '\x00' ∉ l ++ rest)
    (hfull : l.length % bufRoom = 0) (hr : readLine (l ++ rest) = some r) : l.length < r.1.length :=
  joinPieces_full h hnul hfull [] hr

theorem nul_not_mem_joinPieces {buf line : Text} (hline : '\x00' ∉ line)
    (h : joinPieces n buf line rest = some r) : '\x00' ∉ r.1 := by
  induction n generalizing buf line rest with
  | zero => cases h
  | succ n ih =>
      rw [joinPieces] at h
      split at h
      · split at h
        · cases h
        · refine ih (fun hm => ?_) h
          rcases List.mem_append.mp hm with hm | hm
          · exact hline hm
          · exact nul_not_mem_cString _ hm
      · obtain rfl := Option.some.inj h
        exact hline

/-! ## Extended descriptions -/

theorem readExtdesc_rest (n : Nat) (e e' rest : Text) :
    (readExtdesc n e rest).2 = (readExtdesc n e' rest).2 := by
  induction n generalizing e e' rest with
  | zero => rfl
  | succ n ih =>
      match rest with
      | [] => rfl
      | c :: rest =>
          by_cases hc : c = ' '
          · subst hc
            exact ih _ _ _
          · rw [readExtdesc.eq_2 _ _ _ fun _ _ _ he => hc (List.cons.inj he).1,
              readExtdesc.eq_2 _ _ _ fun _ _ _ he => hc (List.cons.inj he).1]

theorem fgetsFile_isSuffix (n : Nat) (t : Text) : (fgetsFile n t).2 <:+ t := by
  rw [fgetsFile_eq_piece]
  exact ⟨(piece '\n' n t).1, piece_append '\n' n t⟩

theorem readExtdesc_isSuffix (n : Nat) (e rest : Text) : (readExtdesc n e rest).2 <:+ rest := by
  induction n generalizing e rest with
  | zero => exact List.suffix_rfl
  | succ n ih =>
      match rest with
      | [] => exact List.suffix_rfl
      | c :: rest =>
          by_cases hc : c = ' '
          · subst hc
            exact (ih _ _).trans (fgetsFile_isSuffix _ _)
          · rw [readExtdesc.eq_2 _ _ _ fun _ _ _ he => hc (List.cons.inj he).1]

theorem extdesc_other (h : rest.head? ≠ some ' ') (n : Nat) (e : Text) :
    extdescLines n rest = [] ∧ (readExtdesc n e rest).2 = rest := by
  cases n with
  | zero => exact ⟨rfl, rfl⟩
  | succ n =>
      match rest, h with
      | [], _ => exact ⟨rfl, rfl⟩
      | c :: rest, h =>
          have hc : c ≠ ' ' := fun he => h (congrArg some he)
          rw [readExtdesc.eq_2 _ _ _ fun _ _ _ he => hc (List.cons.inj he).1,
            extdescLines.eq_2 _ _ fun _ _ _ he => hc (List.cons.inj he).1]
          exact ⟨rfl, rfl⟩

theorem extdesc_blank {t : Text} (h : t.head? = some ' ') (n : Nat) (e : Text) :
    extdescLines (n + 1) t =
        cString (fgetsFile bufRoom t).1 :: extdescLines n (fgetsFile bufRoom t).2 ∧
      (readExtdesc (n + 1) e t).2 = (readExtdesc n [] (fgetsFile bufRoom t).2).2 := by
  match t, h with
  | c :: t, h =>
      obtain rfl : c = ' ' := Option.some.inj h
      refine ⟨rfl, ?_⟩
      rw [readExtdesc, readExtdesc_rest]

/-- The lines of a description are taken off the front of those that are left. -/
theorem extdesc_lines (env : Env) (o : Bool) (hnul : '\x00' ∉ rest) (hn : rest.length ≤ n) :
    (∀ ls, extdescLines n rest ++ ls = physicalLines rest →
        ls = physicalLines (readExtdesc n [] rest).2) ∧
      (LinesFit env o true (physicalLines rest) ↔
        extdescLines n rest ++ physicalLines (readExtdesc n [] rest).2 = physicalLines rest ∧
          LinesFit env o false (physicalLines (readExtdesc n [] rest).2)) := by
  induction n generalizing rest with
  | zero =>
      obtain rfl : rest = [] := List.eq_nil_of_length_eq_zero (Nat.le_zero.mp hn)
      exact ⟨fun ls h => h, fun _ => ⟨rfl, trivial⟩, fun _ => trivial⟩
  | succ n ih =>
      by_cases hblank : rest.head? = some ' '
      · obtain ⟨l, r, hline, rfl⟩ := exists_isLine '\n' (t := rest) (by
          rintro rfl
          cases hblank)
        have hhead : l.head? = some ' ' := by
          rw [← hblank, List.head?_append_of_ne_nil _ hline.ne_nil]
        obtain ⟨hlines, hrest⟩ := extdesc_blank hblank n []
        have hphys : physicalLines (l ++ r) = l :: physicalLines r := hline.wholeLines
        have hfits : LinesFit env o true (physicalLines (l ++ r)) ↔
            l.length ≤ bufRoom ∧ LinesFit env o true (physicalLines r) := by
          rw [hphys, LinesFit, hhead, if_pos (by decide)]
        rw [hlines, hrest, hfits, hphys]
        rcases Nat.lt_or_ge bufRoom l.length with hlt | hle
        · have hshort : (cString (fgetsFile bufRoom (l ++ r)).1).length ≤ bufRoom := by
            rw [fgetsFile_eq_piece]
            exact (List.takeWhile_prefix _).length_le.trans (length_piece_le _ _ _)
          have hno : ∀ ls, cString (fgetsFile bufRoom (l ++ r)).1 ::
              extdescLines n (fgetsFile bufRoom (l ++ r)).2 ++ ls ≠ l :: physicalLines r := by
            intro ls he
            rw [(List.cons.inj he).1] at hshort
            omega
          exact ⟨fun ls h => absurd h (hno ls),
            fun h => absurd h.1 (Nat.not_le_of_lt hlt), fun h => absurd h.1 (hno _)⟩
        · obtain ⟨hpiece, hleft⟩ := hline.piece hle
          have hl : 0 < l.length := List.length_pos_iff.mpr hline.ne_nil
          have hnul₁ : '\x00' ∉ l := fun hm => hnul (List.mem_append_left _ hm)
          have hlen : r.length ≤ n := by
            rw [List.length_append] at hn
            omega
          obtain ⟨h1, h2⟩ := ih (fun hm => hnul (List.mem_append_right _ hm)) hlen
          rw [fgetsFile_eq_piece, hpiece, hleft, cString_eq hnul₁]
          refine ⟨fun ls h => h1 ls (List.cons.inj h).2, ?_⟩
          rw [h2, List.cons_append, List.cons_inj_right]
          exact ⟨fun h => h.2, fun h => ⟨hle, h⟩⟩
      · obtain ⟨hlines, hrest⟩ := extdesc_other hblank (n + 1) []
        rw [hlines, hrest]
        refine ⟨fun ls h => h, ?_⟩
        have hfits : LinesFit env o true (physicalLines rest) ↔
            LinesFit env o false (physicalLines rest) := by
          cases rest with
          | nil => exact Iff.rfl
          | cons c rest =>
              obtain ⟨l, r, hline, he⟩ := exists_isLine '\n' (List.cons_ne_nil c rest)
              have hhead : ¬ l.head? = some ' ' := by
                rwa [he, List.head?_append_of_ne_nil _ hline.ne_nil] at hblank
              have hphys : physicalLines (c :: rest) = l :: physicalLines r := by
                rw [he]
                exact hline.wholeLines
              rw [hphys, LinesFit, LinesFit]
              simp [hhead]
        rw [hfits]
        exact ⟨fun h => ⟨rfl, h⟩, fun h => h.2⟩

/-! ## A line of a template -/

theorem begins_other {a b : String} (ha : begins p a = true)
    (h : (a.toList.zip b.toList).any (fun c => c.1 != c.2) = true) : begins p b = false := by
  rw [begins, List.isPrefixOf_iff_prefix] at ha
  rw [← Bool.not_eq_true, begins, List.isPrefixOf_iff_prefix]
  intro hb
  obtain ⟨x, hx⟩ := ha
  obtain ⟨y, hy⟩ := hb
  obtain ⟨c, hc, hne⟩ := List.any_eq_true.mp h
  obtain ⟨i, hi, rfl⟩ := List.getElem_of_mem hc
  rw [List.length_zip, Nat.lt_min] at hi
  have hleft : p[i]? = some (a.toList[i]) := by
    rw [← hx, List.getElem?_append_left hi.1, List.getElem?_eq_getElem hi.1]
  have hright : p[i]? = some (b.toList[i]) := by
    rw [← hy, List.getElem?_append_left hi.2, List.getElem?_eq_getElem hi.2]
  rw [List.getElem_zip, bne_iff_ne] at hne
  exact hne (Option.some.inj (hleft.symm.trans hright))

theorem describes_begins (h : describes env p = true) : begins p "Description" = true := by
  rw [begins, List.isPrefixOf_iff_prefix]
  rcases Bool.or_eq_true_iff.mp h with h | h
  · rw [begins, List.isPrefixOf_iff_prefix] at h
    exact List.IsPrefix.trans ⟨": ", rfl⟩ h
  · have h := (Bool.and_eq_true_iff.mp h).2
    rw [begins, List.isPrefixOf_iff_prefix] at h
    exact List.IsPrefix.trans ⟨"-", rfl⟩ h

theorem describes_template (h : begins p "Template: " = true) : describes env p = false := by
  rw [← Bool.not_eq_true]
  intro hd
  have := begins_other (describes_begins hd) (b := "Template: ") (by decide)
  rw [h] at this
  cases this

theorem fieldLine_rest (env : Env) (t : Template) (p rest : Text) :
    (fieldLine env t p rest).2 =
      if describes env p then (readExtdesc rest.length [] rest).2 else rest := by
  by_cases hd : describes env p = true
  · rw [if_pos hd]
    have hother : ∀ b : String,
        ("Description".toList.zip b.toList).any (fun c => c.1 != c.2) = true →
        begins p b = false := fun b hb => begins_other (describes_begins hd) hb
    unfold fieldLine
    rw [hother "Type: " (by decide), hother "Help: " (by decide), hother "Default: " (by decide),
      hother "Default-" (by decide), hother "Choices: " (by decide),
      hother "Choices-" (by decide), hother "Indices: " (by decide), hother "Indices-" (by decide)]
    simp only [Bool.and_false, Bool.false_eq_true, if_false]
    split
    · rfl
    · next h =>
        rw [if_pos]
        · rfl
        · simpa [describes, h] using hd
  · rw [if_neg hd]
    rw [describes, Bool.or_eq_true_iff, not_or] at hd
    unfold fieldLine
    rw [if_neg hd.1, if_neg hd.2]
    split_ifs <;> rfl

theorem templateLine_rest (env : Env) (t : Option Template) (p rest : Text) :
    (templateLine env t p rest).2 =
      if t.isSome && describes env p then (readExtdesc rest.length [] rest).2 else rest := by
  unfold templateLine
  split
  · next h => rw [describes_template h, Bool.and_false, if_neg Bool.false_ne_true]
  · cases t with
    | none => rfl
    | some t => exact fieldLine_rest env t p rest

theorem templateLine_isSome (env : Env) (t : Option Template) (p rest : Text) :
    (templateLine env t p rest).1.isSome = (begins p "Template: " || t.isSome) := by
  unfold templateLine
  split
  · next h => rw [h]; rfl
  · next h =>
      rw [Bool.not_eq_true] at h
      rw [h]
      cases t <;> rfl

theorem TextSet.tag {t t' : Template} (h : TextSet env t t') : t'.tag = t.tag := by
  cases h with
  | type v => rfl
  | help v => rfl
  | own f v => cases f <;> rfl
  | @localized f lang hlang v =>
      obtain ⟨c, l, rfl⟩ := List.exists_cons_of_ne_nil hlang
      rw [templateLset_some]
      split_ifs <;> rfl

theorem fieldLine_tag (env : Env) (t : Template) (p rest : Text) :
    (fieldLine env t p rest).1.tag = t.tag := by
  have hsets := (fieldLine_textSets env t p rest).1
  generalize (fieldLine env t p rest).1 = t' at hsets
  induction hsets with
  | refl => rfl
  | tail _ hstep ih => exact hstep.tag.trans ih

/-! ## The lines of a file -/

theorem fits_cons (env : Env) (t : Option Template) (l : Text) (ls : List Text) :
    LinesFit env t.isSome false (l :: ls) ↔ l.length % bufRoom ≠ 0 ∧
      LinesFit env (begins (chomp l) "Template: " || (openAt t (chomp l)).isSome)
        ((openAt t (chomp l)).isSome && describes env (chomp l)) ls := by
  rw [LinesFit, Bool.false_and, if_neg Bool.false_ne_true]
  refine and_congr_right fun _ => ?_
  unfold openAt
  split
  · next h => rw [h]; rfl
  · split
    · next h => rw [h, describes_template h, Bool.and_false, Bool.true_or]
    · next h =>
        rw [Bool.not_eq_true] at h
        rw [h, Bool.false_or]

/-- The logical lines are the physical ones if and only if these fit. -/
theorem logicalLinesFrom_iff (env : Env) (t : Option Template) (hnul : '\x00' ∉ file)
    (hn : file.length < n) :
    logicalLinesFrom env n t file = some (physicalLines file) ↔
      LinesFit env t.isSome false (physicalLines file) := by
  induction n generalizing t file with
  | zero => exact absurd hn (Nat.not_lt_zero _)
  | succ n ih =>
      cases file with
      | nil => exact ⟨fun _ => trivial, fun _ => rfl⟩
      | cons c file =>
          obtain ⟨l, r, hline, he⟩ := exists_isLine '\n' (List.cons_ne_nil c file)
          rw [he] at hnul hn
          have hphys : physicalLines (l ++ r) = l :: physicalLines r := hline.wholeLines
          have hl : 0 < l.length := List.length_pos_iff.mpr hline.ne_nil
          rw [logicalLinesFrom, he, hphys, fits_cons]
          by_cases hfit : l.length % bufRoom = 0
          · refine iff_of_false (fun h => ?_) fun h => h.1 hfit
            obtain ⟨x, hx, h⟩ := Option.bind_eq_some_iff.mp h
            obtain ⟨ls, -, h⟩ := Option.map_eq_some_iff.mp h
            have hlong := readLine_full hline hnul hfit hx
            rw [(List.cons.inj h).1] at hlong
            exact Nat.lt_irrefl _ hlong
          · have hnul₁ : '\x00' ∉ l := fun hm => hnul (List.mem_append_left _ hm)
            have hnul₂ : '\x00' ∉ r := fun hm => hnul (List.mem_append_right _ hm)
            rw [readLine_line hline hnul₁ hfit, Option.bind_some, and_iff_right hfit,
              ← templateLine_isSome env (openAt t (chomp l)) (chomp l) r]
            simp only [templateLine_rest, linesTaken]
            by_cases hext : ((openAt t (chomp l)).isSome && describes env (chomp l)) = true
            · obtain ⟨htaken, hfits⟩ := extdesc_lines env
                (templateLine env (openAt t (chomp l)) (chomp l) r).1.isSome hnul₂ (Nat.le_refl _)
              have hle := readExtdesc_length_le r.length [] r
              have hnul₃ : '\x00' ∉ (readExtdesc r.length [] r).2 := fun hm =>
                hnul₂ ((readExtdesc_isSuffix r.length [] r).subset hm)
              rw [if_pos hext, if_pos hext, hext, hfits, ← ih _ hnul₃ (by
                rw [List.length_append] at hn
                omega)]
              constructor
              · intro h
                obtain ⟨ls, hls, h⟩ := Option.map_eq_some_iff.mp h
                have h := (List.cons.inj h).2
                obtain rfl := htaken ls h
                exact ⟨h, hls⟩
              · rintro ⟨h, hls⟩
                rw [hls, Option.map_some, List.cons_append, h]
            · rw [if_neg hext, if_neg hext, (Bool.not_eq_true _).mp hext, ← ih _ hnul₂ (by
                rw [List.length_append] at hn
                omega)]
              constructor
              · intro h
                obtain ⟨ls, hls, h⟩ := Option.map_eq_some_iff.mp h
                rw [hls, ← (List.cons.inj h).2]
                rfl
              · intro h
                rw [h]
                rfl

/-! ## The templates of a file -/

theorem head?_chomp (h : l.head? = some ' ') : (chomp l).head? = some ' ' := by
  match l, h with
  | c :: l, h =>
      obtain rfl : c = ' ' := Option.some.inj h
      unfold chomp
      split
      · next hlast =>
          cases l with
          | nil => exact absurd hlast (by decide)
          | cons d l => rfl
      · rfl

theorem head?_of_mem_extdescLines (h : l ∈ extdescLines n rest) : l.head? = some ' ' := by
  induction n generalizing rest with
  | zero => cases h
  | succ n ih =>
      by_cases hblank : rest.head? = some ' '
      · rw [(extdesc_blank hblank n []).1] at h
        rcases List.mem_cons.mp h with rfl | h
        · match rest, hblank with
          | c :: rest, hblank =>
              obtain rfl : c = ' ' := Option.some.inj hblank
              rfl
        · exact ih h
      · rw [(extdesc_other hblank (n + 1) []).1] at h
        cases h

theorem head?_of_mem_linesTaken (h : l ∈ linesTaken env t p rest) : l.head? = some ' ' := by
  unfold linesTaken at h
  split at h
  · exact head?_of_mem_extdescLines h
  · cases h

theorem begins_nil : begins [] "Template: " = false := rfl

theorem begins_of_head? (h : p.head? = some ' ') : p ≠ [] ∧ begins p "Template: " = false := by
  match p, h with
  | c :: p, h =>
      obtain rfl : c = ' ' := Option.some.inj h
      exact ⟨List.cons_ne_nil _ _, rfl⟩

theorem templateTag_append (h : ∀ l ∈ ls, l.head? = some ' ') (ls' : List Text) :
    (ls ++ ls').filterMap templateTag = ls'.filterMap templateTag := by
  rw [List.filterMap_append]
  have hnone : ls.filterMap templateTag = [] := by
    rw [List.filterMap_eq_nil_iff]
    intro l hl
    unfold templateTag
    rw [(begins_of_head? (head?_chomp (h l hl))).2]
    rfl
  rw [hnone, List.nil_append]

theorem separated_append (h : ∀ l ∈ ls, l.head? = some ' ') (o : Bool) (ls' : List Text) :
    Separated o (ls ++ ls') ↔ Separated o ls' := by
  induction ls with
  | nil => exact Iff.rfl
  | cons l ls ih =>
      obtain ⟨hl, hls⟩ := List.forall_mem_cons.mp h
      obtain ⟨hne, hbegins⟩ := begins_of_head? (head?_chomp hl)
      rw [List.cons_append, Separated, if_neg hne, hbegins, if_neg Bool.false_ne_true, ih hls]

/-- The templates that are returned, by the lines that the loop works on: no more than begin
there, and all of these if no template begins before the end of the one before. -/
theorem templateLoadFrom_tags (env : Env) (tlist : List Template)
    (hls : logicalLinesFrom env n t file = some ls) :
    ∃ ts, templateLoadFrom env n t tlist file = some ts ∧
      ts.length ≤ tlist.length + t.toList.length + (ls.filterMap templateTag).length ∧
      (ts.reverse.map Template.tag = tlist.reverse.map Template.tag ++
          (t.toList.map Template.tag ++ ls.filterMap templateTag) ↔ Separated t.isSome ls) := by
  induction n generalizing t tlist file ls with
  | zero => cases hls
  | succ n ih =>
      cases file with
      | nil =>
          obtain rfl := Option.some.inj hls
          refine ⟨_, rfl, ?_, ?_⟩
          · simp [Nat.add_comm]
          · refine iff_of_true ?_ trivial
            cases t <;> simp
      | cons c file =>
          rw [logicalLinesFrom] at hls
          obtain ⟨r, hr, hls⟩ := Option.bind_eq_some_iff.mp hls
          obtain ⟨ls', hls', rfl⟩ := Option.map_eq_some_iff.mp hls
          rw [templateLoadFrom, hr, Option.bind_some]
          obtain ⟨ts, hts, hle, htags⟩ :=
            ih (if chomp r.1 = [] then t.toList ++ tlist else tlist) hls'
          refine ⟨ts, hts, ?_⟩
          have htaken : ∀ l ∈ linesTaken env (openAt t (chomp r.1)) (chomp r.1) r.2,
              l.head? = some ' ' := fun l hl => head?_of_mem_linesTaken hl
          rw [List.cons_append, List.filterMap_cons, templateTag_append htaken, Separated,
            separated_append htaken, separated_append htaken, separated_append htaken, templateTag]
          clear hr hls' hts ih htaken
          by_cases hp : chomp r.1 = []
          · have hline : (templateLine env (openAt t (chomp r.1)) (chomp r.1) r.2).1 = none := by
              rw [hp]
              rfl
            rw [hline, if_pos hp] at htags hle
            rw [hp, if_pos rfl]
            simp only [begins_nil, Bool.false_eq_true, if_false]
            refine ⟨by simpa [Nat.add_comm, Nat.add_left_comm] using hle, Iff.trans ?_ htags⟩
            cases t <;> simp
          · rw [if_neg hp] at htags hle
            rw [if_neg hp]
            by_cases hbegins : begins (chomp r.1) "Template: " = true
            · have hline : (templateLine env (openAt t (chomp r.1)) (chomp r.1) r.2).1 =
                  some (templateNew ((chomp r.1).drop 10)) := by
                unfold templateLine
                rw [if_pos hbegins]
              rw [hline] at htags hle
              rw [if_pos hbegins, if_pos hbegins]
              cases t with
              | none =>
                  refine ⟨by simpa [Nat.add_comm, Nat.add_left_comm] using hle,
                    Iff.trans ?_ (htags.trans (and_iff_right rfl).symm)⟩
                  simp [templateNew]
              | some t =>
                  refine ⟨?_, iff_of_false (fun h => ?_) fun h => (by cases h.1)⟩
                  · simp only [Option.toList_some, List.length_cons] at hle ⊢
                    omega
                  · have hlen := congrArg List.length h
                    simp only [Option.toList_some, List.length_cons,
                      List.length_map, List.length_reverse, List.length_append] at hle hlen
                    omega
            · have hopen : openAt t (chomp r.1) = t := if_neg hp
              have hline : (templateLine env t (chomp r.1) r.2).1.toList.map Template.tag =
                  t.toList.map Template.tag := by
                unfold templateLine
                rw [if_neg hbegins]
                cases t with
                | none => rfl
                | some t => exact congrArg (fun x => [x]) (fieldLine_tag env t _ _)
              have hlen := congrArg List.length hline
              rw [List.length_map, List.length_map] at hlen
              rw [hopen, hlen] at hle
              rw [hopen, hline, templateLine_isSome, (Bool.not_eq_true _).mp hbegins,
                Bool.false_or] at htags
              rw [if_neg hbegins, if_neg hbegins]
              exact ⟨hle, htags⟩

theorem nul_not_mem_logicalLines (h : logicalLinesFrom env n t file = some ls) :
    ∀ l ∈ ls, '\x00' ∉ l := by
  have hextdesc : ∀ (n : Nat) (rest : Text), ∀ l ∈ extdescLines n rest, '\x00' ∉ l := by
    intro n
    induction n with
    | zero => exact fun rest l hl => nomatch hl
    | succ n ih =>
        intro rest l hl
        by_cases hblank : rest.head? = some ' '
        · rw [(extdesc_blank hblank n []).1] at hl
          rcases List.mem_cons.mp hl with rfl | hl
          · exact nul_not_mem_cString _
          · exact ih _ l hl
        · rw [(extdesc_other hblank (n + 1) []).1] at hl
          cases hl
  induction n generalizing t file ls with
  | zero => cases h
  | succ n ih =>
      cases file with
      | nil =>
          obtain rfl := Option.some.inj h
          simp
      | cons c file =>
          rw [logicalLinesFrom] at h
          obtain ⟨r, hr, h⟩ := Option.bind_eq_some_iff.mp h
          obtain ⟨ls', hls', rfl⟩ := Option.map_eq_some_iff.mp h
          intro l hl
          rcases List.mem_append.mp hl with hl | hl
          · rcases List.mem_cons.mp hl with rfl | hl
            · exact nul_not_mem_joinPieces (nul_not_mem_cString _) hr
            · unfold linesTaken at hl
              split at hl
              · exact hextdesc _ _ l hl
              · cases hl
          · exact ih hls' l hl

theorem logicalLines_iff (env : Env) (file : Text) :
    logicalLines env file = some (physicalLines file) ↔
      '\x00' ∉ file ∧ LinesFit env false false (physicalLines file) := by
  have hclean : logicalLines env file = some (physicalLines file) → '\x00' ∉ file := by
    intro h hmem
    rw [← flatten_wholeLines '\n' file] at hmem
    obtain ⟨l, hl, hnul⟩ := List.mem_flatten.mp hmem
    exact nul_not_mem_logicalLines h l hl hnul
  constructor
  · exact fun h => ⟨hclean h, (logicalLinesFrom_iff env none (hclean h) (Nat.lt_succ_self _)).mp h⟩
  · exact fun h => (logicalLinesFrom_iff env none h.1 (Nat.lt_succ_self _)).mpr h.2

/-- `template_load` returns with each line of the file taken as it is, and with all templates,
exactly if the file is text, no line ends where the buffer does, the lines of extended
descriptions fit into it, and an empty line stands between templates. -/
theorem templateLoad_linesKept_iff (env : Env) (file : Text) :
    LinesKept env file ↔ '\x00' ∉ file ∧ LinesFit env false false (physicalLines file) ∧
      Separated false (physicalLines file) := by
  unfold LinesKept
  rw [← and_assoc, ← logicalLines_iff env]
  refine and_congr_right fun h => ?_
  obtain ⟨ts, hts, -, htags⟩ := templateLoadFrom_tags env [] h
  have hload : templateLoad env file = some ts := hts
  rw [hload]
  have htags : ts.reverse.map Template.tag = (physicalLines file).filterMap templateTag ↔
      Separated false (physicalLines file) := htags
  rw [← htags]
  constructor
  · rintro ⟨ts', hts', h⟩
    rwa [← Option.some.inj hts'] at h
  · exact fun h => ⟨ts, rfl, h⟩

/-- A line of as many bytes as the buffer takes. -/
def fullLine : Text := "Default: " ++ List.replicate 4085 'x' ++ ['\n']

/-- Behind such a line the description is part of the default. -/
theorem templateLoad_joined :
    ¬ LinesKept {} ("Template: t\n" ++ (fullLine ++ "Description: d\n")) := by
  intro h
  obtain ⟨-, hfits⟩ := (logicalLines_iff _ _).mp h.1
  have hfirst : Lib.IsLine '\n' "Template: t\n" (fullLine ++ "Description: d\n") :=
    .ended (b := "Template: t".toList) (by decide) _
  have hsecond : Lib.IsLine '\n' fullLine "Description: d\n" := by
    refine .ended (fun hmem => ?_) _
    rcases List.mem_append.mp hmem with hmem | hmem
    · exact absurd hmem (by decide)
    · exact absurd (List.eq_of_mem_replicate hmem) (by decide)
  have hlines : physicalLines ("Template: t\n" ++ (fullLine ++ "Description: d\n")) =
      "Template: t\n".toList :: fullLine :: physicalLines "Description: d\n".toList := by
    unfold physicalLines
    rw [hfirst.wholeLines, hsecond.wholeLines]
  have hfull : fullLine.length = bufRoom := by
    unfold fullLine
    rw [List.length_append, List.length_append, List.length_replicate]
    rfl
  rw [hlines] at hfits
  have hopen := ((fits_cons {} none _ _).mp hfits).2
  have hrest := (fits_cons {} (some (templateNew [])) fullLine _).mp hopen
  rw [hfull, Nat.mod_self] at hrest
  exact hrest.1 rfl

end DebianInstaller.Debconf
