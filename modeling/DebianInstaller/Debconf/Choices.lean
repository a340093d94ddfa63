import DebianInstaller.Debconf.Strutl
import DebianInstaller.Lib.Lines

/-!
# Lists of choices

`strgetargc` counts the choices of a list and `strchoicesplit` takes them apart. Both look
for commas, and a backslash in front of one hides it from either. So a text is read here
once, as characters of which some are escaped, and what either of them does is said about
these.

They disagree at the end of the text. A comma that ends it is counted, but there is nothing
left to split behind it. The splitting in turn does not look at the backslashes again once a
choice has been copied: at its front it passes over anything that `isspace` accepts, at its
end it cuts off blanks, escaped ones, too, and no other white space.
-/

namespace DebianInstaller.Debconf

open Text Lib

variable {t : Text}

/-! ## Escapes -/

/-- A character, and whether it is escaped. -/
abbrev MarkedChar := Char × Bool

variable {m : MarkedChar} {ms : List MarkedChar}

/-- The characters of a list of choices, without the backslashes that escape. -/
def marked : Text → List MarkedChar
  | [] => []
  | '\\' :: ',' :: t => (',', true) :: marked t
  | '\\' :: ' ' :: t => (' ', true) :: marked t
  | c :: t => (c, false) :: marked t

/-- A comma between two choices. -/
def MarkedChar.isComma (m : MarkedChar) : Bool := m.1 == ',' && !m.2

/-- Any other character. -/
def MarkedChar.inChoice (m : MarkedChar) : Bool := !m.isComma

/-- White space that is not escaped. -/
def MarkedChar.isBlank (m : MarkedChar) : Bool := isSpace m.1 && !m.2

/-- The text of some characters. -/
def plain (ms : List MarkedChar) : Text := ms.map Prod.fst

/-- A choice without the white space around it. -/
def element (ms : List MarkedChar) : Text :=
  plain ((ms.dropWhile MarkedChar.isBlank).rdropWhile MarkedChar.isBlank)

/-- The choices of a list. -/
def elements (t : Text) : List Text :=
  if t = [] then [] else ((marked t).splitOnP MarkedChar.isComma).map element

/-- The copy of a choice that `strchoicesplit` makes. -/
def copied (ms : List MarkedChar) : Text := stripChoice (plain (ms.dropWhile MarkedChar.isBlank))

/-! ## One choice -/

theorem marked_eq_nil_iff : marked t = [] ↔ t = [] := by
  fun_cases marked t <;> simp

theorem choiceEnd_marked (t : Text) :
    (choiceEnd t).1 = plain ((marked t).takeWhile MarkedChar.inChoice) ∧
      marked (choiceEnd t).2 = (marked t).dropWhile MarkedChar.inChoice := by
  fun_induction choiceEnd t with
  | case1 => exact ⟨rfl, rfl⟩
  | case2 t w r h ih =>
      rw [h] at ih
      rw [marked]
      exact ⟨congrArg _ ih.1, ih.2⟩
  | case3 t w r h ih =>
      rw [h] at ih
      rw [marked]
      exact ⟨congrArg _ ih.1, ih.2⟩
  | case4 t h₁ h₂ =>
      have hm : marked (',' :: t) = (',', false) :: marked t := marked.eq_4 _ _ h₁ h₂
      rw [hm]
      exact ⟨rfl, hm⟩
  | case5 c t h₁ h₂ hc w r h ih =>
      have hm : marked (c :: t) = (c, false) :: marked t := marked.eq_4 _ _ h₁ h₂
      have hin : MarkedChar.inChoice (c, false) = true := by
        simp [MarkedChar.inChoice, MarkedChar.isComma, hc]
      rw [h] at ih
      rw [hm, List.takeWhile_cons, List.dropWhile_cons, hin]
      exact ⟨congrArg _ ih.1, ih.2⟩

theorem marked_cons_of_ne {c : Char} (hc : c ≠ '\\') (t : Text) :
    marked (c :: t) = (c, false) :: marked t :=
  marked.eq_4 c t (fun _ h _ => hc h) fun _ h _ => hc h

theorem marked_dropWhile (t : Text) :
    marked (t.dropWhile isSpace) = (marked t).dropWhile MarkedChar.isBlank := by
  induction t with
  | nil => rfl
  | cons c t ih =>
      by_cases hc : isSpace c = true
      · have hne : c ≠ '\\' := by
          rintro rfl
          cases hc
        rw [List.dropWhile_cons_of_pos hc, ih, marked_cons_of_ne hne,
          List.dropWhile_cons_of_pos (by simpa [MarkedChar.isBlank] using hc)]
      · have hhead : ∃ m ms, marked (c :: t) = m :: ms ∧ m.isBlank = false := by
          by_cases hb : c = '\\'
          · subst hb
            match t with
            | [] => exact ⟨_, _, rfl, rfl⟩
            | d :: t =>
                by_cases h₁ : d = ','
                · subst h₁
                  exact ⟨_, _, rfl, rfl⟩
                · by_cases h₂ : d = ' '
                  · subst h₂
                    exact ⟨_, _, rfl, rfl⟩
                  · refine ⟨_, _, marked.eq_4 _ _ (fun _ _ h => ?_) (fun _ _ h => ?_), rfl⟩
                    · exact h₁ (List.cons.inj h).1
                    · exact h₂ (List.cons.inj h).1
          · exact ⟨_, _, marked_cons_of_ne hb t, by simpa [MarkedChar.isBlank] using hc⟩
        obtain ⟨m, ms, hm, hblank⟩ := hhead
        rw [List.dropWhile_cons_of_neg hc, hm, List.dropWhile_cons_of_neg (by simp [hblank])]

theorem marked_comma (h : marked t = m :: ms) (hm : m.isComma = true) :
    ∃ t', t = ',' :: t' ∧ marked t' = ms := by
  revert h
  fun_cases marked t with
  | case1 => exact fun h => by cases h
  | case2 t =>
      intro h
      cases h
      cases hm
  | case3 t =>
      intro h
      cases h
      cases hm
  | case4 c t h₁ h₂ =>
      intro h
      cases h
      have hc : c = ',' := by simpa [MarkedChar.isComma] using hm
      subst hc
      exact ⟨t, rfl, rfl⟩

theorem MarkedChar.inChoice_iff : m.inChoice = true ↔ m.isComma = false := by
  unfold MarkedChar.inChoice
  cases m.isComma <;> decide

theorem inChoice_of_isBlank (h : m.isBlank = true) : m.inChoice = true := by
  by_cases hm : m.1 = ','
  · rw [MarkedChar.isBlank, hm] at h
    cases h
  · simp [MarkedChar.inChoice, MarkedChar.isComma, hm]

theorem dropWhile_isBlank_takeWhile (ms : List MarkedChar) :
    (ms.dropWhile MarkedChar.isBlank).takeWhile MarkedChar.inChoice =
        (ms.takeWhile MarkedChar.inChoice).dropWhile MarkedChar.isBlank ∧
      (ms.dropWhile MarkedChar.isBlank).dropWhile MarkedChar.inChoice =
        ms.dropWhile MarkedChar.inChoice := by
  induction ms with
  | nil => exact ⟨rfl, rfl⟩
  | cons m ms ih =>
      by_cases hm : m.isBlank = true
      · have hin := inChoice_of_isBlank hm
        rw [List.dropWhile_cons_of_pos hm, List.takeWhile_cons_of_pos hin,
          List.dropWhile_cons_of_pos hm, List.dropWhile_cons_of_pos hin]
        exact ih
      · rw [List.dropWhile_cons_of_neg hm]
        refine ⟨?_, rfl⟩
        by_cases hin : m.inChoice = true
        · rw [List.takeWhile_cons_of_pos hin, List.dropWhile_cons_of_neg hm]
        · rw [List.takeWhile_cons_of_neg hin, List.dropWhile_nil]

theorem choiceEnd_copied (t : Text) :
    stripChoice (choiceEnd (t.dropWhile isSpace)).1 =
        copied ((marked t).takeWhile MarkedChar.inChoice) ∧
      marked (choiceEnd (t.dropWhile isSpace)).2 = (marked t).dropWhile MarkedChar.inChoice := by
  obtain ⟨h₁, h₂⟩ := choiceEnd_marked (t.dropWhile isSpace)
  obtain ⟨h₃, h₄⟩ := dropWhile_isBlank_takeWhile (marked t)
  rw [h₁, h₂, marked_dropWhile, h₃, h₄]
  exact ⟨rfl, rfl⟩

/-! ## All choices -/

/-- A comma ends the list. -/
def endsInComma (ms : List MarkedChar) : Bool := ms.getLast?.any MarkedChar.isComma

/-- What `strchoicesplit` takes for choices: a comma that ends the list has none behind it. -/
def choicePieces (ms : List MarkedChar) : List (List MarkedChar) :=
  if ms = [] then []
  else if endsInComma ms then (ms.splitOnP MarkedChar.isComma).dropLast
  else ms.splitOnP MarkedChar.isComma

theorem pieces_comma {first rest : List MarkedChar} (hfirst : ∀ x ∈ first, x.isComma = false)
    (hm : m.isComma = true) : choicePieces (first ++ m :: rest) = first :: choicePieces rest := by
  have hsplit := List.splitOnP_append_cons_of_forall_mem hfirst m hm rest
  unfold choicePieces
  rw [if_neg (List.append_ne_nil_of_right_ne_nil _ (List.cons_ne_nil m rest)), hsplit]
  cases rest with
  | nil =>
      have hends : endsInComma (first ++ [m]) = true := by
        unfold endsInComma
        rw [List.getLast?_concat]
        exact hm
      rw [if_pos hends, if_pos rfl]
      rfl
  | cons x xs =>
      have hends : endsInComma (first ++ m :: x :: xs) = endsInComma (x :: xs) := by
        unfold endsInComma
        rw [List.getLast?_append, List.getLast?_cons_cons, List.getLast?_cons, Option.some_or]
      rw [if_neg (List.cons_ne_nil x xs), hends]
      split
      · rw [List.dropLast_cons_of_ne_nil (List.splitOnP_ne_nil _ _)]
      · rfl

theorem pieces_single (hms : ms ≠ []) (h : ∀ x ∈ ms, x.isComma = false) :
    choicePieces ms = [ms] := by
  have hends : endsInComma ms = false := by
    obtain ⟨ms, m, rfl⟩ := (List.eq_nil_or_concat' _).resolve_left hms
    unfold endsInComma
    rw [List.getLast?_concat]
    exact h m (List.mem_append_right _ List.mem_cons_self)
  unfold choicePieces
  rw [if_neg hms, hends, if_neg Bool.false_ne_true, List.splitOnP_eq_singleton h]

theorem comma_cases (ms : List MarkedChar) :
    (∀ x ∈ ms, x.isComma = false) ∨ ∃ first m rest, ms = first ++ m :: rest ∧
      (∀ x ∈ first, x.isComma = false) ∧ m.isComma = true := by
  have hsplit := List.takeWhile_append_dropWhile (p := MarkedChar.inChoice) (l := ms)
  have hfirst : ∀ x ∈ ms.takeWhile MarkedChar.inChoice, x.isComma = false :=
    fun x hx => MarkedChar.inChoice_iff.mp (List.mem_takeWhile_imp hx)
  cases hrest : ms.dropWhile MarkedChar.inChoice with
  | nil =>
      rw [hrest, List.append_nil] at hsplit
      exact .inl (hsplit ▸ hfirst)
  | cons m rest =>
      have hm : m.isComma = true := by
        have := List.head?_dropWhile_not MarkedChar.inChoice ms
        rw [hrest] at this
        simpa [MarkedChar.inChoice] using this
      rw [hrest] at hsplit
      exact .inr ⟨_, m, rest, hsplit.symm, hfirst, hm⟩

theorem strchoicesplit_eq (n : Nat) (t : Text) :
    strchoicesplit n t = ((choicePieces (marked t)).map copied).take n := by
  induction n generalizing t with
  | zero => rfl
  | succ n ih =>
      by_cases ht : t = []
      · subst ht
        rfl
      · obtain ⟨h₁, h₂⟩ := choiceEnd_copied t
        have hms : marked t ≠ [] := marked_eq_nil_iff.not.mpr ht
        obtain ⟨c, t₀, rfl⟩ := List.exists_cons_of_ne_nil ht
        show stripChoice (choiceEnd _).1 :: strchoicesplit n (if _ then _ else _) = _
        rcases comma_cases (marked (c :: t₀)) with hall | ⟨first, m, rest, hmarked, hfirst, hm⟩
        · have hin : ∀ x ∈ marked (c :: t₀), x.inChoice = true :=
            fun x hx => MarkedChar.inChoice_iff.mpr (hall x hx)
          rw [List.dropWhile_eq_nil_iff.mpr hin] at h₂
          rw [List.takeWhile_eq_self_iff.mpr hin] at h₁
          rw [h₁, marked_eq_nil_iff.mp h₂, pieces_single hms hall]
          cases n <;> rfl
        · have hin : ∀ x ∈ first, x.inChoice = true :=
            fun x hx => MarkedChar.inChoice_iff.mpr (hfirst x hx)
          have hstop : ¬ m.inChoice = true := by
            rw [MarkedChar.inChoice_iff, hm]
            decide
          rw [hmarked, List.dropWhile_append_of_pos hin, List.dropWhile_cons_of_neg hstop] at h₂
          rw [hmarked, List.takeWhile_append_of_pos hin, List.takeWhile_cons_of_neg hstop,
            List.append_nil] at h₁
          obtain ⟨t', ht', hrest⟩ := marked_comma h₂ hm
          rw [h₁, ht', List.head?_cons, if_pos rfl, List.tail_cons, hmarked,
            pieces_comma hfirst hm, ih, hrest]
          rfl

theorem strchoicesplit_length (t : Text) {n : Nat} (h : (choicePieces (marked t)).length ≤ n) :
    strchoicesplit n t = (choicePieces (marked t)).map copied := by
  rw [strchoicesplit_eq, List.take_of_length_le (by rwa [List.length_map])]

/-! ## The count -/

theorem countCommas_marked (t : Text) : countCommas t = (marked t).countP MarkedChar.isComma := by
  fun_induction marked t with
  | case1 => rfl
  | case2 t ih =>
      rw [countCommas, ih, List.countP_cons_of_neg (by decide)]
  | case3 t ih =>
      show (if '\\' = ',' then 1 else 0) + ((if ' ' = ',' then 1 else 0) + countCommas t) = _
      rw [ih, List.countP_cons_of_neg (by decide), if_neg (by decide), if_neg (by decide),
        Nat.zero_add, Nat.zero_add]
  | case4 c t h₁ h₂ ih =>
      have hc : countCommas (c :: t) = (if c = ',' then 1 else 0) + countCommas t :=
        countCommas.eq_3 c t h₁
      rw [hc, ih, List.countP_cons, Nat.add_comm]
      simp [MarkedChar.isComma]

theorem strgetargc_eq (t : Text) :
    strgetargc t = (choicePieces (marked t)).length + if endsInComma (marked t) then 1 else 0 := by
  by_cases ht : t = []
  · subst ht
    rfl
  · have hcount : strgetargc t = ((marked t).splitOnP MarkedChar.isComma).length := by
      unfold strgetargc
      rw [if_neg (by simpa using ht), countCommas_marked, length_splitOnP, Nat.add_comm]
    have hpos := List.length_pos_of_ne_nil (List.splitOnP_ne_nil MarkedChar.isComma (marked t))
    unfold choicePieces
    rw [if_neg (marked_eq_nil_iff.not.mpr ht), hcount]
    split
    · rw [List.length_dropLast]
      omega
    · rfl

theorem length_strchoicesplit_iff (t : Text) :
    (strchoicesplit (strgetargc t) t).length = strgetargc t ↔ endsInComma (marked t) = false := by
  have hcount := strgetargc_eq t
  rw [strchoicesplit_length t (by omega), List.length_map, hcount]
  cases endsInComma (marked t) <;> simp

/-! ## White space at the end -/

/-- Behind the last character of a choice that is escaped or no white space stand blanks
only, and it is no escaped blank itself, unless it is the first character, too. -/
structure EndsClean (ms : List MarkedChar) : Prop where
  blanks : ∀ m ∈ (ms.dropWhile MarkedChar.isBlank).rtakeWhile MarkedChar.isBlank, m.1 = ' '
  last : ((ms.dropWhile MarkedChar.isBlank).rdropWhile MarkedChar.isBlank).getLast? =
    some (' ', true) → ((ms.dropWhile MarkedChar.isBlank).rdropWhile MarkedChar.isBlank).length = 1

theorem copied_eq_element_iff (ms : List MarkedChar) : copied ms = element ms ↔ EndsClean ms := by
  have hclean : EndsClean ms ↔ _ ∧ _ := ⟨fun h => ⟨h.blanks, h.last⟩, fun h => ⟨h.1, h.2⟩⟩
  rw [hclean]
  unfold copied element
  have hhead := List.head?_dropWhile_not MarkedChar.isBlank ms
  generalize ms.dropWhile MarkedChar.isBlank = w at hhead ⊢
  have happend : w.rdropWhile MarkedChar.isBlank ++ w.rtakeWhile MarkedChar.isBlank = w :=
    List.rdropWhile_append_rtakeWhile
  have hlast := List.rdropWhile_last_not MarkedChar.isBlank w
  have hall : ∀ m ∈ w.rtakeWhile MarkedChar.isBlank, m.isBlank = true :=
    fun m hm => List.mem_rtakeWhile_imp hm
  generalize w.rdropWhile MarkedChar.isBlank = kept at happend hlast ⊢
  generalize w.rtakeWhile MarkedChar.isBlank = blanks at happend hall ⊢
  subst happend
  cases kept with
  | nil =>
      -- the first character would be white space
      cases blanks with
      | nil => exact iff_of_true rfl ⟨fun m hm => absurd hm List.not_mem_nil, fun h => by cases h⟩
      | cons m blanks =>
          have hm := hall m List.mem_cons_self
          rw [List.nil_append, List.head?_cons] at hhead
          exact absurd (hm.symm.trans (by simpa using hhead)) (by decide)
  | cons k kept =>
      have hcopy : stripChoice (plain (k :: kept ++ blanks)) =
          k.1 :: (plain kept ++ plain blanks).rdropWhile (· == ' ') := by
        show k.1 :: (plain (kept ++ blanks)).rdropWhile _ = _
        rw [plain, List.map_append]
        rfl
      have hplain : plain (k :: kept) = k.1 :: plain kept := rfl
      rw [hcopy, hplain, List.cons_inj_right, rdropWhile_append_eq_left_iff]
      refine and_congr ?_ ?_
      · constructor
        · intro h m hm
          simpa using h m.1 (List.mem_map_of_mem hm)
        · intro h c hc
          obtain ⟨m, hm, rfl⟩ := List.mem_map.mp hc
          simpa using h m hm
      · obtain rfl | ⟨kept, m, rfl⟩ := List.eq_nil_or_concat' kept
        · refine iff_of_true (fun c hc => by cases hc) fun _ => rfl
        · have hm : ¬ m.isBlank = true := by
            have := hlast (List.cons_ne_nil _ _)
            rwa [List.getLast_cons (List.append_ne_nil_of_right_ne_nil _ (List.cons_ne_nil _ _)),
              List.getLast_concat] at this
          have hplast : (plain (kept ++ [m])).getLast? = some m.1 := by
            rw [plain, List.map_append, List.map_singleton, List.getLast?_concat]
          have hklast : (k :: (kept ++ [m])).getLast? = some m := by
            rw [← List.cons_append, List.getLast?_concat]
          rw [hplast, hklast]
          have hlen : (k :: (kept ++ [m])).length ≠ 1 := by simp
          constructor
          · intro h hmark
            rw [Option.some.inj hmark] at h
            exact absurd (h ' ' rfl) (by decide)
          · rintro h c ⟨⟩
            rw [beq_eq_false_iff_ne]
            intro hc
            obtain ⟨c, esc⟩ := m
            subst hc
            cases esc with
            | false => exact hm rfl
            | true => exact hlen (h rfl)

/-- Counting and splitting give the choices of a list exactly if no comma ends it and each
choice ends clean. -/
theorem choices_split_iff (t : Text) :
    ((strchoicesplit (strgetargc t) t).length = strgetargc t ∧
        strchoicesplit (strgetargc t) t = elements t) ↔
      endsInComma (marked t) = false ∧
        ∀ ms ∈ (marked t).splitOnP MarkedChar.isComma, EndsClean ms := by
  rw [length_strchoicesplit_iff]
  refine and_congr_right fun hends => ?_
  have hcount := strgetargc_eq t
  rw [strchoicesplit_length t (by omega)]
  by_cases ht : t = []
  · subst ht
    refine iff_of_true rfl fun ms hms => ?_
    obtain rfl : ms = [] := List.mem_singleton.mp hms
    exact (copied_eq_element_iff []).mp rfl
  · have hpieces : choicePieces (marked t) = (marked t).splitOnP MarkedChar.isComma := by
      unfold choicePieces
      rw [if_neg (marked_eq_nil_iff.not.mpr ht), hends, if_neg Bool.false_ne_true]
    rw [hpieces, elements, if_neg ht, List.map_inj_left]
    exact forall₂_congr fun ms _ => copied_eq_element_iff ms

/-- A comma, a tabulator and an escaped blank at the end. -/
theorem choices_split_ends :
    ¬ (strchoicesplit (strgetargc "a,") "a,").length = strgetargc "a," ∧
      strchoicesplit (strgetargc "a\t") "a\t" ≠ elements "a\t" ∧
      strchoicesplit (strgetargc "a\\ ") "a\\ " ≠ elements "a\\ " := by
  decide

end DebianInstaller.Debconf
