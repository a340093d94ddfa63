import DebianInstaller.Packages.Stanzas

/-!
# The reader of a dependency field

`di_package_parser_read_dependency` goes through its value with `strcspn` and `isspace`, which
know nothing of its end: it stops at the newline behind the value, and from there it goes on to
what is no white space. For the function a newline ends an element as a comma does, and only
behind one of them it leaves white space out. So a fold within an element makes two of it, and
two commas with nothing between them have an element without a name.

Each round takes one piece of the value, up to a comma or a newline. There are never fewer
pieces than elements, and as many exactly if every newline stands behind a comma or at the end;
both are shown by induction on the pieces.
-/

namespace DebianInstaller.Packages

variable {a b t : Text} {p rounds : ℕ} {s : Char}

/-! ## The code -/

/-- `strcspn`: the place of the first byte of `reject`, or of a NUL. -/
def strcspn (reject : Text) : Text → Option ℕ
  | [] => none
  | c :: mem => if c ∈ reject ∨ c = '\x00' then some 0 else (strcspn reject mem).map (· + 1)

/-- `while (isspace (*++fieldend))`, from what is behind `fieldend`. -/
def skipSpace : Text → Option ℕ
  | [] => none
  | c :: mem => if Text.isSpace c then (skipSpace mem).map (· + 1) else some 0

/-- The names that `di_package_parser_read_dependency` takes from a value, with the memory behind
it. A read behind the end of the memory is a fault. -/
def dependencyLoop : ℕ → Text → ℕ → Option (List Text)
  | 0, _, _ => none
  | rounds + 1, cur, left =>
      if left = 0 then some []
      else
        match strcspn " \t\n(,|" cur, strcspn "\n," cur with
        | some namelen, some fieldend =>
            match skipSpace (cur.drop (fieldend + 1)) with
            | some blanks =>
                let fieldend := fieldend + 1 + blanks
                (dependencyLoop rounds (cur.drop fieldend) (left - fieldend)).map
                  (cur.take namelen :: ·)
            | none => none
        | _, _ => none

namespace Reader

/-- `di_package_parser_read_dependency` in memory. -/
def readDependencyAt (r : Reader) (type : DependencyType) (p : ℕ) (mem : Text) (size : ℕ) :
    Option Reader :=
  (dependencyLoop (size + 1) mem size).map fun names =>
    (names.map cstring).foldl (readDependencyName type p) r

end Reader

/-! ## Elements -/

/-- The parts between the commas, without the white space in front of them. -/
def stripped (value : Text) : List Text := (value.splitOn ',').map (List.dropWhile Text.isSpace)

/-- The elements that are not empty. -/
def elements (value : Text) : List Text := (stripped value).filter (· ≠ [])

def firstWord (t : Text) : Text := t.takeWhile fun c => decide (c ∉ " \t\n(,|".toList)

/-- The value of a dependency field: its white space is blanks and newlines, and an element
begins with a name. -/
structure DependencyValue extends RString where
  space : ∀ c ∈ string, Text.isSpace c = true → c ∈ " \t\n".toList
  named : ∀ e ∈ elements string, firstWord e ≠ []

/-- A value begins with a name, all of its elements but the last are not empty, and a newline is
only in front of an element or behind the last. -/
structure Unfolded (value : Text) : Prop where
  begins : ∀ c ∈ value.head?, Text.isSpace c = false
  full : ∀ e ∈ (stripped value).dropLast, e ≠ [] ∧ '\n' ∉ e
  last : '\n' ∉ ((stripped value).getLastD []).rdropWhile Text.isSpace

/-! ## Elements of a text in parts -/

theorem splitOn_append (b : Text) :
    ∃ e es, b.splitOn ',' = e :: es ∧
      ∀ a : Text, ',' ∉ a → (a ++ b).splitOn ',' = (a ++ e) :: es := by
  obtain ⟨e, es, hb⟩ := List.exists_cons_of_ne_nil (List.splitOn_ne_nil ',' b)
  refine ⟨e, es, hb, fun a ha => ?_⟩
  induction a with
  | nil => exact hb
  | cons c a ih =>
      rw [List.mem_cons, not_or] at ha
      rw [List.cons_append, List.splitOn_cons_eq_if_modifyHead, ih ha.2,
        if_neg (by simpa using Ne.symm ha.1)]
      rfl

theorem mem_of_mem_splitOn {e : Text} (he : e ∈ t.splitOn ',') : e ⊆ t := by
  induction t generalizing e with
  | nil =>
      obtain rfl := List.mem_singleton.1 he
      exact List.Subset.refl []
  | cons c t ih =>
      rw [List.splitOn_cons_eq_if_modifyHead] at he
      split at he
      · rcases List.mem_cons.1 he with rfl | he
        · exact List.nil_subset _
        · exact List.subset_cons_of_subset c (ih he)
      · obtain ⟨x, xs, hx⟩ := List.exists_cons_of_ne_nil (List.splitOn_ne_nil ',' t)
        rw [hx, List.modifyHead_cons] at he
        rcases List.mem_cons.1 he with rfl | he
        · exact List.cons_subset_cons c (ih (hx ▸ List.mem_cons_self))
        · exact List.subset_cons_of_subset c (ih (hx ▸ List.mem_cons_of_mem _ he))

theorem mem_of_mem_elements {e : Text} (he : e ∈ elements t) : e ⊆ t := by
  obtain ⟨x, hx, rfl⟩ := List.mem_map.1 (List.mem_of_mem_filter he)
  exact List.Subset.trans (List.dropWhile_suffix Text.isSpace).subset (mem_of_mem_splitOn hx)

theorem dropWhile_eq_self (h : ∀ c ∈ t.head?, Text.isSpace c = false) :
    t.dropWhile Text.isSpace = t := by
  cases t with
  | nil => rfl
  | cons c t => exact List.dropWhile_cons_of_neg (by simp [h c rfl])

theorem head_dropWhile (t : Text) :
    ∀ c ∈ (t.dropWhile Text.isSpace).head?, Text.isSpace c = false := by
  intro c hc
  have := List.head?_dropWhile_not Text.isSpace t
  rw [Option.mem_def.1 hc] at this
  exact this

theorem stripped_piece (ha : ',' ∉ a) : stripped a = [a.dropWhile Text.isSpace] := by
  rw [stripped, List.splitOn_eq_singleton ha]
  rfl

theorem stripped_comma (ha : ',' ∉ a) (b : Text) :
    stripped (a ++ ',' :: b) = a.dropWhile Text.isSpace :: stripped b := by
  rw [stripped, List.splitOn_append_cons_self_of_not_mem ha]
  rfl

theorem stripped_dropWhile (t : Text) : stripped (t.dropWhile Text.isSpace) = stripped t := by
  obtain ⟨e, es, hsplit, happ⟩ := splitOn_append (t.dropWhile Text.isSpace)
  have hspace : ∀ c ∈ t.takeWhile Text.isSpace, Text.isSpace c = true :=
    fun c hc => List.mem_takeWhile_imp hc
  have hcomma : ',' ∉ t.takeWhile Text.isSpace := fun h => absurd (hspace ',' h) (by decide)
  have ht := happ _ hcomma
  rw [List.takeWhile_append_dropWhile] at ht
  rw [stripped, stripped, ht, hsplit, List.map_cons, List.map_cons,
    List.dropWhile_append_of_pos hspace]

theorem eq_nil_of_stripped (hbegins : ∀ c ∈ t.head?, Text.isSpace c = false)
    (h : stripped t = [[]]) : t = [] := by
  rw [stripped, List.map_eq_singleton_iff] at h
  obtain ⟨e, hsplit, he⟩ := h
  have ht : [','].intercalate (t.splitOn ',') = t := List.intercalate_splitOn ','
  rw [hsplit, List.intercalate_singleton] at ht
  rw [← dropWhile_eq_self hbegins, ← ht, he]

theorem stripped_newline (ha : ',' ∉ a) (hne : a ≠ [])
    (hbegins : ∀ c ∈ a.head?, Text.isSpace c = false) (b : Text) :
    ∃ e es, stripped (b.dropWhile Text.isSpace) = e.dropWhile Text.isSpace :: es ∧
      stripped (a ++ '\n' :: b) = (a ++ '\n' :: e) :: es := by
  obtain ⟨e, es, hsplit, happ⟩ := splitOn_append b
  have hcomma : ',' ∉ a ++ ['\n'] := by simpa using ha
  have hb := happ _ hcomma
  rw [List.append_assoc, List.append_assoc, List.singleton_append, List.singleton_append] at hb
  refine ⟨e, es.map (List.dropWhile Text.isSpace), ?_, ?_⟩
  · rw [stripped_dropWhile, stripped, hsplit]
    rfl
  · rw [stripped, hb, List.map_cons, dropWhile_eq_self]
    obtain ⟨c, a, rfl⟩ := List.exists_cons_of_ne_nil hne
    exact hbegins

/-! ## Pieces -/

def IsPiece (a : Text) : Prop := '\n' ∉ a ∧ ',' ∉ a

theorem piece_cases (t : Text) :
    IsPiece t ∨ ∃ a s b, t = a ++ s :: b ∧ IsPiece a ∧ (s = ',' ∨ s = '\n') := by
  induction t with
  | nil => exact .inl ⟨List.not_mem_nil, List.not_mem_nil⟩
  | cons c t ih =>
      by_cases hc : c = ',' ∨ c = '\n'
      · exact .inr ⟨[], c, t, rfl, ⟨List.not_mem_nil, List.not_mem_nil⟩, hc⟩
      · rw [not_or] at hc
        have hcons {a : Text} (ha : IsPiece a) : IsPiece (c :: a) := by
          refine ⟨?_, ?_⟩
          · simpa [Ne.symm hc.2] using ha.1
          · simpa [Ne.symm hc.1] using ha.2
        rcases ih with ht | ⟨a, s, b, rfl, ha, hs⟩
        · exact .inl (hcons ht)
        · exact .inr ⟨c :: a, s, b, rfl, hcons ha, hs⟩

theorem takeWhile_append_stop {p : Char → Bool} (hs : p s = false) (a b : Text) :
    (a ++ s :: b).takeWhile p = a.takeWhile p := by
  rw [List.takeWhile_append]
  split
  · next h =>
      rw [List.takeWhile_cons_of_neg (by simp [hs]), List.append_nil]
      exact (List.takeWhile_prefix p).eq_of_length h |>.symm
  · rfl

theorem firstWord_append (hs : s = ',' ∨ s = '\n') (a b : Text) :
    firstWord (a ++ s :: b) = firstWord a := by
  refine takeWhile_append_stop ?_ a b
  rcases hs with rfl | rfl <;> decide

section Names

open Reader

theorem dropWhile_piece (ha : IsPiece a) (hnul : '\x00' ∉ a) (t : Text) :
    (a ++ t).dropWhile (fun c => decide (c ∉ "\n,\x00".toList)) =
      t.dropWhile fun c => decide (c ∉ "\n,\x00".toList) := by
  refine List.dropWhile_append_of_pos fun c hc => ?_
  have h1 : c ≠ '\n' := fun e => ha.1 (e ▸ hc)
  have h2 : c ≠ ',' := fun e => ha.2 (e ▸ hc)
  have h3 : c ≠ '\x00' := fun e => hnul (e ▸ hc)
  simp [h1, h2, h3]

theorem dependencyNames_piece (ha : IsPiece a) (hnul : '\x00' ∉ a) (hne : a ≠ []) (rounds : ℕ) :
    dependencyNames (rounds + 1) a = [cstring (firstWord a)] := by
  have hdrop := dropWhile_piece ha hnul []
  rw [List.append_nil] at hdrop
  rw [dependencyNames, if_neg hne, hdrop]
  cases rounds <;> rfl

theorem dependencyNames_append (ha : IsPiece a) (hnul : '\x00' ∉ a) (hs : s = ',' ∨ s = '\n')
    (rounds : ℕ) :
    dependencyNames (rounds + 1) (a ++ s :: b) =
      cstring (firstWord a) :: dependencyNames rounds (b.dropWhile Text.isSpace) := by
  have hstop : decide (s ∉ "\n,\x00".toList) = false := by rcases hs with rfl | rfl <;> decide
  rw [dependencyNames, if_neg (by simp), dropWhile_piece ha hnul,
    List.dropWhile_cons_of_neg (by rw [hstop]; exact Bool.false_ne_true), ← firstWord,
    firstWord_append hs]
  rfl

end Names

/-! ## Pieces and elements -/

theorem elements_dropWhile (t : Text) : elements (t.dropWhile Text.isSpace) = elements t := by
  rw [elements, elements, stripped_dropWhile]

theorem elements_piece (ha : ',' ∉ a) (hne : a ≠ [])
    (hbegins : ∀ c ∈ a.head?, Text.isSpace c = false) : elements a = [a] := by
  rw [elements, stripped_piece ha, dropWhile_eq_self hbegins]
  simp [hne]

theorem elements_comma (ha : ',' ∉ a) (hne : a ≠ [])
    (hbegins : ∀ c ∈ a.head?, Text.isSpace c = false) (b : Text) :
    elements (a ++ ',' :: b) = a :: elements (b.dropWhile Text.isSpace) := by
  rw [elements_dropWhile, elements, elements, stripped_comma ha, dropWhile_eq_self hbegins]
  simp [hne]

theorem elements_empty (b : Text) :
    elements (',' :: b) = elements (b.dropWhile Text.isSpace) := by
  rw [elements_dropWhile, elements, elements]
  have h := stripped_comma (a := []) List.not_mem_nil b
  rw [List.nil_append] at h
  rw [h]
  simp

/-- A newline that something follows makes one more piece than there are elements, or it is in
front of an element that is empty. -/
theorem elements_newline (ha : ',' ∉ a) (hne : a ≠ [])
    (hbegins : ∀ c ∈ a.head?, Text.isSpace c = false) (b : Text) :
    (elements (a ++ '\n' :: b)).length ≤ (elements (b.dropWhile Text.isSpace)).length + 1 ∧
      ∀ c t, b.dropWhile Text.isSpace = c :: t → c ≠ ',' →
        (elements (a ++ '\n' :: b)).length = (elements (b.dropWhile Text.isSpace)).length := by
  obtain ⟨e, es, hb, ht⟩ := stripped_newline ha hne hbegins b
  rw [elements, elements, ht, hb, List.filter_cons_of_pos (by simp), List.length_cons]
  refine ⟨?_, fun c t hct hc => ?_⟩
  · rw [List.filter_cons]
    split <;> simp
  · have hspace := head_dropWhile b
    rw [hct] at hspace hb
    obtain ⟨e', es', -, happ⟩ := splitOn_append t
    have hcons : stripped (c :: t) = (c :: e') :: es'.map (List.dropWhile Text.isSpace) := by
      have h := happ [c] (by simpa using Ne.symm hc)
      rw [List.singleton_append, List.singleton_append] at h
      rw [stripped, h, List.map_cons, dropWhile_eq_self (t := c :: e') hspace]
    rw [hcons] at hb
    rw [← (List.cons.inj hb).1, List.filter_cons_of_pos (by simp), List.length_cons]

theorem Unfolded.of_piece (ha : IsPiece a) (hbegins : ∀ c ∈ a.head?, Text.isSpace c = false) :
    Unfolded a := by
  have hstripped := stripped_piece ha.2
  rw [dropWhile_eq_self hbegins] at hstripped
  refine ⟨hbegins, fun e he => ?_, fun h => ?_⟩
  · rw [hstripped] at he
    cases he
  · rw [hstripped] at h
    exact ha.1 ((List.rdropWhile_prefix (p := Text.isSpace) _).subset h)

theorem unfolded_comma (ha : IsPiece a) (hbegins : ∀ c ∈ a.head?, Text.isSpace c = false)
    (b : Text) : Unfolded (a ++ ',' :: b) ↔ a ≠ [] ∧ Unfolded (b.dropWhile Text.isSpace) := by
  have hstripped := stripped_comma ha.2 b
  rw [dropWhile_eq_self hbegins, ← stripped_dropWhile b] at hstripped
  have hne : stripped (b.dropWhile Text.isSpace) ≠ [] := by
    rw [stripped, Ne, List.map_eq_nil_iff]
    exact List.splitOn_ne_nil ',' _
  have hlast : (stripped (a ++ ',' :: b)).getLastD [] =
      (stripped (b.dropWhile Text.isSpace)).getLastD [] := by
    rw [hstripped, List.getLastD_cons, List.getLastD_eq_getLast?, List.getLastD_eq_getLast?,
      List.getLast?_eq_some_getLast hne]
    rfl
  have hinit : (stripped (a ++ ',' :: b)).dropLast =
      a :: (stripped (b.dropWhile Text.isSpace)).dropLast := by
    rw [hstripped, List.dropLast_cons_of_ne_nil hne]
  constructor
  · intro h
    have hfull := h.full
    rw [hinit] at hfull
    refine ⟨(hfull a List.mem_cons_self).1, head_dropWhile b, fun e he => ?_, ?_⟩
    · exact hfull e (List.mem_cons_of_mem _ he)
    · rw [← hlast]
      exact h.last
  · rintro ⟨hane, h⟩
    refine ⟨?_, fun e he => ?_, ?_⟩
    · obtain ⟨c, a, rfl⟩ := List.exists_cons_of_ne_nil hane
      exact hbegins
    · rw [hinit] at he
      rcases List.mem_cons.1 he with rfl | he
      · exact ⟨hane, ha.1⟩
      · exact h.full e he
    · rw [hlast]
      exact h.last

theorem Unfolded.of_newline (ha : IsPiece a) (hne : a ≠ [])
    (hbegins : ∀ c ∈ a.head?, Text.isSpace c = false) (hb : b.dropWhile Text.isSpace = []) :
    Unfolded (a ++ '\n' :: b) := by
  obtain ⟨e, es, hrest, hstripped⟩ := stripped_newline ha.2 hne hbegins b
  rw [hb] at hrest
  obtain ⟨he, hes⟩ := List.cons.inj hrest
  subst hes
  have hspace : ∀ c ∈ '\n' :: e, Text.isSpace c = true := by
    intro c hc
    rcases List.mem_cons.1 hc with rfl | hc
    · rfl
    · exact List.dropWhile_eq_nil_iff.1 he.symm c hc
  refine ⟨?_, fun x hx => ?_, fun h => ?_⟩
  · obtain ⟨c, a, rfl⟩ := List.exists_cons_of_ne_nil hne
    exact hbegins
  · rw [hstripped] at hx
    cases hx
  · rw [hstripped] at h
    have h : '\n' ∈ (a ++ '\n' :: e).rdropWhile Text.isSpace := h
    rw [Text.rdropWhile_append, if_pos (List.rdropWhile_eq_nil_iff.2 hspace)] at h
    exact ha.1 ((List.rdropWhile_prefix (p := Text.isSpace) _).subset h)

theorem Unfolded.newline (ha : IsPiece a) (hne : a ≠ [])
    (hbegins : ∀ c ∈ a.head?, Text.isSpace c = false) (h : Unfolded (a ++ '\n' :: b)) :
    b.dropWhile Text.isSpace = [] := by
  obtain ⟨e, es, hrest, hstripped⟩ := stripped_newline ha.2 hne hbegins b
  have hes : es = [] := by
    by_contra hes
    have hfull := h.full (a ++ '\n' :: e) (by
      rw [hstripped, List.dropLast_cons_of_ne_nil hes]
      exact List.mem_cons_self)
    exact hfull.2 (by simp)
  subst hes
  have hlast := h.last
  rw [hstripped] at hlast
  have hlast : '\n' ∉ (a ++ '\n' :: e).rdropWhile Text.isSpace := hlast
  rw [Text.rdropWhile_append] at hlast
  split at hlast
  · next hnil =>
      have hspace := List.rdropWhile_eq_nil_iff.1 hnil
      have he : e.dropWhile Text.isSpace = [] :=
        List.dropWhile_eq_nil_iff.2 fun c hc => hspace c (List.mem_cons_of_mem _ hc)
      rw [he] at hrest
      exact eq_nil_of_stripped (head_dropWhile b) hrest
  · next hnil =>
      refine absurd (List.mem_append_right _ ?_) hlast
      obtain ⟨c, t, hct⟩ := List.exists_cons_of_ne_nil hnil
      obtain ⟨rest, hrest⟩ := List.rdropWhile_prefix (p := Text.isSpace) ('\n' :: e)
      rw [hct] at hrest ⊢
      rw [← (List.cons.inj hrest).1]
      exact List.mem_cons_self

section Count

open Reader

variable {t : Text}

/-- What a text is when the loop is at it. -/
structure At (t : Text) : Prop where
  noNul : '\x00' ∉ t
  begins : ∀ c ∈ t.head?, Text.isSpace c = false

theorem At.cases (h : At t) : t = [] ∨ (IsPiece t ∧ t ≠ []) ∨
    ∃ a s b, t = a ++ s :: b ∧ IsPiece a ∧ '\x00' ∉ a ∧ At a ∧
      At (b.dropWhile Text.isSpace) ∧ (b.dropWhile Text.isSpace).length < t.length ∧
      (s = ',' ∨ s = '\n' ∧ a ≠ []) := by
  by_cases ht : t = []
  · exact .inl ht
  rcases piece_cases t with hpiece | ⟨a, s, b, rfl, ha, hs⟩
  · exact .inr (.inl ⟨hpiece, ht⟩)
  have hnul := h.noNul
  rw [List.mem_append, List.mem_cons, not_or, not_or] at hnul
  have hsuffix := List.dropWhile_suffix Text.isSpace (l := b)
  have hbegins : ∀ c ∈ a.head?, Text.isSpace c = false := by
    cases a with
    | nil => exact fun c hc => nomatch hc
    | cons c a => exact h.begins
  refine .inr (.inr ⟨a, s, b, rfl, ha, hnul.1, ⟨hnul.1, hbegins⟩,
    ⟨fun hb => hnul.2.2 (hsuffix.subset hb), head_dropWhile b⟩, ?_, ?_⟩)
  · have := hsuffix.length_le
    rw [List.length_append, List.length_cons]
    omega
  · rcases hs with rfl | rfl
    · exact .inl rfl
    · refine .inr ⟨rfl, ?_⟩
      rintro rfl
      exact absurd (h.begins '\n' rfl) (by decide)

theorem Unfolded.dependencyNames (h : Unfolded t) (hnul : '\x00' ∉ t)
    (hrounds : t.length ≤ rounds) :
    dependencyNames rounds t = (elements t).map fun e => cstring (firstWord e) := by
  induction rounds generalizing t with
  | zero =>
      obtain rfl := List.length_eq_zero_iff.1 (Nat.le_zero.1 hrounds)
      rfl
  | succ rounds ih =>
      have hat : At t := ⟨hnul, h.begins⟩
      rcases hat.cases with rfl | ⟨hpiece, hne⟩ | ⟨a, s, b, rfl, ha, hanul, haat, hb, hlt, hs⟩
      · rfl
      · rw [dependencyNames_piece hpiece hnul hne, elements_piece hpiece.2 hne h.begins]
        rfl
      · rcases hs with rfl | ⟨rfl, hne⟩
        · obtain ⟨hne, hrest⟩ := (unfolded_comma ha haat.begins b).1 h
          rw [dependencyNames_append ha hanul (.inl rfl), elements_comma ha.2 hne haat.begins,
            ih hrest hb.noNul (by omega)]
          rfl
        · have hnil := h.newline ha hne haat.begins
          obtain ⟨e, es, hrest, hstripped⟩ := stripped_newline ha.2 hne haat.begins b
          rw [hnil] at hrest
          have hes := (List.cons.inj hrest).2
          rw [dependencyNames_append ha hanul (.inr rfl), hnil, elements, hstripped, ← hes,
            List.filter_cons_of_pos (by simp)]
          have hword : firstWord (a ++ '\n' :: e) = firstWord a := firstWord_append (.inr rfl) a e
          rw [List.map_cons, hword]
          cases rounds <;> rfl

theorem At.length_elements (h : At t) (hrounds : t.length ≤ rounds) :
    (elements t).length ≤ (dependencyNames rounds t).length ∧
      ((∀ n ∈ dependencyNames rounds t, n.string ≠ []) →
        (dependencyNames rounds t).length = (elements t).length → Unfolded t) := by
  induction rounds generalizing t with
  | zero =>
      obtain rfl := List.length_eq_zero_iff.1 (Nat.le_zero.1 hrounds)
      exact ⟨le_rfl, fun _ _ => Unfolded.of_piece ⟨List.not_mem_nil, List.not_mem_nil⟩ h.begins⟩
  | succ rounds ih =>
      rcases h.cases with rfl | ⟨hpiece, hne⟩ | ⟨a, s, b, rfl, ha, hanul, haat, hb, hlt, hs⟩
      · exact ⟨le_rfl, fun _ _ => Unfolded.of_piece ⟨List.not_mem_nil, List.not_mem_nil⟩ h.begins⟩
      · rw [dependencyNames_piece hpiece h.noNul hne, elements_piece hpiece.2 hne h.begins]
        exact ⟨le_rfl, fun _ _ => Unfolded.of_piece hpiece h.begins⟩
      · obtain ⟨hle, hunfolded⟩ := ih hb (by omega)
        rcases hs with rfl | ⟨rfl, hne⟩
        · rw [dependencyNames_append ha hanul (.inl rfl)]
          by_cases hne : a = []
          · subst hne
            rw [List.nil_append, elements_empty, List.length_cons]
            refine ⟨by omega, fun hnames => absurd rfl (hnames _ List.mem_cons_self)⟩
          · rw [elements_comma ha.2 hne haat.begins, List.length_cons, List.length_cons]
            refine ⟨by omega, fun hnames hlen => ?_⟩
            refine (unfolded_comma ha haat.begins b).2 ⟨hne, hunfolded (fun n hn => ?_) (by omega)⟩
            exact hnames n (List.mem_cons_of_mem _ hn)
        · rw [dependencyNames_append ha hanul (.inr rfl), List.length_cons]
          obtain ⟨hmore, hequal⟩ := elements_newline ha.2 hne haat.begins b
          refine ⟨by omega, fun hnames hlen => Unfolded.of_newline ha hne haat.begins ?_⟩
          by_contra hrest
          obtain ⟨c, u, hcu⟩ := List.exists_cons_of_ne_nil hrest
          by_cases hc : c = ','
          · subst hc
            have hempty := dependencyNames_append (a := []) (b := u)
              ⟨List.not_mem_nil, List.not_mem_nil⟩ List.not_mem_nil (.inl rfl)
            obtain ⟨k, rfl⟩ : ∃ k, rounds = k + 1 := by
              rw [hcu, List.length_cons] at hlt
              exact ⟨rounds - 1, by omega⟩
            refine hnames (cstring (firstWord [])) (List.mem_cons_of_mem _ ?_) rfl
            rw [hcu]
            have hk := hempty k
            rw [List.nil_append] at hk
            rw [hk]
            exact List.mem_cons_self
          · have := hequal c u hcu hc
            omega

end Count

/-! ## The value in memory -/

section Memory

open Reader

theorem strcspn_append {reject : Text} (hnul : '\x00' ∉ t) (hs : s ∈ reject) (b : Text) :
    strcspn reject (t ++ s :: b) = some (t.takeWhile fun c => decide (c ∉ reject)).length := by
  induction t with
  | nil => rw [List.nil_append, strcspn, if_pos (.inl hs)]; rfl
  | cons c t ih =>
      rw [List.mem_cons, not_or] at hnul
      rw [List.cons_append, strcspn]
      by_cases hc : c ∈ reject
      · rw [if_pos (.inl hc), List.takeWhile_cons_of_neg (by simpa using hc)]
        rfl
      · rw [if_neg (by simp [hc, Ne.symm hnul.1]), ih hnul.2,
          List.takeWhile_cons_of_pos (by simpa using hc)]
        rfl

theorem skipSpace_eq : skipSpace t =
    if t.dropWhile Text.isSpace = [] then none else some (t.takeWhile Text.isSpace).length := by
  induction t with
  | nil => rfl
  | cons c t ih =>
      rw [skipSpace]
      by_cases hc : Text.isSpace c = true
      · rw [if_pos hc, ih, List.dropWhile_cons_of_pos hc, List.takeWhile_cons_of_pos hc]
        split <;> rfl
      · rw [if_neg hc, List.dropWhile_cons_of_neg hc, List.takeWhile_cons_of_neg hc,
          if_neg (List.cons_ne_nil _ _)]
        rfl

theorem skipSpace_append (b behind : Text) : skipSpace (b ++ '\n' :: behind) =
    if b.dropWhile Text.isSpace = [] then (skipSpace behind).map (b.length + 1 + ·)
    else some (b.takeWhile Text.isSpace).length := by
  rw [skipSpace_eq, skipSpace_eq]
  by_cases hb : b.dropWhile Text.isSpace = []
  · have hspace := List.dropWhile_eq_nil_iff.1 hb
    have hnewline : Text.isSpace '\n' = true := rfl
    rw [if_pos hb, List.dropWhile_append_of_pos hspace, List.takeWhile_append_of_pos hspace,
      List.dropWhile_cons_of_pos hnewline, List.takeWhile_cons_of_pos hnewline]
    split
    · rfl
    · rw [List.length_append, List.length_cons, Option.map_some]
      congr 1
      omega
  · have hsplit : (b ++ '\n' :: behind).dropWhile Text.isSpace =
        b.dropWhile Text.isSpace ++ '\n' :: behind := by
      rw [List.dropWhile_append, if_neg (by simpa using hb)]
    have hlen : (b.takeWhile Text.isSpace).length ≠ b.length := by
      intro he
      refine hb (List.dropWhile_eq_nil_iff.2 fun c hc => ?_)
      rw [← (List.takeWhile_prefix Text.isSpace).eq_of_length he] at hc
      exact List.mem_takeWhile_imp hc
    rw [if_neg hb, hsplit, if_neg (by simp), List.takeWhile_append, if_neg hlen]

theorem takeWhile_piece (ha : IsPiece a) :
    a.takeWhile (fun c => decide (c ∉ "\n,".toList)) = a := by
  refine List.takeWhile_eq_self_iff.2 fun c hc => ?_
  have h1 : c ≠ '\n' := fun e => ha.1 (e ▸ hc)
  have h2 : c ≠ ',' := fun e => ha.2 (e ▸ hc)
  simp [h1, h2]

theorem dependencyLoop_zero (hrounds : rounds ≠ 0) (cur : Text) :
    dependencyLoop rounds cur 0 = some [] := by
  obtain ⟨k, rfl⟩ := Nat.exists_eq_succ_of_ne_zero hrounds
  rw [dependencyLoop, if_pos rfl]

theorem dependencyLoop_round (hnul : '\x00' ∉ t) (hne : t ≠ []) (rounds : ℕ) (behind : Text)
    {fieldend : ℕ} (hfield : (t.takeWhile fun c => decide (c ∉ "\n,".toList)).length = fieldend) :
    dependencyLoop (rounds + 1) (t ++ '\n' :: behind) t.length =
      (skipSpace ((t ++ '\n' :: behind).drop (fieldend + 1))).bind fun blanks =>
        (dependencyLoop rounds ((t ++ '\n' :: behind).drop (fieldend + 1 + blanks))
          (t.length - (fieldend + 1 + blanks))).map (firstWord t :: ·) := by
  have hname := strcspn_append hnul (show '\n' ∈ " \t\n(,|".toList by decide) behind
  have hend := strcspn_append hnul (show '\n' ∈ "\n,".toList by decide) behind
  have htake : (t ++ '\n' :: behind).take (firstWord t).length = firstWord t := by
    have hprefix : firstWord t <+: t := List.takeWhile_prefix _
    rw [List.take_append_of_le_length hprefix.length_le]
    exact (List.prefix_iff_eq_take.1 hprefix).symm
  rw [dependencyLoop, if_neg (by simpa using hne), hname, hend, hfield, ← firstWord]
  dsimp only
  rw [htake]
  cases skipSpace ((t ++ '\n' :: behind).drop (fieldend + 1)) <;> rfl

/-- The loop takes the names that a value has, if there is an end to the white space behind the
value. -/
theorem dependencyLoop_eq (hnul : '\x00' ∉ t) (behind : Text) (hrounds : t.length ≤ rounds) :
    (dependencyLoop (rounds + 1) (t ++ '\n' :: behind) t.length).map (List.map cstring) =
      if t = [] ∨ behind.dropWhile Text.isSpace ≠ [] then some (dependencyNames rounds t)
      else none := by
  induction rounds generalizing t with
  | zero =>
      obtain rfl := List.length_eq_zero_iff.1 (Nat.le_zero.1 hrounds)
      rw [List.length_nil, dependencyLoop_zero (by decide), if_pos (.inl rfl)]
      rfl
  | succ rounds ih =>
      by_cases ht : t = []
      · subst ht
        rw [List.length_nil, dependencyLoop_zero (by omega), if_pos (.inl rfl)]
        rfl
      rcases piece_cases t with hpiece | ⟨a, s, b, rfl, ha, hs⟩
      · have hfield := congrArg List.length (takeWhile_piece hpiece)
        have hdrop : (t ++ '\n' :: behind).drop (t.length + 1) = behind := by
          rw [List.drop_append]
          simp
        rw [dependencyLoop_round hnul ht _ behind hfield, hdrop, skipSpace_eq,
          dependencyNames_piece hpiece hnul ht]
        by_cases hb : behind.dropWhile Text.isSpace = []
        · rw [if_pos hb, if_neg (by simp [ht, hb])]
          rfl
        · rw [if_neg hb, if_pos (.inr hb), Option.bind_some, Nat.sub_eq_zero_of_le (by omega),
            dependencyLoop_zero (by omega)]
          rfl
      · have hanul := hnul
        rw [List.mem_append, List.mem_cons, not_or, not_or] at hanul
        have hstop : decide (s ∉ "\n,".toList) = false := by
          rcases hs with rfl | rfl <;> decide
        have hfield : ((a ++ s :: b).takeWhile fun c => decide (c ∉ "\n,".toList)).length =
            a.length := by
          rw [takeWhile_append_stop hstop, takeWhile_piece ha]
        have hdrop (k : ℕ) : (a ++ s :: b ++ '\n' :: behind).drop (a.length + 1 + k) =
            (b ++ '\n' :: behind).drop k := by
          rw [List.append_assoc, List.cons_append, Nat.add_assoc, ← List.drop_drop,
            List.drop_left, Nat.add_comm]
          rfl
        have hdrop₀ := hdrop 0
        rw [Nat.add_zero, List.drop_zero] at hdrop₀
        rw [dependencyLoop_round hnul ht _ behind hfield, hdrop₀, skipSpace_append,
          dependencyNames_append ha hanul.1 hs, firstWord_append hs]
        by_cases hb : b.dropWhile Text.isSpace = []
        · rw [if_pos hb, skipSpace_eq, hb]
          by_cases hbehind : behind.dropWhile Text.isSpace = []
          · rw [if_pos hbehind, if_neg (by simp [hbehind])]
            rfl
          · rw [if_neg hbehind, if_pos (.inr hbehind), Option.map_some, Option.bind_some,
              Nat.sub_eq_zero_of_le (by rw [List.length_append, List.length_cons]; omega)]
            rw [dependencyLoop_zero (by omega)]
            cases rounds <;> rfl
        · have hsplit := List.takeWhile_append_dropWhile (p := Text.isSpace) (l := b)
          have hlen := congrArg List.length hsplit
          rw [List.length_append] at hlen
          have hcur : (b ++ '\n' :: behind).drop (b.takeWhile Text.isSpace).length =
              b.dropWhile Text.isSpace ++ '\n' :: behind := by
            have hleft : (b.takeWhile Text.isSpace ++ b.dropWhile Text.isSpace).drop
                (b.takeWhile Text.isSpace).length = b.dropWhile Text.isSpace := List.drop_left
            rw [hsplit] at hleft
            rw [List.drop_append_of_le_length (by omega), hleft]
          have hleft : (a ++ s :: b).length - (a.length + 1 + (b.takeWhile Text.isSpace).length) =
              (b.dropWhile Text.isSpace).length := by
            rw [List.length_append, List.length_cons]
            omega
          rw [List.length_append, List.length_cons] at hrounds
          have hnext := ih (fun h => hanul.2.2 ((List.dropWhile_suffix _).subset h))
            (t := b.dropWhile Text.isSpace) (by omega)
          have hcons : List.map cstring ∘ (firstWord a :: ·) =
              (cstring (firstWord a) :: ·) ∘ List.map cstring := rfl
          rw [if_neg hb, Option.bind_some, hdrop, hcur, hleft, Option.map_map, hcons,
            ← Option.map_map, hnext]
          by_cases hbehind : behind.dropWhile Text.isSpace = []
          · rw [if_neg (by simpa [hbehind] using hb), if_neg (by simp [hbehind])]
            rfl
          · rw [if_pos (.inr hbehind), if_pos (.inr hbehind)]
            rfl

end Memory

namespace Reader

variable {r : Reader}

/-! ## The dependencies of a package -/

theorem getPackageNew_heap (h : r.Sound) {name : RString} (hne : name.string ≠ []) {q : ℕ}
    (hq : q < r.next) : (r.getPackageNew name).1.heap q = r.heap q := by
  rw [getPackageNew]
  cases hfind : r.find name with
  | some p => rfl
  | none =>
      obtain ⟨hins, hname, hold⟩ := h.insert_new hfind
      refine (hins.heap q fun hget => hne ?_).trans (alloc_old _ hq)
      rw [hname] at hget
      exact hold q hget

/-- The dependencies of a type. -/
def dependsOf (r : Reader) (type : DependencyType) (p : ℕ) : List (PackageDependency ℕ) :=
  (r.heap p).depends.filter fun d => d.type = type

theorem modify_dependsOf {q : ℕ} {f : Package ℕ → Package ℕ} {type : DependencyType}
    (h : (f (r.heap q)).depends.filter (fun d => d.type = type) =
      (r.heap q).depends.filter fun d => d.type = type) :
    (r.modify q f).dependsOf type p = r.dependsOf type p := by
  rw [dependsOf, dependsOf, modify_heap]
  split
  · next hp => rw [h, hp]
  · rfl

theorem provided_depends (priority : PackagePriority) (q : Package ℕ) :
    (provided priority q).depends = q.depends := by
  rw [provided]
  by_cases hq : q.type = .nonExistent
  · rw [if_pos hq]
    split <;> rfl
  · rw [if_neg hq]
    split <;> rfl

theorem Sound.readDependencyName_named (h : r.Sound) (type : DependencyType) (hp : p < r.next)
    {name : RString} (hne : name.string ≠ []) :
    ∃ q, Got r name (r.readDependencyName type p name) q ∧
      (r.readDependencyName type p name).dependsOf type p = r.dependsOf type p ++ [⟨type, q⟩] := by
  have hgot := h.getPackageNew name
  have hheap := getPackageNew_heap h hne hp
  rw [Reader.readDependencyName]
  generalize r.getPackageNew name = a at *
  obtain ⟨r', q⟩ := a
  dsimp only at hgot hheap ⊢
  have hdepends := hgot.modify p
    (fun package => { package with depends := package.depends ++ [⟨type, q⟩] }) rfl
  have happended : (r'.modify p fun package =>
      { package with depends := package.depends ++ [⟨type, q⟩] }).dependsOf type p =
      r.dependsOf type p ++ [⟨type, q⟩] := by
    rw [dependsOf, modify_heap, if_pos rfl, hheap, List.filter_append, dependsOf]
    simp
  refine ⟨q, ?_⟩
  split
  · refine ⟨hdepends.modify q _ (provided_package _ _).1, (modify_dependsOf ?_).trans happended⟩
    rw [List.filter_append, provided_depends]
    simp
  · refine ⟨hdepends.modify q _ (provided_package _ _).1, (modify_dependsOf ?_).trans happended⟩
    rw [List.filter_append, provided_depends]
    simp
  · exact ⟨hdepends, happended⟩

theorem Sound.foldl_named (h : r.Sound) (type : DependencyType) (hp : p < r.next)
    {names : List RString} (hne : ∀ n ∈ names, n.string ≠ []) :
    ∃ targets : List ℕ,
      (names.foldl (Reader.readDependencyName type p) r).dependsOf type p =
        r.dependsOf type p ++ targets.map (⟨type, ·⟩) ∧
      names.map (names.foldl (Reader.readDependencyName type p) r).getPackage =
        targets.map some := by
  induction names generalizing r with
  | nil => exact ⟨[], (List.append_nil _).symm, rfl⟩
  | cons name names ih =>
      obtain ⟨hname, hnames⟩ := List.forall_mem_cons.1 hne
      obtain ⟨q, hgot, happended⟩ := h.readDependencyName_named type hp hname
      obtain ⟨targets, hdepends, htargets⟩ := ih hgot.sound (hp.trans_le hgot.next) hnames
      have hrest := hgot.sound.foldl_readDependencyName type p names
      refine ⟨q :: targets, ?_, ?_⟩
      · rw [List.foldl_cons, hdepends, happended, List.append_assoc]
        rfl
      · rw [List.foldl_cons, List.map_cons, htargets,
          hrest.kept name q hgot.found fun hnil => absurd hnil hname]
        rfl

theorem Sound.foldl_unnamed (h : r.Sound) (type : DependencyType) (p : ℕ) {names : List RString}
    {n : RString} (hn : n ∈ names) (hnil : n.string = []) :
    ∃ q, r.next ≤ q ∧ q < (names.foldl (Reader.readDependencyName type p) r).next ∧
      ((names.foldl (Reader.readDependencyName type p) r).nameOf q).string = [] := by
  induction names generalizing r with
  | nil => cases hn
  | cons name names ih =>
      obtain ⟨q, hgot⟩ := h.readDependencyName type p name
      rw [List.foldl_cons]
      rcases List.mem_cons.1 hn with rfl | hn
      · have hrest := hgot.sound.foldl_readDependencyName type p names
        obtain ⟨hlt, hequal, -⟩ := hgot.sound.getPackage_nameOf hgot.found
        refine ⟨q, hgot.made hnil, hlt.trans_le hrest.next, ?_⟩
        rw [hrest.same q hlt, eq_empty_of_equal hequal hnil]
        rfl
      · obtain ⟨x, hle, hlt, hx⟩ := ih hgot.sound hn
        exact ⟨x, hgot.next.trans hle, hlt, hx⟩

/-! ## What is claimed of a value -/

/-- One dependency was appended for each element that is not empty, on the package that its
first word names, and no package without a name was made. -/
structure Depends (r : Reader) (type : DependencyType) (p : ℕ) (value : Text) (r' : Reader) :
    Prop where
  appended : ∃ targets : List ℕ,
    r'.dependsOf type p = r.dependsOf type p ++ targets.map (⟨type, ·⟩) ∧
    (elements value).map (fun e => r'.getPackage (cstring (firstWord e))) = targets.map some
  named : ∀ q, r.next ≤ q → q < r'.next → (r'.nameOf q).string ≠ []

/-- The reader returns, with the right dependencies. -/
def ReadsRight (r : Reader) (type : DependencyType) (p : ℕ) (value behind : Text) : Prop :=
  ∃ r', r.readDependencyAt type p (value ++ behind) value.length = some r' ∧
    Depends r type p value r'

/-- The reader returns when there is no memory behind the value. -/
def ReadsInside (r : Reader) (type : DependencyType) (p : ℕ) (value : Text) : Prop :=
  (r.readDependencyAt type p value value.length).isSome

instance (r : Reader) (type : DependencyType) (p : ℕ) (value : Text) :
    Decidable (ReadsInside r type p value) :=
  inferInstanceAs (Decidable ((r.readDependencyAt type p value value.length).isSome = true))

theorem data_lt {events : List (Event Field)} (h : run {} (events.map .parse) = some r) :
    ∀ p, r.data = some p → p < r.next := by
  induction events using List.reverseRecOn generalizing r with
  | nil =>
      obtain rfl := Option.some.inj h
      exact fun p hp => nomatch hp
  | append_singleton before e ih =>
      rw [run_concat] at h
      obtain ⟨r₀, hrun, hstep⟩ := Option.bind_eq_some_iff.1 h
      have hsound := sound_run hrun
      cases e with
      | entryNew =>
          obtain rfl := Option.some.inj hstep
          exact fun p hp => nomatch hp
      | read fip value =>
          cases fip with
          | package =>
              obtain rfl := Option.some.inj hstep
              obtain ⟨p, hsound', hdata, hget⟩ := hsound.readName value
              intro q hq
              obtain rfl := Option.some.inj (hdata.symm.trans hq)
              exact (hsound'.getPackage_nameOf hget).1
          | dependency type =>
              obtain ⟨p, hp, rfl⟩ := Option.map_eq_some_iff.1 hstep
              have hdep := hsound.readDependency type p value
              intro q hq
              rw [hdep.data] at hq
              exact (ih hrun q hq).trans_le hdep.next
          | other =>
              obtain ⟨p, -, rfl⟩ := Option.map_eq_some_iff.1 hstep
              exact ih hrun

/-- A newline does not end the value for `strcspn` and `isspace`: what is there is read, and what
is behind it. -/
theorem readDependencyAt_eq (type : DependencyType) (p : ℕ) {value : Text} (hnul : '\x00' ∉ value)
    (behind : Text) :
    r.readDependencyAt type p (value ++ '\n' :: behind) value.length =
      if value = [] ∨ behind.dropWhile Text.isSpace ≠ [] then some (r.readDependency type p value)
      else none := by
  have hloop := dependencyLoop_eq hnul behind (le_refl value.length)
  have hfold : r.readDependencyAt type p (value ++ '\n' :: behind) value.length =
      ((dependencyLoop (value.length + 1) (value ++ '\n' :: behind) value.length).map
        (List.map cstring)).map fun names => names.foldl (Reader.readDependencyName type p) r := by
    rw [readDependencyAt, Option.map_map]
    rfl
  rw [hfold, hloop]
  split <;> rfl

theorem skipSpace_lt {n : ℕ} (h : skipSpace t = some n) : n < t.length := by
  rw [skipSpace_eq] at h
  split at h
  · cases h
  · next hne =>
      obtain rfl := Option.some.inj h
      have hlen := congrArg List.length
        (List.takeWhile_append_dropWhile (p := Text.isSpace) (l := t))
      rw [List.length_append] at hlen
      have := List.length_pos_of_ne_nil hne
      omega

theorem dependencyLoop_inside {mem : Text} (hne : mem ≠ []) (rounds : ℕ) :
    dependencyLoop rounds mem mem.length = none := by
  induction rounds generalizing mem with
  | zero => rfl
  | succ rounds ih =>
      rw [dependencyLoop, if_neg (by simpa using hne)]
      split
      · next namelen fieldend _ _ =>
          split
          · next blanks hblanks =>
              have hlt := skipSpace_lt hblanks
              rw [List.length_drop] at hlt
              have hbehind : mem.drop (fieldend + 1 + blanks) ≠ [] := by
                rw [Ne, List.drop_eq_nil_iff]
                omega
              have hrest := ih hbehind
              rw [List.length_drop] at hrest
              dsimp only
              rw [hrest]
              rfl
          · rfl
      · rfl

/-! ## Which values are read rightly -/

/-- The dependencies are right exactly if the value is not folded in an element, has no empty
element but the last, and begins with a name. -/
theorem depends_iff (h : r.Sound) (type : DependencyType) (hp : p < r.next)
    (value : DependencyValue) :
    Depends r type p value.string (r.readDependency type p value.string) ↔
      Unfolded value.string := by
  obtain ⟨names, hnames⟩ : ∃ names,
    dependencyNames value.string.length value.string = names := ⟨_, rfl⟩
  rw [readDependency, hnames]
  constructor
  · rintro ⟨⟨targets, hdepends, htargets⟩, hnamed⟩
    have hne : ∀ n ∈ names, n.string ≠ [] := by
      intro n hn hnil
      obtain ⟨q, hle, hlt, hq⟩ := h.foldl_unnamed type p hn hnil
      exact hnamed q hle hlt hq
    obtain ⟨targets', hdepends', htargets'⟩ := h.foldl_named type hp hne
    have hlen : names.length = (elements value.string).length := by
      have h₁ := congrArg List.length (hdepends'.symm.trans hdepends)
      have h₂ := congrArg List.length htargets
      have h₃ := congrArg List.length htargets'
      simp only [List.length_append, List.length_map] at h₁ h₂ h₃
      omega
    have hbegins : ∀ c ∈ value.string.head?, Text.isSpace c = false := by
      intro c hc
      by_contra hspace
      obtain ⟨t, ht⟩ : ∃ t, value.string = c :: t := by
        cases hv : value.string with
        | nil => rw [hv] at hc; cases hc
        | cons c' t => rw [hv] at hc; exact ⟨t, by rw [Option.some.inj hc]⟩
      have hblank := value.space c (ht ▸ List.mem_cons_self) (by simpa using hspace)
      have hword : firstWord (c :: t) = [] := by
        have hsubset : " \t\n".toList ⊆ " \t\n(,|".toList := by decide
        refine List.takeWhile_cons_of_neg ?_
        rw [decide_eq_true_eq]
        exact not_not.2 (hsubset hblank)
      refine hne (cstring (firstWord (c :: t))) ?_ (by rw [hword]; rfl)
      rw [← hnames, ht, List.length_cons, dependencyNames, if_neg (List.cons_ne_nil _ _), firstWord]
      exact List.mem_cons_self
    rw [← hnames] at hne hlen
    exact (At.length_elements ⟨value.noNul, hbegins⟩ le_rfl).2 hne hlen
  · intro hunfolded
    have hwords := hunfolded.dependencyNames value.noNul le_rfl
    rw [hnames] at hwords
    have hne : ∀ n ∈ names, n.string ≠ [] := by
      intro n hn
      rw [hwords] at hn
      obtain ⟨e, he, rfl⟩ := List.mem_map.1 hn
      have hnul : '\x00' ∉ firstWord e := fun h =>
        value.noNul (mem_of_mem_elements he ((List.takeWhile_prefix _).subset h))
      rw [cstring_string ⟨firstWord e, hnul⟩]
      exact value.named e he
    obtain ⟨targets, hdepends, htargets⟩ := h.foldl_named type hp hne
    refine ⟨⟨targets, hdepends, ?_⟩, fun q hle hlt => ?_⟩
    · rw [← htargets, hwords, List.map_map]
      rfl
    · exact hne _ ((h.foldl_readDependencyName type p names).fresh q hle hlt)

/-- Only an empty value is read without a look behind it; and the dependencies are right exactly
if the value is not folded and what is behind it ends. -/
theorem readDependencyAt_iff {events : List (Event Field)}
    (hrun : run {} (events.map .parse) = some r) {p : ℕ} (hdata : r.data = some p)
    (type : DependencyType) (value : DependencyValue) (behind : Text) :
    (ReadsInside r type p value.string ∧ ReadsRight r type p value.string ('\n' :: behind) ↔
      value.string = []) ∧
    (ReadsRight r type p value.string ('\n' :: behind) ↔
      Unfolded value.string ∧ (value.string = [] ∨ ∃ c ∈ behind, Text.isSpace c = false)) := by
  have hspace : behind.dropWhile Text.isSpace ≠ [] ↔ ∃ c ∈ behind, Text.isSpace c = false := by
    rw [Ne, List.dropWhile_eq_nil_iff]
    simp
  have hright : ReadsRight r type p value.string ('\n' :: behind) ↔
      Unfolded value.string ∧ (value.string = [] ∨ ∃ c ∈ behind, Text.isSpace c = false) := by
    rw [ReadsRight, readDependencyAt_eq type p value.noNul behind, ← hspace,
      ← depends_iff (sound_run hrun) type (data_lt hrun p hdata) value]
    by_cases hend : value.string = [] ∨ behind.dropWhile Text.isSpace ≠ []
    · rw [if_pos hend]
      exact ⟨fun ⟨r', hr', h⟩ => ⟨Option.some.inj hr' ▸ h, hend⟩, fun h => ⟨_, rfl, h.1⟩⟩
    · rw [if_neg hend]
      exact iff_of_false (fun ⟨r', hr', _⟩ => nomatch hr') fun h => hend h.2
  refine ⟨⟨fun h => ?_, fun hnil => ⟨?_, hright.2 ⟨?_, .inl hnil⟩⟩⟩, hright⟩
  · by_contra hne
    have hinside := h.1
    rw [ReadsInside, readDependencyAt, dependencyLoop_inside hne] at hinside
    cases hinside
  · rw [hnil]
    rfl
  · rw [hnil]
    exact Unfolded.of_piece ⟨List.not_mem_nil, List.not_mem_nil⟩ fun c hc => nomatch hc

/-- The calls for a stanza that begins with a name. -/
def oneName : List (Event Field) := [.entryNew, .read .package "x"]

/-- Two elements, the second with a version. -/
def twoElements : DependencyValue where
  string := "a, b (>= 1)".toList
  noNul := by decide
  space := by
    have hall : ("a, b (>= 1)".toList.all fun c =>
        !Text.isSpace c || " \t\n".toList.contains c) = true := by decide
    intro c hc hspace
    simpa [hspace] using List.all_eq_true.1 hall c hc
  named := by decide

/-- Two elements are read rightly, but not without what is behind them. -/
theorem readDependencyAt_twoElements : ∃ r, run {} (oneName.map .parse) = some r ∧
    ¬ ReadsInside r .depends 0 "a, b (>= 1)" ∧
    ReadsRight r .depends 0 "a, b (>= 1)" "\nV" := by
  refine ⟨_, rfl, ?_⟩
  have hrun : run {} (oneName.map .parse) = some _ := rfl
  obtain ⟨hinside, hright⟩ := readDependencyAt_iff hrun rfl .depends twoElements "V"
  have hfirst : "a, b (>= 1)".toList.head? = some 'a' := by decide
  have hbegins : ∀ c ∈ "a, b (>= 1)".toList.head?, Text.isSpace c = false := by
    intro c hc
    obtain rfl := Option.some.inj (hfirst.symm.trans hc)
    rfl
  have hreads := hright.2 ⟨⟨hbegins, by decide, by decide⟩, .inr ⟨'V', by decide⟩⟩
  exact ⟨fun h => absurd (hinside.1 ⟨h, hreads⟩) (by decide), hreads⟩

/-- One name is read with what is behind it, and alternatives that are folded are two
dependencies. -/
theorem readDependencyAt_wrong : ∃ r, run {} (oneName.map .parse) = some r ∧
    ¬ ReadsInside r .depends 0 "a" ∧
    ¬ ReadsRight r .depends 0 "a |\n b" "\nV" := by
  refine ⟨_, rfl, by decide, ?_⟩
  rintro ⟨r', hr', ⟨targets, hdepends, htargets⟩, -⟩
  have hcount := congrArg (Option.map fun r' => (dependsOf r' .depends 0).length) hr'
  have htwo : Option.map (fun r' => (dependsOf r' .depends 0).length)
      ((({} : Reader).readName "x").readDependencyAt .depends 0
        ("a |\n b" ++ "\nV") "a |\n b".toList.length) = some 2 := by
    decide
  have hold : (({} : Reader).readName "x").dependsOf .depends 0 = [] := by decide
  have hone : (elements "a |\n b").length = 1 := by decide
  have hlen := congrArg List.length htargets
  rw [List.length_map, List.length_map, hone] at hlen
  have hboth := hcount.symm.trans htwo
  rw [Option.map_some, hdepends, hold, List.nil_append, List.length_map, ← hlen] at hboth
  cases hboth

end Reader

end DebianInstaller.Packages
