import DebianInstaller.Udpkg.Control

/-!
# The elements of a Depends field

`depends_split` goes once through a copy of the string. Blanks and commas become `NUL`, and where
an element begins is noted in a static array of `DEPENDSMAX` pointers, the next of which is
cleared whenever a comma is met. The names are read off the copy afterwards, so that a name ends
at the first blank behind it.

An element that is empty leaves its pointer null, and there the caller stops reading. The pointer
after the last element is cleared as well. Neither write looks at the size of the array.
-/

namespace DebianInstaller.Udpkg

open Text

variable {behind e rest text : Text} {es : List Text} {vec : List (Option ℕ)}

/-- `DEPENDSMAX` -/
def dependsMax : ℕ := 64

/-- `dependsvec`, with whatever an earlier call has left in it. -/
abbrev Pointers := { vec : List (Option ℕ) // vec.length = dependsMax }

/-- A pointer of the array is written, if it is one of the array. -/
def store (vec : List (Option ℕ)) (i : ℕ) (v : Option ℕ) : Option (List (Option ℕ)) :=
  if i < vec.length then some (vec.set i v) else none

/-- The array and the copy of the string that it points into. -/
structure Split where
  vec : List (Option ℕ)
  text : Text

variable {s : Split}

/-- The loop, at the end of what has been gone through. -/
def splitLoop (vec : List (Option ℕ)) (i : ℕ) (before : Text) : Text → Option Split
  | [] => do
      let vec ← store vec (i + 1) none
      return ⟨vec, before ++ ['\x00']⟩
  | c :: rest =>
      if c = '\x00' ∨ c = '\n' then do
        let vec ← store vec (i + 1) none
        return ⟨vec, before ++ '\x00' :: rest⟩
      else if c = ' ' then splitLoop vec i (before ++ ['\x00']) rest
      else if c = ',' then do
        let vec ← store vec (i + 1) none
        splitLoop vec (i + 1) (before ++ ['\x00']) rest
      else
        let vec := if vec[i]?.join = none then vec.set i (some before.length) else vec
        splitLoop vec i (before ++ [c]) rest

/-- `depends_split`; nothing where it writes behind the array. -/
def dependsSplit (vec : List (Option ℕ)) (dependsstr : Option Text) : Option Split :=
  match dependsstr with
  | none => do
      let vec ← store vec 0 none
      let vec ← store vec 1 none
      return ⟨vec, []⟩
  | some str => do
      let vec ← store vec 0 none
      splitLoop vec 0 [] str

/-- The string that a pointer points to. -/
def nameAt (text : Text) (p : ℕ) : Text := (text.drop p).takeWhile (· ≠ '\x00')

/-- What the caller reads, up to the first null pointer. -/
def Split.names (s : Split) : List Text :=
  ((s.vec.takeWhile Option.isSome).filterMap id).map (nameAt s.text)

/-! ## What is to be read -/

/-- The string ends with its line. -/
def dependsLine (str : Text) : Text := str.takeWhile fun c => c ≠ '\x00' ∧ c ≠ '\n'

/-- The elements, between the commas. -/
def elements (str : Text) : List Text := (dependsLine str).splitOn ','

/-- The name that an element begins with, which is empty if there is nothing but blanks. -/
def elementName (e : Text) : Text := (e.dropWhile (· = ' ')).takeWhile (· ≠ ' ')

/-- The names of the elements that are not empty. -/
def dependsNames (str : Text) : List Text := ((elements str).map elementName).filter (· ≠ [])

/-- The call stays within the array, ends it with a null pointer, and has all the names. -/
def SplitOk (vec : Pointers) (str : Text) : Prop :=
  ∃ s, dependsSplit vec.1 (some str) = some s ∧ none ∈ s.vec ∧ s.names = dependsNames str

/-! ## The pass -/

/-- Where an element begins that stands at a place, if it is not empty. -/
def startOf (p : ℕ) (e : Text) : Option ℕ :=
  if elementName e = [] then none else some (p + (e.takeWhile (· = ' ')).length)

/-- The same for elements one after the other. -/
def starts (p : ℕ) : List Text → List (Option ℕ)
  | [] => []
  | e :: es => startOf p e :: starts (p + e.length + 1) es

/-- What becomes of a character. -/
def cutChar (c : Char) : Char := if c = ' ' ∨ c = ',' then '\x00' else c

theorem startOf_nil (p : ℕ) : startOf p [] = none := rfl

theorem startOf_blank (p : ℕ) (e : Text) : startOf p (' ' :: e) = startOf (p + 1) e := by
  have hname : elementName (' ' :: e) = elementName e := rfl
  have hblanks : ((' ' :: e).takeWhile (· = ' ')).length = (e.takeWhile (· = ' ')).length + 1 := rfl
  rw [startOf, startOf, hname, hblanks]
  split
  · rfl
  · rw [Nat.add_right_comm, Nat.add_assoc]

theorem startOf_cons {c : Char} (hc : c ≠ ' ') (p : ℕ) (e : Text) :
    startOf p (c :: e) = some p := by
  have hdrop : (c :: e).dropWhile (· = ' ') = c :: e :=
    List.dropWhile_cons_of_neg (by simpa using hc)
  have htake : (c :: e).takeWhile (· = ' ') = [] := List.takeWhile_cons_of_neg (by simpa using hc)
  have hname : elementName (c :: e) ≠ [] := by
    rw [elementName, hdrop, List.takeWhile_cons_of_pos (by simpa using hc)]
    exact List.cons_ne_nil _ _
  rw [startOf, if_neg hname, htake]
  rfl

theorem elements_cons_comma (rest : Text) : elements (',' :: rest) = [] :: elements rest := by
  have hline : dependsLine (',' :: rest) = ',' :: dependsLine rest := rfl
  rw [elements, hline, List.splitOn_eq_splitOnP, List.splitOnP_cons_eq_if_modifyHead]
  rfl

theorem elements_cons {c : Char} (hcomma : c ≠ ',') (hnul : c ≠ '\x00') (hnewline : c ≠ '\n')
    (h : elements rest = e :: es) : elements (c :: rest) = (c :: e) :: es := by
  have hline : dependsLine (c :: rest) = c :: dependsLine rest :=
    List.takeWhile_cons_of_pos (by simp [hnul, hnewline])
  have hrest : (dependsLine rest).splitOn ',' = e :: es := h
  rw [List.splitOn_eq_splitOnP] at hrest
  rw [elements, hline, List.splitOn_eq_splitOnP, List.splitOnP_cons_eq_if_modifyHead,
    if_neg (by simpa using hcomma), hrest]
  rfl

theorem store_append (A : List (Option ℕ)) (x v : Option ℕ) (B : List (Option ℕ)) :
    store (A ++ x :: B) (A.length + 1) v =
      if B = [] then none else some (A ++ x :: v :: B.tail) := by
  unfold store
  cases B with
  | nil => rw [if_neg (by simp), if_pos rfl]
  | cons b B =>
      rw [if_pos (by simp), if_neg (List.cons_ne_nil _ _),
        List.set_append_right _ _ (Nat.le_succ _), Nat.succ_sub (Nat.le_refl _), Nat.sub_self]
      rfl

/-- The pass from anywhere in the string: the pointer of the element that has begun is kept if it
is not null, and the next ones are those of the elements that follow. -/
theorem splitLoop_eq (A : List (Option ℕ)) (x : Option ℕ) (B : List (Option ℕ)) (before : Text)
    (h : elements rest = e :: es) :
    ∃ behind, splitLoop (A ++ x :: B) A.length before rest =
      if es.length < B.length then
        some ⟨A ++ (x <|> startOf before.length e) ::
            (starts (before.length + e.length + 1) es ++ none :: B.drop (es.length + 1)),
          before ++ (dependsLine rest).map cutChar ++ '\x00' :: behind⟩
      else none := by
  -- What the loop does where the line ends.
  have hend (behind : Text) (A : List (Option ℕ)) (x : Option ℕ) (B : List (Option ℕ))
      (before : Text) :
      (do let vec ← store (A ++ x :: B) (A.length + 1) none
          return (⟨vec, before ++ '\x00' :: behind⟩ : Split)) =
        if 0 < B.length then
          some ⟨A ++ (x <|> startOf before.length []) :: none :: B.drop 1,
            before ++ '\x00' :: behind⟩
        else none := by
    rw [store_append, startOf_nil]
    cases B with
    | nil => rfl
    | cons b B =>
        rw [if_neg (List.cons_ne_nil _ _), if_pos (by simp)]
        cases x <;> rfl
  induction rest generalizing A x B before e es with
  | nil =>
      obtain ⟨rfl, rfl⟩ : [] = e ∧ [] = es := by simpa [elements, dependsLine] using h
      refine ⟨[], ?_⟩
      rw [splitLoop, hend [] A x B before]
      simp [starts, dependsLine]
  | cons c rest ih =>
      obtain ⟨e', es', hrest⟩ := List.exists_cons_of_ne_nil
        (show elements rest ≠ [] from by
          rw [elements, List.splitOn_eq_splitOnP]
          exact List.splitOnP_ne_nil _ _)
      by_cases hline : c = '\x00' ∨ c = '\n'
      · have hnil : dependsLine (c :: rest) = [] :=
          List.takeWhile_cons_of_neg (by rcases hline with rfl | rfl <;> decide)
        obtain ⟨rfl, rfl⟩ : [] = e ∧ [] = es := by
          rw [elements, hnil] at h
          simpa using h
        refine ⟨rest, ?_⟩
        rw [splitLoop, if_pos hline, hend rest A x B before, hnil]
        simp [starts]
      · obtain ⟨hnul, hnewline⟩ := not_or.mp hline
        have hcons : dependsLine (c :: rest) = c :: dependsLine rest :=
          List.takeWhile_cons_of_pos (by simp [hnul, hnewline])
        rw [splitLoop, if_neg hline, hcons, List.map_cons]
        by_cases hblank : c = ' '
        · subst hblank
          rw [elements_cons (by decide) hnul hnewline hrest] at h
          obtain ⟨rfl, rfl⟩ := List.cons.inj h
          obtain ⟨behind, hloop⟩ := ih A x B (before ++ ['\x00']) hrest
          refine ⟨behind, ?_⟩
          rw [if_pos rfl, hloop, startOf_blank]
          simp [cutChar, Nat.add_right_comm, Nat.add_assoc, Nat.add_comm 1]
        · rw [if_neg hblank]
          by_cases hcomma : c = ','
          · subst hcomma
            rw [elements_cons_comma, hrest] at h
            obtain ⟨rfl, rfl⟩ := List.cons.inj h
            rw [if_pos rfl, store_append]
            cases B with
            | nil => exact ⟨[], by simp⟩
            | cons b B =>
                obtain ⟨behind, hloop⟩ := ih (A ++ [x]) none B (before ++ ['\x00']) hrest
                refine ⟨behind, ?_⟩
                have hstore : A ++ x :: none :: B = A ++ [x] ++ none :: B := by simp
                have hlength : A.length + 1 = (A ++ [x]).length := by simp
                rw [if_neg (List.cons_ne_nil _ _), Option.bind_eq_bind, Option.bind_some,
                  List.tail_cons, hstore, hlength, hloop, startOf_nil]
                cases x <;> simp [cutChar, starts, Nat.add_assoc]
          · rw [elements_cons hcomma hnul hnewline hrest] at h
            obtain ⟨rfl, rfl⟩ := List.cons.inj h
            have hpointer : (A ++ x :: B)[A.length]?.join = x := by simp
            have hset : (if (A ++ x :: B)[A.length]?.join = none then
                (A ++ x :: B).set A.length (some before.length) else A ++ x :: B) =
                A ++ (x <|> some before.length) :: B := by
              rw [hpointer]
              cases x with
              | none =>
                  rw [if_pos rfl, List.set_append_right _ _ (Nat.le_refl _), Nat.sub_self]
                  rfl
              | some p => rw [if_neg (by simp)]; rfl
            obtain ⟨behind, hloop⟩ := ih A (x <|> some before.length) B (before ++ [c]) hrest
            refine ⟨behind, ?_⟩
            rw [if_neg hcomma]
            dsimp only
            rw [hset, hloop, startOf_cons hblank]
            have hkept : ((x <|> some before.length) <|> startOf (before ++ [c]).length e') =
                (x <|> some before.length) := by
              cases x <;> rfl
            rw [hkept]
            simp [cutChar, hblank, hcomma, Nat.add_right_comm, Nat.add_assoc, Nat.add_comm 1]

/-! ## The names -/

/-- Characters of an element: neither what ends it nor what ends the line. -/
def InElement (e : Text) : Prop := ∀ c ∈ e, c ≠ ',' ∧ c ≠ '\x00'

theorem inElement_of_mem {str : Text} (h : e ∈ elements str) : InElement e := by
  rw [elements, List.splitOn_eq_splitOnP] at h
  obtain ⟨hcomma, hsubset⟩ := Lib.mem_of_mem_splitOnP h
  refine fun c hc => ⟨by simpa using hcomma c hc, ?_⟩
  have hline := List.mem_takeWhile_imp (hsubset c hc)
  exact (of_decide_eq_true hline).1

theorem takeWhile_cut {f : Text} (hf : InElement f) (behind : Text) :
    (f.map cutChar ++ '\x00' :: behind).takeWhile (· ≠ '\x00') = f.takeWhile (· ≠ ' ') := by
  induction f with
  | nil => rfl
  | cons c f ih =>
      obtain ⟨⟨hcomma, hnul⟩, htail⟩ := List.forall_mem_cons.mp hf
      by_cases hc : c = ' '
      · subst hc
        rfl
      · have hcut : cutChar c = c := if_neg (by simp [hc, hcomma])
        rw [List.map_cons, List.cons_append, hcut, List.takeWhile_cons_of_pos (by simpa using hnul),
          List.takeWhile_cons_of_pos (by simpa using hc), ih htail]

theorem nameAt_startOf {p : ℕ} (he : InElement e)
    (htext : text.drop p = e.map cutChar ++ '\x00' :: behind) :
    (startOf p e).map (nameAt text) =
      if elementName e = [] then none else some (elementName e) := by
  unfold startOf
  split
  · rfl
  · refine congrArg some ?_
    let blanks := (e.takeWhile (· = ' ')).length
    have hdrop : e.drop blanks = e.dropWhile (· = ' ') := by
      conv_lhs => rw [← List.takeWhile_append_dropWhile (l := e) (p := (· = ' '))]
      exact List.drop_left
    have hle : blanks ≤ (e.map cutChar).length := by
      rw [List.length_map]
      exact (List.takeWhile_prefix _).length_le
    have hin : InElement (e.dropWhile (· = ' ')) :=
      fun c hc => he c ((List.dropWhile_suffix _).mem hc)
    rw [nameAt, ← List.drop_drop, htext, List.drop_append_of_le_length hle, ← List.map_drop, hdrop,
      takeWhile_cut hin]
    rfl

theorem nameAt_starts (hes : ∀ e ∈ es, InElement e) {p : ℕ} (htext : es ≠ [] →
      text.drop p = ([','].intercalate es).map cutChar ++ '\x00' :: behind) :
    (starts p es).map (Option.map (nameAt text)) =
      es.map fun e => if elementName e = [] then none else some (elementName e) := by
  induction es generalizing p with
  | nil => rfl
  | cons e es ih =>
      obtain ⟨he, htail⟩ := List.forall_mem_cons.mp hes
      have htext := htext (List.cons_ne_nil _ _)
      have hlength : (e.map cutChar).length = e.length := List.length_map _
      rw [starts, List.map_cons, List.map_cons]
      congr 1
      · by_cases hnil : es = []
        · subst hnil
          rw [List.intercalate_singleton] at htext
          exact nameAt_startOf he htext
        · rw [List.intercalate_cons_of_ne_nil hnil, List.map_append, List.map_append] at htext
          exact nameAt_startOf he (by rw [htext]; simp [cutChar]; rfl)
      · refine ih htail fun hnil => ?_
        rw [List.intercalate_cons_of_ne_nil hnil, List.map_append, List.map_append] at htext
        rw [Nat.add_assoc, ← List.drop_drop, htext, List.append_assoc, List.append_assoc, ← hlength,
          ← List.drop_drop, List.drop_left]
        rfl

theorem names_starts (hes : ∀ e ∈ es, InElement e)
    (htext : text = ([','].intercalate es).map cutChar ++ '\x00' :: behind)
    (old : List (Option ℕ)) :
    (Split.mk (starts 0 es ++ none :: old) text).names =
      (es.map elementName).takeWhile (· ≠ []) := by
  have hread (L : List (Option ℕ)) :
      (((L ++ none :: old).takeWhile Option.isSome).filterMap id).map (nameAt text) =
        ((L.map (Option.map (nameAt text))).takeWhile Option.isSome).filterMap id := by
    induction L with
    | nil => rfl
    | cons x L ih =>
        cases x with
        | none => rfl
        | some p => exact congrArg (nameAt text p :: ·) ih
  have hpass (fs : List Text) :
      ((fs.map fun e => if elementName e = [] then none else some (elementName e)).takeWhile
        Option.isSome).filterMap id = (fs.map elementName).takeWhile (· ≠ []) := by
    induction fs with
    | nil => rfl
    | cons e fs ih =>
        rw [List.map_cons, List.map_cons]
        by_cases he : elementName e = []
        · rw [if_pos he, he]
          rfl
        · have hkeep : (elementName e :: fs.map elementName).takeWhile (· ≠ []) =
              elementName e :: (fs.map elementName).takeWhile (· ≠ []) :=
            List.takeWhile_cons_of_pos (decide_eq_true he)
          rw [if_neg he, hkeep]
          exact congrArg (elementName e :: ·) ih
  have hstarts := nameAt_starts hes (p := 0) fun _ => htext
  rw [Split.names, hread, hstarts, hpass]

/-- Behind an empty element there is none that is not empty. -/
def Gapless (str : Text) : Prop :=
  (elements str).Pairwise fun e f => elementName e = [] → elementName f = []

theorem dependsSplit_spec (vec : Pointers) (str : Text) :
    if (elements str).length < dependsMax then
      ∃ s, dependsSplit vec.1 (some str) = some s ∧ none ∈ s.vec ∧
        s.names = ((elements str).map elementName).takeWhile (· ≠ [])
    else dependsSplit vec.1 (some str) = none := by
  obtain ⟨e, es, hes⟩ := List.exists_cons_of_ne_nil
    (show elements str ≠ [] from by
      rw [elements, List.splitOn_eq_splitOnP]
      exact List.splitOnP_ne_nil _ _)
  obtain ⟨first, rest, hvec⟩ := List.exists_cons_of_ne_nil
    (List.ne_nil_of_length_pos (l := vec.1) (by rw [vec.2]; decide))
  have hrest : rest.length + 1 = dependsMax := by
    rw [← vec.2, hvec]
    rfl
  have hstore : store vec.1 0 none = some (none :: rest) := by
    rw [store, if_pos (by rw [vec.2]; decide), hvec]
    rfl
  obtain ⟨behind, hloop⟩ := splitLoop_eq [] none rest [] hes
  have hrun : dependsSplit vec.1 (some str) = splitLoop (none :: rest) 0 [] str := by
    rw [dependsSplit, hstore]
    rfl
  have hline : dependsLine str = [','].intercalate (e :: es) := by
    rw [← hes, elements, List.intercalate_splitOn]
  rw [hrun.trans hloop, hes, List.length_cons, ← hrest]
  by_cases hroom : es.length < rest.length
  · rw [if_pos hroom, if_pos (Nat.succ_lt_succ hroom)]
    refine ⟨_, rfl, by simp, ?_⟩
    have hin : ∀ f ∈ e :: es, InElement f := fun f hf => inElement_of_mem (hes ▸ hf)
    exact names_starts hin (by rw [hline]; rfl) _
  · rw [if_neg hroom, if_neg fun h => hroom (Nat.lt_of_succ_lt_succ h)]

/-- `depends_split` does what it is for if and only if there are fewer elements than pointers and
the empty ones come last. -/
theorem dependsSplit_ok_iff (vec : Pointers) (str : Text) :
    SplitOk vec str ↔ (elements str).length < dependsMax ∧ Gapless str := by
  have hgapless : ((elements str).map elementName).takeWhile (· ≠ []) = dependsNames str ↔
      Gapless str := by
    rw [dependsNames, Lib.takeWhile_eq_filter_iff, List.pairwise_map, Gapless]
    simp [not_imp_not]
  have hspec := dependsSplit_spec vec str
  split at hspec
  · next hroom =>
      obtain ⟨s, hrun, hnull, hnames⟩ := hspec
      constructor
      · rintro ⟨s', hrun', -, hnames'⟩
        obtain rfl := Option.some.inj (hrun.symm.trans hrun')
        exact ⟨hroom, hgapless.mp (hnames.symm.trans hnames')⟩
      · rintro ⟨-, h⟩
        exact ⟨s, hrun, hnull, hnames.trans (hgapless.mpr h)⟩
  · next hroom =>
      constructor
      · rintro ⟨s, hrun, -⟩
        rw [hspec] at hrun
        cases hrun
      · rintro ⟨h, -⟩
        exact absurd h hroom

theorem store_length {vec' : List (Option ℕ)} {i : ℕ} {v : Option ℕ}
    (h : store vec i v = some vec') : vec'.length = vec.length := by
  unfold store at h
  split at h
  · cases h
    exact List.length_set
  · cases h

theorem splitLoop_length {i : ℕ} {before : Text} (h : splitLoop vec i before rest = some s) :
    s.vec.length = vec.length := by
  induction rest generalizing vec i before with
  | nil =>
      obtain ⟨vec', hstore, hrest⟩ := Option.bind_eq_some_iff.mp h
      cases hrest
      exact store_length hstore
  | cons c rest ih =>
      rw [splitLoop] at h
      split at h
      · obtain ⟨vec', hstore, hrest⟩ := Option.bind_eq_some_iff.mp h
        cases hrest
        exact store_length hstore
      · split at h
        · exact ih h
        · split at h
          · obtain ⟨vec', hstore, hrest⟩ := Option.bind_eq_some_iff.mp h
            exact (ih hrest).trans (store_length hstore)
          · refine (ih h).trans ?_
            split
            · exact List.length_set
            · rfl

theorem dependsSplit_length {dependsstr : Option Text} (h : dependsSplit vec dependsstr = some s) :
    s.vec.length = vec.length := by
  cases dependsstr with
  | none =>
      obtain ⟨vec₁, hstore₁, hrest⟩ := Option.bind_eq_some_iff.mp h
      obtain ⟨vec₂, hstore₂, hend⟩ := Option.bind_eq_some_iff.mp hrest
      cases hend
      exact (store_length hstore₂).trans (store_length hstore₁)
  | some str =>
      obtain ⟨vec', hstore, hrest⟩ := Option.bind_eq_some_iff.mp h
      exact (splitLoop_length hrest).trans (store_length hstore)

/-- The names that the caller reads, up to the first element that is empty. -/
def readNames (dependsstr : Option Text) : List Text :=
  dependsstr.elim [] fun str => ((elements str).map elementName).takeWhile (· ≠ [])

theorem dependsSplit_names {vec : Pointers} {dependsstr : Option Text}
    (h : dependsSplit vec.1 dependsstr = some s) : s.names = readNames dependsstr := by
  cases dependsstr with
  | none =>
      obtain ⟨vec₁, hstore₁, hrest⟩ := Option.bind_eq_some_iff.mp h
      obtain ⟨vec₂, hstore₂, hend⟩ := Option.bind_eq_some_iff.mp hrest
      cases hend
      have hvec₁ : vec₁ = vec.1.set 0 none := by
        rw [store, if_pos (by rw [vec.2]; decide)] at hstore₁
        exact (Option.some.inj hstore₁).symm
      have hvec₂ : vec₂ = vec₁.set 1 none := by
        rw [store, if_pos (by rw [hvec₁, List.length_set, vec.2]; decide)] at hstore₂
        exact (Option.some.inj hstore₂).symm
      obtain ⟨first, rest, hvec⟩ := List.exists_cons_of_ne_nil
        (List.ne_nil_of_length_pos (l := vec.1) (by rw [vec.2]; decide))
      rw [Split.names, hvec₂, hvec₁, hvec]
      rfl
  | some str =>
      have hspec := dependsSplit_spec vec str
      split at hspec
      · obtain ⟨s', hrun, -, hnames⟩ := hspec
        obtain rfl := Option.some.inj (hrun.symm.trans h)
        exact hnames
      · rw [hspec] at h
        cases h

/-- The array of a program that has not called `depends_split` before. -/
def noPointers : Pointers := ⟨List.replicate dependsMax none, List.length_replicate⟩

/-- An element behind an empty one is not read. -/
theorem emptyElement_notOk : ¬ SplitOk noPointers "a,, b" := by
  rintro ⟨s, hrun, -, hnames⟩
  obtain rfl := Option.some.inj (Eq.symm hrun)
  exact absurd hnames (by decide)

end DebianInstaller.Udpkg
