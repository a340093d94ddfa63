import DebianInstaller.Debconf.Strutl

/-!
# How variables are put in

`strexpand` makes a rope of the pieces of a string, adds up their lengths and copies them.
It is run here with the sizes of its buffers, and a run is broken off where it leaves one.
The characters may carry something that the code does not look at, such as where they come
from: `ch` is what it sees of them.

The rope grows before two more pieces are put on it, and what is added up is what is copied,
so neither the rope nor the result is ever left. What does not hold is the name of a
variable. The loop that copies it stops when there are `VAR_SIZE` characters, the `NUL` is
then written behind the array, and the character that comes next is taken for the closing
brace. Only a string that ends there is safe.
-/

namespace DebianInstaller.Debconf

open Text

/-! ## The rope -/

/-- Why a run of `strexpand` is broken off. -/
inductive ExpandFault where
  /-- It writes behind `var`, `rope` or `dest`. -/
  | outside
  /-- `i` is counted over the largest `int`. -/
  | overflow
  /-- An assertion of the function that looks up. -/
  | assertion
  | unfinished
  deriving DecidableEq

/-- `INITIAL_ROPE_SIZE`. -/
def initialRopeSize : Nat := 128

/-- The entries before `rope_index`, the one there, and the sizes. -/
structure Rope (α : Type) where
  entries : List (List α × Nat) := []
  str : List α
  len : Nat := 0
  ropeSize : Nat := initialRopeSize
  destSize : Nat := 1

variable {α : Type}

/-- `dest_size += rope[rope_index++].len`, and the entry there. -/
def Rope.next (r : Rope α) (piece : List α × Nat) : Except ExpandFault (Rope α) :=
  if r.entries.length + 1 < r.ropeSize then
    .ok { r with
      entries := r.entries ++ [(r.str, r.len)], str := piece.1, len := piece.2
      destSize := r.destSize + r.len }
  else .error .outside

/-- Room for two more entries. -/
def Rope.grow (r : Rope α) : Rope α :=
  if r.ropeSize - 2 ≤ r.entries.length then { r with ropeSize := r.ropeSize * 2 } else r

section Expand

variable (ch : α → Char)

/-- A `${` stands here. -/
def isOpening (c : α) (t : List α) : Bool := ch c == '$' && t.head?.map ch == some '{'

/-- What is not the closing brace. -/
def inName (c : α) : Bool := ch c != '}'

/-- What is put in for a variable, or the text that is skipped. -/
def pieceFor (found : Option (List α)) (here : List α) (j : Nat) : List α × Nat :=
  match found with
  | none => (here, j + 3)
  | some s => (s, s.length)

/-- The entries for a variable and for what is behind it. -/
def Rope.put (r : Rope α) (found : Option (List α)) (here : List α) (j : Nat) (rest : List α) :
    Except ExpandFault (Rope α) :=
  match r.next (pieceFor found here j) with
  | .error f => .error f
  | .ok r => r.next (rest, 0)

/-- The loop that makes the rope, from `src[i]` on, for a number of rounds. -/
def ropeLoop (func : List α → Except ExpandFault (Option (List α))) :
    Nat → List α → Rope α → Except ExpandFault (Rope α)
  | _, [], r => .ok r
  | 0, _ :: _, _ => .error .unfinished
  | n + 1, c :: t, r =>
      if !isOpening ch c t then ropeLoop func n t { r with len := r.len + 1 }
      else
        let r := r.grow
        let var := (t.tail.take varSize).takeWhile (inName ch)
        match t.tail.drop var.length with
        | [] => .ok { r with len := r.str.length }
        | _ :: rest =>
            -- `var[j] = '\0'`
            if varSize ≤ var.length then .error .outside
            else
              match func var with
              | .error f => .error f
              | .ok found =>
                  match r.put found (c :: t) var.length rest with
                  | .error f => .error f
                  | .ok r => ropeLoop func n rest r

/-- The entries are copied with `strncpy`, and a `NUL` is put behind them. -/
def dumpRope (nul : α) (destSize : Nat) : List (List α × Nat) → List α →
    Except ExpandFault (List α)
  | [], buf => if buf.length < destSize then .ok buf else .error .outside
  | (str, len) :: entries, buf =>
      if destSize < buf.length + len then .error .outside
      else
        dumpRope nul destSize entries
          (buf ++ (str.take len ++ List.replicate (len - str.length) nul))

/-- `strexpand`. The index comes to the end of the string, if nothing breaks it off. -/
def strexpandRun (nul : α) (func : List α → Except ExpandFault (Option (List α)))
    (src : List α) : Except ExpandFault (List α) :=
  if intMax < src.length then .error .overflow
  else
    match ropeLoop ch func src.length src { str := src } with
    | .error f => .error f
    | .ok r => dumpRope nul (r.destSize + r.len) (r.entries ++ [(r.str, r.len)]) []

/-! ## What is meant -/

/-- The name behind a `${`. -/
def nameOf (t : List α) : List α := t.tail.takeWhile (inName ch)

/-- Behind the closing brace, if there is one. -/
def behindName (t : List α) : Option (List α) :=
  match t.tail.dropWhile (inName ch) with
  | [] => none
  | _ :: rest => some rest

/-- Every variable is replaced that something is found for, whatever the length of its name,
for a number of characters. -/
def replaced (lookup : List α → Option (List α)) : Nat → List α → List α
  | _, [] => []
  | 0, c :: t => c :: t
  | n + 1, c :: t =>
      if !isOpening ch c t then c :: replaced lookup n t
      else
        match behindName ch t with
        | none => c :: t
        | some rest =>
            (lookup (nameOf ch t)).getD (c :: t.take ((nameOf ch t).length + 2)) ++
              replaced lookup n rest

/-- The names are looked up without a fault and have fewer than `VAR_SIZE` characters, and
behind a `${` that is not closed there are no more than that. -/
def namesFit (ok : List α → Bool) : Nat → List α → Bool
  | _, [] => true
  | 0, _ :: _ => true
  | n + 1, c :: t =>
      if !isOpening ch c t then namesFit ok n t
      else
        match behindName ch t with
        | none => t.tail.length ≤ varSize
        | some rest => (nameOf ch t).length < varSize && ok (nameOf ch t) && namesFit ok n rest

end Expand

/-! ## One variable -/

section Variable

variable {ch : α → Char} {func : List α → Except ExpandFault (Option (List α))} {c : α}
  {t rest : List α} {r : Rope α} {n : Nat}

theorem behindName_eq_some (h : behindName ch t = some rest) :
    ∃ d, ch d = '}' ∧ t.tail = nameOf ch t ++ d :: rest := by
  have hsplit := List.takeWhile_append_dropWhile (p := inName ch) (l := t.tail)
  have hhead := List.head?_dropWhile_not (inName ch) t.tail
  unfold behindName at h
  split at h
  · cases h
  · next d rest' hdrop =>
      obtain rfl := Option.some.inj h
      rw [hdrop] at hsplit hhead
      refine ⟨d, ?_, hsplit.symm⟩
      simpa [inName] using hhead

theorem behindName_eq_none (h : behindName ch t = none) : nameOf ch t = t.tail := by
  have hsplit := List.takeWhile_append_dropWhile (p := inName ch) (l := t.tail)
  unfold behindName at h
  split at h
  · next hdrop =>
      rw [hdrop, List.append_nil] at hsplit
      exact hsplit
  · cases h

theorem ropeLoop_open (hopen : isOpening ch c t = true) (h : behindName ch t = none) :
    ropeLoop ch func (n + 1) (c :: t) r =
      if t.tail.length ≤ varSize then .ok { r.grow with len := r.grow.str.length }
      else .error .outside := by
  have hname : t.tail.takeWhile (inName ch) = t.tail := behindName_eq_none h
  rw [ropeLoop, hopen]
  simp only [Bool.not_true, Bool.false_eq_true, if_false, ← List.take_takeWhile, hname,
    List.length_take]
  by_cases hlen : t.tail.length ≤ varSize
  · rw [if_pos hlen, Nat.min_eq_right hlen, List.drop_length]
  · have hmin : min varSize t.tail.length = varSize := Nat.min_eq_left (by omega)
    have hdrop : t.tail.drop varSize ≠ [] := by
      rw [Ne, List.drop_eq_nil_iff]
      exact hlen
    obtain ⟨d, rest, hd⟩ := List.exists_cons_of_ne_nil hdrop
    rw [hmin, if_neg hlen, hd]
    exact if_pos (Nat.le_refl _)

/-- One that is closed is looked up, if its name leaves room for the `NUL`. -/
theorem ropeLoop_closed (hopen : isOpening ch c t = true) (h : behindName ch t = some rest) :
    ropeLoop ch func (n + 1) (c :: t) r =
      if varSize ≤ (nameOf ch t).length then .error .outside
      else
        match func (nameOf ch t) with
        | .error f => .error f
        | .ok found =>
            match r.grow.put found (c :: t) (nameOf ch t).length rest with
            | .error f => .error f
            | .ok r => ropeLoop ch func n rest r := by
  obtain ⟨d, -, ht⟩ := behindName_eq_some h
  have hname : t.tail.takeWhile (inName ch) = nameOf ch t := rfl
  rw [ropeLoop, hopen]
  simp only [Bool.not_true, Bool.false_eq_true, if_false, ← List.take_takeWhile, hname]
  by_cases hlen : varSize ≤ (nameOf ch t).length
  · have hmin : ((nameOf ch t).take varSize).length = varSize := by
      rw [List.length_take, Nat.min_eq_left hlen]
    have hdrop : t.tail.drop varSize ≠ [] := by
      rw [Ne, List.drop_eq_nil_iff, ht, List.length_append, List.length_cons]
      omega
    obtain ⟨e, rest', he⟩ := List.exists_cons_of_ne_nil hdrop
    rw [hmin, if_pos hlen, he]
    exact if_pos (Nat.le_refl _)
  · have htake : (nameOf ch t).take varSize = nameOf ch t := List.take_of_length_le (by omega)
    have hdrop : t.tail.drop (nameOf ch t).length = d :: rest := by
      rw [ht, List.drop_left]
    rw [htake, hdrop]

end Variable

/-! ## The rope and its sizes -/

/-- The text of some entries, and its length. -/
def ropeText (entries : List (List α × Nat)) : List α := entries.flatMap fun e => e.1.take e.2

/-- What has been read is in the entries, the last one is followed by what has not, and the
sizes are large enough. -/
structure Rope.Sound (r : Rope α) (last rest : List α) : Prop where
  str : r.str = last ++ rest
  len : r.len = last.length
  room : r.entries.length < r.ropeSize
  large : 2 ≤ r.ropeSize
  pieces : ∀ e ∈ r.entries, e.2 ≤ e.1.length
  dest : r.destSize = (ropeText r.entries).length + 1

variable {r : Rope α} {last rest : List α}

theorem Rope.Sound.grow (h : r.Sound last rest) :
    r.grow.Sound last rest ∧ r.grow.entries = r.entries ∧ r.entries.length + 2 < r.grow.ropeSize := by
  have hlarge := h.large
  have hroom := h.room
  unfold Rope.grow
  split
  · next hfull =>
      have hroom' : r.entries.length + 2 < r.ropeSize * 2 := by omega
      have hlarge' : 2 ≤ r.ropeSize * 2 := by omega
      exact ⟨⟨h.str, h.len, Nat.lt_of_le_of_lt (Nat.le_add_right _ 2) hroom', hlarge', h.pieces,
        h.dest⟩, rfl, hroom'⟩
  · exact ⟨h, rfl, by omega⟩

theorem Rope.Sound.step (h : r.Sound last rest) {c : α} {t : List α} (hrest : rest = c :: t) :
    Rope.Sound { r with len := r.len + 1 } (last ++ [c]) t where
  str := by rw [h.str, hrest, List.append_assoc, List.singleton_append]
  len := by rw [List.length_append, ← h.len]; rfl
  room := h.room
  large := h.large
  pieces := h.pieces
  dest := h.dest

/-- The entry is closed and another one is begun. -/
theorem Rope.Sound.next (h : r.Sound last rest) (hroom : r.entries.length + 1 < r.ropeSize)
    (str' last' rest' : List α) (hstr : str' = last' ++ rest') :
    ∃ r', r.next (str', last'.length) = .ok r' ∧ r'.Sound last' rest' ∧
      ropeText r'.entries = ropeText r.entries ++ last ∧
      r'.entries.length = r.entries.length + 1 ∧ r'.ropeSize = r.ropeSize := by
  have hentries : r.str.take r.len = last := by
    rw [h.str, h.len, List.take_left]
  have htext : ropeText (r.entries ++ [(r.str, r.len)]) = ropeText r.entries ++ last := by
    unfold ropeText
    rw [List.flatMap_append, List.flatMap_singleton, hentries]
  refine ⟨_, if_pos hroom, ⟨hstr, rfl, ?_, h.large, ?_, ?_⟩, htext, ?_, rfl⟩
  · show (r.entries ++ [(r.str, r.len)]).length < r.ropeSize
    rw [List.length_append]
    exact hroom
  · intro e he
    rcases List.mem_append.mp he with he | he
    · exact h.pieces e he
    · obtain rfl := List.mem_singleton.mp he
      show r.len ≤ r.str.length
      rw [h.str, h.len, List.length_append]
      omega
  · show r.destSize + r.len = _
    rw [htext, List.length_append, h.dest, h.len]
    omega
  · show (r.entries ++ [(r.str, r.len)]).length = _
    rw [List.length_append]
    rfl

theorem dumpRope_eq (nul : α) {size : Nat} {entries : List (List α × Nat)}
    (hlen : ∀ e ∈ entries, e.2 ≤ e.1.length) (buf : List α)
    (hsize : (buf ++ ropeText entries).length < size) :
    dumpRope nul size entries buf = .ok (buf ++ ropeText entries) := by
  induction entries generalizing buf with
  | nil =>
      rw [ropeText, List.flatMap_nil, List.append_nil] at hsize ⊢
      exact if_pos hsize
  | cons e entries ih =>
      obtain ⟨he, hlen⟩ := List.forall_mem_cons.mp hlen
      have htext : ropeText (e :: entries) = e.1.take e.2 ++ ropeText entries := List.flatMap_cons
      have hpad : e.1.take e.2 ++ List.replicate (e.2 - e.1.length) nul = e.1.take e.2 := by
        rw [Nat.sub_eq_zero_of_le he, List.replicate_zero, List.append_nil]
      rw [htext] at hsize ⊢
      have htake : (e.1.take e.2).length = e.2 := List.length_take_of_le he
      have hsize' := hsize
      rw [List.length_append, List.length_append, htake] at hsize'
      show (if size < buf.length + e.2 then _ else dumpRope nul size entries _) = _
      rw [if_neg (by omega), hpad, ih hlen _ (by rwa [List.append_assoc]), List.append_assoc]

/-! ## The whole string -/

section Whole

variable {ch : α → Char} {func : List α → Except ExpandFault (Option (List α))}
  {ok : List α → Bool} {f : List α → Option (List α)}

theorem pieceFor_eq {c : α} {t rest : List α} (h : behindName ch t = some rest)
    (found : Option (List α)) :
    ∃ piece after, pieceFor found (c :: t) (nameOf ch t).length = (piece ++ after, piece.length) ∧
      piece = found.getD (c :: t.take ((nameOf ch t).length + 2)) := by
  cases found with
  | some s => exact ⟨s, [], by rw [List.append_nil]; rfl, rfl⟩
  | none =>
      obtain ⟨d, -, ht⟩ := behindName_eq_some h
      have hlen : (nameOf ch t).length + 2 ≤ t.length := by
        have := congrArg List.length ht
        rw [List.length_tail, List.length_append, List.length_cons] at this
        omega
      refine ⟨c :: t.take ((nameOf ch t).length + 2), t.drop ((nameOf ch t).length + 2), ?_, rfl⟩
      rw [List.cons_append, List.take_append_drop, List.length_cons, List.length_take_of_le hlen]
      rfl

theorem Rope.Sound.put {c : α} {t rest rest' : List α} (h : r.Sound last rest')
    (hbehind : behindName ch t = some rest) (found : Option (List α)) :
    ∃ r', r.grow.put found (c :: t) (nameOf ch t).length rest = .ok r' ∧ r'.Sound [] rest ∧
      ropeText r'.entries = ropeText r.entries ++ last ++
        found.getD (c :: t.take ((nameOf ch t).length + 2)) := by
  obtain ⟨hgrow, hentries, hroom⟩ := h.grow
  obtain ⟨piece, after, hpiece, hput⟩ := pieceFor_eq (c := c) hbehind found
  obtain ⟨r₁, hr₁, hs₁, ht₁, hl₁, hz₁⟩ := hgrow.next (by rw [hentries]; omega) _ piece after rfl
  obtain ⟨r₂, hr₂, hs₂, ht₂, -, -⟩ := hs₁.next (by rw [hl₁, hz₁, hentries]; omega) rest [] rest rfl
  refine ⟨r₂, ?_, hs₂, ?_⟩
  · unfold Rope.put
    rw [hpiece, hr₁]
    exact hr₂
  · rw [ht₂, ht₁, hentries, hput]

/-- The loop comes to its end exactly if the names fit, and then the rope is the string with
its variables replaced. -/
theorem ropeLoop_spec (hok : ∀ name, ok name = true → func name = .ok (f name))
    (herr : ∀ name, ok name = false → ∃ e, func name = .error e) {n : Nat} {t : List α}
    (hn : t.length ≤ n) (h : r.Sound last t) :
    (namesFit ch ok n t = true → ∃ r' last', ropeLoop ch func n t r = .ok r' ∧
      r'.Sound last' [] ∧
        ropeText r'.entries ++ last' = ropeText r.entries ++ last ++ replaced ch f n t) ∧
    (namesFit ch ok n t = false → ∃ e, ropeLoop ch func n t r = .error e) := by
  induction n generalizing t r last with
  | zero =>
      obtain rfl := List.eq_nil_of_length_eq_zero (Nat.le_zero.mp hn)
      exact ⟨fun _ => ⟨r, last, rfl, h, (List.append_nil _).symm⟩, fun h' => by cases h'⟩
  | succ n ih =>
      cases t with
      | nil => exact ⟨fun _ => ⟨r, last, rfl, h, (List.append_nil _).symm⟩, fun h' => by cases h'⟩
      | cons c t =>
          have htn : t.length ≤ n := Nat.le_of_succ_le_succ hn
          by_cases hopen : isOpening ch c t = true
          · cases hbehind : behindName ch t with
            | none =>
                have hfit : namesFit ch ok (n + 1) (c :: t) = decide (t.tail.length ≤ varSize) := by
                  rw [namesFit, hopen, hbehind]
                  rfl
                have hrep : replaced ch f (n + 1) (c :: t) = c :: t := by
                  rw [replaced, hopen, hbehind]
                  rfl
                obtain ⟨hgrow, hentries, -⟩ := h.grow
                rw [hfit, hrep, ropeLoop_open hopen hbehind]
                constructor
                · intro hlen
                  rw [if_pos (of_decide_eq_true hlen)]
                  refine ⟨_, last ++ (c :: t), rfl, ⟨?_, ?_, hgrow.room, hgrow.large,
                    hgrow.pieces, hgrow.dest⟩, ?_⟩
                  · rw [List.append_nil]
                    exact hgrow.str
                  · exact congrArg List.length hgrow.str
                  · show ropeText r.grow.entries ++ _ = _
                    rw [hentries, List.append_assoc]
                · intro hlen
                  rw [if_neg (of_decide_eq_false hlen)]
                  exact ⟨_, rfl⟩
            | some rest =>
                have hfit : namesFit ch ok (n + 1) (c :: t) =
                    (decide ((nameOf ch t).length < varSize) && ok (nameOf ch t) &&
                      namesFit ch ok n rest) := by
                  rw [namesFit, hopen, hbehind]
                  rfl
                have hrep : replaced ch f (n + 1) (c :: t) =
                    (f (nameOf ch t)).getD (c :: t.take ((nameOf ch t).length + 2)) ++
                      replaced ch f n rest := by
                  rw [replaced, hopen, hbehind]
                  rfl
                rw [hfit, hrep, ropeLoop_closed hopen hbehind]
                by_cases hlen : varSize ≤ (nameOf ch t).length
                · rw [if_pos hlen, decide_eq_false (by omega)]
                  exact ⟨fun h' => (by cases h'), fun _ => ⟨_, rfl⟩⟩
                · rw [if_neg hlen, decide_eq_true (by omega)]
                  cases hname : ok (nameOf ch t) with
                  | false =>
                      obtain ⟨e, he⟩ := herr _ hname
                      rw [he]
                      exact ⟨fun h' => (by cases h'), fun _ => ⟨e, rfl⟩⟩
                  | true =>
                      obtain ⟨d, -, ht⟩ := behindName_eq_some hbehind
                      have hrest : rest.length ≤ n := by
                        have := congrArg List.length ht
                        rw [List.length_tail, List.length_append, List.length_cons] at this
                        omega
                      obtain ⟨r₁, hr₁, hs₁, ht₁⟩ := h.put (c := c) hbehind (f (nameOf ch t))
                      obtain ⟨hrun, hbad⟩ := ih hrest hs₁
                      simp only [hok _ hname, hr₁, Bool.true_and]
                      refine ⟨fun hfits => ?_, hbad⟩
                      obtain ⟨r', last', hr', hs', ht'⟩ := hrun hfits
                      refine ⟨r', last', hr', hs', ?_⟩
                      rw [ht', ht₁, List.append_nil, List.append_assoc (ropeText r.entries ++ last)]
          · have hopen : isOpening ch c t = false := by simpa using hopen
            have hstep : ropeLoop ch func (n + 1) (c :: t) r =
                ropeLoop ch func n t { r with len := r.len + 1 } := by
              rw [ropeLoop, hopen]
              rfl
            have hfit : namesFit ch ok (n + 1) (c :: t) = namesFit ch ok n t := by
              rw [namesFit, hopen]
              rfl
            have hrep : replaced ch f (n + 1) (c :: t) = c :: replaced ch f n t := by
              rw [replaced, hopen]
              rfl
            obtain ⟨hrun, hbad⟩ := ih htn (h.step rfl)
            rw [hstep, hfit, hrep]
            refine ⟨fun hfits => ?_, hbad⟩
            obtain ⟨r', last', hr', hs', ht'⟩ := hrun hfits
            refine ⟨r', last', hr', hs', ht'.trans ?_⟩
            show ropeText r.entries ++ (last ++ [c]) ++ _ = _
            simp only [List.append_assoc, List.singleton_append]

/-- `strexpand` stays within its buffers exactly if the names fit and an `int` counts the
string, and then it gives the string with its variables replaced. -/
theorem strexpandRun_spec (nul : α) (hok : ∀ name, ok name = true → func name = .ok (f name))
    (herr : ∀ name, ok name = false → ∃ e, func name = .error e) (src : List α) :
    (namesFit ch ok src.length src = true ∧ src.length ≤ intMax →
      strexpandRun ch nul func src = .ok (replaced ch f src.length src)) ∧
    (¬ (namesFit ch ok src.length src = true ∧ src.length ≤ intMax) →
      ∃ e, strexpandRun ch nul func src = .error e) := by
  have hroom : 0 < initialRopeSize := by decide
  have hlarge : 2 ≤ initialRopeSize := by decide
  have hsound : Rope.Sound { str := src } [] src :=
    ⟨rfl, rfl, hroom, hlarge, fun e he => absurd he List.not_mem_nil, rfl⟩
  obtain ⟨hrun, hbad⟩ := @ropeLoop_spec α _ _ ch func ok f hok herr _ src (Nat.le_refl _) hsound
  unfold strexpandRun
  by_cases hint : intMax < src.length
  · rw [if_pos hint]
    exact ⟨fun h => absurd h.2 (by omega), fun _ => ⟨_, rfl⟩⟩
  · rw [if_neg hint]
    constructor
    · rintro ⟨hfits, -⟩
      obtain ⟨r, last, hr, hs, ht⟩ := hrun hfits
      have hlast : r.str.take r.len = last := by
        rw [hs.str, hs.len, List.append_nil, List.take_length]
      have htext : ropeText (r.entries ++ [(r.str, r.len)]) = replaced ch f src.length src := by
        rw [ropeText, List.flatMap_append, List.flatMap_singleton, hlast]
        exact ht
      have hpieces : ∀ e ∈ r.entries ++ [(r.str, r.len)], e.2 ≤ e.1.length := by
        intro e he
        rcases List.mem_append.mp he with he | he
        · exact hs.pieces e he
        · obtain rfl := List.mem_singleton.mp he
          show r.len ≤ r.str.length
          rw [hs.str, hs.len, List.append_nil]
      have hsize : ([] ++ ropeText (r.entries ++ [(r.str, r.len)])).length < r.destSize + r.len := by
        have hlen := congrArg List.length ht
        rw [List.length_append] at hlen
        rw [List.nil_append, htext, hs.dest, hs.len]
        have hrep : (replaced ch f src.length src).length =
            (ropeText r.entries).length + last.length := hlen.symm
        omega
      simp only [hr]
      rw [dumpRope_eq nul hpieces [] hsize, List.nil_append, htext]
    · intro h
      obtain ⟨e, he⟩ := hbad (by
        refine Bool.eq_false_iff.mpr fun hfits => h ⟨hfits, by omega⟩)
      rw [he]
      exact ⟨e, rfl⟩

end Whole

/-! ## What the code does not look at -/

section Erase

variable {β : Type} {ch : β → Char} (g : α → β)

theorem isOpening_map (c : α) (t : List α) :
    isOpening ch (g c) (t.map g) = isOpening (fun a => ch (g a)) c t := by
  unfold isOpening
  rw [List.head?_map, Option.map_map]
  rfl

theorem nameOf_map (t : List α) : nameOf ch (t.map g) = (nameOf (fun a => ch (g a)) t).map g := by
  unfold nameOf
  rw [← List.map_tail, List.takeWhile_map]
  rfl

theorem behindName_map (t : List α) :
    behindName ch (t.map g) = (behindName (fun a => ch (g a)) t).map (List.map g) := by
  have hdrop : (t.map g).tail.dropWhile (inName ch) =
      (t.tail.dropWhile (inName fun a => ch (g a))).map g := by
    rw [← List.map_tail, List.dropWhile_map]
    rfl
  unfold behindName
  rw [hdrop]
  cases t.tail.dropWhile (inName fun a => ch (g a)) <;> rfl

theorem replaced_map {f : List α → Option (List α)} {f' : List β → Option (List β)}
    (hf : ∀ name, (f name).map (List.map g) = f' (name.map g)) (n : Nat) (t : List α) :
    (replaced (fun a => ch (g a)) f n t).map g = replaced ch f' n (t.map g) := by
  induction n generalizing t with
  | zero => cases t <;> rfl
  | succ n ih =>
      cases t with
      | nil => rfl
      | cons c t =>
          rw [List.map_cons, replaced, replaced, isOpening_map, behindName_map, nameOf_map]
          cases isOpening (fun a => ch (g a)) c t with
          | false =>
              show (c :: replaced _ f n t).map g = g c :: replaced ch f' n (t.map g)
              rw [List.map_cons, ih]
          | true =>
              cases behindName (fun a => ch (g a)) t with
              | none => rfl
              | some rest =>
                  show List.map g (_ ++ replaced _ f n rest) = _ ++ replaced ch f' n (rest.map g)
                  rw [List.map_append, ih, ← hf, List.length_map]
                  cases f (nameOf (fun a => ch (g a)) t) with
                  | none =>
                      show (c :: t.take _).map g ++ _ = (g c :: (t.map g).take _) ++ _
                      rw [List.map_cons, List.map_take]
                  | some s => rfl

theorem namesFit_map {ok : List α → Bool} {ok' : List β → Bool}
    (hok : ∀ name, ok name = ok' (name.map g)) (n : Nat) (t : List α) :
    namesFit (fun a => ch (g a)) ok n t = namesFit ch ok' n (t.map g) := by
  induction n generalizing t with
  | zero => cases t <;> rfl
  | succ n ih =>
      cases t with
      | nil => rfl
      | cons c t =>
          rw [List.map_cons, namesFit, namesFit, isOpening_map, behindName_map, nameOf_map]
          cases isOpening (fun a => ch (g a)) c t with
          | false => exact ih t
          | true =>
              cases behindName (fun a => ch (g a)) t with
              | none =>
                  show decide (t.tail.length ≤ varSize) = decide ((t.map g).tail.length ≤ varSize)
                  rw [← List.map_tail, List.length_map]
              | some rest =>
                  show (_ && _ && namesFit _ ok n rest) = (_ && _ && namesFit ch ok' n (rest.map g))
                  rw [ih, hok, List.length_map]

end Erase

/-! ## Strings -/

/-- `strexpand` of a string, with a function that looks up names. -/
def strexpandText (lookup : Text → Option Text) (src : Text) : Except ExpandFault Text :=
  strexpandRun id '\x00' (fun name => .ok (lookup name)) src

/-- A string with its variables replaced. -/
def withVariables (lookup : Text → Option Text) (src : Text) : Text :=
  replaced id lookup src.length src

/-- `strexpand` replaces the variables of a string and leaves no buffer exactly if each name
has fewer than `VAR_SIZE` characters, no more than that follow a `${` that is not closed,
and an `int` counts the string. -/
theorem strexpand_iff (lookup : Text → Option Text) (src : Text) :
    strexpandText lookup src = .ok (withVariables lookup src) ↔
      namesFit id (fun _ => true) src.length src = true ∧ src.length ≤ intMax := by
  obtain ⟨hrun, hbad⟩ := @strexpandRun_spec Char id (fun name => .ok (lookup name))
    (fun _ => true) lookup '\x00' (fun _ _ => rfl) (fun _ h => by cases h) src
  constructor
  · intro h
    by_contra hno
    obtain ⟨e, he⟩ := hbad hno
    rw [strexpandText, he] at h
    cases h
  · exact hrun

/-- A name of one hundred characters. -/
def longName : Text := '$' :: '{' :: (List.replicate varSize 'a' ++ ['}'])

theorem strexpand_longName :
    strexpandText (fun _ => some ['x']) longName = .error .outside ∧
      withVariables (fun _ => some ['x']) longName = ['x'] ∧
      strexpandText (fun _ => some ['x']) longName ≠
        .ok (withVariables (fun _ => some ['x']) longName) := by
  have h : strexpandText (fun _ => some ['x']) longName = .error .outside := rfl
  refine ⟨h, rfl, fun h' => ?_⟩
  rw [h] at h'
  cases h'

theorem isOpening_iff {c : Char} {t : Text} :
    isOpening id c t = true ↔ c = '$' ∧ ∃ t', t = '{' :: t' := by
  unfold isOpening
  cases t with
  | nil => simp
  | cons d t => simp

theorem expandFrom_eq (lookup : Text → Option Text) {n : Nat} {t : Text} (hn : t.length ≤ n)
    (h : namesFit id (fun _ => true) n t = true) :
    expandFrom lookup n t = replaced id lookup n t := by
  induction n generalizing t with
  | zero =>
      obtain rfl := List.eq_nil_of_length_eq_zero (Nat.le_zero.mp hn)
      rfl
  | succ n ih =>
      cases t with
      | nil => rfl
      | cons c t =>
          by_cases hopen : isOpening id c t = true
          · obtain ⟨rfl, t, rfl⟩ := isOpening_iff.mp hopen
            have htake : ((t.take varSize).takeWhile fun c => c != '}') =
                (nameOf id ('{' :: t)).take varSize := List.take_takeWhile.symm
            rw [expandFrom, replaced, hopen, htake]
            rw [namesFit, hopen] at h
            cases hbehind : behindName id ('{' :: t) with
            | none =>
                have hname : nameOf id ('{' :: t) = t := behindName_eq_none hbehind
                have hlen : t.length ≤ varSize := by
                  rw [hbehind] at h
                  exact of_decide_eq_true h
                rw [hname, List.take_of_length_le hlen, List.drop_length]
                rfl
            | some rest =>
                obtain ⟨d, hd, ht⟩ := behindName_eq_some hbehind
                obtain rfl : d = '}' := hd
                have ht : t = nameOf id ('{' :: t) ++ '}' :: rest := ht
                rw [hbehind] at h
                simp only [Bool.not_true, Bool.false_eq_true, if_false, Bool.and_true,
                  Bool.and_eq_true, decide_eq_true_eq] at h
                obtain ⟨hlen, hrest⟩ := h
                generalize nameOf id ('{' :: t) = name at ht hlen ⊢
                subst ht
                rw [List.take_of_length_le (Nat.le_of_lt hlen), List.drop_left]
                simp only [Bool.not_true, Bool.false_eq_true, if_false, List.take_succ_cons]
                have hspan : (name ++ '}' :: rest).take (name.length + 1) = name ++ ['}'] := by
                  rw [List.take_length_add_append]
                  rfl
                rw [hspan, ih ?_ hrest]
                · rfl
                · simp only [List.length_cons, List.length_append] at hn
                  omega
          · have hopen' : isOpening id c t = false := by simpa using hopen
            rw [namesFit, hopen'] at h
            rw [expandFrom.eq_4 lookup n c t fun t' h₁ h₂ => hopen (isOpening_iff.mpr ⟨h₁, t', h₂⟩),
              replaced, hopen', ih (Nat.le_of_succ_le_succ hn) h]
            rfl

/-- Where the names fit and an `int` counts the string, the rope comes to what the plain recursion
makes of it. -/
theorem strexpandText_strexpand (lookup : Text → Option Text) {src : Text}
    (h : namesFit id (fun _ => true) src.length src = true) (hlen : src.length ≤ intMax) :
    strexpandText lookup src = .ok (strexpand lookup src) := by
  have hplain : strexpand lookup src = replaced id lookup src.length src :=
    expandFrom_eq lookup (Nat.le_refl _) h
  obtain ⟨hrun, -⟩ := @strexpandRun_spec Char id (fun name => .ok (lookup name))
    (fun _ => true) lookup '\x00' (fun _ _ => rfl) (fun _ h => by cases h) src
  rw [hplain]
  exact hrun ⟨h, hlen⟩

theorem strexpandText_strexpand_open :
    strexpandText (fun name => if name = ['A'] then some ['x', 'y'] else none)
        "$\x7bA\x7d$A$\x7bB\x7d $\x7b" =
      .ok (strexpand (fun name => if name = ['A'] then some ['x', 'y'] else none)
        "$\x7bA\x7d$A$\x7bB\x7d $\x7b") :=
  strexpandText_strexpand _ (by decide) (by decide)

end DebianInstaller.Debconf
