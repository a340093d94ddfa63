import DebianInstaller.Packages.Basic
import DebianInstaller.Debconf.Strutl

/-!
# The choices that anna offers

`list_to_choices` writes the names of some packages, or their names and short
descriptions, as the choices of a debconf question, and `strchoicesplit` takes them
apart again. Each package goes through a buffer of 200 bytes, where `choice_strcpy`
puts a backslash before every comma and stops when the room, counted without the last
two bytes, is used up.

On the way back a backslash before a comma or a blank is an escape, and nothing was
done about the backslashes a text had of its own. One at the end of a text joins it to
the next one, and one before a blank is lost, which shows unless only blanks follow.
A comma as the last character that fits takes the name one byte further than the room:
for `package_to_choice` the room that is left is then a large number, and it writes
behind the buffer.
-/

namespace DebianInstaller.Packages

open Text Debconf

variable {ι : Type} {c : Char} {ps : List (Package ι)} {t w : Text}

variable {n : Nat} {packages : List (Package ι)} {ts ws : List Text}

/-! ## The code -/

/-- `char buf[200]`. -/
def bufSize : Nat := 200

/-- The difference of two values of `size_t`. -/
def sizeSub (a b : Nat) : Nat := (2 ^ 64 + a - b) % 2 ^ 64

/-- The loop of `choice_strcpy`: what is written from `dest[n]` on. -/
def choiceStrcpyFrom (limit : Nat) : Nat → Text → Text
  | _, [] => []
  | n, c :: src =>
      if n < limit then
        if c = ',' then '\\' :: c :: choiceStrcpyFrom limit (n + 2) src
        else c :: choiceStrcpyFrom limit (n + 1) src
      else []

/-- `choice_strcpy`. -/
def choiceStrcpy (src : Text) (size : Nat) : Text := choiceStrcpyFrom (sizeSub size 2) 0 src

/-- A string and its NUL are written to `buf + n`, or beyond the buffer. -/
def bufPut (n : Nat) (w : Text) : Option Text := if n + w.length < bufSize then some w else none

/-- `package_to_choice`. There must be a description to copy from. -/
def packageToChoice (p : Package ι) : Option Text := do
  let name ← bufPut 0 (choiceStrcpy p.package bufSize)
  let n := name.length
  let colon ← bufPut n (choiceStrcpy ": " (sizeSub bufSize n))
  let n := n + colon.length
  let src ← p.shortDescription
  let description ← bufPut n (choiceStrcpy src (sizeSub bufSize n))
  return name ++ colon ++ description

/-- What `list_to_choices` has in its buffer for a package. -/
def choiceBuf (cValues : Bool) (p : Package ι) : Option Text :=
  if cValues then bufPut 0 (choiceStrcpy p.package bufSize) else packageToChoice p

/-- `list_to_choices`. -/
def listToChoices (cValues : Bool) : List (Package ι) → Option Text
  | [] => some []
  | p :: ps => do
      let buf ← choiceBuf cValues p
      let rest ← listToChoices cValues ps
      return buf ++ (if ps.isEmpty then [] else ", ") ++ rest

/-! ## What is written -/

/-- A text with a backslash before each comma. -/
def escapeCommas (w : Text) : Text := w.flatMap fun c => if c = ',' then ['\\', ','] else [c]

/-- The characters that are begun while there is room, where a comma takes up two. -/
def fitting : Nat → Text → Text
  | _, [] => []
  | 0, _ => []
  | room + 1, c :: t => c :: fitting (if c = ',' then room - 1 else room) t

/-- The room for text in the buffer. -/
def room : Nat := 198

/-- The part of a name and a description that fits. -/
def shown (name description : Text) : Text := fitting room (name ++ ": " ++ description)

@[simp]
theorem escapeCommas_nil : escapeCommas [] = [] := rfl

@[simp]
theorem escapeCommas_comma (w : Text) :
    escapeCommas (',' :: w) = '\\' :: ',' :: escapeCommas w := rfl

theorem escapeCommas_cons (hc : c ≠ ',') (w : Text) :
    escapeCommas (c :: w) = c :: escapeCommas w := by
  simp [escapeCommas, hc]

theorem choiceStrcpyFrom_eq (limit n : Nat) (src : Text) :
    choiceStrcpyFrom limit n src = escapeCommas (fitting (limit - n) src) := by
  induction src generalizing n with
  | nil => simp [choiceStrcpyFrom, fitting]
  | cons c src ih =>
      rw [choiceStrcpyFrom]
      by_cases hn : n < limit
      · obtain ⟨m, hm⟩ : ∃ m, limit - n = m + 1 := ⟨limit - n - 1, by omega⟩
        rw [if_pos hn, hm, fitting]
        by_cases hc : c = ','
        · subst hc
          have hroom : limit - (n + 2) = m - 1 := by omega
          rw [if_pos rfl, ih, hroom, if_pos rfl, escapeCommas_comma]
        · have hroom : limit - (n + 1) = m := by omega
          rw [if_neg hc, ih, hroom, if_neg hc, escapeCommas_cons hc]
      · have hroom : limit - n = 0 := by omega
        rw [if_neg hn, hroom]
        rfl

theorem prefix_fitting (r : Nat) (w : Text) : fitting r w <+: w := by
  induction w generalizing r with
  | nil => simp [fitting]
  | cons c w ih =>
      cases r with
      | zero => simp [fitting]
      | succ r => simpa [fitting] using ih _

theorem length_fitting_le (r : Nat) (w : Text) :
    (escapeCommas (fitting r w)).length ≤ r + 1 := by
  induction w generalizing r with
  | nil => simp [fitting]
  | cons c w ih =>
      cases r with
      | zero => simp [fitting]
      | succ r =>
          rw [fitting]
          by_cases hc : c = ','
          · subst hc
            rw [if_pos rfl, escapeCommas_comma]
            cases r with
            | zero => cases w <;> simp [fitting]
            | succ r =>
                have := ih r
                simp only [List.length_cons, Nat.add_sub_cancel]
                omega
          · rw [if_neg hc, escapeCommas_cons hc, List.length_cons]
            have := ih r
            omega

theorem fitting_eq_self {r : Nat} (h : (escapeCommas w).length ≤ r) : fitting r w = w := by
  induction w generalizing r with
  | nil => simp [fitting]
  | cons c w ih =>
      by_cases hc : c = ','
      · subst hc
        rw [escapeCommas_comma, List.length_cons, List.length_cons] at h
        obtain ⟨m, rfl⟩ : ∃ m, r = m + 1 := ⟨r - 1, by omega⟩
        rw [fitting, if_pos rfl, ih (by omega)]
      · rw [escapeCommas_cons hc, List.length_cons] at h
        obtain ⟨m, rfl⟩ : ∃ m, r = m + 1 := ⟨r - 1, by omega⟩
        rw [fitting, if_neg hc, ih (by omega)]

theorem escapeCommas_append (w t : Text) :
    escapeCommas (w ++ t) = escapeCommas w ++ escapeCommas t := List.flatMap_append

theorem fitting_append (r : Nat) (w t : Text) :
    fitting r (w ++ t) =
      fitting r w ++ fitting (r - (escapeCommas (fitting r w)).length) t := by
  induction w generalizing r with
  | nil => simp [fitting]
  | cons c w ih =>
      cases r with
      | zero => cases t <;> simp [fitting]
      | succ r =>
          rw [List.cons_append, fitting, fitting]
          by_cases hc : c = ','
          · subst hc
            have hroom : r + 1 - (escapeCommas (',' :: fitting (r - 1) w)).length =
                r - 1 - (escapeCommas (fitting (r - 1) w)).length := by
              rw [escapeCommas_comma, List.length_cons, List.length_cons]
              omega
            rw [if_pos rfl, ih, hroom, List.cons_append]
          · have hroom : r + 1 - (escapeCommas (c :: fitting r w)).length =
                r - (escapeCommas (fitting r w)).length := by
              rw [escapeCommas_cons hc, List.length_cons]
              omega
            rw [if_neg hc, ih, hroom, List.cons_append]

theorem bufPut_name (w : Text) :
    bufPut 0 (choiceStrcpy w bufSize) = some (escapeCommas (fitting room w)) := by
  have hlen := length_fitting_le room w
  have heq : choiceStrcpy w bufSize = escapeCommas (fitting room w) :=
    choiceStrcpyFrom_eq (sizeSub bufSize 2) 0 w
  rw [bufPut, heq, if_pos]
  simp only [room, bufSize] at hlen ⊢
  omega

theorem choiceStrcpy_behind (hn : n ≤ room) (w : Text) :
    choiceStrcpy w (sizeSub bufSize n) = escapeCommas (fitting (room - n) w) := by
  have hroom : sizeSub (sizeSub bufSize n) 2 = room - n := by
    simp only [sizeSub, bufSize, room] at hn ⊢
    omega
  rw [choiceStrcpy, hroom]
  exact choiceStrcpyFrom_eq (room - n) 0 w

theorem bufPut_behind (hn : n ≤ room) (w : Text) :
    bufPut n (choiceStrcpy w (sizeSub bufSize n)) =
      some (escapeCommas (fitting (room - n) w)) := by
  have hlen := length_fitting_le (room - n) w
  rw [choiceStrcpy_behind hn, bufPut, if_pos]
  simp only [room, bufSize] at hlen hn ⊢
  omega

theorem length_fitting_colon (r : Nat) :
    (escapeCommas (fitting r ": ")).length ≤ r := by
  match r with
  | 0 => decide
  | 1 => decide
  | r + 2 => simp [fitting, escapeCommas]

/-- `package_to_choice` writes what fits of the name and the description, unless the name
has used up the room and one byte more. -/
theorem packageToChoice_eq (p : Package ι) :
    packageToChoice p =
      if (escapeCommas (fitting room p.package)).length ≤ room then
        p.shortDescription.map fun d => escapeCommas (shown p.package d)
      else none := by
  rw [packageToChoice, bufPut_name, Option.bind_eq_bind, Option.bind_some]
  dsimp only
  by_cases hn : (escapeCommas (fitting room p.package)).length ≤ room
  · have hcolon := length_fitting_colon
      (room - (escapeCommas (fitting room p.package)).length)
    rw [if_pos hn, bufPut_behind hn, Option.bind_some]
    cases hd : p.shortDescription with
    | none => rfl
    | some d =>
        rw [Option.bind_some, bufPut_behind (by omega)]
        simp only [Option.bind_some, Option.map_some, shown, fitting_append,
          escapeCommas_append, List.length_append]
        rfl
  · have hlen : (escapeCommas (fitting room p.package)).length = 199 := by
      have := length_fitting_le room p.package
      have hroom : room = 198 := rfl
      omega
    rw [if_neg hn, hlen]
    rfl

/-! ## Reading it back -/

/-- Some texts as they stand in a list of choices. -/
def joined : List Text → Text
  | [] => []
  | [w] => escapeCommas w
  | w :: ws => escapeCommas w ++ ',' :: ' ' :: joined ws

/-- A text after a backslash before each blank is dropped. -/
def unslash : Text → Text
  | [] => []
  | '\\' :: ' ' :: t => ' ' :: unslash t
  | c :: t => c :: unslash t

/-- The choice that is read for a text. -/
def readChoice (w : Text) : Text := stripChoice (unslash (w.dropWhile isSpace))

/-- The backslash at the end of a text stands before the comma that ends it. -/
def EndsInBackslash (w : Text) : Prop := w.getLast? = some '\\'

instance (w : Text) : Decidable (EndsInBackslash w) := inferInstanceAs (Decidable (_ = _))

theorem choiceEnd_cons (hc : c ≠ ',') (ht : c = '\\' → t.head? ≠ some ',' ∧ t.head? ≠ some ' ') :
    choiceEnd (c :: t) = (c :: (choiceEnd t).1, (choiceEnd t).2) := by
  by_cases hb : c = '\\'
  · obtain ⟨h₁, h₂⟩ := ht hb
    subst hb
    cases t with
    | nil => rfl
    | cons d t =>
        have hd₁ : d ≠ ',' := fun e => h₁ (by rw [e]; rfl)
        have hd₂ : d ≠ ' ' := fun e => h₂ (by rw [e]; rfl)
        rw [choiceEnd, if_neg hc]
        · simp [hd₁]
        · simp [hd₂]
  · rw [choiceEnd, if_neg hc]
    · simp [hb]
    · simp [hb]

theorem countCommas_cons (ht : c = '\\' → t.head? ≠ some ',') :
    countCommas (c :: t) = (if c = ',' then 1 else 0) + countCommas t := by
  by_cases hb : c = '\\'
  · have h₁ := ht hb
    subst hb
    cases t with
    | nil => rfl
    | cons d t =>
        have hd₁ : d ≠ ',' := fun e => h₁ (by rw [e]; rfl)
        rw [countCommas]
        simp [hd₁]
  · rw [countCommas]
    simp [hb]

theorem unslash_cons (ht : c = '\\' → t.head? ≠ some ' ') : unslash (c :: t) = c :: unslash t := by
  rw [unslash]
  rintro t' hc rfl
  exact ht hc rfl

theorem head_escapeCommas (w r : Text) (hw : w ≠ []) :
    (escapeCommas w ++ r).head? ≠ some ',' ∧
      ((escapeCommas w ++ r).head? = some ' ' ↔ w.head? = some ' ') := by
  cases w with
  | nil => exact absurd rfl hw
  | cons c w =>
      by_cases hc : c = ','
      · subst hc
        simp
      · simp [escapeCommas_cons hc, hc]

theorem choiceEnd_escapeCommas (w r : Text)
    (hr : r = [] ∨ r.head? = some ',' ∧ ¬ EndsInBackslash w) :
    choiceEnd (escapeCommas w ++ r) = (unslash w, r) := by
  induction w using unslash.induct with
  | case1 =>
      rcases hr with rfl | ⟨hr, _⟩
      · rfl
      · cases r with
        | nil => rfl
        | cons c r =>
            obtain rfl : c = ',' := by simpa using hr
            rfl
  | case2 t ih =>
      have ht : r = [] ∨ r.head? = some ',' ∧ ¬ EndsInBackslash t := by
        refine hr.imp_right fun h => ⟨h.1, fun he => h.2 ?_⟩
        cases t with
        | nil => cases he
        | cons d t => simpa [EndsInBackslash, List.getLast?_cons_cons] using he
      rw [escapeCommas_cons (by decide), escapeCommas_cons (by decide), List.cons_append,
        List.cons_append, choiceEnd, ih ht, unslash]
  | case3 c t hnot ih =>
      have ht : r = [] ∨ r.head? = some ',' ∧ ¬ EndsInBackslash t := by
        refine hr.imp_right fun h => ⟨h.1, fun he => h.2 ?_⟩
        cases t with
        | nil => cases he
        | cons d t => simpa [EndsInBackslash, List.getLast?_cons_cons] using he
      have hblank : c = '\\' → t.head? ≠ some ' ' := by
        rintro rfl hhead
        cases t with
        | nil => cases hhead
        | cons d t =>
            obtain rfl : d = ' ' := by simpa using hhead
            exact hnot t rfl rfl
      rw [unslash_cons hblank]
      by_cases hc : c = ','
      · subst hc
        rw [escapeCommas_comma, List.cons_append, List.cons_append, choiceEnd, ih ht]
      · rw [escapeCommas_cons hc, List.cons_append, choiceEnd_cons hc, ih ht]
        intro hb
        cases t with
        | nil =>
            rcases hr with rfl | ⟨_, hend⟩
            · simp
            · exact absurd (by rw [hb]; rfl) hend
        | cons d t =>
            obtain ⟨h₁, h₂⟩ := head_escapeCommas (d :: t) r (by simp)
            exact ⟨h₁, fun h => hblank hb (h₂.mp h)⟩

theorem countCommas_escapeCommas (w r : Text) :
    countCommas (escapeCommas w ++ r) =
      countCommas (if EndsInBackslash w ∧ r.head? = some ',' then r.tail else r) := by
  induction w with
  | nil => simp [EndsInBackslash]
  | cons c w ih =>
      cases w with
      | nil =>
          by_cases hc : c = ','
          · subst hc
            simp [EndsInBackslash, countCommas]
          · rw [escapeCommas_cons hc, escapeCommas_nil, List.cons_append, List.nil_append]
            by_cases hb : c = '\\' ∧ r.head? = some ','
            · obtain ⟨rfl, hr⟩ := hb
              cases r with
              | nil => cases hr
              | cons d r =>
                  obtain rfl : d = ',' := by simpa using hr
                  simp [EndsInBackslash, countCommas]
            · rw [countCommas_cons fun h₁ h₂ => hb ⟨h₁, h₂⟩, if_neg hc, Nat.zero_add]
              simp only [EndsInBackslash, List.getLast?_singleton, Option.some.injEq]
              rw [if_neg hb]
      | cons d w =>
          have hend : EndsInBackslash (c :: d :: w) ↔ EndsInBackslash (d :: w) := by
            simp [EndsInBackslash, List.getLast?_cons_cons]
          simp only [hend]
          by_cases hc : c = ','
          · subst hc
            rw [escapeCommas_comma, List.cons_append, List.cons_append, countCommas, ih]
          · rw [escapeCommas_cons hc, List.cons_append, countCommas_cons, if_neg hc,
              Nat.zero_add, ih]
            exact fun _ => (head_escapeCommas (d :: w) r (by simp)).1

/-- No text but the last one joins itself to the next. -/
def Separate (ws : List Text) : Prop := ∀ w ∈ ws.dropLast, ¬ EndsInBackslash w

theorem separate_cons {w' : Text} :
    Separate (w :: w' :: ws) ↔ ¬ EndsInBackslash w ∧ Separate (w' :: ws) := by
  simp only [Separate, List.dropLast_cons_cons, List.forall_mem_cons]

theorem countCommas_blank (t : Text) : countCommas (' ' :: t) = countCommas t := by
  rw [countCommas_cons (by simp)]
  simp

theorem countCommas_comma (t : Text) : countCommas (',' :: t) = countCommas t + 1 := by
  rw [countCommas_cons (by simp), Nat.add_comm]
  simp

theorem countCommas_joined (w w' : Text) (ws : List Text) :
    countCommas (joined (w :: w' :: ws)) =
      countCommas (joined (w' :: ws)) + if EndsInBackslash w then 0 else 1 := by
  rw [joined, countCommas_escapeCommas]
  · by_cases hw : EndsInBackslash w
    · simp [hw, countCommas_blank]
    · simp [hw, countCommas_comma, countCommas_blank]
  · simp

theorem countCommas_joined_iff (w : Text) (ws : List Text) :
    countCommas (joined (w :: ws)) ≤ ws.length ∧
      (countCommas (joined (w :: ws)) = ws.length ↔ Separate (w :: ws)) := by
  induction ws generalizing w with
  | nil =>
      have h0 : countCommas (joined [w]) = 0 := by
        rw [joined, ← List.append_nil (escapeCommas w), countCommas_escapeCommas]
        simp [countCommas]
      simp [h0, Separate]
  | cons w' ws ih =>
      obtain ⟨hle, hiff⟩ := ih w'
      rw [countCommas_joined, separate_cons, List.length_cons, ← hiff]
      by_cases hw : EndsInBackslash w
      · simp only [hw, if_true, not_true, false_and, iff_false]
        omega
      · simp only [hw, if_false, not_false_iff, true_and]
        omega

theorem dropWhile_escapeCommas (w r : Text) (hr : r = [] ∨ r.head? = some ',') :
    (escapeCommas w ++ r).dropWhile isSpace = escapeCommas (w.dropWhile isSpace) ++ r := by
  induction w with
  | nil =>
      rcases hr with rfl | hr
      · rfl
      · cases r with
        | nil => rfl
        | cons c r =>
            obtain rfl : c = ',' := by simpa using hr
            rfl
  | cons c w ih =>
      by_cases hc : c = ','
      · subst hc
        rfl
      · rw [escapeCommas_cons hc, List.cons_append]
        by_cases hs : isSpace c
        · rw [List.dropWhile_cons_of_pos hs, List.dropWhile_cons_of_pos hs, ih]
        · rw [List.dropWhile_cons_of_neg hs, List.dropWhile_cons_of_neg hs,
            escapeCommas_cons hc, List.cons_append]

theorem not_endsInBackslash_dropWhile (h : ¬ EndsInBackslash w) :
    ¬ EndsInBackslash (w.dropWhile isSpace) := by
  intro he
  obtain ⟨a, ha⟩ := List.dropWhile_suffix (l := w) isSpace
  refine h ?_
  rw [EndsInBackslash, ← ha, List.getLast?_append, he]
  rfl

theorem strchoicesplit_joined (hsep : Separate (w :: ws)) (hne : t ≠ [])
    (ht : t.dropWhile isSpace = (joined (w :: ws)).dropWhile isSpace) :
    strchoicesplit (ws.length + 1) t = (w :: ws).map readChoice := by
  obtain ⟨c, t, rfl⟩ := List.exists_cons_of_ne_nil hne
  induction ws generalizing w c t with
  | nil =>
      have hend := choiceEnd_escapeCommas (w.dropWhile isSpace) [] (.inl rfl)
      have hdrop := dropWhile_escapeCommas w [] (.inl rfl)
      rw [List.append_nil, List.append_nil] at hdrop
      rw [List.append_nil] at hend
      rw [joined, hdrop] at ht
      simp only [List.length_nil, strchoicesplit, ht, hend]
      rfl
  | cons w' ws ih =>
      obtain ⟨hw, hsep⟩ := separate_cons.mp hsep
      rw [joined, dropWhile_escapeCommas w _ (.inr rfl)] at ht
      · have hend := choiceEnd_escapeCommas (w.dropWhile isSpace)
          (',' :: ' ' :: joined (w' :: ws)) (.inr ⟨rfl, not_endsInBackslash_dropWhile hw⟩)
        have hrest := ih hsep (c := ' ') (t := joined (w' :: ws)) (by simp) rfl
        simp only [List.length_cons, strchoicesplit, ht, hend, List.head?_cons, ↓reduceIte,
          List.tail_cons, List.map_cons, readChoice]
        exact congrArg _ hrest
      · simp

theorem length_strchoicesplit_le (n : Nat) (t : Text) : (strchoicesplit n t).length ≤ n := by
  induction n generalizing t with
  | zero => simp [strchoicesplit]
  | succ n ih =>
      cases t with
      | nil => simp [strchoicesplit]
      | cons c t =>
          simp only [strchoicesplit, List.length_cons]
          exact Nat.succ_le_succ (ih _)

/-- The choices of a list: one for each text exactly if no text is joined to the next and
the list is not a single empty text. -/
theorem split_joined (ws : List Text) :
    (Separate ws ∧ ws ≠ [[]] →
        strchoicesplit (strgetargc (joined ws)) (joined ws) = ws.map readChoice) ∧
      ((strchoicesplit (strgetargc (joined ws)) (joined ws)).length = ws.length →
        Separate ws ∧ ws ≠ [[]]) := by
  cases ws with
  | nil => simp [joined, strgetargc, strchoicesplit, Separate]
  | cons w ws =>
      obtain ⟨hle, hiff⟩ := countCommas_joined_iff w ws
      by_cases hempty : joined (w :: ws) = []
      · have hwws : w :: ws = [[]] := by
          cases ws with
          | nil =>
              cases w with
              | nil => rfl
              | cons c w =>
                  by_cases hc : c = ','
                  · subst hc
                    simp [joined] at hempty
                  · simp [joined, escapeCommas_cons hc] at hempty
          | cons w' ws => simp [joined] at hempty
        rw [hwws]
        simp [joined, strgetargc, strchoicesplit]
      · have hne : w :: ws ≠ [[]] := fun h => hempty (by rw [h]; rfl)
        have hcount : strgetargc (joined (w :: ws)) = countCommas (joined (w :: ws)) + 1 := by
          simp only [strgetargc, List.isEmpty_iff, hempty, ↓reduceIte]
          omega
        constructor
        · rintro ⟨hsep, -⟩
          rw [hcount, hiff.mpr hsep]
          exact strchoicesplit_joined hsep hempty rfl
        · intro hlen
          refine ⟨hiff.mp ?_, hne⟩
          have hbound := length_strchoicesplit_le (strgetargc (joined (w :: ws)))
            (joined (w :: ws))
          rw [hlen, hcount, List.length_cons] at hbound
          omega

/-! ## Texts that are read as they are -/

/-- Equal up to the blanks at both ends. -/
def SameText (a b : Text) : Prop :=
  (a.dropWhile isSpace).rdropWhile isSpace = (b.dropWhile isSpace).rdropWhile isSpace

/-- No blanks at the ends that are cut off, and no backslash before a blank. -/
structure PlainName (w : Text) : Prop where
  start : ∀ c ∈ w.head?, ¬ isSpace c
  stop : w.getLast? ≠ some ' '
  slashes : ¬ ['\\', ' '] <:+: w

/-- Behind a backslash before a blank there are only blanks, backslashes before blanks not
counted: all that is cut off. -/
def harmless : Text → Bool
  | [] => true
  | '\\' :: ' ' :: t => (unslash t).all isSpace
  | _ :: t => harmless t

theorem harmless_cons (ht : c = '\\' → t.head? ≠ some ' ') : harmless (c :: t) = harmless t := by
  rw [harmless]
  rintro t' hc rfl
  exact ht hc rfl

theorem length_unslash_le (w : Text) : (unslash w).length ≤ w.length := by
  induction w using unslash.induct with
  | case1 => simp [unslash]
  | case2 t ih => simp only [unslash, List.length_cons]; omega
  | case3 c t hnot ih =>
      rw [unslash.eq_3 _ _ hnot]
      simpa using ih

theorem length_unslash_eq_iff (w : Text) :
    (unslash w).length = w.length ↔ ¬ ['\\', ' '] <:+: w := by
  induction w using unslash.induct with
  | case1 => simp [unslash]
  | case2 t ih =>
      have := length_unslash_le t
      have hinfix : ['\\', ' '] <:+: '\\' :: ' ' :: t := ⟨[], t, rfl⟩
      simp only [unslash, List.length_cons, hinfix, not_true, iff_false]
      omega
  | case3 c t hnot ih =>
      have hpre : ¬ ['\\', ' '] <+: c :: t := by
        rintro ⟨s, hs⟩
        obtain ⟨rfl, rfl⟩ := List.cons.inj hs
        exact hnot s rfl rfl
      rw [unslash.eq_3 _ _ hnot, List.length_cons, List.length_cons, Nat.add_right_cancel_iff, ih,
        List.infix_cons_iff, or_iff_right hpre]

theorem unslash_eq_self (h : ¬ ['\\', ' '] <:+: w) : unslash w = w := by
  induction w using unslash.induct with
  | case1 => rfl
  | case2 t ih => exact absurd ⟨[], t, rfl⟩ h
  | case3 c t hnot ih =>
      rw [unslash.eq_3 _ _ hnot, ih fun hin => h (hin.trans (List.suffix_cons c t).isInfix)]

theorem length_stripChoice_le (w : Text) : (stripChoice w).length ≤ w.length := by
  cases w with
  | nil => simp [stripChoice]
  | cons c w =>
      simp only [stripChoice, List.length_cons]
      exact Nat.succ_le_succ (List.rdropWhile_prefix _ w).length_le

theorem length_readChoice_le (w : Text) : (readChoice w).length ≤ w.length :=
  ((length_stripChoice_le _).trans (length_unslash_le _)).trans
    (List.dropWhile_suffix _).length_le

theorem stripChoice_eq_self_iff (hc : c ≠ ' ') :
    stripChoice (c :: w) = c :: w ↔ (c :: w).getLast? ≠ some ' ' := by
  rw [stripChoice, List.cons.injEq, and_iff_right rfl]
  cases w using List.reverseRecOn with
  | nil => simp [hc]
  | append_singleton w d =>
      rw [List.rdropWhile_concat, ← List.cons_append, List.getLast?_concat]
      by_cases hd : d = ' '
      · subst hd
        simp only [beq_self_eq_true, ↓reduceIte, ne_eq, not_true, iff_false]
        intro h
        have hle := (List.rdropWhile_prefix (· == ' ') w).length_le
        rw [h, List.length_append, List.length_singleton] at hle
        omega
      · simp [hd]

theorem readChoice_eq_self_iff (w : Text) : readChoice w = w ↔ PlainName w := by
  constructor
  · intro h
    have hlen := congrArg List.length h
    have h₁ := length_stripChoice_le (unslash (w.dropWhile isSpace))
    have h₂ := length_unslash_le (w.dropWhile isSpace)
    have h₃ := (List.dropWhile_suffix (l := w) isSpace).length_le
    have hdrop : w.dropWhile isSpace = w := by
      refine (List.dropWhile_suffix isSpace).eq_of_length ?_
      simp only [readChoice] at hlen
      omega
    rw [hdrop] at h₁ h₂
    have hslash : ¬ ['\\', ' '] <:+: w := by
      refine (length_unslash_eq_iff w).mp ?_
      simp only [readChoice, hdrop] at hlen
      omega
    have hstart : ∀ c ∈ w.head?, ¬ isSpace c := by
      intro c hc hs
      cases w with
      | nil => cases hc
      | cons d w =>
          obtain rfl : d = c := by simpa using hc
          have hle := (List.dropWhile_suffix (l := w) isSpace).length_le
          rw [List.dropWhile_cons_of_pos hs] at hdrop
          rw [hdrop, List.length_cons] at hle
          omega
    refine ⟨hstart, ?_, hslash⟩
    rw [readChoice, hdrop, unslash_eq_self hslash] at h
    cases w with
    | nil => simp
    | cons c w =>
        refine (stripChoice_eq_self_iff ?_).mp h
        rintro rfl
        exact hstart ' ' rfl (by decide)
  · rintro ⟨hstart, hstop, hslash⟩
    cases w with
    | nil => rfl
    | cons c w =>
        have hc : ¬ isSpace c := hstart c rfl
        rw [readChoice, List.dropWhile_cons_of_neg hc, unslash_eq_self hslash]
        refine (stripChoice_eq_self_iff ?_).mpr hstop
        rintro rfl
        exact hc (by decide)

theorem rdropWhile_cons (p : Char → Bool) (c : Char) (w : Text) :
    (c :: w).rdropWhile p =
      if w.rdropWhile p = [] ∧ p c then [] else c :: w.rdropWhile p := by
  induction w using List.reverseRecOn with
  | nil =>
      rw [List.rdropWhile_singleton]
      by_cases hc : p c <;> simp [hc]
  | append_singleton w d ih =>
      rw [← List.cons_append, List.rdropWhile_concat, List.rdropWhile_concat]
      by_cases hd : p d
      · rw [if_pos hd, if_pos hd, ih]
      · rw [if_neg hd, if_neg hd, if_neg (by simp)]
        rfl

theorem rdropWhile_blanks (w : Text) :
    (w.rdropWhile (· == ' ')).rdropWhile isSpace = w.rdropWhile isSpace := by
  induction w using List.reverseRecOn with
  | nil => rfl
  | append_singleton w d ih =>
      rw [List.rdropWhile_concat]
      by_cases hd : d = ' '
      · subst hd
        rw [if_pos (by simp), ih, List.rdropWhile_concat, if_pos (by decide)]
      · rw [if_neg (by simpa using hd)]

/-- A harmless text reads as one of its prefixes. Any other one has a blank in the place of
its first backslash before a blank, with something behind it. -/
theorem unslash_cases (t : Text) :
    (harmless t = true ∧
        ∃ a, a <+: t ∧ (unslash t).rdropWhile isSpace = a.rdropWhile isSpace) ∨
      (harmless t = false ∧ ∃ a b v, t = a ++ '\\' :: b ∧
        (unslash t).rdropWhile isSpace = a ++ ' ' :: v) := by
  induction t using unslash.induct with
  | case1 => exact .inl ⟨rfl, [], List.prefix_rfl, rfl⟩
  | case2 t ih =>
      rw [unslash, rdropWhile_cons, harmless]
      by_cases hall : (unslash t).all isSpace
      · have hnil : (unslash t).rdropWhile isSpace = [] :=
          List.rdropWhile_eq_nil_iff.mpr fun c hc => List.all_eq_true.mp hall c hc
        exact .inl ⟨hall, [], List.nil_prefix, by rw [if_pos ⟨hnil, by decide⟩]; rfl⟩
      · refine .inr ⟨by simpa using hall, [], ' ' :: t, (unslash t).rdropWhile isSpace, rfl, ?_⟩
        rw [if_neg]
        · rfl
        · rintro ⟨hnil, -⟩
          exact hall (List.all_eq_true.mpr (List.rdropWhile_eq_nil_iff.mp hnil))
  | case3 c t hnot ih =>
      rw [unslash.eq_3 _ _ hnot, harmless.eq_3 _ _ hnot, rdropWhile_cons]
      rcases ih with ⟨hh, a, ha, heq⟩ | ⟨hh, a, b, v, rfl, heq⟩
      · refine .inl ⟨hh, c :: a, (List.prefix_cons_inj c).mpr ha, ?_⟩
        rw [heq, rdropWhile_cons]
      · refine .inr ⟨hh, c :: a, b, v, rfl, ?_⟩
        rw [heq, if_neg (by simp)]
        rfl

/-- A text that begins with no blank and no backslash before a blank reads as a prefix of
what it is a prefix of, exactly if it is harmless. -/
theorem readChoice_prefix_iff {full : Text} (hc : ¬ isSpace c)
    (hstart : c = '\\' → t.head? ≠ some ' ') (ht : c :: t <+: full) :
    (∃ P, P <+: full ∧ SameText (readChoice (c :: t)) P) ↔ harmless (c :: t) := by
  have hread : ((readChoice (c :: t)).dropWhile isSpace).rdropWhile isSpace =
      c :: (unslash t).rdropWhile isSpace := by
    rw [readChoice, List.dropWhile_cons_of_neg hc, unslash_cons hstart, stripChoice,
      List.dropWhile_cons_of_neg hc, rdropWhile_cons, rdropWhile_blanks, if_neg (by simp [hc])]
  have hown : ∀ u : Text, ((c :: u).dropWhile isSpace).rdropWhile isSpace =
      c :: u.rdropWhile isSpace := by
    intro u
    rw [List.dropWhile_cons_of_neg hc, rdropWhile_cons, if_neg (by simp [hc])]
  rw [harmless_cons hstart]
  rcases unslash_cases t with ⟨hh, a, ha, heq⟩ | ⟨hh, a, b, v, rfl, heq⟩
  · refine ⟨fun _ => hh, fun _ => ⟨c :: a, ?_, ?_⟩⟩
    · exact ((List.prefix_cons_inj c).mpr ha).trans ht
    · rw [SameText, hread, hown, heq]
  · refine ⟨?_, fun h => absurd h (by simp [hh])⟩
    rintro ⟨P, hP, hsame⟩
    exfalso
    rw [SameText, hread, heq] at hsame
    cases P with
    | nil => simp at hsame
    | cons d P =>
        -- both texts are prefixes, and they differ behind `a`
        obtain rfl : d = c := by
          obtain ⟨s, rfl⟩ := ht
          exact (List.cons_prefix_cons.mp hP).1
        rw [hown] at hsame
        have h₁ : d :: (a ++ ' ' :: v) <+: full := by
          rw [hsame]
          exact ((List.prefix_cons_inj d).mpr (List.rdropWhile_prefix _ P)).trans hP
        have e₁ := h₁.getElem (i := (d :: a).length) (by simp)
        have e₂ := ht.getElem (i := (d :: a).length) (by simp)
        rw [← e₂] at e₁
        simp at e₁

/-! ## The two lists -/

/-- The text that goes into a list for a package. -/
def choiceText (cValues : Bool) (p : Package ι) : Option Text :=
  if cValues then some (fitting room p.package)
  else if (escapeCommas (fitting room p.package)).length ≤ room then
    p.shortDescription.map (shown p.package)
  else none

theorem choiceBuf_eq (cValues : Bool) (p : Package ι) :
    choiceBuf cValues p = (choiceText cValues p).map escapeCommas := by
  cases cValues with
  | true => simp [choiceBuf, bufPut_name, choiceText]
  | false =>
      simp only [choiceBuf, choiceText, packageToChoice_eq, Bool.false_eq_true, ↓reduceIte]
      split
      · rw [Option.map_map]
        rfl
      · rfl

theorem listToChoices_eq_some {cValues : Bool} {s : Text} :
    listToChoices cValues ps = some s ↔
      ∃ ts, List.Forall₂ (fun p t => choiceText cValues p = some t) ps ts ∧ s = joined ts := by
  induction ps generalizing s with
  | nil => simp [listToChoices, joined, eq_comm]
  | cons p ps ih =>
      rw [listToChoices, choiceBuf_eq]
      cases hp : choiceText cValues p with
      | none => simp [List.forall₂_cons_left_iff, hp]
      | some t =>
          simp only [Option.map_some, Option.bind_eq_bind, Option.bind_some, Option.bind_eq_some_iff,
            ih, List.forall₂_cons_left_iff, hp, Option.some.injEq]
          constructor
          · rintro ⟨_, ⟨ts, hts, rfl⟩, hs⟩
            refine ⟨t :: ts, ⟨t, ts, rfl, hts, rfl⟩, ?_⟩
            obtain rfl := Option.some.inj hs
            cases hts with
            | nil => simp [joined]
            | cons _ _ => simp [joined]
          · rintro ⟨_, ⟨t', ts, rfl, hts, rfl⟩, rfl⟩
            refine ⟨joined ts, ⟨ts, hts, rfl⟩, ?_⟩
            cases hts with
            | nil => simp [joined]
            | cons _ _ => simp [joined]

theorem forall₂_choiceText_true :
    List.Forall₂ (fun p t => choiceText true p = some t) ps ts ↔
      ts = ps.map fun p => fitting room p.package := by
  induction ps generalizing ts with
  | nil => simp
  | cons p ps ih =>
      have hp : choiceText true p = some (fitting room p.package) := rfl
      simp only [List.forall₂_cons_left_iff, ih, hp, Option.some.injEq, List.map_cons,
        exists_and_left, exists_eq_left', exists_eq_left]

theorem forall₂_choiceText_false :
    List.Forall₂ (fun p t => choiceText false p = some t) ps ts ↔
      (∀ p ∈ ps, (escapeCommas (fitting room p.package)).length ≤ room ∧
        p.shortDescription.isSome) ∧
      ts = ps.map fun p => shown p.package (p.shortDescription.getD []) := by
  induction ps generalizing ts with
  | nil => simp
  | cons p ps ih =>
      have hp : ∀ t, choiceText false p = some t ↔
          ((escapeCommas (fitting room p.package)).length ≤ room ∧ p.shortDescription.isSome) ∧
            t = shown p.package (p.shortDescription.getD []) := by
        intro t
        by_cases hlen : (escapeCommas (fitting room p.package)).length ≤ room
        · cases hd : p.shortDescription with
          | none => simp [choiceText, hlen, hd]
          | some d => simp [choiceText, hlen, hd, eq_comm]
        · simp [choiceText, hlen]
      simp only [List.forall₂_cons_left_iff, ih, hp, List.forall_mem_cons, List.map_cons]
      constructor
      · rintro ⟨t, ts, ⟨hdef, rfl⟩, ⟨hrest, rfl⟩, rfl⟩
        exact ⟨⟨hdef, hrest⟩, rfl⟩
      · rintro ⟨⟨hdef, hrest⟩, rfl⟩
        exact ⟨_, _, ⟨hdef, rfl⟩, ⟨hrest, rfl⟩, rfl⟩

/-- The lists of names and of texts stay aligned: there is one choice for each package, its
name in one list and as much as fits of its name and description in the other. -/
def Aligned (packages : List (Package ι)) : Prop :=
  ∃ names texts, listToChoices true packages = some names ∧
    listToChoices false packages = some texts ∧
    strchoicesplit (strgetargc names) names = packages.map Package.package ∧
    List.Forall₂
      (fun choice p => ∃ d, p.shortDescription = some d ∧
        ∃ P, P <+: p.package ++ ": ".toList ++ d ∧ SameText choice P)
      (strchoicesplit (strgetargc texts) texts) packages

/-- Packages whose names and descriptions come back. -/
structure Representable (packages : List (Package ι)) : Prop where
  named : ∀ p, packages = [p] → p.package ≠ []
  fits : ∀ p ∈ packages, (escapeCommas p.package).length ≤ room
  plain : ∀ p ∈ packages, PlainName p.package
  described : ∀ p ∈ packages, ∃ d, p.shortDescription = some d ∧ harmless (shown p.package d)
  separate : ∀ p ∈ packages.dropLast, ¬ EndsInBackslash p.package ∧
    ∀ d, p.shortDescription = some d → ¬ EndsInBackslash (shown p.package d)

theorem separate_map {ps : List (Package ι)} {f : Package ι → Text} :
    Separate (ps.map f) ↔ ∀ p ∈ ps.dropLast, ¬ EndsInBackslash (f p) := by
  simp only [Separate, ← List.map_dropLast, List.mem_map, forall_exists_index, and_imp,
    forall_apply_eq_imp_iff₂]

theorem shown_prefix_iff {name d : Text} (hname : PlainName name) :
    (∃ P, P <+: name ++ ": ".toList ++ d ∧ SameText (readChoice (shown name d)) P) ↔
      harmless (shown name d) := by
  have hpre : shown name d <+: name ++ ": " ++ d := prefix_fitting _ _
  cases name with
  | nil =>
      exact readChoice_prefix_iff (c := ':') (by decide) (fun h => absurd h (by decide)) hpre
  | cons c name =>
      refine readChoice_prefix_iff (hname.start c rfl) ?_ hpre
      rintro rfl hhead
      -- the second character is one of the name, or the colon
      refine hname.slashes ?_
      cases name with
      | nil => simp [fitting] at hhead
      | cons e name =>
          obtain rfl : e = ' ' := by simpa [fitting] using hhead
          exact ⟨[], name, rfl⟩

theorem representable_of_aligned (h : Aligned packages) : Representable packages := by
  obtain ⟨_, _, hnames, htexts, hn, ht⟩ := h
  obtain ⟨_, hts, rfl⟩ := listToChoices_eq_some.mp hnames
  obtain rfl := forall₂_choiceText_true.mp hts
  obtain ⟨_, hts, rfl⟩ := listToChoices_eq_some.mp htexts
  obtain ⟨hdef, rfl⟩ := forall₂_choiceText_false.mp hts
  have hsplit := split_joined (packages.map fun p => fitting room p.package)
  obtain ⟨hsep, hone⟩ := hsplit.2 (by rw [hn]; simp)
  rw [hsplit.1 ⟨hsep, hone⟩, List.map_map, List.map_inj_left] at hn
  -- a name that was cut could not come back whole
  have hwhole : ∀ p ∈ packages, fitting room p.package = p.package := by
    intro p hp
    have h₁ := length_readChoice_le (fitting room p.package)
    have h₂ : (readChoice (fitting room p.package)).length = p.package.length :=
      congrArg List.length (hn p hp)
    exact (prefix_fitting _ _).eq_of_length_le (by omega)
  have hplain : ∀ p ∈ packages, PlainName p.package := by
    intro p hp
    have hread := hn p hp
    simp only [Function.comp, hwhole p hp] at hread
    exact (readChoice_eq_self_iff _).mp hread
  have hsplit' := split_joined
    (packages.map fun p => shown p.package (p.shortDescription.getD []))
  have hsep' := hsplit'.2 (by rw [ht.length_eq]; simp)
  rw [hsplit'.1 hsep', List.map_map, List.forall₂_map_left_iff, List.forall₂_same] at ht
  refine ⟨?_, ?_, hplain, ?_, ?_⟩
  · rintro p rfl hnil
    exact hone (by simp [hnil, fitting])
  · intro p hp
    rw [← hwhole p hp]
    exact (hdef p hp).1
  · intro p hp
    obtain ⟨d, hd, hP⟩ := ht p hp
    refine ⟨d, hd, (shown_prefix_iff (hplain p hp)).mp ?_⟩
    simpa only [Function.comp, hd, Option.getD_some] using hP
  · intro p hp
    constructor
    · rw [← hwhole p (List.mem_of_mem_dropLast hp)]
      exact separate_map.mp hsep p hp
    · intro d hd
      have := separate_map.mp hsep'.1 p hp
      rwa [hd] at this

theorem aligned_of_representable (h : Representable packages) : Aligned packages := by
  have hwhole : ∀ p ∈ packages, fitting room p.package = p.package :=
    fun p hp => fitting_eq_self (h.fits p hp)
  have hnames : packages.map (fun p => fitting room p.package) = packages.map Package.package :=
    List.map_congr_left hwhole
  have hdef : ∀ p ∈ packages, (escapeCommas (fitting room p.package)).length ≤ room ∧
      p.shortDescription.isSome := by
    intro p hp
    obtain ⟨d, hd, -⟩ := h.described p hp
    refine ⟨?_, by rw [hd]; rfl⟩
    rw [hwhole p hp]
    exact h.fits p hp
  refine ⟨_, _, listToChoices_eq_some.mpr ⟨_, forall₂_choiceText_true.mpr rfl, rfl⟩,
    listToChoices_eq_some.mpr ⟨_, forall₂_choiceText_false.mpr ⟨hdef, rfl⟩, rfl⟩, ?_, ?_⟩
  · rw [hnames, (split_joined _).1 ⟨?_, ?_⟩]
    · rw [List.map_map]
      exact List.map_congr_left fun p hp => (readChoice_eq_self_iff _).mpr (h.plain p hp)
    · exact separate_map.mpr fun p hp => (h.separate p hp).1
    · intro hone
      obtain ⟨p, rfl, hp⟩ := List.map_eq_singleton_iff.mp hone
      exact h.named p rfl hp
  · rw [(split_joined _).1 ⟨?_, ?_⟩]
    · rw [List.map_map, List.forall₂_map_left_iff, List.forall₂_same]
      intro p hp
      obtain ⟨d, hd, hharm⟩ := h.described p hp
      refine ⟨d, hd, ?_⟩
      simpa only [Function.comp, hd, Option.getD_some] using
        (shown_prefix_iff (h.plain p hp)).mpr hharm
    · refine separate_map.mpr fun p hp => ?_
      obtain ⟨d, hd, -⟩ := h.described p (List.mem_of_mem_dropLast hp)
      rw [hd]
      exact (h.separate p hp).2 d hd
    · intro hone
      obtain ⟨p, rfl, hp⟩ := List.map_eq_singleton_iff.mp hone
      cases hname : p.package with
      | nil => exact h.named p rfl hname
      | cons c name => simp [shown, hname, room, fitting] at hp

/-- The two lists of choices stay aligned exactly for representable packages. -/
theorem listToChoices_aligned_iff (packages : List (Package ι)) :
    Aligned packages ↔ Representable packages :=
  ⟨representable_of_aligned, aligned_of_representable⟩

/-- Two packages, where the description of the first one ends in a backslash. -/
def slashed : List (Package Unit) :=
  [{ package := "a-udeb", shortDescription := some "copies C:\\" },
    { package := "b-udeb", shortDescription := some "more tools" }]

/-- They are offered as one choice. -/
theorem listToChoices_joins_slashed : ¬ Aligned slashed := by
  intro h
  have hsep := (representable_of_aligned h).separate _ List.mem_cons_self
  exact hsep.2 "copies C:\\" rfl (by decide)

/-- A name of 198 characters with a comma at its end takes 199 bytes, and the colon behind
it goes beyond the buffer. -/
example : packageToChoice
    ({ package := List.replicate 197 'a' ++ [','], shortDescription := some [] } : Package Unit) =
      none := by
  decide +kernel

end DebianInstaller.Packages
