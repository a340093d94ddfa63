import Mathlib.Data.List.DropRight
import Mathlib.Data.List.Infix

/-!
# Reading a line into a buffer

A reader with a buffer takes characters until the end of the line is in the buffer, the
buffer is full, or there are no more characters. So what is read at a time is a line only
if the line fits; of a longer line it is a piece, and the next read goes on inside the
line. Whatever the text is, a piece never goes past the end of a line.
-/

namespace DebianInstaller.Lib

variable {α : Type} [DecidableEq α] (nl : α)

variable {fuel n : ℕ} {l r t : List α}

/-- What is read with room for `n` characters, whether the text ended before the room and
the line did, and what is left. -/
def piece : ℕ → List α → List α × Bool × List α
  | 0, t => ([], false, t)
  | _ + 1, [] => ([], true, [])
  | n + 1, c :: t =>
      if c = nl then ([c], false, t)
      else (c :: (piece n t).1, (piece n t).2)

theorem piece_append (n : ℕ) (t : List α) : (piece nl n t).1 ++ (piece nl n t).2.2 = t := by
  induction n generalizing t with
  | zero => rfl
  | succ n ih =>
      cases t with
      | nil => rfl
      | cons c t =>
          rw [piece]
          split
          · rfl
          · exact congrArg _ (ih t)

theorem length_piece_le (n : ℕ) (t : List α) : (piece nl n t).1.length ≤ n := by
  induction n generalizing t with
  | zero => exact le_rfl
  | succ n ih =>
      cases t with
      | nil => exact Nat.zero_le _
      | cons c t =>
          rw [piece]
          split
          · exact Nat.succ_le_succ (Nat.zero_le n)
          · exact Nat.succ_le_succ (ih t)

theorem piece_line (h : nl ∉ l) (hlen : l.length < n) (r : List α) :
    piece nl n (l ++ nl :: r) = (l ++ [nl], false, r) := by
  induction l generalizing n with
  | nil =>
      obtain ⟨n, rfl⟩ : ∃ m, n = m + 1 := ⟨n - 1, by simp at hlen; omega⟩
      rw [List.nil_append, piece, if_pos rfl]
      rfl
  | cons c l ih =>
      obtain ⟨hc, hl⟩ := List.ne_and_not_mem_of_not_mem_cons h
      obtain ⟨n, rfl⟩ : ∃ m, n = m + 1 := ⟨n - 1, by simp at hlen; omega⟩
      rw [List.cons_append, piece, if_neg (Ne.symm hc), ih hl (by simpa using hlen)]
      rfl

theorem piece_full (h : nl ∉ l) (hlen : l.length = n) (r : List α) :
    piece nl n (l ++ r) = (l, false, r) := by
  induction l generalizing n with
  | nil =>
      subst hlen
      rfl
  | cons c l ih =>
      obtain ⟨hc, hl⟩ := List.ne_and_not_mem_of_not_mem_cons h
      subst hlen
      rw [List.cons_append, List.length_cons, piece, if_neg (Ne.symm hc), ih hl rfl]

theorem piece_end (h : nl ∉ l) (hlen : l.length < n) : piece nl n l = (l, true, []) := by
  induction l generalizing n with
  | nil =>
      obtain ⟨n, rfl⟩ : ∃ m, n = m + 1 := ⟨n - 1, by simp at hlen; omega⟩
      rfl
  | cons c l ih =>
      obtain ⟨hc, hl⟩ := List.ne_and_not_mem_of_not_mem_cons h
      obtain ⟨n, rfl⟩ : ∃ m, n = m + 1 := ⟨n - 1, by simp at hlen; omega⟩
      rw [piece, if_neg (Ne.symm hc), ih hl (by simpa using hlen)]

/-- The three ways to end. -/
theorem piece_cases (n : ℕ) (t : List α) :
    (∃ l r, nl ∉ l ∧ l.length < n ∧ t = l ++ nl :: r ∧ piece nl n t = (l ++ [nl], false, r)) ∨
      (∃ l r, nl ∉ l ∧ l.length = n ∧ t = l ++ r ∧ piece nl n t = (l, false, r)) ∨
      (nl ∉ t ∧ t.length < n ∧ piece nl n t = (t, true, [])) := by
  induction n generalizing t with
  | zero => exact .inr (.inl ⟨[], t, List.not_mem_nil, rfl, rfl, rfl⟩)
  | succ n ih =>
      cases t with
      | nil => exact .inr (.inr ⟨List.not_mem_nil, Nat.succ_pos n, rfl⟩)
      | cons c t =>
          by_cases hc : c = nl
          · subst hc
            refine .inl ⟨[], t, List.not_mem_nil, Nat.succ_pos n, rfl, ?_⟩
            rw [piece, if_pos rfl]
            rfl
          · have hcons : piece nl (n + 1) (c :: t) = (c :: (piece nl n t).1, (piece nl n t).2) := by
              rw [piece, if_neg hc]
            rcases ih t with ⟨l, r, hl, hlen, ht, hp⟩ | ⟨l, r, hl, hlen, ht, hp⟩ | ⟨ht, hlen, hp⟩
            · refine .inl ⟨c :: l, r, List.not_mem_cons_of_ne_of_not_mem (Ne.symm hc) hl, ?_, ?_, ?_⟩
              · exact Nat.succ_lt_succ hlen
              · rw [ht]
                rfl
              · rw [hcons, hp]
                rfl
            · refine .inr (.inl ⟨c :: l, r, List.not_mem_cons_of_ne_of_not_mem (Ne.symm hc) hl, ?_, ?_, ?_⟩)
              · exact congrArg Nat.succ hlen
              · rw [ht]
                rfl
              · rw [hcons, hp]
            · refine .inr (.inr ⟨List.not_mem_cons_of_ne_of_not_mem (Ne.symm hc) ht, ?_, ?_⟩)
              · exact Nat.succ_lt_succ hlen
              · rw [hcons, hp]

theorem length_rest_lt (hn : 0 < n) (ht : t ≠ []) : (piece nl n t).2.2.length < t.length := by
  obtain ⟨n, rfl⟩ : ∃ m, n = m + 1 := ⟨n - 1, by omega⟩
  cases t with
  | nil => exact absurd rfl ht
  | cons c t =>
      rw [piece]
      split
      · exact Nat.lt_succ_self _
      · have happ := congrArg List.length (piece_append nl n t)
        rw [List.length_append] at happ
        show (piece nl n t).2.2.length < t.length + 1
        omega

theorem piece_isPrefix (h : nl ∉ l) (hlen : l.length ≤ n) (r : List α) :
    piece nl n (l ++ r) = (l ++ (piece nl (n - l.length) r).1, (piece nl (n - l.length) r).2) := by
  induction l generalizing n with
  | nil => rfl
  | cons c l ih =>
      obtain ⟨hc, hl⟩ := List.ne_and_not_mem_of_not_mem_cons h
      obtain ⟨n, rfl⟩ : ∃ m, n = m + 1 := ⟨n - 1, by simp at hlen; omega⟩
      rw [List.cons_append, piece, if_neg (Ne.symm hc), ih hl (by simpa using hlen),
        List.length_cons, Nat.add_sub_add_right]
      rfl

theorem piece_within (n : ℕ) (l r : List α) :
    (∃ l₁ l₂, l = l₁ ++ l₂ ∧ piece nl n (l ++ nl :: r) = (l₁, false, l₂ ++ nl :: r)) ∨
      piece nl n (l ++ nl :: r) = (l ++ [nl], false, r) := by
  induction n generalizing l with
  | zero => exact .inl ⟨[], l, rfl, rfl⟩
  | succ n ih =>
      cases l with
      | nil =>
          refine .inr ?_
          rw [List.nil_append, piece, if_pos rfl]
          rfl
      | cons c l =>
          rw [List.cons_append, piece]
          split
          · next hc => exact .inl ⟨[c], l, rfl, rfl⟩
          · rcases ih l with ⟨l₁, l₂, hl, hp⟩ | hp
            · refine .inl ⟨c :: l₁, l₂, by rw [hl]; rfl, ?_⟩
              rw [hp]
            · refine .inr ?_
              rw [hp]
              rfl

/-! ## Lines with their ends -/

def unlines (ls : List (List α)) : List α := ls.flatMap (· ++ [nl])

omit [DecidableEq α] in
@[simp] theorem unlines_nil : unlines nl [] = [] := rfl

omit [DecidableEq α] in
theorem unlines_cons (l : List α) (ls : List (List α)) :
    unlines nl (l :: ls) = l ++ nl :: unlines nl ls := by
  simp [unlines]

omit [DecidableEq α] in
theorem unlines_append (a b : List (List α)) : unlines nl (a ++ b) = unlines nl a ++ unlines nl b := by
  simp [unlines]

theorem splitOn_unlines {ls : List (List α)} (h : ∀ l ∈ ls, nl ∉ l) (t : List α) :
    (unlines nl ls ++ t).splitOn nl = ls ++ t.splitOn nl := by
  induction ls with
  | nil => rfl
  | cons l ls ih =>
      obtain ⟨hl, hls⟩ := List.forall_mem_cons.1 h
      rw [unlines_cons, List.append_assoc, List.cons_append, List.splitOn_append_cons_self, ih hls,
        List.splitOn_eq_singleton hl]
      rfl

theorem exists_unlines_append (t : List α) :
    ∃ (ls : List (List α)) (z : List α),
      (∀ l ∈ ls, nl ∉ l) ∧ nl ∉ z ∧ t = unlines nl ls ++ z := by
  induction t with
  | nil => exact ⟨[], [], by simp, List.not_mem_nil, rfl⟩
  | cons c t ih =>
      obtain ⟨ls, z, hls, hz, rfl⟩ := ih
      by_cases hc : c = nl
      · subst hc
        exact ⟨[] :: ls, z, by simpa using hls, hz, by rw [unlines_cons]; rfl⟩
      · cases ls with
        | nil => exact ⟨[], c :: z, hls, List.not_mem_cons_of_ne_of_not_mem (Ne.symm hc) hz, rfl⟩
        | cons l ls =>
            obtain ⟨hl, hls⟩ := List.forall_mem_cons.1 hls
            refine ⟨(c :: l) :: ls, z, ?_, hz, by rw [unlines_cons, unlines_cons]; rfl⟩
            exact List.forall_mem_cons.2 ⟨List.not_mem_cons_of_ne_of_not_mem (Ne.symm hc) hl, hls⟩

theorem exists_unlines (h : t = [] ∨ t.getLast? = some nl) :
    ∃ ls : List (List α), (∀ l ∈ ls, nl ∉ l) ∧ t = unlines nl ls := by
  obtain ⟨ls, z, hls, hz, rfl⟩ := exists_unlines_append nl t
  rcases List.eq_nil_or_concat' z with rfl | ⟨z, c, rfl⟩
  · exact ⟨ls, hls, by rw [List.append_nil]⟩
  · have hlast := h.resolve_left (by simp)
    rw [← List.append_assoc, List.getLast?_concat, Option.some_inj] at hlast
    exact absurd (hlast ▸ List.mem_append_right z List.mem_cons_self) hz

omit [DecidableEq α] in
theorem piece_or_append (p : α → Bool) (t : List α) : (∀ c ∈ t, p c = false) ∨
    ∃ a c b, t = a ++ c :: b ∧ p c = true := by
  by_cases h : ∃ c ∈ t, p c = true
  · obtain ⟨c, hc, hends⟩ := h
    obtain ⟨a, b, rfl⟩ := List.append_of_mem hc
    exact .inr ⟨a, c, b, rfl, hends⟩
  · refine .inl fun c hc => ?_
    by_contra hends
    exact h ⟨c, hc, Bool.not_eq_false _ ▸ hends⟩

omit [DecidableEq α] in
theorem mem_of_mem_splitOnP {p : α → Bool} {t l : List α} (h : l ∈ t.splitOnP p) :
    (∀ c ∈ l, p c = false) ∧ ∀ c ∈ l, c ∈ t := by
  induction ht : t.length using Nat.strong_induction_on generalizing t with
  | _ n ih =>
      rcases piece_or_append p t with hline | ⟨a, c, b, rfl, hends⟩
      · rw [List.splitOnP_eq_singleton hline] at h
        obtain rfl := List.mem_singleton.1 h
        exact ⟨hline, fun c hc => hc⟩
      · rw [List.length_append, List.length_cons] at ht
        rw [List.splitOnP_append_cons a b hends] at h
        rcases List.mem_append.1 h with h | h
        · obtain ⟨hclean, hsub⟩ := ih a.length (by omega) h rfl
          exact ⟨hclean, fun x hx => List.mem_append_left _ (hsub x hx)⟩
        · obtain ⟨hclean, hsub⟩ := ih b.length (by omega) h rfl
          exact ⟨hclean, fun x hx => List.mem_append_right _ (List.mem_cons_of_mem _ (hsub x hx))⟩

/-! ## The lines of a text -/

/-- The lines of a text, each with its end. -/
def wholeLines : List α → List (List α)
  | [] => []
  | c :: t =>
      if c = nl then [c] :: wholeLines t
      else
        match wholeLines t with
        | [] => [[c]]
        | l :: ls => (c :: l) :: ls

/-- A line of a text, and what is behind it. -/
inductive IsLine : List α → List α → Prop where
  | ended {b : List α} (h : nl ∉ b) (r : List α) : IsLine (b ++ [nl]) r
  | last {b : List α} (h : nl ∉ b) (hne : b ≠ []) : IsLine b []

variable {nl} in
omit [DecidableEq α] in
theorem IsLine.ne_nil {l r : List α} (h : IsLine nl l r) : l ≠ [] := by
  cases h with
  | ended => simp
  | last _ hne => exact hne

variable {nl} in
theorem IsLine.wholeLines {l r : List α} (h : IsLine nl l r) :
    wholeLines nl (l ++ r) = l :: wholeLines nl r := by
  cases h with
  | @ended b h r =>
      induction b with
      | nil =>
          rw [List.nil_append, List.singleton_append, Lib.wholeLines, if_pos rfl]
      | cons c b ih =>
          obtain ⟨hc, hb⟩ := List.ne_and_not_mem_of_not_mem_cons h
          rw [List.cons_append, List.cons_append, Lib.wholeLines, if_neg (Ne.symm hc), ih hb]
  | last h hne =>
      rw [List.append_nil]
      show Lib.wholeLines nl l = [l]
      induction l with
      | nil => exact absurd rfl hne
      | cons c l ih =>
          obtain ⟨hc, hl⟩ := List.ne_and_not_mem_of_not_mem_cons h
          rw [Lib.wholeLines, if_neg (Ne.symm hc)]
          cases l with
          | nil => rfl
          | cons d l => rw [ih hl (List.cons_ne_nil _ _)]

theorem exists_isLine (ht : t ≠ []) : ∃ l r, IsLine nl l r ∧ t = l ++ r := by
  by_cases h : nl ∈ t
  · obtain ⟨b, r, rfl, hb⟩ := List.eq_append_cons_of_mem h
    exact ⟨b ++ [nl], r, .ended hb r, by simp⟩
  · exact ⟨t, [], .last h ht, (List.append_nil t).symm⟩

theorem flatten_wholeLines (t : List α) : (wholeLines nl t).flatten = t := by
  induction t with
  | nil => rfl
  | cons c t ih =>
      rw [wholeLines]
      split
      · rw [List.flatten_cons, ih, List.singleton_append]
      · split
        · next he => rw [← ih, he]; rfl
        · next l ls he => rw [← ih, he]; rfl

theorem IsLine.piece {nl : α} (h : IsLine nl l r) (hlen : l.length ≤ n) :
    (piece nl n (l ++ r)).1 = l ∧ (piece nl n (l ++ r)).2.2 = r := by
  cases h with
  | @ended b h r =>
      rw [List.length_append, List.length_singleton] at hlen
      rw [List.append_assoc, List.singleton_append, piece_line nl h (by omega) r]
      exact ⟨rfl, rfl⟩
  | last h hne =>
      rw [List.append_nil]
      rcases Nat.lt_or_eq_of_le hlen with hlt | heq
      · rw [piece_end nl h hlt]
        exact ⟨rfl, rfl⟩
      · have hp := piece_full nl h heq []
        rw [List.append_nil] at hp
        rw [hp]
        exact ⟨rfl, rfl⟩

theorem IsLine.piece_long {nl : α} (h : IsLine nl l r) (hlen : n < l.length) :
    (Lib.piece nl n (l ++ r)).1 = l.take n ∧
      (Lib.piece nl n (l ++ r)).2.2 = l.drop n ++ r ∧ IsLine nl (l.drop n) r := by
  have hfull : ∀ {b x : List α}, nl ∉ b → n ≤ b.length →
      (Lib.piece nl n (b ++ x)).1 = b.take n ∧ (Lib.piece nl n (b ++ x)).2.2 = b.drop n ++ x := by
    intro b x hb hle
    have hp := piece_full nl (l := b.take n) (fun hm => hb (List.mem_of_mem_take hm))
      (List.length_take_of_le hle) (b.drop n ++ x)
    rw [← List.append_assoc, List.take_append_drop] at hp
    rw [hp]
    exact ⟨rfl, rfl⟩
  cases h with
  | @ended b h r =>
      rw [List.length_append, List.length_singleton] at hlen
      have hle : n ≤ b.length := by omega
      rw [List.append_assoc, List.take_append_of_le_length hle, List.drop_append_of_le_length hle,
        List.append_assoc]
      obtain ⟨h1, h2⟩ := hfull (x := [nl] ++ r) h hle
      exact ⟨h1, h2, .ended (fun hm => h (List.mem_of_mem_drop hm)) r⟩
  | last h hne =>
      obtain ⟨h1, h2⟩ := hfull (x := []) h hlen.le
      refine ⟨h1, h2, .last (fun hm => h (List.mem_of_mem_drop hm)) fun hnil => ?_⟩
      rw [List.drop_eq_nil_iff] at hnil
      omega

/-! ## One read after the other -/

/-- Where the reads of a text begin, each given as what is left of the text there. The number
bounds how many there are. -/
def reads (n : ℕ) : ℕ → List α → List (List α)
  | 0, _ => []
  | _ + 1, [] => []
  | fuel + 1, c :: t => (c :: t) :: reads n fuel (piece nl n (c :: t)).2.2

theorem reads_cons (ht : t ≠ []) (hfuel : t.length ≤ fuel) :
    ∃ fuel', fuel = fuel' + 1 ∧ reads nl n fuel t = t :: reads nl n fuel' (piece nl n t).2.2 := by
  cases t with
  | nil => exact absurd rfl ht
  | cons c t =>
      obtain ⟨fuel, rfl⟩ : ∃ m, fuel = m + 1 := ⟨fuel - 1, by simp at hfuel; omega⟩
      exact ⟨fuel, rfl, rfl⟩

theorem mem_reads (hn : 0 < n) {b s : List α} (hs : s ≠ []) (hfuel : (b ++ nl :: s).length ≤ fuel) :
    s ∈ reads nl n fuel (b ++ nl :: s) := by
  induction hlen : b.length using Nat.strong_induction_on generalizing b fuel with
  | _ k ih =>
      obtain ⟨fuel', rfl, hreads⟩ := reads_cons nl (n := n) (t := b ++ nl :: s) (by simp) hfuel
      have hrest := length_rest_lt nl hn (t := b ++ nl :: s) (by simp)
      rw [hreads]
      refine List.mem_cons_of_mem _ ?_
      rcases piece_within nl n b s with ⟨l₁, l₂, rfl, hp⟩ | hp
      · rw [hp] at hrest ⊢
        have hless : (l₂ ++ nl :: s).length < (l₁ ++ l₂ ++ nl :: s).length := hrest
        simp only [List.length_append, List.length_cons] at hless hlen hfuel
        refine ih l₂.length (by omega) ?_ rfl
        simp only [List.length_append, List.length_cons]
        omega
      · rw [hp]
        simp only [List.length_append, List.length_cons] at hfuel
        have hfuel' : s.length ≤ fuel' := by omega
        obtain ⟨fuel'', rfl, hreads'⟩ := reads_cons nl (n := n) hs hfuel'
        rw [hreads']
        exact List.mem_cons_self

omit [DecidableEq α] in
theorem prefix_line_iff {w l r : List α} (hw : nl ∉ w) : w <+: l ++ nl :: r ↔ w <+: l := by
  refine ⟨fun h => ?_, fun h => h.trans (List.prefix_append l _)⟩
  rcases Nat.lt_or_ge l.length w.length with hlt | hle
  · have hline : l ++ [nl] <+: l ++ nl :: r := ⟨r, by simp⟩
    have hmem := (List.prefix_of_prefix_length_le hline h (by simpa using Nat.succ_le_of_lt hlt)).subset
      (List.mem_append_right l (List.mem_singleton.2 rfl))
    exact absurd hmem hw
  · exact List.prefix_of_prefix_length_le h (List.prefix_append l _) hle

omit [DecidableEq α] in
theorem exists_prefix_drop_iff {n : ℕ} {w l : List α} : (∃ k, w <+: l.drop (n * k)) ↔
    w <+: l ∨ ∃ k, w <+: (l.drop n).drop (n * k) := by
  have hsucc : ∀ k, (l.drop n).drop (n * k) = l.drop (n * (k + 1)) := fun k => by
    rw [List.drop_drop, Nat.mul_succ, Nat.add_comm]
  constructor
  · rintro ⟨_ | k, hk⟩
    · exact .inl hk
    · exact .inr ⟨k, hsucc k ▸ hk⟩
  · rintro (h | ⟨k, hk⟩)
    · exact ⟨0, h⟩
    · exact ⟨k + 1, hsucc k ▸ hk⟩

omit [DecidableEq α] in
theorem not_prefix_drop_nil {n : ℕ} {w : List α} (hne : w ≠ []) :
    ¬ ∃ k, w <+: ([] : List α).drop (n * k) := by
  rintro ⟨k, hk⟩
  rw [List.drop_nil] at hk
  exact hne (List.prefix_nil.1 hk)

/-- What begins a read stands in a line at a multiple of the room. -/
theorem exists_mem_reads_iff (hn : 0 < n) {w : List α} (hne : w ≠ []) (hw : nl ∉ w)
    (hfuel : t.length ≤ fuel) :
    (∃ s ∈ reads nl n fuel t, w <+: s) ↔ ∃ l ∈ t.splitOn nl, ∃ k, w <+: l.drop (n * k) := by
  induction hlen : t.length using Nat.strong_induction_on generalizing t fuel with
  | _ len ih =>
      subst hlen
      by_cases ht : t = []
      · subst ht
        have hnone : reads nl n fuel [] = [] := by cases fuel <;> rfl
        rw [hnone, List.splitOn_nil]
        refine iff_of_false (by simp) ?_
        rintro ⟨l, hl, hk⟩
        rw [List.mem_singleton.1 hl] at hk
        exact not_prefix_drop_nil hne hk
      obtain ⟨fuel, rfl, hreads⟩ := reads_cons nl (n := n) ht hfuel
      have hrest := length_rest_lt nl hn ht
      rw [hreads, List.exists_mem_cons_iff, ih _ hrest (by omega) rfl]
      rcases piece_cases nl n t with ⟨l, r, hl, hlt, rfl, hp⟩ | ⟨l, r, hl, hlt, rfl, hp⟩ |
        ⟨hl, hlt, hp⟩
      · rw [hp, List.splitOn_append_cons_self_of_not_mem hl, List.exists_mem_cons_iff,
          exists_prefix_drop_iff, List.drop_of_length_le hlt.le, prefix_line_iff nl hw,
          or_iff_left (not_prefix_drop_nil hne)]
      · obtain ⟨r₀, rs, hr, hline, hprefix⟩ : ∃ r₀ rs, r.splitOn nl = r₀ :: rs ∧
            (l ++ r).splitOn nl = (l ++ r₀) :: rs ∧ (w <+: l ++ r ↔ w <+: l ++ r₀) := by
          by_cases hnl : nl ∈ r
          · obtain ⟨r₀, r, rfl, hr₀⟩ := List.eq_append_cons_of_mem hnl
            refine ⟨r₀, r.splitOn nl, List.splitOn_append_cons_self_of_not_mem hr₀ r, ?_, ?_⟩
            · rw [← List.append_assoc, List.splitOn_append_cons_self_of_not_mem]
              simp [hl, hr₀]
            · rw [← List.append_assoc, prefix_line_iff nl hw]
          · exact ⟨r, [], List.splitOn_eq_singleton hnl,
              List.splitOn_eq_singleton (by simp [hl, hnl]), Iff.rfl⟩
        rw [hp, hr, hline, List.exists_mem_cons_iff, List.exists_mem_cons_iff,
          exists_prefix_drop_iff (l := l ++ r₀), ← hlt, List.drop_left, hprefix, or_assoc]
      · rw [hp, List.splitOn_eq_singleton hl, List.splitOn_nil]
        simp only [List.mem_singleton, exists_eq_left]
        rw [or_iff_left (not_prefix_drop_nil hne), exists_prefix_drop_iff (l := t),
          List.drop_of_length_le hlt.le, or_iff_left (not_prefix_drop_nil hne)]

/-! ## Pieces and ends -/

theorem length_splitOnP {β : Type} (p : β → Bool) (l : List β) :
    (l.splitOnP p).length = l.countP p + 1 := by
  induction l with
  | nil => rfl
  | cons a l ih =>
      rw [List.splitOnP_cons_eq_if_modifyHead, List.countP_cons]
      split
      · rw [List.length_cons, ih]
      · rw [List.length_modifyHead, ih]

theorem rdropWhile_append_eq_left_iff {β : Type} (p : β → Bool) (u v : List β) :
    (u ++ v).rdropWhile p = u ↔
      (∀ a ∈ v, p a = true) ∧ ∀ a, u.getLast? = some a → p a = false := by
  induction v using List.reverseRecOn with
  | nil =>
      rw [List.append_nil, List.rdropWhile_eq_self_iff]
      constructor
      · refine fun h => ⟨fun a ha => absurd ha List.not_mem_nil, fun a ha => ?_⟩
        have hne : u ≠ [] := by
          rintro rfl
          cases ha
        rw [List.getLast?_eq_some_getLast hne] at ha
        exact Bool.not_eq_true _ ▸ (Option.some.inj ha ▸ h hne)
      · intro h hne
        rw [h.2 _ (List.getLast?_eq_some_getLast hne)]
        exact Bool.false_ne_true
  | append_singleton v b ih =>
      rw [← List.append_assoc, List.rdropWhile_concat]
      by_cases hb : p b = true
      · rw [if_pos hb, ih]
        simp [or_imp, forall_and, hb]
      · rw [if_neg hb]
        refine iff_of_false (fun h => ?_) fun h => ?_
        · have := congrArg List.length h
          simp at this
        · exact hb (h.1 b (List.mem_append_right _ List.mem_cons_self))

/-! ## Up to the first -/

omit [DecidableEq α] in
/-- Stopping at the first is leaving out all if none of the rest follows. -/
theorem takeWhile_eq_filter_iff {p : α → Bool} {l : List α} :
    l.takeWhile p = l.filter p ↔ l.Pairwise fun a b => p b = true → p a = true := by
  induction l with
  | nil => simp
  | cons a l ih =>
      rw [List.pairwise_cons]
      by_cases ha : p a = true
      · rw [List.takeWhile_cons_of_pos ha, List.filter_cons_of_pos ha, List.cons.injEq,
          and_iff_right rfl, ih]
        exact (and_iff_right fun b _ _ => ha).symm
      · rw [List.takeWhile_cons_of_neg ha, List.filter_cons_of_neg ha, eq_comm,
          List.filter_eq_nil_iff]
        constructor
        · intro hnone
          refine ⟨fun b hb hp => absurd hp (hnone b hb), ?_⟩
          exact List.pairwise_of_forall_mem_list fun b _ c hc hp => absurd hp (hnone c hc)
        · rintro ⟨hfirst, -⟩ b hb hp
          exact ha (hfirst b hb hp)

end DebianInstaller.Lib
