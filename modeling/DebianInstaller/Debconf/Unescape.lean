import DebianInstaller.Debconf.Strutl
import DebianInstaller.Lib.Overlap

/-!
# The bounds of strunescape

`strunescape` is run here over memory: what it reads is the string and its `NUL`, what it
writes has `maxlen` bytes, and an access anywhere else breaks the run off. The same loop is
run over two buffers, as the parsers of quoted words do, and over one, as the confmodule
does with a command.

The loop tests one character and takes two for an escape. With `STRESCAPE_822` and
`STRESCAPE_QUOTE` the second one is `n` or a quotation mark, and so it is not the `NUL`.
With `STRESCAPE_CAPB` it may be anything, and after a backslash that ends the string the
pointer has gone behind the `NUL` when it is tested again, unless `maxlen` has ended the
loop first. That is the one case with anything in it; for the others, what is written never
gets ahead of what is read.
-/

namespace DebianInstaller.Debconf

open Text Lib

/-! ## The loop -/

/-- Why a run of `strunescape` is broken off. -/
inductive UnescapeFault where
  /-- It reads behind the `NUL`. -/
  | beyond
  /-- It writes behind `maxlen` bytes. -/
  | outside
  /-- `i` is counted over the largest `int`. -/
  | overflow
  | unfinished
  deriving DecidableEq

variable {σ : Type}

/-- `outbuf[i++] = c`, and what is done then. -/
def putChar (B : Buffers σ Char) (s : σ) (i : Nat) (c : Char)
    (go : σ → Except UnescapeFault (σ × Nat)) : Except UnescapeFault (σ × Nat) :=
  match B.write s i c with
  | none => .error .outside
  | some s' => if i = intMax then .error .overflow else go s'

/-- The loop of `strunescape` with its indices `p` and `i`, for a number of rounds. Of a
`maxlen` of zero `maxlen-1` is the largest `size_t`. -/
def unescapeLoop (B : Buffers σ Char) (mode : EscapeMode) (maxlen : Nat) :
    Nat → σ → Nat → Nat → Except UnescapeFault (σ × Nat)
  | 0, _, _, _ => .error .unfinished
  | n + 1, s, p, i =>
      match B.read s p with
      | none => .error .beyond
      | some c =>
          if c = '\x00' ∨ ¬ (maxlen = 0 ∨ i + 1 < maxlen) then .ok (s, i)
          else if c = '\\' then
            match B.read s (p + 1) with
            | none => .error .beyond
            | some d =>
                if d = 'n' then
                  putChar B s i '\n' fun s => unescapeLoop B mode maxlen n s (p + 2) (i + 1)
                else if mode = .quote ∧ d = '"' ∨ mode = .capb then
                  putChar B s i d fun s => unescapeLoop B mode maxlen n s (p + 2) (i + 1)
                else putChar B s i c fun s => unescapeLoop B mode maxlen n s (p + 1) (i + 1)
          else putChar B s i c fun s => unescapeLoop B mode maxlen n s (p + 1) (i + 1)

/-- The loop from its start, and `outbuf[i] = 0` behind it. -/
def unescapeRun (B : Buffers σ Char) (mode : EscapeMode) (maxlen fuel : Nat) (s : σ) :
    Except UnescapeFault σ :=
  match unescapeLoop B mode maxlen fuel s 0 0 with
  | .error f => .error f
  | .ok (s, i) =>
      match B.write s i '\x00' with
      | none => .error .outside
      | some s => .ok s

/-- A string in memory. -/
def asCString (t : Text) : Text := t ++ ['\x00']

/-- `strunescape` with an `outbuf` that has as many bytes as it is told. -/
def strunescapeTo (mode : EscapeMode) (inbuf outbuf : Text) : Except UnescapeFault (Text × Text) :=
  unescapeRun (apart Char) mode outbuf.length (inbuf.length + 1) (asCString inbuf, outbuf)

/-- `strunescape(inp, inp, strlen(inp)+1, mode)`. -/
def strunescapeSelf (mode : EscapeMode) (inp : Text) : Except UnescapeFault Text :=
  unescapeRun (inPlace Char) mode (inp.length + 1) (inp.length + 1) (asCString inp)

/-! ## What is left out of an unescaped string -/

/-- The characters of a string, with each escape counted once. -/
def unescapedSize (mode : EscapeMode) : Text → Nat
  | [] => 0
  | [_] => 1
  | c :: d :: t =>
      if c = '\\' ∧ (d = 'n' ∨ mode = .quote ∧ d = '"' ∨ mode = .capb) then
        unescapedSize mode t + 1
      else unescapedSize mode (d :: t) + 1

/-- The characters and escapes before a backslash that ends the string and is in no escape. -/
def endsInEscape : Text → Option Nat
  | [] => none
  | [c] => if c = '\\' then some 0 else none
  | c :: d :: t =>
      if c = '\\' then (endsInEscape t).map (· + 1) else (endsInEscape (d :: t)).map (· + 1)

/-- What is left of a string fits into `maxlen` bytes of which some are used: there is room
for the `NUL`, an escape that the string cuts off comes too late to be looked at, and `i`
does not overflow. -/
structure UnescapeFits (mode : EscapeMode) (maxlen i : Nat) (t : Text) : Prop where
  room : i < maxlen
  escape : mode = .capb → ∀ k, endsInEscape t = some k → maxlen ≤ i + k + 1
  count : maxlen ≤ intMax + 1 ∨ i + unescapedSize mode t ≤ intMax

/-! ## One round -/

section Round

variable {B : Buffers σ Char} {mode : EscapeMode} {maxlen n p i : Nat} {s : σ} {t : Text}

theorem unescapeLoop_nil (hA : Ahead B s p i (asCString [])) :
    unescapeLoop B mode maxlen (n + 1) s p i = .ok (s, i) := by
  have hread : B.read s p = some '\x00' := hA.head
  unfold unescapeLoop
  rw [hread]
  exact if_pos (.inl rfl)

theorem unescapeLoop_full {c : Char} (hA : Ahead B s p i (asCString (c :: t)))
    (hi : maxlen = i + 1) : unescapeLoop B mode maxlen (n + 1) s p i = .ok (s, i) := by
  have hread : B.read s p = some c := hA.head
  unfold unescapeLoop
  rw [hread]
  exact if_pos (.inr (by omega))

/-- Else a character is written for one or two that are read, and the string goes on behind
them. The backslash at the end is the exception. -/
theorem unescapeLoop_round {c : Char} (hnul : '\x00' ∉ c :: t)
    (hA : Ahead B s p i (asCString (c :: t))) (hmore : maxlen = 0 ∨ i + 1 < maxlen) :
    (mode = .capb ∧ c = '\\' ∧ t = [] ∧ unescapeLoop B mode maxlen (n + 1) s p i =
      putChar B s i '\x00' fun s => unescapeLoop B mode maxlen n s (p + 2) (i + 1)) ∨
    ∃ d k, k ≤ t.length ∧
      unescapeLoop B mode maxlen (n + 1) s p i =
        (putChar B s i d fun s => unescapeLoop B mode maxlen n s (p + (k + 1)) (i + 1)) ∧
      (∀ room, strunescape mode (room + 1) (c :: t) = d :: strunescape mode room (t.drop k)) ∧
      unescapedSize mode (c :: t) = unescapedSize mode (t.drop k) + 1 ∧
      (mode = .capb → endsInEscape (c :: t) = (endsInEscape (t.drop k)).map (· + 1)) := by
  have hread : B.read s p = some c := hA.head
  have hgo : ¬ (c = '\x00' ∨ ¬ (maxlen = 0 ∨ i + 1 < maxlen)) := by
    rw [not_or, not_not]
    exact ⟨fun h => hnul (h ▸ List.mem_cons_self), hmore⟩
  rw [unescapeLoop]
  simp only [hread, if_neg hgo]
  by_cases hc : c = '\\'
  · rw [if_pos hc]
    cases t with
    | nil =>
        have hnext : B.read s (p + 1) = some '\x00' := hA.next
        by_cases hm : mode = .capb
        · refine .inl ⟨hm, hc, rfl, ?_⟩
          simp only [hnext]
          rw [if_neg (by decide), if_pos (.inr hm)]
        · refine .inr ⟨c, 0, Nat.le_refl _, ?_, fun room => ?_, rfl, fun h => absurd h hm⟩
          · simp only [hnext]
            rw [if_neg (by decide), if_neg (by simp [hm])]
          · unfold strunescape
            rw [if_pos hc]
            simp only [if_neg hm]
            cases room <;> rfl
    | cons d t =>
        right
        have hnext : B.read s (p + 1) = some d := hA.next
        simp only [hnext]
        by_cases hd : d = 'n'
        · refine ⟨'\n', 1, by simp, by rw [if_pos hd], fun room => ?_, ?_, fun _ => ?_⟩
          · rw [strunescape, if_pos hc]
            simp only [if_pos hd]
            rfl
          · exact if_pos ⟨hc, .inl hd⟩
          · exact if_pos hc
        · by_cases hm : mode = .quote ∧ d = '"' ∨ mode = .capb
          · refine ⟨d, 1, by simp, by rw [if_neg hd, if_pos hm], fun room => ?_, ?_, fun _ => ?_⟩
            · rw [strunescape, if_pos hc]
              simp only [if_neg hd, if_pos hm]
              rfl
            · exact if_pos ⟨hc, .inr hm⟩
            · exact if_pos hc
          · refine ⟨c, 0, by simp, by rw [if_neg hd, if_neg hm], fun room => ?_, ?_, fun h => ?_⟩
            · rw [strunescape, if_pos hc]
              simp only [if_neg hd, if_neg hm]
              rfl
            · exact if_neg fun h => h.2.elim hd hm
            · exact absurd (.inr h) hm
  · right
    refine ⟨c, 0, Nat.zero_le _, if_neg hc, fun room => if_neg hc, ?_, fun _ => ?_⟩
    · cases t with
      | nil => rfl
      | cons d t => exact if_neg fun h => hc h.1
    · cases t with
      | nil => exact if_neg hc
      | cons d t => exact if_neg hc

theorem putChar_eq (hi : i < (B.out s).length) (c : Char)
    (go : σ → Except UnescapeFault (σ × Nat)) :
    ∃ s', B.write s i c = some s' ∧ B.out s' = (B.out s).set i c ∧
      putChar B s i c go = if i = intMax then .error .overflow else go s' := by
  obtain ⟨s', hw, ho⟩ := B.exists_write hi c
  refine ⟨s', hw, ho, ?_⟩
  unfold putChar
  rw [hw]

theorem unescapeFits_round {c : Char} {k : Nat} (hmore : i + 1 < maxlen)
    (hsize : unescapedSize mode (c :: t) = unescapedSize mode (t.drop k) + 1)
    (hend : mode = .capb → endsInEscape (c :: t) = (endsInEscape (t.drop k)).map (· + 1)) :
    UnescapeFits mode maxlen i (c :: t) ↔ UnescapeFits mode maxlen (i + 1) (t.drop k) := by
  constructor
  · intro h
    refine ⟨hmore, fun hm j hj => ?_, ?_⟩
    · have := h.escape hm (j + 1) (by rw [hend hm, hj]; rfl)
      omega
    · have := h.count
      omega
  · intro h
    refine ⟨by omega, fun hm j hj => ?_, ?_⟩
    · rw [hend hm] at hj
      obtain ⟨j', hj', rfl⟩ := Option.map_eq_some_iff.mp hj
      have := h.escape hm j' hj'
      omega
    · have := h.count
      omega

/-- The loop comes to its end exactly if the string fits, and then it has written what is
unescaped of it. -/
theorem unescapeLoop_spec (hn : t.length < n) (hnul : '\x00' ∉ t)
    (hA : Ahead B s p i (asCString t)) (hlen : (B.out s).length = maxlen) (hi : i < maxlen)
    (hint : i ≤ intMax) :
    (UnescapeFits mode maxlen i t → ∃ s' i', unescapeLoop B mode maxlen n s p i = .ok (s', i') ∧
      (B.out s').length = maxlen ∧ i' < maxlen ∧
      (B.out s').take i' = (B.out s).take i ++ strunescape mode (maxlen - 1 - i) t) ∧
    (¬ UnescapeFits mode maxlen i t → ∃ f, unescapeLoop B mode maxlen n s p i = .error f) := by
  induction n generalizing s p i t with
  | zero => exact absurd hn (Nat.not_lt_zero _)
  | succ n ih =>
      cases t with
      | nil =>
          have hrun : unescapeLoop B mode maxlen (n + 1) s p i = .ok (s, i) := unescapeLoop_nil hA
          refine ⟨fun _ => ⟨s, i, hrun, hlen, hi, ?_⟩, fun h => ?_⟩
          · cases maxlen - 1 - i <;> exact (List.append_nil _).symm
          · exact absurd ⟨hi, fun _ k hk => (by cases hk), .inr hint⟩ h
      | cons c t =>
          by_cases hmore : i + 1 < maxlen
          · have hroom : maxlen - 1 - i = (maxlen - 1 - (i + 1)) + 1 := by omega
            rcases unescapeLoop_round (n := n) hnul hA (.inr hmore) with
              ⟨hm, rfl, rfl, hrun⟩ | ⟨d, k, hk, hrun, hone, hsize, hend⟩
            · -- the pointer goes behind the `NUL`
              obtain ⟨s', hw, -, hput⟩ := putChar_eq (B := B) (s := s) (i := i) (by omega) '\x00'
                fun s => unescapeLoop B mode maxlen n s (p + 2) (i + 1)
              refine ⟨fun h => ?_, fun _ => ?_⟩
              · have := h.escape hm 0 rfl
                omega
              · rw [hrun, hput]
                split
                · exact ⟨_, rfl⟩
                · have hread : B.read s' (p + 2) = none := (hA.write hw 1).head
                  cases n with
                  | zero => exact ⟨_, rfl⟩
                  | succ n =>
                      refine ⟨.beyond, ?_⟩
                      rw [unescapeLoop, hread]
            · obtain ⟨s', hw, ho, hput⟩ := putChar_eq (B := B) (s := s) (i := i) (by omega) d
                fun s => unescapeLoop B mode maxlen n s (p + (k + 1)) (i + 1)
              rw [hrun, hput, unescapeFits_round hmore hsize hend]
              by_cases hmax : i = intMax
              · rw [if_pos hmax]
                refine ⟨fun h => ?_, fun _ => ⟨_, rfl⟩⟩
                have := h.count
                omega
              · rw [if_neg hmax, hroom, hone]
                have hdrop : (asCString (c :: t)).drop (k + 1) = asCString (t.drop k) := by
                  unfold asCString
                  rw [List.cons_append, List.drop_succ_cons, List.drop_append_of_le_length hk]
                have hahead := hA.write hw k
                rw [hdrop] at hahead
                have hlen' : (B.out s').length = maxlen := by rw [ho, List.length_set, hlen]
                have hrest : (t.drop k).length < n := by
                  rw [List.length_drop]
                  rw [List.length_cons] at hn
                  omega
                have hnul' : '\x00' ∉ t.drop k := fun h =>
                  hnul (List.mem_cons_of_mem _ (List.mem_of_mem_drop h))
                obtain ⟨hok, herr⟩ := ih hrest hnul' hahead hlen' hmore (by omega)
                refine ⟨fun h => ?_, herr⟩
                obtain ⟨s₁, i₁, h₁, hl₁, hi₁, ht₁⟩ := hok h
                refine ⟨s₁, i₁, h₁, hl₁, hi₁, ?_⟩
                have htake : (B.out s').take (i + 1) = (B.out s).take i ++ [d] := by
                  rw [ho, List.take_succ_eq_append_getElem (by rw [List.length_set]; omega),
                    List.take_set_of_le (Nat.le_refl i), List.getElem_set_self]
                rw [ht₁, htake, List.append_assoc, List.singleton_append]
          · have hfull : maxlen = i + 1 := by omega
            have hrun : unescapeLoop B mode maxlen (n + 1) s p i = .ok (s, i) :=
              unescapeLoop_full hA hfull
            have hroom : maxlen - 1 - i = 0 := by omega
            refine ⟨fun _ => ⟨s, i, hrun, hlen, hi, ?_⟩, fun h => ?_⟩
            · rw [hroom]
              exact (List.append_nil _).symm
            · exact absurd ⟨hi, fun _ k _ => by omega, .inl (by omega)⟩ h

theorem unescapeRun_spec (hn : t.length < n) (hnul : '\x00' ∉ t)
    (hA : Ahead B s 0 0 (asCString t)) (hlen : (B.out s).length = maxlen) :
    (UnescapeFits mode maxlen 0 t → ∃ s' i, unescapeRun B mode maxlen n s = .ok s' ∧
      (B.out s').take (i + 1) = asCString (strunescape mode (maxlen - 1) t)) ∧
    (¬ UnescapeFits mode maxlen 0 t → ∃ f, unescapeRun B mode maxlen n s = .error f) := by
  unfold unescapeRun
  by_cases hi : 0 < maxlen
  · obtain ⟨hok, herr⟩ := @unescapeLoop_spec _ _ mode _ _ _ _ _ _ hn hnul hA hlen hi (by decide)
    refine ⟨fun h => ?_, fun h => ?_⟩
    · obtain ⟨s', i', h', hlen', hi', ht'⟩ := hok h
      obtain ⟨s₁, hw, ho⟩ := B.exists_write (s := s') (i := i') (by omega) '\x00'
      simp only [h', hw]
      refine ⟨s₁, i', rfl, ?_⟩
      rw [ho, List.take_succ_eq_append_getElem (by rw [List.length_set]; omega),
        List.take_set_of_le (Nat.le_refl i'), List.getElem_set_self, ht']
      rfl
    · obtain ⟨f, hf⟩ := herr h
      rw [hf]
      exact ⟨f, rfl⟩
  · have hzero : maxlen = 0 := by omega
    refine ⟨fun h => absurd h.room hi, fun _ => ?_⟩
    have hnone : ∀ c, B.write s 0 c = none := fun c => B.write_eq_none (by omega) c
    have hput : ∀ c go, putChar B s 0 c go = .error .outside := by
      intro c go
      unfold putChar
      rw [hnone]
    cases n with
    | zero => exact ⟨_, rfl⟩
    | succ n =>
        cases t with
        | nil =>
            simp only [unescapeLoop_nil hA, hnone]
            exact ⟨_, rfl⟩
        | cons c t =>
            rcases @unescapeLoop_round _ B mode _ n _ _ _ _ _ hnul hA (.inl hzero) with
              ⟨-, -, -, hrun⟩ | ⟨d, k, -, hrun, -⟩
            · rw [hrun, hput]
              exact ⟨_, rfl⟩
            · rw [hrun, hput]
              exact ⟨_, rfl⟩

end Round

/-! ## Both callers -/

/-- `strunescape` stays within the string and within `maxlen` bytes exactly if the string
fits, and then it writes the unescaped string. -/
theorem strunescapeTo_spec (mode : EscapeMode) {t : Text} (hnul : '\x00' ∉ t) (outbuf : Text) :
    (UnescapeFits mode outbuf.length 0 t → ∃ out i, strunescapeTo mode t outbuf = .ok out ∧
      out.2.take (i + 1) = asCString (strunescape mode (outbuf.length - 1) t)) ∧
    (¬ UnescapeFits mode outbuf.length 0 t → ∃ f, strunescapeTo mode t outbuf = .error f) :=
  unescapeRun_spec (B := apart Char) (Nat.lt_succ_self _) hnul
    ⟨Nat.le_refl 0, fun k => by rw [Nat.zero_add]; rfl⟩ rfl

theorem strunescapeSelf_spec (mode : EscapeMode) {t : Text} (hnul : '\x00' ∉ t) :
    (UnescapeFits mode (t.length + 1) 0 t → ∃ out i, strunescapeSelf mode t = .ok out ∧
      out.take (i + 1) = asCString (strunescape mode t.length t)) ∧
    (¬ UnescapeFits mode (t.length + 1) 0 t → ∃ f, strunescapeSelf mode t = .error f) :=
  unescapeRun_spec (B := inPlace Char) (Nat.lt_succ_self _) hnul
    ⟨Nat.le_refl 0, fun k => by rw [Nat.zero_add]; rfl⟩
    (by show (t ++ ['\x00']).length = _; rw [List.length_append]; rfl)

theorem lt_length_of_endsInEscape {t : Text} {k : Nat} (h : endsInEscape t = some k) :
    k < t.length := by
  induction hn : t.length using Nat.strongRecOn generalizing t k with
  | ind n ih =>
      subst hn
      match t with
      | [] => cases h
      | [c] =>
          unfold endsInEscape at h
          split at h
          · cases h
            exact Nat.one_pos
          · cases h
      | c :: d :: t =>
          unfold endsInEscape at h
          split at h
          · obtain ⟨j, hj, rfl⟩ := Option.map_eq_some_iff.mp h
            have := ih t.length (by simp only [List.length_cons]; omega) hj rfl
            simp only [List.length_cons]
            omega
          · obtain ⟨j, hj, rfl⟩ := Option.map_eq_some_iff.mp h
            have := ih (d :: t).length (by simp only [List.length_cons]; omega) hj rfl
            simp only [List.length_cons] at this ⊢
            omega

theorem unescapedSize_le (mode : EscapeMode) (t : Text) : unescapedSize mode t ≤ t.length := by
  induction hn : t.length using Nat.strongRecOn generalizing t with
  | ind n ih =>
      subst hn
      match t with
      | [] => exact Nat.le_refl 0
      | [c] => exact Nat.le_refl 1
      | c :: d :: t =>
          unfold unescapedSize
          split
          · have := ih t.length (by simp only [List.length_cons]; omega) t rfl
            simp only [List.length_cons]
            omega
          · have := ih (d :: t).length (by simp only [List.length_cons]; omega) (d :: t) rfl
            simp only [List.length_cons] at this ⊢
            omega

/-- With `strlen + 1` bytes the string does not fit if it ends in half an escape, or if it
is longer than an `int` counts. -/
theorem unescapeFits_length_iff (mode : EscapeMode) (t : Text) :
    UnescapeFits mode (t.length + 1) 0 t ↔
      (mode = .capb → endsInEscape t = none) ∧ unescapedSize mode t ≤ intMax := by
  constructor
  · intro h
    constructor
    · intro hm
      cases hk : endsInEscape t with
      | none => rfl
      | some k =>
          have := h.escape hm k hk
          have := lt_length_of_endsInEscape hk
          omega
    · have := h.count
      have := unescapedSize_le mode t
      omega
  · rintro ⟨hend, hsize⟩
    refine ⟨Nat.succ_pos _, fun hm k hk => ?_, .inr (by omega)⟩
    rw [hend hm] at hk
    cases hk

theorem ok_iff_of_spec {β : Type} {r : Except UnescapeFault β} {P : Prop}
    (hok : P → ∃ out, r = .ok out) (herr : ¬ P → ∃ f, r = .error f) :
    (∃ out, r = .ok out) ↔ P := by
  constructor
  · rintro ⟨out, hout⟩
    by_contra h
    obtain ⟨f, hf⟩ := herr h
    rw [hf] at hout
    cases hout
  · exact hok

/-- `strunescape` reads nothing behind the `NUL` and writes nothing behind `maxlen` bytes
exactly if the string fits; where it is unescaped in place, exactly if it does not end in
half an escape, and an `int` counts its characters. -/
theorem strunescape_within_iff (mode : EscapeMode) {t : Text} (hnul : '\x00' ∉ t) :
    (∀ outbuf, (∃ out, strunescapeTo mode t outbuf = .ok out) ↔
      UnescapeFits mode outbuf.length 0 t) ∧
    ((∃ out, strunescapeSelf mode t = .ok out) ↔
      (mode = .capb → endsInEscape t = none) ∧ unescapedSize mode t ≤ intMax) := by
  constructor
  · intro outbuf
    obtain ⟨hok, herr⟩ := strunescapeTo_spec mode hnul outbuf
    refine ok_iff_of_spec (fun h => ?_) herr
    obtain ⟨out, -, hout, -⟩ := hok h
    exact ⟨out, hout⟩
  · obtain ⟨hok, herr⟩ := strunescapeSelf_spec mode hnul
    rw [← unescapeFits_length_iff]
    refine ok_iff_of_spec (fun h => ?_) herr
    obtain ⟨out, -, hout, -⟩ := hok h
    exact ⟨out, hout⟩

theorem strunescape_within_set :
    (∀ outbuf, (∃ out, strunescapeTo .capb "SET a \\n" outbuf = .ok out) ↔
      UnescapeFits .capb outbuf.length 0 "SET a \\n") ∧
    ((∃ out, strunescapeSelf .capb "SET a \\n" = .ok out) ↔
      (EscapeMode.capb = .capb → endsInEscape "SET a \\n" = none) ∧
        unescapedSize .capb "SET a \\n" ≤ intMax) :=
  strunescape_within_iff .capb (by decide)

/-- A command that ends in a backslash, from a client that escapes. -/
theorem strunescapeSelf_backslash :
    strunescapeSelf .capb "GET a\\" = .error .beyond ∧
      ¬ ∃ out, strunescapeSelf .capb "GET a\\" = .ok out := by
  have h : strunescapeSelf .capb "GET a\\" = .error .beyond := by decide
  refine ⟨h, ?_⟩
  rintro ⟨out, hout⟩
  rw [h] at hout
  cases hout

end DebianInstaller.Debconf
