import DebianInstaller.Packages.ParserLines

/-!
# What the parser reads of the buffer

With nothing behind the buffer every read behind its end is a fault. The parser looks at the
character behind the newline of each field, to see whether the value goes on, and it does so
behind the last newline of the buffer too. It does not get there if a line before has no colon,
and nothing happens if the last line is empty or has a newline in front that some other field
begins behind.
-/

namespace DebianInstaller.Packages

open Lib Text

/-! ## Where the values are -/

theorem eq_of_getElem? {mem : Text} {i : ℕ} {c : Char} (h : mem[i]? = some c) :
    mem = mem.take i ++ c :: mem.drop (i + 1) := by
  obtain ⟨hi, rfl⟩ := List.getElem?_eq_some_iff.mp h
  rw [← List.drop_eq_getElem_cons, List.take_append_drop]

theorem memchr_eq_some {c : Char} {n i : ℕ} {mem : Text} (h : memchr c n mem = some (some i)) :
    mem[i]? = some c := by
  induction n generalizing mem i with
  | zero => cases h
  | succ n ih =>
      cases mem with
      | nil => cases h
      | cons a t =>
          rw [memchr] at h
          split at h
          · next ha =>
              obtain rfl : 0 = i := by simpa using h
              rw [ha]
              rfl
          · obtain ⟨r, hr, hi⟩ := Option.map_eq_some_iff.mp h
            obtain ⟨j, rfl, rfl⟩ := Option.map_eq_some_iff.mp hi
            rw [List.getElem?_cons_succ]
            exact ih hr

theorem largeValue_spec {mem : Text} {left rounds valueEnd v : ℕ}
    (hv : mem[valueEnd]? = some '\n') (h : largeValue mem left rounds valueEnd = some (some v)) :
    valueEnd ≤ v ∧ mem[v]? = some '\n' := by
  induction rounds generalizing valueEnd with
  | zero => cases h
  | succ rounds ih =>
      rw [largeValue] at h
      split at h
      · cases h
      · split at h
        · split at h
          · cases h
          · cases h
          · next i hi =>
              have hnl := memchr_eq_some hi
              rw [List.getElem?_drop] at hnl
              obtain ⟨hle, hend⟩ := ih hnl h
              exact ⟨by omega, hend⟩
        · obtain rfl : valueEnd = v := by simpa using h
          exact ⟨le_rfl, hv⟩

/-- A field that was read stands in the memory as it was written. -/
theorem readField_spec {mem : Text} {left : ℕ} {f : FieldRead}
    (h : readField mem left = some (some f)) :
    ∃ blanks, (∀ c ∈ blanks, isBlank c = true) ∧
      mem = f.name ++ ':' :: blanks ++ f.value ++ '\n' :: mem.drop (f.valueEnd + 1) := by
  rw [readField] at h
  split at h
  · cases h
  · cases h
  · next fieldEnd hcolon =>
      have hcolon := memchr_eq_some hcolon
      obtain ⟨blanks, hblanks⟩ : ∃ blanks,
          ((mem.take left).drop (fieldEnd + 1)).takeWhile isBlank = blanks := ⟨_, rfl⟩
      have hall : ∀ c ∈ blanks, isBlank c = true := by
        rw [← hblanks]
        exact fun c hc => List.mem_takeWhile_imp hc
      have hprefix : blanks <+: mem.drop (fieldEnd + 1) := by
        rw [← hblanks, List.drop_take]
        exact (List.takeWhile_prefix _).trans (List.take_prefix _ _)
      obtain ⟨rest, hrest⟩ := hprefix
      have hmem := eq_of_getElem? hcolon
      have hlen : (mem.take fieldEnd).length = fieldEnd := by
        obtain ⟨hlt, -⟩ := List.getElem?_eq_some_iff.mp hcolon
        rw [List.length_take, Nat.min_eq_left hlt.le]
      have htake : mem.take (fieldEnd + 1 + blanks.length) =
          mem.take fieldEnd ++ ':' :: blanks := by
        conv_lhs => rw [hmem]
        rw [← hrest, ← List.cons_append, ← List.append_assoc]
        refine List.take_left' ?_
        rw [List.length_append, hlen, List.length_cons]
        omega
      dsimp only at h
      rw [hblanks] at h
      split at h
      · cases h
      · cases h
      · next v hnewline =>
          have hnewline := memchr_eq_some hnewline
          split at h
          · cases h
          · next hle =>
              -- the blanks end before the newline
              have hbegin : fieldEnd + 1 + blanks.length ≤ v := by
                by_contra hlt
                have hin : (mem.take fieldEnd ++ ':' :: blanks)[v]? = some '\n' := by
                  rw [← htake, List.getElem?_take_of_lt (by omega), hnewline]
                rw [List.getElem?_append_right (by omega), hlen] at hin
                rcases List.mem_cons.mp (List.mem_of_getElem? hin) with hc | hc
                · exact absurd hc (by decide)
                · exact absurd (hall _ hc) (by decide)
              split at h
              · cases h
              · cases h
              · next v' hlarge =>
                  obtain ⟨hle', hend⟩ := largeValue_spec hnewline hlarge
                  obtain rfl := Option.some.inj (Option.some.inj h)
                  have hvalue := List.take_append_drop (fieldEnd + 1 + blanks.length) (mem.take v')
                  rw [List.take_take, Nat.min_eq_left (hbegin.trans hle'), htake] at hvalue
                  refine ⟨blanks, hall, ?_⟩
                  conv_lhs => rw [eq_of_getElem? hend, ← hvalue]

section Lies

variable {F : Type} (lookup : Text → Option F)

/-- The value of a field with the reader stands in the text behind the name of the field, a
colon and blanks, and before a newline. -/
def Lies (t : Text) (fip : F) (value : Text) : Prop :=
  ∃ pre name blanks post, t = pre ++ (name ++ ':' :: blanks ++ value ++ '\n' :: post) ∧
    (∀ c ∈ blanks, isBlank c = true) ∧ lookup name = some fip

variable {lookup}

theorem Lies.suffix {t t' : Text} (h : t <:+ t') {fip : F} {value : Text}
    (hv : Lies lookup t fip value) : Lies lookup t' fip value := by
  obtain ⟨pre', rfl⟩ := h
  obtain ⟨pre, name, blanks, post, rfl, hb, hlook⟩ := hv
  exact ⟨pre' ++ pre, name, blanks, post, (List.append_assoc _ _ _).symm, hb, hlook⟩

theorem readFields_lies {rounds : ℕ} {mem : Text} {left : ℕ} {events : List (Event F)}
    {r : Option (Text × ℕ)} (h : readFields lookup rounds mem left = some (events, r)) :
    (∀ fip value, Event.read fip value ∈ events → Lies lookup mem fip value) ∧
      ∀ mem' left', r = some (mem', left') → mem' <:+ mem := by
  induction rounds generalizing mem left events r with
  | zero => cases h
  | succ rounds ih =>
      rw [readFields] at h
      split at h
      · obtain ⟨rfl, rfl⟩ := Prod.mk.inj (Option.some.inj h)
        refine ⟨fun _ _ hno => absurd hno List.not_mem_nil, fun mem' left' hr => ?_⟩
        obtain ⟨rfl, -⟩ := Prod.mk.inj (Option.some.inj hr)
        exact List.suffix_rfl
      · split at h
        · cases h
        · obtain ⟨rfl, rfl⟩ := Prod.mk.inj (Option.some.inj h)
          exact ⟨fun _ _ hno => absurd hno List.not_mem_nil, fun _ _ hno => (by cases hno)⟩
        · next f hf =>
            obtain ⟨blanks, hblanks, hmem⟩ := readField_spec hf
            have hcall : ∀ fip value,
                Event.read fip value ∈ (lookup f.name).toList.map (Event.read · f.value) →
                Lies lookup mem fip value := by
              intro fip value hin
              obtain ⟨fip', hfip, he⟩ := List.mem_map.mp hin
              obtain ⟨rfl, rfl⟩ := Event.read.inj he
              exact ⟨[], f.name, blanks, _, hmem, hblanks, Option.mem_toList.mp hfip⟩
            dsimp only at h
            split at h
            · obtain ⟨rfl, rfl⟩ := Prod.mk.inj (Option.some.inj h)
              refine ⟨hcall, fun mem' left' hr => ?_⟩
              obtain ⟨rfl, -⟩ := Prod.mk.inj (Option.some.inj hr)
              exact List.drop_suffix _ _
            · obtain ⟨⟨events', r'⟩, hrest, he⟩ := Option.map_eq_some_iff.mp h
              obtain ⟨rfl, rfl⟩ := Prod.mk.inj he
              obtain ⟨hvalues, hsuffix⟩ := ih hrest
              refine ⟨fun fip value hin => ?_, fun mem' left' hr => ?_⟩
              · rcases List.mem_append.mp hin with hin | hin
                · exact hcall fip value hin
                · exact (hvalues fip value hin).suffix (List.drop_suffix _ _)
              · exact (hsuffix mem' left' hr).trans (List.drop_suffix _ _)

theorem readEntries_lies {rounds : ℕ} {nr : Int} {mem : Text} {left : ℕ}
    {events : List (Event F)} {n : Int}
    (h : readEntries lookup rounds nr mem left = some (events, n)) :
    ∀ fip value, Event.read fip value ∈ events → Lies lookup mem fip value := by
  induction rounds generalizing nr mem left events n with
  | zero => cases h
  | succ rounds ih =>
      rw [readEntries] at h
      split at h
      · obtain ⟨rfl, -⟩ := Prod.mk.inj (Option.some.inj h)
        exact fun _ _ hno => absurd hno List.not_mem_nil
      · split at h
        · exact fun fip value hin => (ih h fip value hin).suffix (List.drop_suffix _ _)
        · split at h
          · cases h
          · next events' hfields =>
              obtain ⟨rfl, -⟩ := Prod.mk.inj (Option.some.inj h)
              intro fip value hin
              exact (readFields_lies hfields).1 fip value (by simpa using hin)
          · next events' mem' left' hfields =>
              obtain ⟨⟨events'', n'⟩, hrest, he⟩ := Option.map_eq_some_iff.mp h
              obtain ⟨rfl, -⟩ := Prod.mk.inj he
              obtain ⟨hvalues, hsuffix⟩ := readFields_lies hfields
              intro fip value hin
              have hin : Event.read fip value ∈ events' ∨ Event.read fip value ∈ events'' := by
                simpa using hin
              rcases hin with hin | hin
              · exact hvalues fip value hin
              · exact (ih hrest fip value hin).suffix (hsuffix mem' left' rfl)

end Lies

/-! ## Where the parser reads -/

/-- What is behind the last newline of a buffer. -/
def unended (buf : Text) : Text := (buf.splitOn '\n').getLastD []

/-- The value of the last field goes on to the end of the buffer, where the parser looks for
more of it. -/
structure RunsOut (buf : Text) : Prop where
  line : (linesOf buf).getLastD [] ≠ []
  continued : unended buf = [] ∨ startsBlank (unended buf) = true
  good : ∀ s ∈ stanzasOf (linesOf buf), GoodStanza s

theorem largeValue_runsOut {z : Text} (hz : z = [] ∨ startsBlank z = true) (hline : '\n' ∉ z)
    (pre : Text) (rounds : ℕ) :
    largeValue (pre ++ '\n' :: z) (pre.length + 1 + z.length) (rounds + 1) pre.length = none := by
  have hget : (pre ++ '\n' :: z)[pre.length + 1]? = z[0]? := by
    rw [List.getElem?_append_right (by omega), Nat.add_sub_cancel_left]
    rfl
  rw [largeValue, hget]
  rcases hz with rfl | hz
  · rfl
  · obtain ⟨b, t, rfl⟩ : ∃ b t, z = b :: t := List.exists_cons_of_ne_nil (by rintro rfl; cases hz)
    have hb : isBlank b = true := by simpa [startsBlank] using hz
    have hdrop : (pre ++ '\n' :: b :: t).drop (pre.length + 1) = b :: t := by
      rw [List.drop_append]
      simp
    have hcount : pre.length + 1 + (b :: t).length + 1 - pre.length = (b :: t).length + 2 := by
      omega
    have hpast := memchr_past hline 2 ([] : Text)
    rw [List.append_nil] at hpast
    simp only [List.getElem?_cons_zero, hb, if_true]
    rw [hdrop, hcount, hpast]
    rfl

section Reads

variable {F : Type} (lookup : Text → Option F)

theorem readFields_runsOut {l : Text} {cs : List Text} (h : IsField l cs) (hcolon : ':' ∈ l)
    {z : Text} (hz : z = [] ∨ startsBlank z = true) (hline : '\n' ∉ z) (rounds : ℕ) :
    readFields lookup rounds (unlines '\n' (l :: cs) ++ z)
      ((unlines '\n' (l :: cs)).length + z.length) = none := by
  cases rounds with
  | zero => rfl
  | succ rounds =>
      obtain ⟨name, tail, rfl, hname⟩ := List.eq_append_cons_of_mem hcolon
      have hcs := length_le_body cs
      have hmem : unlines '\n' ((name ++ ':' :: tail) :: cs) ++ z =
          name ++ ':' :: tail ++ body cs ++ '\n' :: z := by
        rw [unlines_eq_body, List.append_assoc, List.singleton_append]
      have hlen : (unlines '\n' ((name ++ ':' :: tail) :: cs)).length =
          (name ++ ':' :: tail ++ body cs).length + 1 := by
        rw [unlines_eq_body, List.length_append, List.length_singleton]
      obtain ⟨k, hk⟩ : ∃ k, (name ++ ':' :: tail ++ body cs).length + 1 + z.length + 2 -
          cs.length = k + 1 := by
        refine ⟨(name ++ ':' :: tail ++ body cs).length + 1 + z.length + 1 - cs.length, ?_⟩
        rw [List.length_append]
        omega
      rw [hmem, hlen, readFields, if_neg (by omega), readField_colon hname h z (by omega), hk,
        largeValue_runsOut hz hline]
      rfl

theorem readFields_unended {z : Text} (hz : z ≠ []) (hline : '\n' ∉ z) (rounds : ℕ) :
    readFields lookup (rounds + 1) z z.length = some ([], none) := by
  have hnone : ∀ c : Char, c ∉ z → memchr c z.length z = some none := by
    intro c hc
    have hpast := memchr_past hc 0 ([] : Text)
    rw [List.append_nil] at hpast
    exact hpast
  have hread : readField z z.length = some none := by
    obtain ⟨r, hr⟩ := memchr_readable (c := ':') (le_refl z.length)
    rw [readField, hr]
    cases r with
    | none => rfl
    | some fieldEnd =>
        dsimp only
        rw [hnone '\n' hline]
  rw [readFields, if_neg (by simpa using hz), hread]

theorem readFields_tail {s : List Text} (hne : s ≠ []) (hs : ∀ l ∈ s, Line l) {z : Text}
    (hline : '\n' ∉ z) :
    (readFields lookup ((unlines '\n' s).length + z.length) (unlines '\n' s ++ z)
        ((unlines '\n' s).length + z.length) = none ↔
      GoodStanza s ∧ (z = [] ∨ startsBlank z = true)) ∧
    ∀ events r, readFields lookup ((unlines '\n' s).length + z.length) (unlines '\n' s ++ z)
      ((unlines '\n' s).length + z.length) = some (events, r) → r = none := by
  have hfields := fields_fieldsOf hs
  have hlen := length_fieldsOf_le s
  have hflat := flatten_fieldsOf s
  by_cases hgood : GoodStanza s
  swap
  · have hread := readFields_fail lookup hfields hgood z le_rfl
      (hlen.trans (Nat.le_add_right _ z.length))
    rw [hflat] at hread
    rw [hread]
    simp [hgood]
  by_cases hz : z = [] ∨ startsBlank z = true
  · obtain ⟨init, f, hsplit⟩ := (List.eq_nil_or_concat' (fieldsOf s)).resolve_left
      (List.splitBy_ne_nil.2 hne)
    rw [hsplit] at hfields hlen hflat
    obtain ⟨l, cs, rfl, hfield⟩ := hfields.field f (by simp)
    have hcolon : ':' ∈ l := by
      simpa [hasColon] using hgood (l :: cs) (by rw [hsplit]; simp)
    obtain ⟨k, hk⟩ : ∃ k, (unlines '\n' s).length + z.length = init.length + k := by
      refine ⟨(unlines '\n' s).length + z.length - init.length, ?_⟩
      rw [List.length_append, List.length_singleton] at hlen
      omega
    have hread := readFields_last lookup hfields (fun f hf => hgood f (by rw [hsplit]; simp [hf]))
      z z.length k
    rw [hflat, readFields_runsOut lookup hfield hcolon hz hline, ← hk] at hread
    rw [hread]
    simp [hgood, hz]
  · rw [not_or] at hz
    obtain ⟨c, rest, rfl⟩ := List.exists_cons_of_ne_nil hz.1
    have hc : Begins c := by
      refine ⟨by simpa [startsBlank] using hz.2, ?_⟩
      rintro rfl
      exact hline List.mem_cons_self
    obtain ⟨k, hk⟩ : ∃ k, (unlines '\n' s).length + (c :: rest).length =
        (fieldsOf s).length + (k + 1) := by
      refine ⟨(unlines '\n' s).length + rest.length - (fieldsOf s).length, ?_⟩
      rw [List.length_cons]
      omega
    have hpos : 0 < (c :: rest).length := List.length_pos_of_ne_nil hz.1
    have hread := readFields_good lookup hfields hgood (.inr hc) rest hpos (k + 1)
    rw [hflat, readFields_unended lookup hz.1 hline, ← hk] at hread
    rw [hread]
    simp [hz.2]

theorem readEntries_line_eq_none {l : Text} (hl : Line l) (rest : Text) {left : ℕ}
    (hleft : left ≠ 0)
    (h : ∀ events r, readFields lookup left (l ++ rest) left = some (events, r) → r = none)
    {rounds : ℕ} {nr : Int} :
    readEntries lookup (rounds + 1) nr (l ++ rest) left = none ↔
      readFields lookup left (l ++ rest) left = none := by
  rw [readEntries_line lookup hl rest hleft]
  rcases hread : readFields lookup left (l ++ rest) left with _ | ⟨events, r⟩
  · simp
  · rw [h events r hread]
    simp

end Reads

section Inside

variable {F : Type} (lookup : Text → Option F)

/-- The parser stays inside the buffer, and so do the values it passes on, exactly if the value of
the last field does not run out of the buffer. -/
theorem diParserRfc822Read_inside_iff (buf : Text) :
    (∃ events nr, diParserRfc822Read lookup buf [] = some (events, nr) ∧
      ∀ fip value, Event.read fip value ∈ events → Lies lookup buf fip value) ↔
    ¬ RunsOut buf := by
  obtain ⟨ls, z, hls, hz, rfl⟩ := exists_unlines_append '\n' buf
  have hsplit : (unlines '\n' ls ++ z).splitOn '\n' = ls ++ [z] := by
    rw [splitOn_unlines '\n' hls, List.splitOn_eq_singleton hz]
  have hlines : linesOf (unlines '\n' ls ++ z) = ls := by
    rw [linesOf, hsplit, List.dropLast_concat]
  have hunended : unended (unlines '\n' ls ++ z) = z := by
    rw [unended, hsplit, List.getLastD_concat]
  have hinside : (∃ events nr, diParserRfc822Read lookup (unlines '\n' ls ++ z) [] =
        some (events, nr) ∧ ∀ fip value, Event.read fip value ∈ events →
          Lies lookup (unlines '\n' ls ++ z) fip value) ↔
      diParserRfc822Read lookup (unlines '\n' ls ++ z) [] ≠ none := by
    rw [Option.ne_none_iff_exists']
    constructor
    · rintro ⟨events, nr, h, -⟩
      exact ⟨_, h⟩
    · rintro ⟨r, h⟩
      refine ⟨r.1, r.2, h, ?_⟩
      rw [diParserRfc822Read, List.append_nil] at h
      exact readEntries_lies h
  have hout : RunsOut (unlines '\n' ls ++ z) ↔ ls.getLastD [] ≠ [] ∧
      (z = [] ∨ startsBlank z = true) ∧ ∀ s ∈ stanzasOf ls, GoodStanza s := by
    constructor
    · rintro ⟨h₁, h₂, h₃⟩
      rw [hlines] at h₁ h₃
      rw [hunended] at h₂
      exact ⟨h₁, h₂, h₃⟩
    · rintro ⟨h₁, h₂, h₃⟩
      refine ⟨?_, ?_, ?_⟩
      · rwa [hlines]
      · rwa [hunended]
      · rwa [hlines]
  rw [hinside, hout]
  obtain ⟨ls₀, s, rfl, hc, hs⟩ := exists_complete ls
  obtain ⟨rounds, -, hcall⟩ := diParserRfc822Read_complete lookup
    (fun l hl => hls l (by simp [hl])) hc (unlines '\n' s ++ z) []
  rw [← List.append_assoc, ← unlines_append, List.append_nil] at hcall
  rw [hcall, stanzasOf_append hc]
  by_cases hgood : ∀ t ∈ stanzasOf ls₀, GoodStanza t
  swap
  · rw [if_neg hgood]
    refine iff_of_true (by simp) fun hbad => hgood fun t ht => ?_
    exact hbad.2.2 t (List.mem_append_left _ ht)
  rw [if_pos hgood, Ne, Option.map_eq_none_iff]
  by_cases hne : s = []
  · subst hne
    rw [unlines_nil, List.nil_append]
    refine iff_of_true ?_ fun hbad => hbad.1 ?_
    · by_cases hznil : z = []
      · subst hznil
        simp [readEntries]
      · have hzlen : z.length ≠ 0 := by simpa using hznil
        obtain ⟨n, hn⟩ := Nat.exists_eq_succ_of_ne_zero hzlen
        have hfields := readFields_unended lookup hznil hz n
        rw [← Nat.succ_eq_add_one, ← hn] at hfields
        have hentry := readEntries_line_eq_none lookup (⟨hznil, hz⟩ : Line z) [] hzlen
        rw [List.append_nil, hfields] at hentry
        rw [hentry]
        · simp
        · intro events r he
          exact (Prod.mk.inj (Option.some.inj he)).2.symm
    · rw [List.append_nil]
      rcases hc with rfl | hlast
      · rfl
      · rw [List.getLastD_eq_getLast?, hlast]
        rfl
  · have hline : ∀ l ∈ s, Line l := fun l hl => ⟨fun e => hs (e ▸ hl), hls l (by simp [hl])⟩
    obtain ⟨hnone, hother⟩ := readFields_tail lookup hne hline hz
    obtain ⟨l, rest, hl, hrest⟩ : ∃ l rest, Line l ∧ unlines '\n' s ++ z = l ++ rest := by
      obtain ⟨l, ls, rfl⟩ := List.exists_cons_of_ne_nil hne
      exact ⟨l, _, hline l (by simp), by rw [unlines_cons, List.append_assoc, List.cons_append]⟩
    have hleft : (unlines '\n' s).length + z.length ≠ 0 := by
      have := length_le_unlines s
      have := List.length_pos_of_ne_nil hne
      omega
    rw [List.length_append]
    rw [hrest] at hnone hother ⊢
    rw [readEntries_line_eq_none lookup hl rest hleft hother, hnone, stanzasOf_stanza hne hs]
    have hlast : (ls₀ ++ s).getLastD [] ≠ [] := by
      obtain ⟨init, l, rfl⟩ := (List.eq_nil_or_concat' s).resolve_left hne
      rw [← List.append_assoc, List.getLastD_concat]
      exact (hline l (by simp)).1
    have hall : (∀ t ∈ stanzasOf ls₀ ++ [s], GoodStanza t) ↔ GoodStanza s := by
      refine ⟨fun h => h s (by simp), fun h t ht => ?_⟩
      rcases List.mem_append.mp ht with ht | ht
      · exact hgood t ht
      · rwa [List.mem_singleton.mp ht]
    rw [hall, and_comm (a := GoodStanza s)]
    simp only [hlast, ne_eq, not_false_eq_true, true_and]

end Inside

/-- The parser reads behind a buffer of one line, and what it finds there decides on the value. -/
theorem diParserRfc822Read_outside :
    ¬ (∃ events nr, diParserRfc822Read packageOnly "Package: a\n" [] = some (events, nr) ∧
      ∀ fip value, Event.read fip value ∈ events →
        Lies packageOnly "Package: a\n" fip value) ∧
    diParserRfc822Read packageOnly "Package: a\n" "\x00" =
      some ([.entryNew, .read () "a"], 1) ∧
    diParserRfc822Read packageOnly "Package: a\n" " \n\x00" =
      some ([.entryNew, .read () "a\n "], 1) := by
  have hnone : diParserRfc822Read packageOnly "Package: a\n" [] = none := by
    decide +kernel
  refine ⟨?_, by decide +kernel, by decide +kernel⟩
  rintro ⟨events, nr, h, -⟩
  rw [hnone] at h
  cases h

end DebianInstaller.Packages
