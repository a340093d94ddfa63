import DebianInstaller.Mklibs.Reduce
import DebianInstaller.Lib.Worklist

/-!
# Symbols that are needed and provided

The loop ends in a pass in which each needed symbol is spelled by a symbol that is provided,
or in one that misses what the pass before has missed, if all of this is weak. That the symbols
are provided as they are asked for does not follow, for three reasons.

A dictionary has one entry for each spelling, so a weak reference takes the place of one that
is not weak, and nobody complains when the symbol is missing. The files whose symbols count as
present are the programs too, not only libraries. And a spelling is a name, a version and a
library with `@` between them, so it tells which symbol is meant only if it is known how many of
its `@` belong to these themselves.
-/

namespace DebianInstaller.Mklibs

open Lib

variable {e : Final} {obj : Text} {p : Provided} {s : Undefined} {w : World}

/-! ## What is required -/

/-- An object of the last pass has a reference that is not weak and not left out. -/
def Strong (e : Final) (obj : Text) (s : Undefined) : Prop :=
  obj ∈ e.objects ∧ (∃ symbols, e.world.undefinedSymbols obj = some symbols ∧ s ∈ symbols) ∧
    s.weak = false ∧ isSkipped obj s = false

/-- A symbol is the one that is asked for. -/
structure Matches (s : Undefined) (p : Provided) : Prop where
  name : p.name = s.name
  version : match s.version with
    | none => p.version = none ∨ p.default_version = true
    | some version => p.version = some version
  library : ∀ library, s.library = some library → p.library = library

namespace Setup

variable (c : Setup)

/-- The reduced libraries, the available ones and the dynamic linker. -/
def libs (e : Final) : List Text := e.small_libs ++ e.available_libs ++ [c.ldlib]

def ProvidedBy (e : Final) (s : Undefined) : Prop :=
  ∃ lib ∈ c.libs e, ∃ symbols, e.world.providedSymbols lib = some symbols ∧
    ∃ p ∈ symbols, Matches s p

/-- Each reference is provided for. -/
def Good (e : Final) : Prop := ∀ obj s, Strong e obj s → c.ProvidedBy e s

/-- A file has a symbol with this spelling. -/
def Spelled (e : Final) (file name : Text) : Prop :=
  ∃ symbols, e.world.providedSymbols file = some symbols ∧ ∃ p ∈ symbols, name ∈ p.baseNames

/-- Where a library has the spelling of a reference, there is one that has it with as many `@` in
each part. As a spelling without a version has no library in it either, that one has to be of the
library that the reference names, if it names one. -/
def Unambiguous (e : Final) : Prop :=
  ∀ obj s, Strong e obj s → (∃ lib ∈ c.libs e, Spelled e lib s.str) →
    ∃ lib ∈ c.libs e, ∃ symbols, e.world.providedSymbols lib = some symbols ∧
      ∃ p ∈ symbols, ∃ parts ∈ p.spellings, joined parts = s.str ∧ ats parts = ats s.parts ∧
        (s.version = none → ∀ library, s.library = some library → p.library = library)

end Setup

/-! ## Spellings

A spelling with the number of `@` in each of its parts can be cut in one way only. -/

theorem Undefined.str_eq (s : Undefined) : s.str = joined s.parts := by
  rw [str, parts, joined]
  cases s.version with
  | none => exact List.intercalate_singleton.symm
  | some version => cases s.library <;> simp [List.intercalate_cons_cons]

theorem Provided.baseNames_eq (p : Provided) : p.baseNames = p.spellings.map joined := by
  rw [baseNames, spellings]
  cases p.version with
  | none => simp [joined]
  | some version =>
      by_cases hlib : p.library = [] <;> cases p.default_version <;>
        simp [hlib, joined, List.intercalate_cons_cons]

theorem joined_cons_cons (a b : Text) (parts : List Text) :
    joined (a :: b :: parts) = a ++ '@' :: joined (b :: parts) := by
  rw [joined, List.intercalate_cons_cons, List.append_assoc]
  rfl

theorem cut_eq {a b s t : Text} (h : a ++ '@' :: s = b ++ '@' :: t)
    (hcount : a.count '@' = b.count '@') : a = b ∧ s = t := by
  rcases List.append_eq_append_iff.mp h with ⟨c, rfl, hc⟩ | ⟨c, rfl, hc⟩
  · cases c with
    | nil => exact ⟨(List.append_nil a).symm, (List.cons.inj hc).2⟩
    | cons x c =>
        obtain ⟨rfl, -⟩ := List.cons.inj hc
        rw [List.count_append, List.count_cons_self] at hcount
        omega
  · cases c with
    | nil => exact ⟨List.append_nil b, (List.cons.inj hc).2.symm⟩
    | cons x c =>
        obtain ⟨rfl, -⟩ := List.cons.inj hc
        rw [List.count_append, List.count_cons_self] at hcount
        omega

theorem parts_eq {a b : List Text} (h : joined a = joined b) (hats : ats a = ats b) : a = b := by
  induction a generalizing b with
  | nil => exact (List.map_eq_nil_iff.mp hats.symm).symm
  | cons x a ih =>
      cases b with
      | nil => exact absurd hats (List.cons_ne_nil _ _)
      | cons y b =>
          obtain ⟨hcount, hrest⟩ := List.cons.inj hats
          cases a with
          | nil =>
              obtain rfl := List.map_eq_nil_iff.mp hrest.symm
              rw [joined, joined, List.intercalate_singleton, List.intercalate_singleton] at h
              rw [h]
          | cons x' a =>
              cases b with
              | nil => exact absurd hrest (List.cons_ne_nil _ _)
              | cons y' b =>
                  rw [joined_cons_cons, joined_cons_cons] at h
                  obtain ⟨rfl, hjoined⟩ := cut_eq h hcount
                  rw [ih hjoined hrest]

theorem count_joined {parts : List Text} (hne : parts ≠ []) (h : ∀ t ∈ parts, '@' ∉ t) :
    (joined parts).count '@' + 1 = parts.length := by
  induction parts with
  | nil => exact absurd rfl hne
  | cons a parts ih =>
      obtain ⟨ha, hparts⟩ := List.forall_mem_cons.mp h
      cases parts with
      | nil => rw [joined, List.intercalate_singleton, List.count_eq_zero_of_not_mem ha]; rfl
      | cons b parts =>
          rw [joined_cons_cons, List.count_append, List.count_cons_self,
            List.count_eq_zero_of_not_mem ha, Nat.zero_add, ih (List.cons_ne_nil _ _) hparts]
          rfl

theorem ats_eq_of_noAt {a b : List Text} (h : joined a = joined b) (hne : a ≠ []) (hne' : b ≠ [])
    (ha : ∀ t ∈ a, '@' ∉ t) (hb : ∀ t ∈ b, '@' ∉ t) : ats a = ats b := by
  have hlength : a.length = b.length := by
    rw [← count_joined hne ha, ← count_joined hne' hb, h]
  have hzero {parts : List Text} (hparts : ∀ t ∈ parts, '@' ∉ t) :
      ats parts = List.replicate parts.length 0 :=
    List.map_eq_replicate_iff.mpr fun t ht => List.count_eq_zero_of_not_mem (hparts t ht)
  rw [hzero ha, hzero hb, hlength]

theorem Undefined.parts_ne_nil (s : Undefined) : s.parts ≠ [] := by
  rw [parts]
  split
  · exact List.cons_ne_nil _ _
  · split <;> exact List.cons_ne_nil _ _

theorem Provided.ne_nil_of_mem_spellings {parts : List Text} (h : parts ∈ p.spellings) :
    parts ≠ [] := by
  rintro rfl
  rw [spellings] at h
  split at h
  · simp at h
  · split at h <;> split at h <;> simp at h

theorem ne_nil_of_mem_words {t w : Text} (h : w ∈ Text.words t) : w ≠ [] :=
  of_decide_eq_true (List.mem_filter.mp h).2

theorem library_ne_nil {line : Text} (h : Undefined.ofLine line = some s) {library : Text}
    (hl : s.library = some library) : library ≠ [] := by
  rw [Undefined.ofLine] at h
  split at h
  · next name weak version lib htake =>
      obtain rfl := Option.some.inj h
      dsimp only at hl
      split at hl
      · cases hl
      · obtain rfl := Option.some.inj hl
        refine ne_nil_of_mem_words (t := line) (List.mem_of_mem_take (i := 4) ?_)
        rw [htake]
        simp
  · cases h

theorem mem_undefinedSymbols {symbols : List Undefined} (h : w.undefinedSymbols obj = some symbols)
    (hs : s ∈ symbols) : ∃ line, Undefined.ofLine line = some s := by
  obtain ⟨all, hall, hsymbols⟩ := Option.bind_eq_some_iff.mp h
  obtain rfl := Option.some.inj hsymbols
  have hmem := (List.mem_filter.mp hs).1
  obtain ⟨line, -, hline⟩ := (mem_of_mapM hall s).mp hmem
  exact ⟨line, hline⟩

theorem Matches.parts_mem (h : Matches s p)
    (hl : ∀ library, s.library = some library → library ≠ []) : s.parts ∈ p.spellings := by
  have hversion := h.version
  rw [Undefined.parts, Provided.spellings]
  cases hs : s.version with
  | none =>
      rw [hs] at hversion
      cases hp : p.version with
      | none => simp [h.name]
      | some v =>
          have hdefault : p.default_version = true := hversion.resolve_left (by rw [hp]; simp)
          simp [hdefault, h.name]
  | some v =>
      rw [hs] at hversion
      rw [hversion]
      cases hlib : s.library with
      | none => simp [h.name]
      | some library =>
          have hne : p.library ≠ [] := h.library library hlib ▸ hl library hlib
          simp [h.name, h.library library hlib, hl library hlib]

theorem Matches.of_parts (h : s.parts ∈ p.spellings)
    (hlibrary : s.version = none → ∀ library, s.library = some library → p.library = library) :
    Matches s p := by
  rw [Undefined.parts, Provided.spellings] at h
  cases hs : s.version with
  | none =>
      rw [hs] at h
      refine ⟨?_, ?_, hlibrary hs⟩
      · cases hp : p.version with
        | none => simpa [hp, eq_comm] using h
        | some v =>
            rw [hp] at h
            by_cases hlib : p.library = [] <;> cases hd : p.default_version <;>
              simp_all
      · rw [hs]
        cases hp : p.version with
        | none => exact .inl rfl
        | some v =>
            rw [hp] at h
            by_cases hlib : p.library = [] <;> cases hd : p.default_version <;>
              simp_all
  | some v =>
      rw [hs] at h
      cases hp : p.version with
      | none =>
          rw [hp] at h
          cases hlib : s.library <;> simp [hlib] at h
      | some v' =>
          rw [hp] at h
          cases hlib : s.library with
          | none =>
              have hboth : s.name = p.name ∧ v = v' := by
                by_cases hlib' : p.library = [] <;> cases hd : p.default_version <;>
                  simpa [hlib, hlib', hd] using h
              refine ⟨hboth.1.symm, ?_, fun library hl => ?_⟩
              · rw [hs, hp, hboth.2]
              · rw [hlib] at hl
                cases hl
          | some library =>
              have hall : s.name = p.name ∧ v = v' ∧ library = p.library := by
                by_cases hlib' : p.library = [] <;> cases hd : p.default_version <;>
                  simp_all
              refine ⟨hall.1.symm, ?_, fun library' hl => ?_⟩
              · rw [hs, hp, hall.2.1]
              · rw [hlib] at hl
                exact hall.2.2.symm.trans (Option.some.inj hl)

namespace Setup

variable {c : Setup}

theorem strong_matches_iff (hs : Strong e obj s) (p : Provided) :
    Matches s p ↔ s.parts ∈ p.spellings ∧
      (s.version = none → ∀ library, s.library = some library → p.library = library) := by
  obtain ⟨-, ⟨refs, hrefs, hmem⟩, -⟩ := hs
  obtain ⟨line, hline⟩ := mem_undefinedSymbols hrefs hmem
  exact ⟨fun h => ⟨h.parts_mem fun _ => library_ne_nil hline, fun _ => h.library⟩,
    fun h => .of_parts h.1 h.2⟩

theorem ProvidedBy.spelled (hs : Strong e obj s) (h : c.ProvidedBy e s) :
    ∃ lib ∈ c.libs e, Spelled e lib s.str := by
  obtain ⟨lib, hlib, symbols, hsymbols, p, hp, hmatch⟩ := h
  refine ⟨lib, hlib, symbols, hsymbols, p, hp, ?_⟩
  rw [p.baseNames_eq, s.str_eq]
  exact List.mem_map_of_mem ((strong_matches_iff hs p).mp hmatch).1

/-- No spelling is ambiguous if there is no `@` in the names, the versions and the libraries, and
a reference without a version names no library. -/
theorem unambiguous_of_noAt (hrefs : ∀ obj s, Strong e obj s →
      (∀ t ∈ s.parts, '@' ∉ t) ∧ (s.version = none → s.library = none))
    (hsymbols : ∀ lib ∈ c.libs e, ∀ symbols, e.world.providedSymbols lib = some symbols →
      ∀ p ∈ symbols, ∀ parts ∈ p.spellings, ∀ t ∈ parts, '@' ∉ t) : c.Unambiguous e := by
  rintro obj s hs ⟨lib, hlib, symbols, hprovided, p, hp, hname⟩
  rw [p.baseNames_eq] at hname
  obtain ⟨parts, hparts, hjoined⟩ := List.mem_map.mp hname
  obtain ⟨hnoAt, hnone⟩ := hrefs obj s hs
  refine ⟨lib, hlib, symbols, hprovided, p, hp, parts, hparts, hjoined, ?_,
    fun hversion library hl => ?_⟩
  · exact ats_eq_of_noAt (hjoined.trans s.str_eq) (Provided.ne_nil_of_mem_spellings hparts)
      s.parts_ne_nil (hsymbols lib hlib symbols hprovided p hp parts hparts) hnoAt
  · rw [hnone hversion] at hl
    cases hl

/-! ## The last pass -/

def start (w : World) : State where
  objects := [(2, ['b', 'b']), (1, ['a'])]
  available_libs := []
  previous_pass_unresolved := ∅
  world := w

/-- A linker that leaves everything as it is. -/
def idle : Setup where
  dest_path := "DEST"
  ldlib := "ld"
  force_libs := []
  find_lib := id
  inRoot _ := false
  pop := List.head?
  elf_header _ := some (62, 0)
  reduce w _ _ := some w

/-- The symbol `foo` in one file. -/
def only (file : Text) : Text → List Text := fun f =>
  if f = file then ["foo False None True"] else []

end Setup

end DebianInstaller.Mklibs
