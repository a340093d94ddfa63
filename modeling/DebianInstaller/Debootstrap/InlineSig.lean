import DebianInstaller.Lib.Lines
import DebianInstaller.Text
import Mathlib.Data.Bool.AllAny

/-!
# The signature in an InRelease file

`split_inline_sig` takes a signed message apart, line by line. The last newline of the text is not
signed, so each line but the first is written behind a newline. A line of the text that begins
with a dash stands behind a dash and a blank in the message; these are written too, so that the
signature is checked for a text that was not signed.

Texts have no `NUL`, which the shell drops as it reads.
-/

namespace DebianInstaller.Debootstrap.InlineSig

open Lib

variable {ls : List Text} {t : Text}

/-- `state` -/
inductive State where
  | preBegin
  | begin
  | data
  | signature
  deriving DecidableEq

/-- The variables of `split_inline_sig`, and the two files, which it has removed. -/
structure Inline where
  state : State := .preBegin
  nl : Text := []
  reldest : Option Text := none
  relsigdest : Option Text := none

variable {s : Inline}

def beginMessage : Text := "-----BEGIN PGP SIGNED MESSAGE-----"

def beginSignature : Text := "-----BEGIN PGP SIGNATURE-----"

def endSignature : Text := "-----END PGP SIGNATURE-----"

/-- What is done with a line. -/
def takeLine (line : Text) (s : Inline) : Inline :=
  match s.state with
  | .preBegin => if line = beginMessage then { s with state := .begin } else s
  | .begin => if line = [] then { s with state := .data } else s
  | .data =>
      if line = beginSignature then
        { s with relsigdest := some (line ++ ['\n']), state := .signature }
      else { s with reldest := some (s.reldest.getD [] ++ s.nl ++ line), nl := ['\n'] }
  | .signature => { s with relsigdest := some (s.relsigdest.getD [] ++ line ++ ['\n']) }

/-- The loop ends behind the signature. -/
def takeLines : List Text → Inline → Inline
  | [], s => s
  | line :: rest, s =>
      if s.state = .signature ∧ line = endSignature then takeLine line s
      else takeLines rest (takeLine line s)

/-- The lines that `read` returns; it fails at what is behind the last newline. -/
def readLines (file : Text) : List Text := (file.splitOn '\n').dropLast

/-- `split_inline_sig`: the Release file and the signature. -/
def splitInlineSig (inrel : Text) : Option Text × Option Text :=
  let s := takeLines (readLines inrel) {}
  (s.reldest, s.relsigdest)

/-! ## Signed messages -/

/-- A line of a text. -/
def IsLine (line : Text) : Prop := '\n' ∉ line ∧ '\x00' ∉ line

instance (line : Text) : Decidable (IsLine line) := inferInstanceAs (Decidable (_ ∧ _))

/-- What stands in a message for a line of the text. -/
def dashEscape (line : Text) : Text :=
  if line.head? = some '-' then "- " ++ line else line

/-- A text with its signature and what else is in the message. -/
structure Signed where
  /-- The armour headers. -/
  headers : List Text
  /-- The lines of the text. -/
  text : List Text
  /-- What the signature has between its first and its last line. -/
  body : List Text
  isLine_headers : ∀ line ∈ headers, IsLine line ∧ line ≠ []
  isLine_text : ∀ line ∈ text, IsLine line ∧ ∀ c ∈ line.getLast?, c ≠ ' ' ∧ c ≠ '\t'
  isLine_body : ∀ line ∈ body, IsLine line ∧ line ≠ endSignature

namespace Signed

variable (m : Signed)

/-- The text that was signed, with the newline at its end. -/
def content : Text := unlines '\n' m.text

def signatureLines : List Text := beginSignature :: (m.body ++ [endSignature])

def signature : Text := unlines '\n' m.signatureLines

def lines : List Text :=
  beginMessage :: (m.headers ++ [] :: (m.text.map dashEscape ++ m.signatureLines))

def message : Text := unlines '\n' m.lines

/-- The text and the signature are written, each to its file. -/
def SplitOk : Prop := splitInlineSig m.message = (some m.content.dropLast, some m.signature)

end Signed

/-! ## The loop -/

/-- Lines with newlines between them. -/
def joined : List Text → Option Text
  | [] => none
  | line :: rest => some (line ++ rest.flatMap ('\n' :: ·))

theorem joined_append (h : joined ls = some t) : t ++ ['\n'] = unlines '\n' ls := by
  cases ls with
  | nil => cases h
  | cons line rest =>
      obtain rfl := Option.some.inj h
      have hmove (rest : List Text) :
          rest.flatMap ('\n' :: ·) ++ ['\n'] = '\n' :: unlines '\n' rest := by
        induction rest with
        | nil => rfl
        | cons l rest ih =>
            rw [List.flatMap_cons, List.append_assoc, ih, unlines_cons]
            rfl
      rw [List.append_assoc, hmove, unlines_cons]

theorem joined_eq (ls : List Text) :
    joined ls = if ls = [] then none else some (unlines '\n' ls).dropLast := by
  cases hjoined : joined ls with
  | none =>
      cases ls with
      | nil => rfl
      | cons line rest => cases hjoined
  | some t =>
      have hne : ls ≠ [] := by
        rintro rfl
        cases hjoined
      rw [if_neg hne, ← joined_append hjoined, List.dropLast_concat]

theorem unlines_dropLast (h : ls ≠ []) : (unlines '\n' ls).dropLast ++ ['\n'] = unlines '\n' ls :=
  joined_append (by rw [joined_eq, if_neg h])

theorem isLine_dashEscape {line : Text} (h : IsLine line) : IsLine (dashEscape line) := by
  unfold dashEscape
  split
  · have hblank : IsLine "- " := ⟨by decide, by decide⟩
    exact ⟨fun hmem => (List.mem_append.mp hmem).elim hblank.1 h.1,
      fun hmem => (List.mem_append.mp hmem).elim hblank.2 h.2⟩
  · exact h

theorem dashEscape_ne_beginSignature (line : Text) : dashEscape line ≠ beginSignature := by
  unfold dashEscape
  split
  · intro heq
    have hsecond : some ' ' = some '-' := congrArg (·[1]?) heq
    exact absurd hsecond (by decide)
  · next hdash =>
      rintro rfl
      exact hdash rfl

theorem dashEscape_eq_iff (line : Text) : dashEscape line = line ↔ line.head? ≠ some '-' := by
  unfold dashEscape
  split
  · next hdash =>
      refine ⟨fun heq => ?_, fun hnot => absurd hdash hnot⟩
      exact absurd (List.append_left_eq_self.mp heq) (by decide)
  · next hdash => exact ⟨fun _ => hdash, fun _ => rfl⟩

theorem takeLines_headers {headers : List Text} (h : ∀ line ∈ headers, line ≠ [])
    (rest : List Text) (s : Inline) (hs : s.state = .begin) :
    takeLines (headers ++ [] :: rest) s = takeLines rest { s with state := .data } := by
  induction headers with
  | nil => simp [takeLines, takeLine, hs]
  | cons line headers ih =>
      obtain ⟨hline, hheaders⟩ := List.forall_mem_cons.mp h
      rw [List.cons_append, takeLines, if_neg (by simp [hs]), takeLine, hs]
      dsimp only
      rw [if_neg hline]
      exact ih hheaders

theorem takeLines_data (h : ∀ line ∈ ls, line ≠ beginSignature) (rest : List Text)
    (hs : s.state = .data) (hnl : s.nl = ['\n']) (ht : s.reldest = some t) :
    takeLines (ls ++ rest) s =
      takeLines rest { s with reldest := some (t ++ ls.flatMap ('\n' :: ·)) } := by
  induction ls generalizing s t with
  | nil => simp [← ht]
  | cons line ls ih =>
      obtain ⟨hline, hls⟩ := List.forall_mem_cons.mp h
      rw [List.cons_append, takeLines, if_neg (by simp [hs]), takeLine, hs]
      dsimp only
      rw [if_neg hline, ih hls rfl rfl rfl, ht, hnl]
      simp

theorem takeLines_text (h : ∀ line ∈ ls, line ≠ beginSignature) (rest : List Text) :
    ∃ nl, takeLines (ls ++ rest) { state := .data } =
      takeLines rest { state := .data, nl := nl, reldest := joined ls } := by
  cases ls with
  | nil => exact ⟨[], rfl⟩
  | cons line ls =>
      obtain ⟨hline, hls⟩ := List.forall_mem_cons.mp h
      refine ⟨['\n'], ?_⟩
      rw [List.cons_append, takeLines, if_neg (by simp), takeLine]
      dsimp only
      rw [if_neg hline, takeLines_data hls rest rfl rfl rfl]
      rfl

theorem takeLines_body {body : List Text} (h : ∀ line ∈ body, line ≠ endSignature)
    (hs : s.state = .signature) (ht : s.relsigdest = some t) :
    takeLines (body ++ [endSignature]) s =
      { s with relsigdest := some (t ++ unlines '\n' (body ++ [endSignature])) } := by
  induction body generalizing s t with
  | nil =>
      rw [List.nil_append, takeLines, if_pos ⟨hs, rfl⟩, takeLine, hs]
      dsimp only
      rw [ht]
      simp [unlines]
  | cons line body ih =>
      obtain ⟨hline, hbody⟩ := List.forall_mem_cons.mp h
      rw [List.cons_append, takeLines, if_neg (by simp [hline]), takeLine, hs]
      dsimp only
      rw [ht, ih hbody rfl rfl, unlines_cons]
      simp

namespace Signed

variable (m : Signed)

theorem readLines_message : readLines m.message = m.lines := by
  have hline : ∀ line ∈ m.lines, '\n' ∉ line := by
    have hmarkers : '\n' ∉ beginMessage ∧ '\n' ∉ beginSignature ∧ '\n' ∉ endSignature := by decide
    intro line hmem
    simp only [lines, signatureLines, List.mem_cons, List.mem_append, List.not_mem_nil,
      or_false] at hmem
    rcases hmem with rfl | hmem | rfl | hmem | rfl | hmem | rfl
    · exact hmarkers.1
    · exact (m.isLine_headers line hmem).1.1
    · exact List.not_mem_nil
    · obtain ⟨l, hl, rfl⟩ := List.mem_map.mp hmem
      exact (isLine_dashEscape (m.isLine_text l hl).1).1
    · exact hmarkers.2.1
    · exact (m.isLine_body line hmem).1.1
    · exact hmarkers.2.2
  have hsplit := splitOn_unlines '\n' hline []
  rw [List.append_nil] at hsplit
  rw [readLines, message, hsplit]
  exact List.dropLast_concat

theorem splitInlineSig_message :
    splitInlineSig m.message = (joined (m.text.map dashEscape), some m.signature) := by
  have hbegin : takeLine beginMessage {} = { state := .begin } := by
    rw [takeLine]
    dsimp only
    rw [if_pos rfl]
  have hheaders : ∀ line ∈ m.headers, line ≠ [] := fun line hl => (m.isLine_headers line hl).2
  have htext : ∀ line ∈ m.text.map dashEscape, line ≠ beginSignature := by
    intro line hl
    obtain ⟨l, -, rfl⟩ := List.mem_map.mp hl
    exact dashEscape_ne_beginSignature l
  have hbody : ∀ line ∈ m.body, line ≠ endSignature := fun line hl => (m.isLine_body line hl).2
  obtain ⟨nl, hdata⟩ := takeLines_text htext m.signatureLines
  have hrun : takeLines m.lines {} =
      { state := .signature, nl := nl, reldest := joined (m.text.map dashEscape),
        relsigdest := some m.signature } := by
    rw [lines, takeLines, if_neg (by simp), hbegin, takeLines_headers hheaders _ _ rfl]
    refine hdata.trans ?_
    rw [signatureLines, takeLines, if_neg (by simp), takeLine]
    dsimp only
    rw [if_pos rfl, takeLines_body hbody rfl rfl, signature, signatureLines, unlines_cons]
    simp
  rw [splitInlineSig, readLines_message, hrun]

/-- The text is written as it was signed if and only if it has a line and no line of it begins
with a dash. -/
theorem splitOk_iff : m.SplitOk ↔ m.text ≠ [] ∧ ∀ line ∈ m.text, line.head? ≠ some '-' := by
  have hescaped : m.text.map dashEscape = m.text ↔ ∀ line ∈ m.text, line.head? ≠ some '-' := by
    have hid : m.text.map dashEscape = m.text.map id ↔ _ := List.map_inj_left
    rw [List.map_id] at hid
    exact hid.trans (forall₂_congr fun line _ => dashEscape_eq_iff line)
  rw [SplitOk, splitInlineSig_message, Prod.mk.injEq, and_iff_left rfl, joined_eq]
  constructor
  · intro h
    by_cases hempty : m.text.map dashEscape = []
    · rw [if_pos hempty] at h
      cases h
    · have hne : m.text ≠ [] := fun heq => hempty (by rw [heq]; rfl)
      rw [if_neg hempty] at h
      have hunlines : unlines '\n' (m.text.map dashEscape) = unlines '\n' m.text := by
        rw [← unlines_dropLast hempty, ← unlines_dropLast hne]
        exact congrArg (· ++ ['\n']) (Option.some.inj h)
      have hescape : ∀ line ∈ m.text.map dashEscape, '\n' ∉ line := by
        intro line hline
        obtain ⟨l, hl, rfl⟩ := List.mem_map.mp hline
        exact (isLine_dashEscape (m.isLine_text l hl).1).1
      have hsplit := splitOn_unlines '\n' hescape []
      rw [hunlines, splitOn_unlines '\n' (fun l hl => (m.isLine_text l hl).1.1) []] at hsplit
      exact ⟨hne, hescaped.mp (List.append_cancel_right hsplit).symm⟩
  · rintro ⟨hne, hdash⟩
    rw [hescaped.mpr hdash, if_neg hne]
    rfl

end Signed

/-- A list in the description of a release. -/
def bulleted : Signed where
  headers := ["Hash: SHA512"]
  text := ["Description:", "- experimental"]
  body := [[], "iQIzBAEBCgAdFiEE"]
  isLine_headers := List.all_iff_forall_prop.mp (by decide +kernel)
  isLine_text := by
    refine List.forall_mem_cons.mpr ⟨⟨by decide, fun c hc => ?_⟩,
      List.forall_mem_singleton.mpr ⟨by decide, fun c hc => ?_⟩⟩
    · obtain rfl : ':' = c := Option.some.inj hc
      decide
    · obtain rfl : 'l' = c := Option.some.inj hc
      decide
  isLine_body := List.all_iff_forall_prop.mp (by decide +kernel)

/-- The dash stays behind the dash and the blank that it was escaped with. -/
theorem bulleted_notOk : ¬ bulleted.SplitOk := by
  intro h
  have hrelease := congrArg Prod.fst (bulleted.splitInlineSig_message.symm.trans h)
  exact absurd hrelease (by decide +kernel)

end DebianInstaller.Debootstrap.InlineSig
