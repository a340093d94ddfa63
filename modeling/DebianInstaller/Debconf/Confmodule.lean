import DebianInstaller.Debconf.Database

/-!
# The dialogue with a client

`confmodule_communicate` reads from a pipe, hands what it has read to
`_confmodule_process` and writes the reply. It looks for the end of a command in
what one `read` has given, and takes all that has come since the last command for
one line. So a newline has to be the last byte of what is read with it.

The commands are functions on a state of the module, which is left open here. The
signals that end the loop are not modelled.
-/

namespace DebianInstaller.Debconf

open Text

variable {M : Type}

/-- The codes `CMDSTATUS_*` that a reply begins with, up to those that are the same. -/
inductive CmdStatus where
  | success
  | escapedData
  | badQuestion
  | badParam
  | syntaxError
  /-- Also for a wrong version, for going back and for a progress bar that is cancelled. -/
  | inputInvisible
  | internalError
  deriving DecidableEq

def CmdStatus.code : CmdStatus → Nat
  | .success => 0
  | .escapedData => 1
  | .badQuestion => 10
  | .badParam => 15
  | .syntaxError => 20
  | .inputInvisible => 30
  | .internalError => 100

/-- A reply: the code alone, or with a text. -/
def reply (status : CmdStatus) : Option Text → Text
  | none => ofInt status.code
  | some text => ofInt status.code ++ ' ' :: text

/-- A line of `commands`: the name and the handler. -/
structure Command (M : Type) where
  name : Text
  handler : M → Text → Text × M

/-- `_confmodule_process`. There is no reply to a comment and to what is no command. -/
def confmoduleProcess (commands : List (Command M)) (escape : M → Bool) (mod : M) (input : Text) :
    Option Text × M :=
  let inp := strstrip input
  if inp.head? = some '#' then (none, mod)
  else
    let inp := if escape mod then strunescape .capb inp.length inp else inp
    let argv := strcmdsplit 2 inp
    match commands.find? fun c => sameIgnoringCase (argv.getD 0 []) c.name with
    | some c => let r := c.handler mod (argv.getD 1 []); (some r.1, r.2)
    | none => (none, mod)

/-! ## Reading -/

/-- What `read` gives. At the end of the list the other side has closed the pipe. -/
inductive ReadResult where
  | data (buf : Text)
  | interrupted
  | failed
  deriving DecidableEq

/-- `sizeof(buf) - 1`. -/
def readSize : Nat := 1022

def ReadResult.bytes : ReadResult → Text
  | .data buf => buf
  | _ => []

/-- All bytes that are read. -/
def dataOf (reads : List ReadResult) : Text := reads.flatMap ReadResult.bytes

/-- The bytes of a pipe come in pieces, with no error. -/
structure Delivers (reads : List ReadResult) (bytes : Text) : Prop where
  all : dataOf reads = bytes
  sizes : ∀ buf, .data buf ∈ reads → buf ≠ [] ∧ buf.length ≤ readSize
  fine : .failed ∉ reads

/-- What has been processed and answered, the module then, and the result. -/
structure Trace (M : Type) where
  processed : List Text
  replies : List Text
  mod : M
  ret : Status

section Dialogue

variable (process : M → Text → Option Text × M)

/-- What is done with what `_confmodule_process` gives: nothing to write, an empty reply
that stops the loop, or a line. -/
def answer (line : Text) (r : Option Text × M) (next : M → Trace M) : Trace M :=
  match r with
  | (none, mod) => let t := next mod; { t with processed := line :: t.processed }
  | (some [], mod) => ⟨[line], [], mod, .ok⟩
  | (some (c :: out), mod) =>
      let t := next mod
      { t with processed := line :: t.processed, replies := (c :: out) :: t.replies }

/-- `confmodule_communicate`, with what stands in `in`. -/
def communicate : M → Text → List ReadResult → Trace M
  | mod, _, [] => ⟨[], [], mod, .ok⟩
  | mod, inp, .interrupted :: rs => communicate mod inp rs
  | mod, _, .failed :: _ => ⟨[], [], mod, .notOk⟩
  | mod, inp, .data buf :: rs =>
      if '\n' ∈ buf then
        answer (inp ++ buf) (process mod (inp ++ buf)) fun mod => communicate mod [] rs
      else communicate mod (inp ++ buf) rs

/-- One command after the other. -/
def dialogue : M → List Text → Trace M
  | mod, [] => ⟨[], [], mod, .ok⟩
  | mod, line :: lines => answer line (process mod line) fun mod => dialogue mod lines

end Dialogue

/-! ## Where the commands end -/

section Reads

variable {process : M → Text → Option Text × M} {mod : M}

theorem dataOf_cons (r : ReadResult) (rs : List ReadResult) :
    dataOf (r :: rs) = r.bytes ++ dataOf rs := List.flatMap_cons

theorem answer_cases (line : Text) (r : Option Text × M) (next : M → Trace M) :
    (∃ out, r.1 = some out ∧ out = [] ∧ answer line r next = ⟨[line], [], r.2, .ok⟩) ∨
    ∃ replies : List Text, ∀ next, answer line r next =
      ⟨line :: (next r.2).processed, replies ++ (next r.2).replies, (next r.2).mod,
        (next r.2).ret⟩ := by
  obtain ⟨out, mod⟩ := r
  match out with
  | none => exact .inr ⟨[], fun _ => rfl⟩
  | some [] => exact .inl ⟨[], rfl, rfl, rfl⟩
  | some (c :: out) => exact .inr ⟨[c :: out], fun _ => rfl⟩

theorem dialogue_processed (lines : List Text) :
    (dialogue process mod lines).processed =
      lines.take (dialogue process mod lines).processed.length := by
  induction lines generalizing mod with
  | nil => rfl
  | cons line lines ih =>
      unfold dialogue
      rcases answer_cases line (process mod line) fun mod => dialogue process mod lines with
        ⟨_, _, _, heq⟩ | ⟨replies, heq⟩
      · rw [heq]
        rfl
      · rw [heq, List.length_cons, List.take_succ_cons]
        exact congrArg _ ih

theorem dialogue_processed_pos (process : M → Text → Option Text × M) (mod : M) (line : Text)
    (lines : List Text) :
    0 < (dialogue process mod (line :: lines)).processed.length := by
  unfold dialogue
  rcases answer_cases line (process mod line) fun mod => dialogue process mod lines with
    ⟨_, _, _, heq⟩ | ⟨replies, heq⟩
  · rw [heq]
    exact Nat.one_pos
  · rw [heq]
    exact Nat.succ_pos _

/-- What is processed is what has been read, and no `read` reaches beyond one of them.
The first one begins with what has been read before. -/
theorem communicate_processed (process : M → Text → Option Text × M) (mod : M) (inp : Text)
    (reads : List ReadResult) :
    (communicate process mod inp reads).processed = [] ∨
    ∃ before after, reads = before ++ after ∧
      inp ++ dataOf before = (communicate process mod inp reads).processed.flatten ∧
      (∀ buf, .data buf ∈ before →
        ∃ line ∈ (communicate process mod inp reads).processed, buf <:+: line) ∧
      ∃ line ∈ (communicate process mod inp reads).processed, inp <+: line := by
  induction reads generalizing mod inp with
  | nil => exact .inl rfl
  | cons r rs ih =>
      cases r with
      | failed => exact .inl rfl
      | interrupted =>
          rcases ih mod inp with hnil | ⟨before, after, rfl, hdata, hbuf, hinp⟩
          · exact .inl hnil
          · exact .inr ⟨.interrupted :: before, after, rfl, hdata, fun buf hmem =>
              hbuf buf (by simpa using hmem), hinp⟩
      | data buf =>
          unfold communicate
          split
          · -- a command ends here
            rcases answer_cases (inp ++ buf) (process mod (inp ++ buf))
              (fun mod => communicate process mod [] rs) with ⟨_, _, _, heq⟩ | ⟨replies, heq⟩
            · rw [heq]
              refine .inr ⟨[.data buf], rs, rfl, by simp [dataOf, ReadResult.bytes], ?_,
                _, List.mem_singleton_self _, List.prefix_append inp buf⟩
              intro buf' hmem
              obtain rfl : buf' = buf := by simpa using hmem
              exact ⟨_, List.mem_singleton_self _, (List.suffix_append inp buf').isInfix⟩
            · rw [heq]
              have hfirst : ∃ line ∈ (inp ++ buf) :: (communicate process
                  (process mod (inp ++ buf)).2 [] rs).processed, buf <:+: line :=
                ⟨_, List.mem_cons_self, (List.suffix_append inp buf).isInfix⟩
              have hinp : ∃ line ∈ (inp ++ buf) :: (communicate process
                  (process mod (inp ++ buf)).2 [] rs).processed, inp <+: line :=
                ⟨_, List.mem_cons_self, List.prefix_append inp buf⟩
              rcases ih (process mod (inp ++ buf)).2 [] with
                hnil | ⟨before, after, rfl, hdata, hbuf, -⟩
              · refine .inr ⟨[.data buf], rs, rfl, by simp [dataOf, ReadResult.bytes, hnil], ?_,
                  hinp⟩
                intro buf' hmem
                obtain rfl : buf' = buf := by simpa using hmem
                exact hfirst
              · refine .inr ⟨.data buf :: before, after, rfl, ?_, ?_, hinp⟩
                · rw [dataOf_cons, List.flatten_cons, ← hdata, List.append_assoc]
                  rfl
                · intro buf' hmem
                  rcases List.mem_cons.mp hmem with h | h
                  · cases h
                    exact hfirst
                  · obtain ⟨line, hline, hinf⟩ := hbuf buf' h
                    exact ⟨line, List.mem_cons_of_mem _ hline, hinf⟩
          · rcases ih mod (inp ++ buf) with
              hnil | ⟨before, after, rfl, hdata, hbuf, line, hline, hbegins⟩
            · exact .inl hnil
            · refine .inr ⟨.data buf :: before, after, rfl, ?_, ?_, line, hline,
                (List.prefix_append inp buf).trans hbegins⟩
              · rw [dataOf_cons, ← hdata, List.append_assoc]
                rfl
              · intro buf' hmem
                rcases List.mem_cons.mp hmem with h | h
                · -- what is read is a part of what is processed next
                  cases h
                  exact ⟨line, hline, (List.suffix_append inp buf).isInfix.trans hbegins.isInfix⟩
                · exact hbuf buf' h

theorem newline_last {buf c : Text} (hc : '\n' ∉ c) (h : buf <:+: c ++ ['\n']) :
    '\n' ∉ buf.dropLast := by
  obtain ⟨a, b, hab⟩ := h
  intro hmem
  rcases List.eq_nil_or_concat buf with rfl | ⟨x, last, rfl⟩
  · cases hmem
  · rw [List.concat_eq_append, List.dropLast_concat] at hmem
    have hdrop := congrArg List.dropLast hab
    rw [List.dropLast_concat, List.append_assoc, List.concat_eq_append, List.append_assoc,
      List.singleton_append, List.dropLast_append_of_ne_nil (by simp),
      List.dropLast_append_of_ne_nil (by simp)] at hdrop
    exact hc (hdrop ▸ by simp [hmem])

theorem communicate_quiet {inp : Text} {reads : List ReadResult} (hd : dataOf reads = [])
    (hs : ∀ buf, .data buf ∈ reads → buf ≠ []) (hf : .failed ∉ reads) :
    communicate process mod inp reads = ⟨[], [], mod, .ok⟩ := by
  induction reads with
  | nil => rfl
  | cons r rs ih =>
      rw [dataOf_cons, List.append_eq_nil_iff] at hd
      cases r with
      | failed => exact absurd List.mem_cons_self hf
      | interrupted =>
          exact ih hd.2 (fun buf hb => hs buf (List.mem_cons_of_mem _ hb))
            fun h => hf (List.mem_cons_of_mem _ h)
      | data buf => exact absurd hd.1 (hs buf List.mem_cons_self)

theorem cut_at_newline {a b a' b' : Text} (ha : '\n' ∉ a) (ha' : '\n' ∉ a')
    (h : a ++ '\n' :: b = a' ++ '\n' :: b') : a = a' ∧ b = b' := by
  induction a generalizing a' with
  | nil =>
      cases a' with
      | nil => exact ⟨rfl, by simpa using h⟩
      | cons c a' =>
          have : '\n' = c := (List.cons.inj h).1
          exact absurd (this ▸ List.mem_cons_self) ha'
  | cons c a ih =>
      cases a' with
      | nil =>
          have : c = '\n' := (List.cons.inj h).1
          exact absurd (this ▸ List.mem_cons_self) ha
      | cons c' a' =>
          obtain ⟨rfl, ht⟩ := List.cons.inj h
          obtain ⟨rfl, rfl⟩ := ih (fun hm => ha (List.mem_cons_of_mem _ hm))
            (fun hm => ha' (List.mem_cons_of_mem _ hm)) ht
          exact ⟨rfl, rfl⟩

/-- Lines with one newline each. -/
def IsLine (line : Text) : Prop := ∃ c, line = c ++ ['\n'] ∧ '\n' ∉ c

/-- Up to the end of some lines, what is read has a newline at its end only. -/
def Aligned (lines : List Text) (reads : List ReadResult) : Prop :=
  ∃ before after, reads = before ++ after ∧ dataOf before = lines.flatten ∧
    ∀ buf, .data buf ∈ before → '\n' ∉ buf.dropLast

/-- Where no read goes past the end of a line, each line is answered once. -/
theorem communicate_aligned {lines : List Text} (hl : ∀ line ∈ lines, IsLine line) {inp : Text}
    (hi : '\n' ∉ inp) {reads before after : List ReadResult}
    (hd : inp ++ dataOf reads = lines.flatten)
    (hs : ∀ buf, .data buf ∈ reads → buf ≠ []) (hf : .failed ∉ reads)
    (hb : reads = before ++ after)
    (hbd : inp ++ dataOf before = (dialogue process mod lines).processed.flatten)
    (ha : ∀ buf, .data buf ∈ before → '\n' ∉ buf.dropLast) :
    communicate process mod inp reads = dialogue process mod lines := by
  induction reads generalizing mod inp lines before with
  | nil =>
      cases lines with
      | nil => rfl
      | cons line lines =>
          obtain ⟨c, rfl, -⟩ := hl line List.mem_cons_self
          have : '\n' ∈ inp := by
            rw [show inp = _ from (List.append_nil inp).symm.trans hd]
            simp
          exact absurd this hi
  | cons r rs ih =>
      cases lines with
      | nil =>
          have hnil := List.append_eq_nil_iff.mp hd
          exact communicate_quiet hnil.2 hs hf
      | cons line lines =>
          -- the end of the first line is still to be read
          obtain ⟨c, rfl, hc⟩ := hl line List.mem_cons_self
          obtain ⟨rest, hrest⟩ : ∃ rest, (dialogue process mod
              ((c ++ ['\n']) :: lines)).processed = (c ++ ['\n']) :: rest := by
            have hpos := dialogue_processed_pos process mod (c ++ ['\n']) lines
            rw [dialogue_processed]
            obtain ⟨k, hk⟩ := Nat.exists_eq_succ_of_ne_zero (Nat.ne_of_gt hpos)
            exact ⟨_, by rw [hk, List.take_succ_cons]⟩
          have hs' : ∀ buf, .data buf ∈ rs → buf ≠ [] :=
            fun buf h => hs buf (List.mem_cons_of_mem _ h)
          have hf' : .failed ∉ rs := fun h => hf (List.mem_cons_of_mem _ h)
          cases before with
          | nil =>
              have : '\n' ∈ inp := by
                rw [show inp = _ from (List.append_nil inp).symm.trans hbd, hrest]
                simp
              exact absurd this hi
          | cons r' before =>
              obtain ⟨rfl, hb'⟩ := List.cons.inj hb
              have ha' : ∀ buf, .data buf ∈ before → '\n' ∉ buf.dropLast :=
                fun buf h => ha buf (List.mem_cons_of_mem _ h)
              cases r with
              | failed => exact absurd List.mem_cons_self hf
              | interrupted => exact ih hl hi hd hs' hf' hb' hbd ha'
              | data buf =>
                  rw [dataOf_cons, ← List.append_assoc] at hd hbd
                  unfold communicate
                  split
                  · next hmem =>
                      -- the newline is the last byte, so the line is complete
                      obtain ⟨x, hx⟩ : ∃ x, buf = x ++ ['\n'] := by
                        rcases List.eq_nil_or_concat buf with rfl | ⟨x, last, rfl⟩
                        · cases hmem
                        · have hnot := ha _ List.mem_cons_self
                          rw [List.concat_eq_append] at hmem hnot ⊢
                          rw [List.dropLast_concat] at hnot
                          rcases List.mem_append.mp hmem with h | h
                          · exact absurd h hnot
                          · exact ⟨x, by rw [List.mem_singleton.mp h]⟩
                      subst hx
                      have hx : '\n' ∉ x := by
                        simpa using ha _ List.mem_cons_self
                      have hix : '\n' ∉ inp ++ x := by simp [hi, hx]
                      have hcut : inp ++ x = c ∧ dataOf rs = lines.flatten :=
                        cut_at_newline hix hc (by simpa [ReadResult.bytes] using hd)
                      have hcut' : inp ++ x = c ∧ dataOf before = rest.flatten :=
                        cut_at_newline hix hc (by
                          rw [hrest] at hbd
                          simpa [ReadResult.bytes] using hbd)
                      rw [← List.append_assoc, hcut.1]
                      unfold dialogue at hrest ⊢
                      rcases answer_cases (c ++ ['\n']) (process mod (c ++ ['\n']))
                        (fun mod => communicate process mod [] rs) with ⟨out, h₁, h₂, _⟩ | ⟨_, heq⟩
                      · unfold answer
                        rw [show process mod (c ++ ['\n']) =
                          (some [], (process mod (c ++ ['\n'])).2) from Prod.ext (h₂ ▸ h₁) rfl]
                      · rw [heq, heq]
                        rw [heq] at hrest
                        have hgo : communicate process (process mod (c ++ ['\n'])).2 [] rs = _ :=
                          ih (fun l h => hl l (List.mem_cons_of_mem _ h)) (by simp) hcut.2 hs' hf'
                            hb' (by rw [(List.cons.inj hrest).2]; exact hcut'.2) ha'
                        rw [hgo]
                  · next hmem =>
                      exact ih hl (by simp [hi, hmem]) hd hs' hf' hb' hbd ha'

/-- However the pipe cuts the bytes of some commands, they are processed and answered
one by one exactly if, up to the last command before the loop ends, a newline is the
last byte of what is read with it. -/
theorem communicate_iff {handlers : List (Command M)} {escape : M → Bool} {commands : List Text}
    (hc : ∀ c ∈ commands, '\n' ∉ c) {reads : List ReadResult}
    (hr : Delivers reads (commands.map (· ++ ['\n'])).flatten) :
    communicate (confmoduleProcess handlers escape) mod [] reads =
        dialogue (confmoduleProcess handlers escape) mod (commands.map (· ++ ['\n'])) ↔
      Aligned (dialogue (confmoduleProcess handlers escape) mod
        (commands.map (· ++ ['\n']))).processed reads := by
  have hl : ∀ line ∈ commands.map (· ++ ['\n']), IsLine line := by
    intro line hline
    obtain ⟨c, hcm, rfl⟩ := List.mem_map.mp hline
    exact ⟨c, rfl, hc c hcm⟩
  constructor
  · intro heq
    rcases communicate_processed (confmoduleProcess handlers escape) mod [] reads with
      hnil | ⟨before, after, hb, hdata, hbuf, -⟩
    · exact ⟨[], reads, rfl, by rw [← heq, hnil]; rfl, by simp⟩
    · refine ⟨before, after, hb, heq ▸ hdata, fun buf hmem => ?_⟩
      obtain ⟨line, hline, hinf⟩ := hbuf buf hmem
      rw [heq, dialogue_processed] at hline
      obtain ⟨c, rfl, hc⟩ := hl line (List.mem_of_mem_take hline)
      exact newline_last hc hinf
  · rintro ⟨before, after, hb, hdata, ha⟩
    exact communicate_aligned hl (by simp) hr.all (fun buf h => (hr.sizes buf h).1) hr.fine hb
      hdata ha

/-- A module that says what it is asked for. -/
def echo : List (Command Unit) :=
  [⟨"get", fun _ arg => ("0 " ++ arg, ())⟩]

/-- A command in two pieces, and another one. -/
def pieces : List ReadResult :=
  [.data "GE", .interrupted, .data "T a\n", .data "GET b\n"]

theorem delivers_pieces :
    Delivers pieces (["GET a".toList, "GET b".toList].map (· ++ ['\n'])).flatten where
  all := by decide
  sizes := by
    intro buf h
    simp only [pieces, List.mem_cons, ReadResult.data.injEq, reduceCtorEq, List.not_mem_nil,
      or_false, false_or] at h
    rcases h with rfl | rfl | rfl <;> decide
  fine := by decide

theorem communicate_iff_pieces :
    communicate (confmoduleProcess echo fun _ => false) () [] pieces =
      ⟨["GET a\n", "GET b\n"], ["0 a", "0 b"], (), .ok⟩ := by
  refine ((communicate_iff (by decide) delivers_pieces).mpr
    ⟨pieces, [], rfl, by decide, fun buf h => ?_⟩).trans (by rfl)
  simp only [pieces, List.mem_cons, ReadResult.data.injEq, reduceCtorEq, List.not_mem_nil,
    or_false, false_or] at h
  rcases h with rfl | rfl | rfl <;> decide

/-- Two commands that come together are taken for one. -/
theorem communicate_joined :
    ¬∀ (handlers : List (Command Unit)) (escape : Unit → Bool) (commands : List Text)
      (reads : List ReadResult), (∀ c ∈ commands, '\n' ∉ c) →
      Delivers reads (commands.map (· ++ ['\n'])).flatten →
      communicate (confmoduleProcess handlers escape) () [] reads =
        dialogue (confmoduleProcess handlers escape) () (commands.map (· ++ ['\n'])) := by
  intro h
  have := congrArg Trace.replies (h echo (fun _ => false) ["GET a", "GET b"]
    [.data "GET a\nGET b\n"] (by decide)
    ⟨by decide, fun buf hbuf => by
      obtain rfl : buf = "GET a\nGET b\n" := by simpa using hbuf
      decide, by decide⟩)
  exact absurd this (by decide +kernel)

end Reads

end DebianInstaller.Debconf
