import DebianInstaller.Debconf.Confmodule

/-!
# A client and the server

`debconfclient_command` writes a command to the server and reads a reply with one
`fgets` into a buffer of 2048 bytes. The server writes replies of any length, and a
reply can have newlines. The two are run together here, in any order of their steps:
the client waits for the reply to each command, the server reads its pipe in any
pieces and writes in any pieces.

As long as the replies are lines that fit into the buffer, each call stores the reply
to its own command.
-/

namespace DebianInstaller.Debconf

open Text

/-! ## Reading a reply -/

/-- `fgets` from what has been written so far; it waits for a newline or for a full
buffer. -/
def fgets (size : Nat) (t : Text) : Option (Text × Text) :=
  let n := ((t.take (size - 1)).takeWhile (· != '\n')).length
  if '\n' ∈ t.take (size - 1) then some (t.take (n + 1), t.drop (n + 1))
  else if size - 1 ≤ t.length then some (t.take (size - 1), t.drop (size - 1))
  else none

/-- `sizeof(buf)` in `debconfclient_handle_rsp`. -/
def rspSize : Nat := 2048

/-- `strtok`: a token, and what is left after its delimiter. -/
def strtok (delim : List Char) (t : Text) : Option (Text × Text) :=
  match t.dropWhile (· ∈ delim) with
  | [] => none
  | c :: t => some ((c :: t).takeWhile (· ∉ delim), ((c :: t).dropWhile (· ∉ delim)).tail)

/-- `atoi`. -/
def atoi (t : Text) : Int :=
  match t.dropWhile isSpace with
  | '-' :: t => -(number (t.takeWhile Char.isDigit))
  | '+' :: t => number (t.takeWhile Char.isDigit)
  | t => number (t.takeWhile Char.isDigit)

/-- `debconfclient_handle_rsp` for what `fgets` has put into the buffer: the status that
is returned, and `client->value`. -/
def handleRsp (buf : Text) : Int × Text :=
  let buf := if buf.getLast? = some '\n' then buf.dropLast else buf
  match strtok [' ', '\t', '\n'] buf with
  | none => (atoi buf, [])
  -- the token ends the string that `atoi` is given
  | some (token, rest) => (atoi token, ((strtok ['\n'] rest).map Prod.fst).getD [])

/-! ## The two together -/

variable {M : Type}

/-- The client, the two pipes and the server. -/
structure Session (M : Type) where
  /-- The commands of the calls that are still to come. -/
  todo : List Text
  /-- A command is written and its reply is not yet read. -/
  waiting : Bool := false
  /-- What each call has stored: the status and the value. -/
  stored : List (Int × Text) := []
  toServer : Text := []
  /-- `in` of `confmodule_communicate`. -/
  inp : Text := []
  mod : M
  /-- What the server has still to write. -/
  outgoing : Text := []
  toClient : Text := []
  /-- The replies of the server so far. -/
  replies : List Text := []

/-- The server has read up to the end of a command. -/
def Session.serve (process : M → Text → Option Text × M) (s : Session M) (line rest : Text) :
    Session M :=
  match process s.mod line with
  | (some (c :: out), mod) =>
      { s with toServer := rest, inp := [], mod := mod, outgoing := c :: out ++ ['\n'],
               replies := s.replies ++ [c :: out] }
  | (_, mod) => { s with toServer := rest, inp := [], mod := mod }

/-- One step of the client or of the server. -/
inductive Session.Step (process : M → Text → Option Text × M) : Session M → Session M → Prop where
  /-- The client writes a command, and flushes. -/
  | send (s : Session M) (c : Text) (cs : List Text) (ht : s.todo = c :: cs)
      (hw : s.waiting = false) :
      Step process s { s with todo := cs, waiting := true, toServer := s.toServer ++ c ++ ['\n'] }
  /-- The server reads some of it. -/
  | read (s : Session M) (buf rest : Text) (ho : s.outgoing = []) (ht : s.toServer = buf ++ rest)
      (hb : buf ≠ [] ∧ buf.length ≤ readSize) :
      Step process s (if '\n' ∈ buf then s.serve process (s.inp ++ buf) rest
        else { s with toServer := rest, inp := s.inp ++ buf })
  /-- The server writes some of its reply. -/
  | write (s : Session M) (out rest : Text) (ho : s.outgoing = out ++ rest) (hout : out ≠ []) :
      Step process s { s with outgoing := rest, toClient := s.toClient ++ out }
  /-- `fgets` has what it waits for. -/
  | receive (s : Session M) (buf rest : Text) (hw : s.waiting = true)
      (hf : fgets rspSize s.toClient = some (buf, rest)) :
      Step process s { s with waiting := false, stored := s.stored ++ [handleRsp buf],
                              toClient := rest }

/-- The states of a session with some commands. -/
inductive Session.Reachable (process : M → Text → Option Text × M) (mod : M)
    (commands : List Text) : Session M → Prop where
  | start : Reachable process mod commands { todo := commands, mod := mod }
  | step {s s' : Session M} (h : Reachable process mod commands s) (hs : s.Step process s') :
      Reachable process mod commands s'

/-- Every one of the commands has a reply, whatever the state of the module. -/
def Answers (process : M → Text → Option Text × M) (commands : List Text) : Prop :=
  ∀ mod, ∀ c ∈ commands, ∃ status text, (process mod (c ++ ['\n'])).1 = some (reply status text)

/-- A reply that is one line and fits into the client's buffer. -/
def Fits (r : Text) : Prop := '\n' ∉ r ∧ r.length + 1 < rspSize

/-! ## What is read back -/

theorem strtok_code (status : CmdStatus) (rest : Text) :
    strtok [' ', '\t', '\n'] (ofInt status.code ++ ' ' :: rest) =
      some (ofInt status.code, rest) := by
  cases status <;> rfl

theorem strtok_code_alone (status : CmdStatus) :
    strtok [' ', '\t', '\n'] (ofInt status.code) = some (ofInt status.code, []) := by
  cases status <;> rfl

theorem atoi_code (status : CmdStatus) : atoi (ofInt status.code) = status.code := by
  cases status <;> rfl

theorem strtok_line {t : Text} (h : '\n' ∉ t) :
    ((strtok ['\n'] t).map Prod.fst).getD [] = t := by
  cases t with
  | nil => rfl
  | cons c t =>
      have hc : c ≠ '\n' := fun e => h (e ▸ List.mem_cons_self)
      have htake : (c :: t).takeWhile (fun d => decide (d ∉ ['\n'])) = c :: t := by
        rw [List.takeWhile_eq_self_iff]
        intro d hd
        rw [decide_eq_true_eq, List.mem_singleton]
        exact fun e => h (e ▸ hd)
      simp only [strtok, List.dropWhile_cons, List.mem_singleton, hc, decide_false,
        Bool.false_eq_true, if_false, Option.map_some, Option.getD_some]
      simpa using htake

theorem handleRsp_reply {status : CmdStatus} {text : Option Text}
    (h : '\n' ∉ reply status text) :
    handleRsp (reply status text ++ ['\n']) = ((status.code : Int), text.getD []) := by
  have hlast : (reply status text ++ ['\n']).getLast? = some '\n' := by simp
  unfold handleRsp
  rw [if_pos hlast, List.dropLast_concat]
  cases text with
  | none =>
      show (match strtok _ (ofInt status.code) with
        | none => _
        | some (token, rest) => _) = _
      rw [strtok_code_alone]
      exact Prod.ext (atoi_code status) rfl
  | some text =>
      have ht : '\n' ∉ text := fun hm => h (by simp [reply, hm])
      show (match strtok _ (ofInt status.code ++ ' ' :: text) with
        | none => _
        | some (token, rest) => _) = _
      rw [strtok_code]
      exact Prod.ext (atoi_code status) (strtok_line ht)

/-- Nothing follows the newline at the end of a line. -/
theorem nothing_behind {r t rest : Text} (hr : '\n' ∉ r) (ht : t ++ rest = r ++ ['\n'])
    (hmem : '\n' ∈ t) : rest = [] := by
  rcases List.eq_nil_or_concat rest with hnil | ⟨x, last, rfl⟩
  · exact hnil
  · rw [List.concat_eq_append, ← List.append_assoc] at ht
    have hpre : t ++ x = r := (List.append_inj' ht rfl).1
    exact absurd (hpre ▸ List.mem_append_left _ hmem) hr

theorem fgets_line {r t rest : Text} {p : Text × Text} (hr : Fits r) (ht : t ++ rest = r ++ ['\n'])
    (hf : fgets rspSize t = some p) : p = (r ++ ['\n'], []) ∧ rest = [] := by
  have hlen : t.length + rest.length = r.length + 1 := by simpa using congrArg List.length ht
  have hfit : r.length + 1 ≤ rspSize - 1 := Nat.le_sub_one_of_lt hr.2
  have htake : t.take (rspSize - 1) = t := List.take_of_length_le (by omega)
  -- a newline in the buffer is the one at the end of the line
  have hall : '\n' ∈ t → t = r ++ ['\n'] ∧ rest = [] := by
    intro hmem
    have hrest := nothing_behind hr.1 ht hmem
    exact ⟨by simpa [hrest] using ht, hrest⟩
  unfold fgets at hf
  rw [htake] at hf
  dsimp only at hf
  split at hf
  · next hmem =>
      obtain ⟨rfl, hrest⟩ := hall hmem
      have hn : ((r ++ ['\n']).takeWhile (· != '\n')).length + 1 = (r ++ ['\n']).length := by
        rw [List.takeWhile_append_of_pos fun c hc => by
          simpa using fun e : c = '\n' => hr.1 (e ▸ hc)]
        simp
      rw [hn, List.take_length, List.drop_length] at hf
      exact ⟨(Option.some.inj hf).symm, hrest⟩
  · next hmem =>
      split at hf
      · next hfull =>
          have hrest : rest = [] := List.eq_nil_of_length_eq_zero (by omega)
          rw [hrest, List.append_nil] at ht
          exact absurd (by rw [ht]; simp) hmem
      · cases hf

/-! ## Every run

At any time the command is on its way to the server, or its reply on the way back, or neither:
the client waits for each reply, so that nothing can overtake. -/

/-- How far the command of the current call has come; the last argument are the
commands that the server has not seen as a whole. -/
inductive Session.Phase (s : Session M) : List Text → Prop where
  | idle (hw : s.waiting = false) (hs : s.toServer = []) (hi : s.inp = []) (ho : s.outgoing = [])
      (hc : s.toClient = []) (hr : s.stored.length = s.replies.length) : Phase s s.todo
  | asked (c : Text) (hw : s.waiting = true) (hs : s.inp ++ s.toServer = c ++ ['\n'])
      (hi : '\n' ∉ s.inp) (ho : s.outgoing = []) (hc : s.toClient = [])
      (hr : s.stored.length = s.replies.length) : Phase s (c :: s.todo)
  | replied (r : Text) (rs : List Text) (hw : s.waiting = true) (hs : s.toServer = [])
      (hi : s.inp = []) (hc : s.toClient ++ s.outgoing = r ++ ['\n']) (hrs : s.replies = rs ++ [r])
      (hr : s.stored.length = rs.length) : Phase s s.todo

/-- The client and the server agree on what has been said. -/
structure Session.Agrees (process : M → Text → Option Text × M) (mod : M) (commands : List Text)
    (s : Session M) : Prop where
  phase : ∃ unseen, s.Phase unseen ∧ (∃ seen, commands = seen ++ unseen) ∧
    (dialogue process mod (commands.map (· ++ ['\n']))).replies =
      s.replies ++ (dialogue process s.mod (unseen.map (· ++ ['\n']))).replies
  formed : ∀ r ∈ s.replies, ∃ status text, r = reply status text
  stored : ∀ (n : Nat) st, s.stored[n]? = some st → ∃ status text,
    s.replies[n]? = some (reply status text) ∧ st = ((status.code : Int), text.getD [])

theorem reply_ne_nil (status : CmdStatus) (text : Option Text) : reply status text ≠ [] := by
  cases text <;> cases status <;> exact List.cons_ne_nil _ _

theorem serve_reply {process : M → Text → Option Text × M} {s : Session M} {line : Text}
    {status : CmdStatus} {text : Option Text}
    (h : (process s.mod line).1 = some (reply status text)) (rest : Text) :
    s.serve process line rest =
      { s with toServer := rest, inp := [], mod := (process s.mod line).2,
               outgoing := reply status text ++ ['\n'],
               replies := s.replies ++ [reply status text] } ∧
    ∀ next, answer line (process s.mod line) next =
      { next (process s.mod line).2 with
        processed := line :: (next (process s.mod line).2).processed
        replies := reply status text :: (next (process s.mod line).2).replies } := by
  obtain ⟨c, out, hout⟩ := List.exists_cons_of_ne_nil (reply_ne_nil status text)
  have hp : process s.mod line = (some (c :: out), (process s.mod line).2) :=
    Prod.ext (h.trans (congrArg some hout)) rfl
  rw [hout]
  constructor
  · unfold Session.serve
    rw [hp]
  · intro next
    unfold answer
    rw [hp]

theorem agrees_start (process : M → Text → Option Text × M) (mod : M) (commands : List Text) :
    Session.Agrees process mod commands { todo := commands, mod := mod } where
  phase := ⟨commands, .idle rfl rfl rfl rfl rfl rfl, ⟨[], rfl⟩, rfl⟩
  formed := fun _ h => (nomatch h)
  stored := fun _ _ h => (nomatch h)

/-- The server has read all of a command. -/
theorem agrees_serve {process : M → Text → Option Text × M} {mod : M} {commands seen : List Text}
    {s : Session M} {c : Text} {status : CmdStatus} {text : Option Text}
    (hout : (process s.mod (c ++ ['\n'])).1 = some (reply status text)) (hw : s.waiting = true)
    (hc : s.toClient = []) (hr : s.stored.length = s.replies.length)
    (hseen : commands = seen ++ c :: s.todo)
    (hreplies : (dialogue process mod (commands.map (· ++ ['\n']))).replies = s.replies ++
      (dialogue process s.mod ((c :: s.todo).map (· ++ ['\n']))).replies)
    (hformed : ∀ r ∈ s.replies, ∃ status text, r = reply status text)
    (hstored : ∀ (n : Nat) st, s.stored[n]? = some st → ∃ status text,
      s.replies[n]? = some (reply status text) ∧ st = ((status.code : Int), text.getD [])) :
    (s.serve process (c ++ ['\n']) []).Agrees process mod commands := by
  obtain ⟨hserve, hanswer⟩ := serve_reply hout []
  rw [hserve]
  refine ⟨⟨s.todo, .replied (reply status text) s.replies hw rfl rfl ?_ rfl hr,
    ⟨seen ++ [c], by rw [hseen]; simp⟩, ?_⟩, ?_, ?_⟩
  · show s.toClient ++ _ = _
    rw [hc]
    rfl
  · rw [hreplies, List.map_cons, dialogue, hanswer]
    simp
  · intro r hrmem
    rcases List.mem_append.mp hrmem with h | h
    · exact hformed r h
    · exact ⟨status, text, List.mem_singleton.mp h⟩
  · intro n st hn
    obtain ⟨status', text', hrn, hst⟩ := hstored n st hn
    refine ⟨status', text', ?_, hst⟩
    exact (List.getElem?_append_left (List.getElem?_eq_some_iff.mp hrn).1).trans hrn

section Step

variable {process : M → Text → Option Text × M} {mod : M} {commands : List Text}
  (hanswers : Answers process commands) (hlines : ∀ c ∈ commands, '\n' ∉ c)
include hanswers hlines

/-- One step of either side, which may read or write a part only. -/
theorem agrees_step {s s' : Session M} (h : s.Agrees process mod commands)
    (hfits : ∀ r ∈ s.replies, Fits r) (hs : s.Step process s') :
    s'.Agrees process mod commands := by
  obtain ⟨⟨unseen, hphase, ⟨seen, hseen⟩, hreplies⟩, hformed, hstored⟩ := h
  cases hs with
  | send c cs ht hw =>
      cases hphase with
      | idle _ hserver hi ho hc hr =>
          refine ⟨⟨c :: cs, .asked c rfl ?_ (by simp [hi]) ho hc hr, ⟨seen, ht ▸ hseen⟩, ?_⟩,
            hformed, hstored⟩
          · show s.inp ++ (s.toServer ++ c ++ ['\n']) = _
            rw [hi, hserver]
            rfl
          · rw [ht] at hreplies
            exact hreplies
      | asked _ hw' => exact absurd (hw.symm.trans hw') (by decide)
      | replied _ _ hw' => exact absurd (hw.symm.trans hw') (by decide)
  | read buf rest ho ht hb =>
      cases hphase with
      | idle _ hserver =>
          rw [hserver] at ht
          exact absurd (List.append_eq_nil_iff.mp ht.symm).1 hb.1
      | replied _ _ _ hserver =>
          rw [hserver] at ht
          exact absurd (List.append_eq_nil_iff.mp ht.symm).1 hb.1
      | asked c hw hserver hi _ hc hr =>
          have hcmem : c ∈ commands := by rw [hseen]; simp
          rw [ht, ← List.append_assoc] at hserver
          split
          · next hmem =>
              -- all of the command has been read
              have hrest := nothing_behind (hlines c hcmem) hserver (by simp [hmem])
              subst hrest
              rw [List.append_nil] at hserver
              obtain ⟨status, text, hout⟩ := hanswers s.mod c hcmem
              rw [hserver]
              exact agrees_serve hout hw hc hr hseen hreplies hformed hstored
          · next hmem =>
              exact ⟨⟨_, .asked c hw hserver (by simp [hi, hmem]) ho hc hr, ⟨seen, hseen⟩,
                hreplies⟩, hformed, hstored⟩
  | write out rest ho hout =>
      cases hphase with
      | idle _ _ _ ho' => exact absurd (List.append_eq_nil_iff.mp (ho.symm.trans ho')).1 hout
      | asked _ _ _ _ ho' => exact absurd (List.append_eq_nil_iff.mp (ho.symm.trans ho')).1 hout
      | replied r rs hw hserver hi hc hrs hr =>
          refine ⟨⟨_, .replied r rs hw hserver hi ?_ hrs hr, ⟨seen, hseen⟩, hreplies⟩, hformed,
            hstored⟩
          show s.toClient ++ out ++ rest = _
          rw [List.append_assoc, ← ho]
          exact hc
  | receive buf rest hw hf =>
      cases hphase with
      | idle hw' => exact absurd (hw.symm.trans hw') (by decide)
      | asked _ _ _ _ _ hc =>
          rw [hc] at hf
          cases hf
      | replied r rs _ hserver hi hc hrs hr =>
          have hrmem : r ∈ s.replies := by rw [hrs]; simp
          obtain ⟨hp, hout⟩ := fgets_line (hfits r hrmem) hc hf
          obtain ⟨rfl, rfl⟩ := Prod.mk.inj hp
          refine ⟨⟨_, .idle rfl hserver hi hout rfl ?_, ⟨seen, hseen⟩, hreplies⟩, hformed, ?_⟩
          · show (s.stored ++ _).length = s.replies.length
            rw [hrs, List.length_append, List.length_append, hr]
            rfl
          · intro n st hn
            have hn : (s.stored ++ [handleRsp (r ++ ['\n'])])[n]? = some st := hn
            by_cases hlt : n < s.stored.length
            · rw [List.getElem?_append_left hlt] at hn
              exact hstored n st hn
            · -- the reply that has just come
              obtain ⟨status, text, rfl⟩ := hformed r hrmem
              have hlen := (List.getElem?_eq_some_iff.mp hn).1
              rw [List.length_append, List.length_singleton] at hlen
              obtain rfl : n = s.stored.length := by omega
              rw [List.getElem?_append_right (Nat.le_refl _), Nat.sub_self] at hn
              refine ⟨status, text, ?_, ?_⟩
              · show s.replies[s.stored.length]? = _
                rw [hrs, hr, List.getElem?_append_right (Nat.le_refl _), Nat.sub_self]
                rfl
              · rw [← Option.some.inj hn]
                exact handleRsp_reply (hfits _ hrmem).1

omit hanswers hlines in
theorem step_replies {s s' : Session M} (hs : s.Step process s') : s.replies ⊆ s'.replies := by
  cases hs with
  | send | write | receive => exact fun _ h => h
  | read buf rest =>
      split
      · unfold Session.serve
        split
        · exact List.subset_append_left _ _
        · exact fun _ h => h
      · exact fun _ h => h

theorem reachable_agrees {s : Session M} (h : s.Reachable process mod commands)
    (hfits : ∀ r ∈ s.replies, Fits r) : s.Agrees process mod commands := by
  induction h with
  | start => exact agrees_start process mod commands
  | step _ hs ih =>
      have hbefore := fun r hr => hfits r (step_replies hs hr)
      exact agrees_step hanswers hlines (ih hbefore) hbefore hs

end Step

/-- As long as the replies of the server are lines that fit into the client's buffer,
the `n`-th call stores the status and the value of the reply to the `n`-th command,
in whatever order the client and the server make their steps. -/
theorem stored_reply {handlers : List (Command M)} {escape : M → Bool} {mod : M}
    {commands : List Text} (hanswers : Answers (confmoduleProcess handlers escape) commands)
    (hlines : ∀ c ∈ commands, '\n' ∉ c) {s : Session M}
    (h : s.Reachable (confmoduleProcess handlers escape) mod commands)
    (hfits : ∀ r ∈ s.replies, Fits r) (n : Nat) (st : Int × Text)
    (hn : s.stored[n]? = some st) :
    ∃ status text, (dialogue (confmoduleProcess handlers escape) mod
        (commands.map (· ++ ['\n']))).replies[n]? = some (reply status text) ∧
      st = ((status.code : Int), text.getD []) := by
  have hagrees := reachable_agrees hanswers hlines h hfits
  obtain ⟨unseen, -, -, hreplies⟩ := hagrees.phase
  obtain ⟨status, text, hr, hst⟩ := hagrees.stored n st hn
  refine ⟨status, text, ?_, hst⟩
  rw [hreplies]
  exact (List.getElem?_append_left (List.getElem?_eq_some_iff.mp hr).1).trans hr

/-- A call whose reply comes as a whole. -/
theorem reachable_call {process : M → Text → Option Text × M} {mod₀ mod : M}
    {commands cs replies : List Text} {stored : List (Int × Text)} {c buf rest : Text}
    (h : Session.Reachable process mod₀ commands { todo := c :: cs, mod, stored, replies })
    (status : CmdStatus) (text : Option Text) (hc : c.length < readSize)
    (hp : (process mod (c ++ ['\n'])).1 = some (reply status text))
    (hf : fgets rspSize (reply status text ++ ['\n']) = some (buf, rest)) :
    Session.Reachable process mod₀ commands
      { todo := cs, mod := (process mod (c ++ ['\n'])).2, stored := stored ++ [handleRsp buf]
        toClient := rest, replies := replies ++ [reply status text] } := by
  have h₁ := h.step (.send _ c cs rfl rfl)
  have h₂ := h₁.step (.read _ (c ++ ['\n']) [] rfl (by simp)
    ⟨by simp, by simpa using Nat.succ_le_of_lt hc⟩)
  rw [if_pos (by simp), (serve_reply (by simpa using hp) []).1] at h₂
  have h₃ := h₂.step (.write _ (reply status text ++ ['\n']) [] (by simp) (by simp))
  exact h₃.step (.receive _ buf rest rfl (by simpa using hf))

/-- The values of two short replies. -/
theorem stored_reply_echo :
    ∃ s, Session.Reachable (confmoduleProcess echo fun _ => false) ()
        ["GET a".toList, "GET b".toList] s ∧
      s.stored = [(0, "a".toList), (0, "b".toList)] ∧
      ∃ status text, (dialogue (confmoduleProcess echo fun _ => false) ()
          (["GET a".toList, "GET b".toList].map (· ++ ['\n']))).replies[1]? =
            some (reply status text) ∧
        (0, "b".toList) = ((status.code : Int), text.getD []) := by
  have hstart : Session.Reachable (confmoduleProcess echo fun _ => false) ()
      ["GET a", "GET b"] _ := .start
  have hs := reachable_call (reachable_call hstart .success (some "a".toList) (by decide)
    (by decide) (show _ = some ("0 a\n".toList, []) by decide)) .success (some "b".toList)
    (by decide) (by decide) (show _ = some ("0 b\n".toList, []) by decide)
  refine ⟨_, hs, by decide, stored_reply ?_ (by decide) hs ?_ 1 _ (by decide)⟩
  · intro _ c hc
    rcases List.mem_pair.mp hc with rfl | rfl
    · exact ⟨.success, some "a".toList, rfl⟩
    · exact ⟨.success, some "b".toList, rfl⟩
  · intro r hr
    rcases List.mem_pair.mp hr with rfl | rfl <;> exact ⟨by decide, by decide⟩

theorem length_reply_le (status : CmdStatus) (text : Option Text) :
    (reply status text).length ≤ 4 + (text.getD []).length := by
  have hcode : (ofInt status.code).length ≤ 3 := by cases status <;> decide
  cases text with
  | none => exact Nat.le_trans hcode (by simp)
  | some text =>
      simp only [reply, List.length_append, List.length_cons, Option.getD_some]
      omega

/-- A module with a long answer. -/
def verbose : List (Command Unit) :=
  [⟨"get", fun _ _ => (reply .success (some (List.replicate 3000 'x')), ())⟩]

/-- The client does not see the end of it. -/
theorem stored_truncated :
    ¬∀ (handlers : List (Command Unit)) (commands : List Text) (s : Session Unit),
      Answers (confmoduleProcess handlers fun _ => false) commands →
      (∀ c ∈ commands, '\n' ∉ c) →
      s.Reachable (confmoduleProcess handlers fun _ => false) () commands →
      ∀ (n : Nat) st, s.stored[n]? = some st →
        ∃ status text, (dialogue (confmoduleProcess handlers fun _ => false) ()
            (commands.map (· ++ ['\n']))).replies[n]? = some (reply status text) ∧
          st = ((status.code : Int), text.getD []) := by
  intro h
  have hstart : Session.Reachable (confmoduleProcess verbose fun _ => false) () ["GET a"] _ :=
    .start
  have hs := reachable_call hstart .success (some (List.replicate 3000 'x')) (by decide) rfl
    (show _ = some (reply .success (some (List.replicate 2045 'x')),
      List.replicate 955 'x' ++ ['\n']) by decide +kernel)
  obtain ⟨status, text, hreply, hst⟩ := h verbose ["GET a"] _
    (fun _ c hc => by
      rw [List.mem_singleton.mp hc]
      exact ⟨.success, some (List.replicate 3000 'x'), rfl⟩)
    (by decide) hs 0 _ rfl
  have hlong : reply .success (some (List.replicate 3000 'x')) = reply status text :=
    Option.some.inj hreply
  have hlen := length_reply_le status text
  have htext : (handleRsp (reply .success (some (List.replicate 2045 'x')))).2 = text.getD [] :=
    congrArg Prod.snd hst
  rw [← hlong, ← htext] at hlen
  exact absurd hlen (by decide +kernel)

end DebianInstaller.Debconf
