import DebianInstaller.Text

/-!
# The answer to the question for the hostname

`netcfg_get_hostname` copies an answer into a buffer, asks `valid_domain` about the whole of it,
and then splits it at its first dot. What is in front of the dot has to satisfy `valid_hostname`,
but what is behind it is not looked at again. `valid_domain` knows that no label is empty. It
looks for a hyphen only at the two ends of the name, though, so a label in the middle may begin or
end with one, and so may the domain at its beginning.
-/

namespace DebianInstaller.Netcfg

open Text

variable {t : Text} {α : Type}

/-! ## The code -/

/-- `MAXHOSTNAMELEN` -/
def maxHostNameLen : ℕ := 63

/-- What a question is answered with: a C string. -/
abbrev Answer := { t : Text // nul ∉ t }

/-- `char hostname[MAXHOSTNAMELEN + 1]`. Nothing writes to the last byte, which is zero. -/
structure Buffer where
  bytes : Text
  length_eq : bytes.length = maxHostNameLen + 1
  terminated : bytes.getLast? = some nul

variable {b : Buffer}

/-- The C string in a buffer. -/
def Buffer.text (b : Buffer) : Text := b.bytes.takeWhile (· ≠ nul)

/-- `strncpy(dest, src, MAXHOSTNAMELEN)` -/
def strncpy (dest : Buffer) (src : Text) : Buffer where
  bytes := (src ++ List.replicate maxHostNameLen nul).take maxHostNameLen ++
    dest.bytes.drop maxHostNameLen
  length_eq := by
    rw [List.length_append, List.length_take, List.length_append, List.length_replicate,
      List.length_drop, dest.length_eq]
    omega
  terminated := by
    have hne : dest.bytes.drop maxHostNameLen ≠ [] := by
      rw [← List.length_pos_iff, List.length_drop, dest.length_eq]
      omega
    rw [List.getLast?_append_of_ne_nil _ hne, List.getLast?_drop, dest.length_eq,
      if_neg (by omega), dest.terminated]

/-- `hostname[i] = '\0'` -/
def Buffer.terminate (b : Buffer) (i : ℕ) : Buffer where
  bytes := b.bytes.set i nul
  length_eq := by rw [List.length_set, b.length_eq]
  terminated := by
    have hlast := b.terminated
    rw [List.getLast?_eq_getElem?, b.length_eq] at hlast
    rw [List.getLast?_eq_getElem?, List.length_set, b.length_eq, List.getElem?_set, hlast]
    split
    · split
      · rfl
      · next heq hlt =>
          have hlength := b.length_eq
          omega
    · rfl

def strspn (s accept : Text) : ℕ := (s.takeWhile (· ∈ accept)).length

/-- `valid_chars` of `valid_hostname`. -/
def hostnameChars : Text :=
  "abcdefghijklmnopqrstuvwxyzABCDEFGHIJKLMNOPQRSTUVWXYZ0123456789-"

/-- `valid_chars` of `valid_domain`. -/
def domainChars : Text :=
  "abcdefghijklmnopqrstuvwxyzABCDEFGHIJKLMNOPQRSTUVWXYZ0123456789-."

/-- `valid_hostname` -/
def validHostname (hname : Text) : Bool :=
  let len := hname.length
  !(len < 1 || len > maxHostNameLen || strspn hname hostnameChars != len ||
    hname[len - 1]? == some '-' || hname[0]? == some '-')

/-- `valid_domain` -/
def validDomain (dname : Text) : Bool :=
  let len := dname.length
  !(len < 1 || len > maxHostNameLen || strspn dname domainChars != len ||
    dname[len - 1]? == some '-' || dname[0]? == some '-' ||
    dname[len - 1]? == some '.' || dname[0]? == some '.' || decide (['.', '.'] <:+: dname))

/-- What is asked of debconf. -/
inductive Request where
  | input (priority template : Text)
  | go
  | get (template : Text)
  | subst (template key value : Text)
  | set (template value : Text)

/-- The variables of netcfg, and what it has asked of debconf. -/
structure Host where
  hostname : Buffer
  domain : Buffer
  haveDomain : Bool
  requests : List Request

variable {st : Host}

def Host.ask (st : Host) (requests : List Request) : Host :=
  { st with requests := st.requests ++ requests }

/-- The complaint about a name, and the question reset. -/
def Host.invalid (st : Host) (template : Text) : Host :=
  let question := "netcfg/invalid_hostname".toList
  { st with hostname := st.hostname.terminate 0 }.ask
    [.subst question "hostname" st.hostname.text,
      .subst question "maxhostnamelen" (ofInt maxHostNameLen),
      .input "high" question, .go, .set template "debian"]

/-- The name in the buffer split at its first dot. -/
def Host.split (st : Host) : Host :=
  match st.hostname.text.idxOf? '.' with
  | none => st
  | some s =>
      if st.hostname.bytes[s + 1]? = some nul then
        { st with hostname := st.hostname.terminate s }
      else
        let domain := strncpy st.domain (st.hostname.text.drop (s + 1))
        { st with hostname := st.hostname.terminate s, domain := domain, haveDomain := true }.ask
          [.set "netcfg/get_domain" domain.text]

/-- One round of the loop, up to where the question has been put. -/
def Host.question (st : Host) (template : Text) (acceptDomain : Bool) : Host :=
  { st with haveDomain := st.haveDomain && !acceptDomain }.ask [.input "high" template, .go]

/-- The rest of the round, and whether the loop is left. -/
def Host.round (st : Host) (template : Text) (acceptDomain : Bool) (answer : Text) : Bool × Host :=
  let st := { st with hostname := strncpy st.hostname answer }.ask [.get template]
  if !validDomain st.hostname.text then (false, st.invalid template)
  else
    let st := if acceptDomain then st.split else st
    if !validHostname st.hostname.text then (false, st.invalid template) else (true, st)

/-- `GO_BACK` -/
def goBack : ℕ := 31

/-- `netcfg_get_hostname`, with what is answered one time after the other, where going back is
no answer. There is no result as long as it is still asking. -/
def getHostname (template : Text) (acceptDomain : Bool) :
    List (Option Answer) → Host → Option (ℕ × Host)
  | [], _ => none
  | none :: _, st => some (goBack, st.question template acceptDomain)
  | some answer :: answers, st =>
      match (st.question template acceptDomain).round template acceptDomain answer.1 with
      | (true, st) => some (0, st)
      | (false, st) => getHostname template acceptDomain answers st

/-! ## Labels -/

theorem mem_splitOn_iff [BEq α] [LawfulBEq α] {x : α} {t l : List α} :
    l ∈ t.splitOn x ↔ ∃ a b, t = a ++ (l ++ b) ∧ x ∉ l ∧ (a = [] ∨ a.getLast? = some x) ∧
      (b = [] ∨ b.head? = some x) := by
  constructor
  · intro hl
    induction hn : t.length using Nat.strong_induction_on generalizing t with
    | _ n ih =>
        subst hn
        by_cases hx : x ∈ t
        · obtain ⟨w, t, rfl, hw⟩ := List.eq_append_cons_of_mem hx
          rw [List.splitOn_append_cons_self_of_not_mem hw] at hl
          rcases List.mem_cons.1 hl with rfl | hl
          · exact ⟨[], x :: t, rfl, hw, .inl rfl, .inr rfl⟩
          · obtain ⟨a, b, rfl, hxl, ha, hb⟩ := ih _ (by simp; omega) hl rfl
            refine ⟨w ++ x :: a, b, by simp, hxl, .inr ?_, hb⟩
            rcases ha with rfl | ha
            · simp
            · simp [List.getLast?_cons, ha]
        · rw [List.splitOn_eq_singleton hx, List.mem_singleton] at hl
          exact ⟨[], [], by simp [hl], hl ▸ hx, .inl rfl, .inl rfl⟩
  · rintro ⟨a, b, rfl, hx, ha, hb⟩
    have hlabel : l ∈ (l ++ b).splitOn x := by
      rcases hb with rfl | hb
      · rw [List.append_nil, List.splitOn_eq_singleton hx]
        exact List.mem_cons_self
      · obtain ⟨b, rfl⟩ := List.head?_eq_some_iff.1 hb
        rw [List.splitOn_append_cons_self_of_not_mem hx]
        exact List.mem_cons_self
    rcases ha with rfl | ha
    · exact hlabel
    · obtain ⟨a, rfl⟩ := List.getLast?_eq_some_iff.1 ha
      rw [List.append_assoc, List.singleton_append, List.splitOn_append_cons_self]
      exact List.mem_append_right _ hlabel

/-- A label as RFC 1123 wants it. -/
def IsLabel (l : Text) : Prop :=
  l ≠ [] ∧ (∀ c ∈ l, c ∈ hostnameChars) ∧ l.head? ≠ some '-' ∧ l.getLast? ≠ some '-'

theorem strspn_eq_length {s accept : Text} : strspn s accept = s.length ↔ ∀ c ∈ s, c ∈ accept := by
  have hall : s.takeWhile (· ∈ accept) = s ↔ ∀ c ∈ s, c ∈ accept := by
    simp [List.takeWhile_eq_self_iff]
  rw [← hall, strspn]
  constructor
  · intro h
    exact (List.takeWhile_prefix _).eq_of_length h
  · intro h
    rw [h]

theorem validHostname_iff : validHostname t = true ↔ IsLabel t ∧ t.length ≤ maxHostNameLen := by
  simp only [validHostname, Bool.not_eq_true', Bool.or_eq_false_iff, decide_eq_false_iff_not,
    bne_eq_false_iff_eq, strspn_eq_length, beq_eq_false_iff_ne, ← List.getLast?_eq_getElem?,
    ← List.head?_eq_getElem?, Nat.not_lt, IsLabel, ← List.length_pos_iff]
  tauto

theorem validDomain_iff :
    validDomain t = true ↔ t ≠ [] ∧ t.length ≤ maxHostNameLen ∧ (∀ c ∈ t, c ∈ domainChars) ∧
      t.head? ≠ some '-' ∧ t.getLast? ≠ some '-' ∧ t.head? ≠ some '.' ∧ t.getLast? ≠ some '.' ∧
      ¬ ['.', '.'] <:+: t := by
  simp only [validDomain, Bool.not_eq_true', Bool.or_eq_false_iff, decide_eq_false_iff_not,
    bne_eq_false_iff_eq, strspn_eq_length, beq_eq_false_iff_ne, ← List.getLast?_eq_getElem?,
    ← List.head?_eq_getElem?, Nat.not_lt, ← List.length_pos_iff]
  tauto

/-- A hyphen stands next to a dot. -/
def HyphenAtDot (t : Text) : Prop := ['.', '-'] <:+: t ∨ ['-', '.'] <:+: t

instance (t : Text) : Decidable (HyphenAtDot t) := inferInstanceAs (Decidable (_ ∨ _))

theorem isLabel_of_not {l : Text} (h : validDomain t = true) (hdot : ¬ HyphenAtDot t)
    (hl : l ∈ t.splitOn '.') : IsLabel l := by
  obtain ⟨hne, -, hchars, hhead, hlast, hhead', hlast', hdots⟩ := validDomain_iff.1 h
  obtain ⟨a, b, rfl, hx, ha, hb⟩ := mem_splitOn_iff.1 hl
  refine ⟨?_, fun c hc => ?_, fun hminus => ?_, fun hminus => ?_⟩
  · rintro rfl
    rcases ha with rfl | ha
    · rcases hb with rfl | hb
      · exact hne rfl
      · exact hhead' hb
    · rcases hb with rfl | hb
      · exact hlast' (by simpa using ha)
      · obtain ⟨a, rfl⟩ := List.getLast?_eq_some_iff.1 ha
        obtain ⟨b, rfl⟩ := List.head?_eq_some_iff.1 hb
        exact hdots ⟨a, b, by simp⟩
  · have hmem : c ∈ domainChars :=
      hchars c (List.mem_append_right _ (List.mem_append_left _ hc))
    have hsplit : domainChars = hostnameChars ++ ['.'] := by decide
    rw [hsplit, List.mem_append, List.mem_singleton] at hmem
    exact hmem.resolve_right fun heq => hx (heq ▸ hc)
  · obtain ⟨l, rfl⟩ := List.head?_eq_some_iff.1 hminus
    rcases ha with rfl | ha
    · exact hhead rfl
    · obtain ⟨a, rfl⟩ := List.getLast?_eq_some_iff.1 ha
      exact hdot (.inl ⟨a, l ++ b, by simp⟩)
  · obtain ⟨l, rfl⟩ := List.getLast?_eq_some_iff.1 hminus
    rcases hb with rfl | hb
    · exact hlast (by simp)
    · obtain ⟨b, rfl⟩ := List.head?_eq_some_iff.1 hb
      exact hdot (.inr ⟨a ++ l, b, by simp⟩)

theorem exists_first_label [DecidableEq α] (x : α) (t : List α) :
    ∃ l b, t = l ++ b ∧ x ∉ l ∧ (b = [] ∨ b.head? = some x) := by
  by_cases hx : x ∈ t
  · obtain ⟨l, b, rfl, hl⟩ := List.eq_append_cons_of_mem hx
    exact ⟨l, x :: b, rfl, hl, .inr rfl⟩
  · exact ⟨t, [], (List.append_nil t).symm, hx, .inl rfl⟩

theorem exists_last_label [DecidableEq α] (x : α) (t : List α) :
    ∃ a l, t = a ++ l ∧ x ∉ l ∧ (a = [] ∨ a.getLast? = some x) := by
  obtain ⟨l, b, ht, hl, hb⟩ := exists_first_label x t.reverse
  refine ⟨b.reverse, l.reverse, ?_, by simpa using hl, by simpa using hb⟩
  rw [← List.reverse_append, ← ht, List.reverse_reverse]

theorem not_of_isLabel (h : ∀ l ∈ t.splitOn '.', IsLabel l) : ¬ HyphenAtDot t := by
  rintro (⟨a, b, rfl⟩ | ⟨a, b, rfl⟩)
  · obtain ⟨l, b, rfl, hl, hb⟩ := exists_first_label '.' b
    have hmem : '-' :: l ∈ (a ++ ['.', '-'] ++ (l ++ b)).splitOn '.' :=
      mem_splitOn_iff.2 ⟨a ++ ['.'], b, by simp, by simp [hl], .inr (by simp), hb⟩
    exact (h _ hmem).2.2.1 rfl
  · obtain ⟨a, l, rfl, hl, ha⟩ := exists_last_label '.' a
    have hmem : l ++ ['-'] ∈ (a ++ l ++ ['-', '.'] ++ b).splitOn '.' :=
      mem_splitOn_iff.2 ⟨a, '.' :: b, by simp, by simp [hl], ha, .inr rfl⟩
    exact (h _ hmem).2.2.2 (by simp)

/-! ## Buffers -/

theorem Buffer.nul_mem (b : Buffer) : nul ∈ b.bytes := List.mem_of_getLast? b.terminated

theorem Buffer.text_eq {u v : Text} (h : b.bytes = u ++ nul :: v) (hu : nul ∉ u) : b.text = u := by
  have hall : ∀ c ∈ u, decide (c ≠ nul) = true := by
    intro c hc
    refine decide_eq_true ?_
    rintro rfl
    exact hu hc
  rw [text, h, List.takeWhile_append_of_pos hall]
  simp

theorem Buffer.nul_not_mem_text (b : Buffer) : nul ∉ b.text := by
  intro h
  have hne := List.mem_takeWhile_imp h
  simp at hne

theorem Buffer.drop_eq (b : Buffer) : b.bytes.drop maxHostNameLen = [nul] := by
  obtain ⟨t, ht⟩ := List.getLast?_eq_some_iff.1 b.terminated
  have hlength := b.length_eq
  rw [ht, List.length_append, List.length_singleton] at hlength
  rw [ht, ← Nat.add_right_cancel hlength, List.drop_left]

theorem text_strncpy (dest : Buffer) (src : Answer) :
    (strncpy dest src.1).text = src.1.take maxHostNameLen := by
  have hsrc : nul ∉ src.1.take maxHostNameLen := fun h => src.2 (List.mem_of_mem_take h)
  have hbytes : (strncpy dest src.1).bytes = src.1.take maxHostNameLen
      ++ (List.replicate (maxHostNameLen - src.1.length) nul ++ [nul]) := by
    show (src.1 ++ List.replicate maxHostNameLen nul).take maxHostNameLen
      ++ dest.bytes.drop maxHostNameLen = _
    rw [dest.drop_eq, List.take_append, List.take_replicate, List.append_assoc,
      Nat.min_eq_left (Nat.sub_le _ _)]
  rw [← List.replicate_succ', List.replicate_succ] at hbytes
  exact Buffer.text_eq hbytes hsrc

theorem text_terminate {i : ℕ} (hi : i ≤ b.text.length) : (b.terminate i).text = b.text.take i := by
  have hprefix : b.text <+: b.bytes := List.takeWhile_prefix _
  have htake : b.text.take i = b.bytes.take i := by
    rw [List.prefix_iff_eq_take.1 hprefix, List.take_take, Nat.min_eq_left hi]
  have hlt : i < b.bytes.length := by
    obtain ⟨t, ht⟩ := hprefix
    have hnul := b.nul_mem
    have hne : t ≠ [] := by
      rintro rfl
      rw [List.append_nil] at ht
      exact b.nul_not_mem_text (ht ▸ hnul)
    rw [← ht, List.length_append]
    have := List.length_pos_iff.2 hne
    omega
  refine Buffer.text_eq (v := b.bytes.drop (i + 1)) ?_ fun h =>
    b.nul_not_mem_text (List.mem_of_mem_take h)
  show b.bytes.set i nul = _
  rw [htake, List.set_eq_take_append_cons_drop, if_pos hlt]

/-! ## What is stored -/

/-- The hostname is a label, the domain consists of labels, and both are C strings that end in
their buffers. -/
structure Valid (st : Host) : Prop where
  hostname : validHostname st.hostname.text = true
  domain : st.haveDomain = true → ∀ l ∈ st.domain.text.splitOn '.', IsLabel l
  hostname_terminated : nul ∈ st.hostname.bytes
  domain_terminated : nul ∈ st.domain.bytes

theorem split_of_not_mem (h : '.' ∉ st.hostname.text) : st.split = st := by
  rw [Host.split, List.idxOf?_eq_none_iff.2 h]

/-- What is in front of the first dot and what is behind it. The dot is not the last character,
for then the name would not be valid. -/
theorem split_of_mem {host dom : Text} (hvalid : validDomain st.hostname.text = true)
    (htext : st.hostname.text = host ++ '.' :: dom) (hhost : '.' ∉ host) :
    st.split.hostname.text = host ∧ st.split.domain.text = dom ∧ st.split.haveDomain = true := by
  obtain ⟨-, hlength, -, -, -, -, hlast, -⟩ := validDomain_iff.1 hvalid
  have hnul : nul ∉ dom := fun h => st.hostname.nul_not_mem_text
    (htext ▸ List.mem_append_right _ (List.mem_cons_of_mem _ h))
  have hindex : st.hostname.text.idxOf? '.' = some host.length := by
    rw [htext, List.idxOf?_eq_some_iff]
    refine ⟨by simp, by simp, fun j hj heq => hhost ?_⟩
    rw [List.getElem_append_left hj] at heq
    exact heq ▸ List.getElem_mem hj
  have hnext : st.hostname.bytes[host.length + 1]? ≠ some nul := by
    obtain ⟨t, ht⟩ : st.hostname.text <+: st.hostname.bytes := List.takeWhile_prefix _
    cases dom with
    | nil => exact absurd (by rw [htext]; simp) hlast
    | cons c dom =>
        have hc : c ≠ nul := fun h => hnul (List.mem_cons.2 (.inl h.symm))
        rw [← ht, htext]
        simpa using hc
  have hdrop : st.hostname.text.drop (host.length + 1) = dom := by
    rw [htext, List.drop_append]
    simp
  have hdom := text_strncpy st.domain ⟨dom, hnul⟩
  rw [List.take_of_length_le] at hdom
  · simp only [Host.split, hindex, if_neg hnext, hdrop]
    refine ⟨?_, hdom, rfl⟩
    show (st.hostname.terminate host.length).text = host
    rw [text_terminate (by rw [htext]; simp), htext, List.take_left]
  · rw [htext, List.length_append, List.length_cons] at hlength
    show dom.length ≤ _
    omega

theorem round_valid_iff {st' : Host} {template : Text} {answer : Answer}
    (hdomain : st.haveDomain = false) (h : st.round template true answer.1 = (true, st')) :
    Valid st' ↔ ¬ HyphenAtDot (answer.1.take maxHostNameLen) := by
  generalize hcopied : ({ st with hostname := strncpy st.hostname answer.1 }.ask [.get template])
    = copied at h
  have htext : copied.hostname.text = answer.1.take maxHostNameLen := by
    rw [← hcopied]
    exact text_strncpy st.hostname answer
  have hcopiedDomain : copied.haveDomain = false := by
    rw [← hcopied]
    exact hdomain
  rw [← htext]
  unfold Host.round at h
  simp only [hcopied] at h
  split at h
  · nomatch (Prod.mk.inj h).1
  next hvalid =>
    rw [Bool.not_eq_true, Bool.not_eq_false'] at hvalid
    simp only [if_true] at h
    split at h
    · nomatch (Prod.mk.inj h).1
    next hhostname =>
      obtain ⟨-, rfl⟩ := Prod.mk.inj h
      rw [Bool.not_eq_true, Bool.not_eq_false'] at hhostname
      have hends : Valid copied.split ↔ (copied.split.haveDomain = true →
          ∀ l ∈ copied.split.domain.text.splitOn '.', IsLabel l) :=
        ⟨Valid.domain, fun hdom =>
          ⟨hhostname, hdom, copied.split.hostname.nul_mem, copied.split.domain.nul_mem⟩⟩
      rw [hends]
      by_cases hdot : '.' ∈ copied.hostname.text
      · obtain ⟨host, dom, heq, hhost⟩ := List.eq_append_cons_of_mem hdot
        obtain ⟨hfirst, hrest, hhave⟩ := split_of_mem hvalid heq hhost
        have hlabels : copied.hostname.text.splitOn '.' = host :: dom.splitOn '.' := by
          rw [heq, List.splitOn_append_cons_self_of_not_mem hhost]
        have hlabel : IsLabel host := hfirst ▸ (validHostname_iff.1 hhostname).1
        rw [hhave, hrest]
        constructor
        · intro hdom
          refine not_of_isLabel (hlabels ▸ List.forall_mem_cons.2 ⟨hlabel, hdom rfl⟩)
        · intro hyphen _ l hl
          exact isLabel_of_not hvalid hyphen (hlabels ▸ List.mem_cons_of_mem _ hl)
      · rw [split_of_not_mem hdot, hcopiedDomain]
        refine iff_of_true (fun hhave => nomatch hhave) ?_
        rintro (⟨a, b, hab⟩ | ⟨a, b, hab⟩) <;> exact hdot (by simp [← hab])

theorem getHostname_cons (template : Text) (acceptDomain : Bool) (answer : Answer)
    (answers : List (Option Answer)) (st : Host) :
    getHostname template acceptDomain (some answer :: answers) st =
      match (st.question template acceptDomain).round template acceptDomain answer.1 with
      | (true, st) => some (0, st)
      | (false, st) => getHostname template acceptDomain answers st := (rfl)

/-- When a hostname has been taken that may have had a domain, what is stored is valid exactly if
in the part of the answer that was copied no hyphen stands next to a dot. The answer is the one
that was taken: after each of those before it the question is asked again. -/
theorem getHostname_valid_iff {template : Text} {answers : List (Option Answer)} {st st' : Host}
    (h : getHostname template true answers st = some (0, st')) :
    ∃ before answer after, answers = before ++ some answer :: after ∧
      getHostname template true before st = none ∧
      (Valid st' ↔ ¬ HyphenAtDot (answer.1.take maxHostNameLen)) := by
  induction answers generalizing st with
  | nil => nomatch h
  | cons answer answers ih =>
      cases answer with
      | none => nomatch (Prod.mk.inj (Option.some.inj h)).1
      | some answer =>
          generalize hround : (st.question template true).round template true answer.1 = result
          obtain ⟨valid, next⟩ := result
          rw [getHostname_cons, hround] at h
          cases valid with
          | false =>
              obtain ⟨before, last, after, rfl, hbefore, hiff⟩ := ih h
              refine ⟨some answer :: before, last, after, rfl, ?_, hiff⟩
              rw [getHostname_cons, hround]
              exact hbefore
          | true =>
              obtain ⟨-, rfl⟩ := Prod.mk.inj (Option.some.inj h)
              have hdomain : (st.question template true).haveDomain = false := Bool.and_false _
              exact ⟨[], answer, answers, rfl, rfl, round_valid_iff hdomain hround⟩

/-- The buffers as the program starts with them. -/
def zeroed : Buffer := ⟨List.replicate (maxHostNameLen + 1) nul, rfl, rfl⟩

def fresh : Host := ⟨zeroed, zeroed, false, []⟩

/-- An answer with a domain that is as it should be. -/
theorem getHostname_box : ∃ st', getHostname "netcfg/get_hostname" true
      [some ⟨"box.example.org", by decide⟩] fresh = some (0, st') ∧
    st'.hostname.text = "box" ∧ st'.domain.text = "example.org" ∧
    st'.haveDomain = true ∧ Valid st' := by
  refine ⟨_, rfl, by decide, by decide, by decide, ?_⟩
  obtain ⟨before, answer, after, heq, -, hiff⟩ := getHostname_valid_iff
    (show getHostname "netcfg/get_hostname" true
      [some ⟨"box.example.org", by decide⟩] fresh = _ from rfl)
  have hanswer : answer = ⟨"box.example.org", by decide⟩ := by
    rcases List.append_eq_cons_iff.1 heq.symm with ⟨rfl, h⟩ | ⟨_, rfl, h⟩
    · exact (Option.some.inj (List.cons.inj h).1)
    · simp at h
  exact hiff.2 (by rw [hanswer]; decide)

/-- And one with a hyphen behind a dot. -/
theorem getHostname_hyphen : ∃ st', getHostname "netcfg/get_hostname" true
      [some ⟨"a.-b", by decide⟩] fresh = some (0, st') ∧
    st'.hostname.text = "a" ∧ st'.domain.text = "-b" ∧
    st'.haveDomain = true ∧ ¬ Valid st' := by
  refine ⟨_, rfl, by decide, by decide, by decide, fun hvalid => ?_⟩
  exact (hvalid.domain (by decide) "-b" (by decide)).2.2.1 (by decide)

end DebianInstaller.Netcfg
