import DebianInstaller.Debconf.Frontend

/-!
# The lists of the frontend

As long as no question is put on a list while it is on one, both lists are what they
seem to be: they end, no question is on them twice, and the pointers back are those
forward. There is one exception, a question that is shown and the only one so far.

A `GO` that changes the frontend gives the heads of the lists to the new frontend and
has the old one take everything off them: the heads lose two references where they
had got one. This is survived by a question that something else holds.
-/

namespace DebianInstaller.Debconf

open Text Lib

variable {L L₁ L₂ : List Ref} {s : Asking}

variable {arg : Text} {b last q : Ref} {cs : List AskCommand} {head p : Option Ref} {l : Links Ref}
  {n : Nat}

/-- The questions that will be shown, and those that will not. -/
def Asking.shown (s : Asking) : List Ref := s.links.chain s.steps s.questions

def Asking.hidden (s : Asking) : List Ref := s.links.chain s.steps s.noninteractive

/-- What holds between two commands. -/
structure Lists (s : Asking) (L₁ L₂ : List Ref) : Prop where
  shown : s.links.Heads s.questions L₁
  hidden : s.links.Heads s.noninteractive L₂
  nodup : (L₁ ++ L₂).Nodup
  free : ∀ q, q ∉ L₁ ++ L₂ → s.links.prev q = none ∧ s.links.next q = none
  alive : ∀ n ∈ s.db.root.nodes, 1 ≤ s.refs n.2
  held : ∀ q ∈ L₁ ++ L₂, 2 ≤ s.refs q
  known : ∀ q ∈ L₁ ++ L₂, ∃ n ∈ s.db.root.nodes, n.2 = q
  bound : ∀ n ∈ s.db.root.nodes, n.2 < s.heap.fresh

/-- A question with a type. -/
def Asking.Typed (s : Asking) (q : Ref) : Prop :=
  (s.heap.cell q).template.bind Template.type ≠ none

/-- The commands that keep the lists in order: `INPUT` of a question that is on no list, or
that is shown and alone on its list; `GO` that does not change the frontend, or where
something else holds the first questions. -/
def Allowed (s : Asking) : AskCommand → Prop
  | .input arg =>
      ∀ priority tag q, strcmdsplit 3 arg = [priority, tag] → questionGet s.db tag = some q →
        q ∉ s.hidden ∧
          (q ∉ s.shown ∨ s.shown = [q] ∧ (s.interactive && s.isVisible q priority) = true)
  | .clear _ => True
  | .go arg o =>
      strcmdsplit 2 arg = [] →
        if s.wantsOther && o.opened.isSome then
          (∀ q, s.questions = some q ∨ s.noninteractive = some q → 3 ≤ s.refs q + o.added q) ∧
            ∀ q, s.noninteractive = some q → s.Typed q
        else ∀ q ∈ s.hidden, s.Typed q

/-- All commands of a run are such commands where they are handled. -/
def AllAllowed : Asking → List AskCommand → Prop
  | _, [] => True
  | s, c :: cs => Allowed s c ∧ ∀ out s', c.handle s = .ok (out, s') → AllAllowed s' cs

section Lists

variable {s : Asking} {L₁ L₂ : List Ref}

theorem Lists.lt (h : Lists s L₁ L₂) (hq : q ∈ L₁ ++ L₂) : q < s.heap.fresh := by
  obtain ⟨n, hn, rfl⟩ := h.known q hq
  exact h.bound n hn

theorem Lists.length_shown (h : Lists s L₁ L₂) : L₁.length < s.steps :=
  Nat.lt_succ_of_le (length_le_of_lt (List.nodup_append.mp h.nodup).1 fun _ hq =>
    h.lt (List.mem_append_left _ hq))

theorem Lists.length_hidden (h : Lists s L₁ L₂) : L₂.length < s.steps :=
  Nat.lt_succ_of_le (length_le_of_lt (List.nodup_append.mp h.nodup).2.1 fun _ hq =>
    h.lt (List.mem_append_right _ hq))

theorem Lists.shown_eq (h : Lists s L₁ L₂) : s.shown = L₁ := by
  unfold Asking.shown
  rw [h.shown.1]
  exact Links.chain_eq h.shown.2 (Nat.le_of_lt h.length_shown)

theorem Lists.hidden_eq (h : Lists s L₁ L₂) : s.hidden = L₂ := by
  unfold Asking.hidden
  rw [h.hidden.1]
  exact Links.chain_eq h.hidden.2 (Nat.le_of_lt h.length_hidden)

theorem Lists.get_eq (h : Lists s L₁ L₂) (tag : Text) : s.get tag = .ok (questionGet s.db tag) := by
  unfold Asking.get
  rw [if_neg]
  intro hany
  obtain ⟨n, hn, hz⟩ := List.any_eq_true.mp hany
  have := h.alive n hn
  have hz' : s.refs n.2 = 0 := by simpa using hz
  omega

end Lists

/-! ## Clearing -/

/-- The state after questions have been taken off. -/
def Asking.cleared (s : Asking) (qs : List Ref) : Asking :=
  { s with
    links := qs.foldl Links.detach s.links
    refs := fun q => if q ∈ qs then s.refs q - 1 else s.refs q }

theorem foldl_detach (l : Links Ref) (qs : List Ref) (q : Ref) :
    (qs.foldl Links.detach l).prev q = (if q ∈ qs then none else l.prev q) ∧
      (qs.foldl Links.detach l).next q = if q ∈ qs then none else l.next q := by
  induction qs generalizing l with
  | nil => simp
  | cons p qs ih =>
      obtain ⟨hp, hn⟩ := ih (l.detach p)
      rw [List.foldl_cons, hp, hn]
      by_cases hmem : q ∈ qs
      · simp [hmem]
      · by_cases hqp : q = p
        · subst hqp
          simp [Links.detach]
        · simp [hmem, hqp, Links.detach]

theorem clearList_eq {qs : List Ref} (hl : s.links.IsList p qs) (hnd : qs.Nodup)
    (hrefs : ∀ q ∈ qs, 1 ≤ s.refs q) (hn : qs.length < n) :
    clearList n qs.head? s = .ok (s.cleared qs) := by
  induction qs generalizing s p n with
  | nil =>
      obtain ⟨n, rfl⟩ := Nat.exists_eq_succ_of_ne_zero (Nat.ne_of_gt hn)
      rfl
  | cons q qs ih =>
      obtain ⟨n, rfl⟩ := Nat.exists_eq_succ_of_ne_zero (Nat.ne_of_gt (Nat.zero_lt_of_lt hn))
      obtain ⟨hq, hnd⟩ := List.nodup_cons.mp hnd
      have hpos : s.refs q ≠ 0 := by
        have := hrefs q List.mem_cons_self
        omega
      have hderef : Asking.deref { s with links := s.links.detach q } q =
          .ok { s with links := s.links.detach q
                       refs := Function.update s.refs q (s.refs q - 1) } := if_neg hpos
      rw [List.head?_cons, clearList, hderef, hl.2.1]
      show clearList n qs.head? _ = _
      rw [ih (hl.2.2.detach_of_not_mem hq) hnd (fun r hr => ?_) (Nat.lt_of_succ_lt_succ hn)]
      · congr 1
        unfold Asking.cleared
        congr 1
        funext r
        by_cases hrq : r = q
        · subst hrq
          simp [hq]
        · simp [hrq]
      · have hrq : r ≠ q := fun e => hq (e ▸ hr)
        show 1 ≤ Function.update s.refs q _ r
        rw [Function.update_of_ne hrq]
        exact hrefs r (List.mem_cons_of_mem _ hr)

theorem cleared_cleared (s : Asking) (hnd : (L₁ ++ L₂).Nodup) :
    (s.cleared L₁).cleared L₂ = s.cleared (L₁ ++ L₂) := by
  unfold Asking.cleared
  simp only [List.foldl_append]
  congr 1
  funext q
  by_cases h₂ : q ∈ L₂
  · have h₁ : q ∉ L₁ := fun h => (List.nodup_append.mp hnd).2.2 q h q h₂ rfl
    simp [h₁, h₂]
  · simp [h₂]

theorem frontendClear_eq (h₁ : s.links.Heads s.questions L₁)
    (h₂ : s.links.Heads s.noninteractive L₂) (hnd : (L₁ ++ L₂).Nodup)
    (hrefs : ∀ q ∈ L₁ ++ L₂, 1 ≤ s.refs q) (hl₁ : L₁.length < s.steps) (hl₂ : L₂.length < s.steps) :
    frontendClear s =
      .ok { s.cleared (L₁ ++ L₂) with questions := none, noninteractive := none } := by
  obtain ⟨hnd₁, hnd₂, hdis⟩ := List.nodup_append.mp hnd
  have hfirst : clearList s.steps s.questions s = .ok (s.cleared L₁) := by
    rw [h₁.1]
    exact clearList_eq h₁.2 hnd₁ (fun q hq => hrefs q (List.mem_append_left _ hq)) hl₁
  have hsecond : clearList s.steps s.noninteractive { s.cleared L₁ with questions := none } =
      .ok (Asking.cleared { s.cleared L₁ with questions := none } L₂) := by
    rw [h₂.1]
    refine clearList_eq (h₂.2.congr fun q hq => ?_) hnd₂ (fun q hq => ?_) hl₂
    · have hq₁ : q ∉ L₁ := fun h => hdis q h q hq rfl
      obtain ⟨hp, hn⟩ := foldl_detach s.links L₁ q
      exact ⟨hp.trans (if_neg hq₁), hn.trans (if_neg hq₁)⟩
    · have hq₁ : q ∉ L₁ := fun h => hdis q h q hq rfl
      show 1 ≤ if q ∈ L₁ then s.refs q - 1 else s.refs q
      rw [if_neg hq₁]
      exact hrefs q (List.mem_append_right _ hq)
  unfold frontendClear
  rw [hfirst]
  show (clearList s.steps s.noninteractive { s.cleared L₁ with questions := none } >>= _) = _
  rw [hsecond, ← cleared_cleared s hnd]
  rfl

/-! ## Adding -/

section Add

variable {s : Asking} {L₁ L₂ : List Ref} {q : Ref}

theorem Lists.put_shown (h : Lists s L₁ L₂) (hq : q ∉ L₁ ++ L₂)
    (hdb : ∃ n ∈ s.db.root.nodes, n.2 = q) (hl : l.Heads head (L₁ ++ [q]))
    (hothers : ∀ r, r ∉ L₁ ++ [q] → l.prev r = s.links.prev r ∧ l.next r = s.links.next r)
    (backedUp : Bool) :
    Lists { s with links := l, questions := head, backedUp := backedUp
                   refs := Function.update s.refs q (s.refs q + 1) } (L₁ ++ [q]) L₂ := by
  obtain ⟨hnd₁, hnd₂, hdis⟩ := List.nodup_append.mp h.nodup
  have hq₁ : q ∉ L₁ := fun hm => hq (List.mem_append_left _ hm)
  have hq₂ : q ∉ L₂ := fun hm => hq (List.mem_append_right _ hm)
  have hmem : ∀ r, r ∈ L₁ ++ [q] ++ L₂ ↔ r = q ∨ r ∈ L₁ ++ L₂ := by
    intro r
    simp only [List.mem_append, List.mem_singleton]
    tauto
  have hrefs : ∀ r, s.refs r ≤ Function.update s.refs q (s.refs q + 1) r := by
    intro r
    by_cases hr : r = q
    · rw [hr, Function.update_self]
      exact Nat.le_succ _
    · rw [Function.update_of_ne hr]
  refine ⟨hl, ⟨h.hidden.1, h.hidden.2.congr fun r hr => hothers r ?_⟩, ?_, fun r hr => ?_,
    fun n hn => (h.alive n hn).trans (hrefs _), fun r hr => ?_, fun r hr => ?_, h.bound⟩
  · rw [List.mem_append, List.mem_singleton, not_or]
    exact ⟨fun hm => hdis r hm r hr rfl, fun e => hq₂ (e ▸ hr)⟩
  · rw [List.append_assoc]
    exact (List.nodup_middle).mpr (List.nodup_cons.mpr ⟨hq, h.nodup⟩)
  · rw [hmem, not_or] at hr
    have hr' : r ∉ L₁ ++ [q] := by
      rw [List.mem_append, List.mem_singleton, not_or]
      exact ⟨fun hm => hr.2 (List.mem_append_left _ hm), hr.1⟩
    obtain ⟨hp, hn⟩ := hothers r hr'
    exact ⟨hp.trans (h.free r hr.2).1, hn.trans (h.free r hr.2).2⟩
  · rcases (hmem r).mp hr with rfl | hr
    · obtain ⟨n, hn, rfl⟩ := hdb
      have := h.alive n hn
      show 2 ≤ Function.update s.refs n.2 _ n.2
      rw [Function.update_self]
      omega
    · exact (h.held r hr).trans (hrefs r)
  · rcases (hmem r).mp hr with rfl | hr
    · exact hdb
    · exact h.known r hr

theorem Lists.swap (h : Lists s L₁ L₂) :
    Lists { s with questions := s.noninteractive, noninteractive := s.questions } L₂ L₁ := by
  have hmem : ∀ r, r ∈ L₂ ++ L₁ ↔ r ∈ L₁ ++ L₂ := fun r => by
    rw [List.mem_append, List.mem_append, or_comm]
  exact
    { shown := h.hidden
      hidden := h.shown
      nodup := List.nodup_append_comm.mp h.nodup
      free := fun r hr => h.free r fun hm => hr ((hmem r).mpr hm)
      alive := h.alive
      held := fun r hr => h.held r ((hmem r).mp hr)
      known := fun r hr => h.known r ((hmem r).mp hr)
      bound := h.bound }

theorem deref_ref_ref (s : Asking) (q : Ref) :
    ((s.ref q).ref q).deref q =
      .ok { s with refs := Function.update s.refs q (s.refs q + 1) } := by
  simp [Asking.ref, Asking.deref]

theorem deref_ref (s : Asking) (q : Ref) : (s.ref q).deref q = .ok s := by
  simp [Asking.ref, Asking.deref]

theorem Lists.unlinked_eq (h : Lists s L₁ L₂) (hq : q ∉ L₁ ++ L₂) : s.unlinked q = true := by
  obtain ⟨hp, hn⟩ := h.free q hq
  simp [Asking.unlinked, hp, hn]

theorem frontendAdd_walk (hun : s.unlinked q = true) (hhead : s.questions = some b)
    (hwalk : s.links.walk q s.steps b = some last) :
    frontendAdd s q =
      if last = q then .ok s else .ok ({ s with links := s.links.append last q }.ref q) := by
  simp only [frontendAdd, hun, Bool.not_true, Bool.false_eq_true, if_false]
  split
  · next h => cases hhead.symm.trans h
  · next b' h =>
      obtain rfl : b = b' := Option.some.inj (hhead.symm.trans h)
      rw [hwalk]

theorem frontendAddNoninteractive_walk (hun : s.unlinked q = true)
    (hhead : s.noninteractive = some b) (hwalk : s.links.walk q s.steps b = some last) :
    frontendAddNoninteractive s q =
      .ok ({ s with links := s.links.append last q }.ref q) := by
  simp only [frontendAddNoninteractive, hun, Bool.not_true, Bool.false_eq_true, if_false]
  split
  · next h => cases hhead.symm.trans h
  · next b' h =>
      obtain rfl : b = b' := Option.some.inj (hhead.symm.trans h)
      rw [hwalk]

theorem Lists.add (h : Lists s L₁ L₂) (hq : q ∉ L₁ ++ L₂) (hdb : ∃ n ∈ s.db.root.nodes, n.2 = q) :
    ∃ t s', frontendAdd (s.ref q) q = .ok t ∧ t.deref q = .ok s' ∧
      Lists { s' with backedUp := false } (L₁ ++ [q]) L₂ := by
  have hq₁ : q ∉ L₁ := fun hm => hq (List.mem_append_left _ hm)
  obtain ⟨hp, hn⟩ := h.free q hq
  have hun : (s.ref q).unlinked q = true := h.unlinked_eq hq
  rcases h.shown.put (List.nodup_append.mp h.nodup).1 hq₁ hp hn h.length_shown with
    ⟨hhead, hlist⟩ | ⟨b, last, hhead, hwalk, hlast, hlist⟩
  · have hadd : frontendAdd (s.ref q) q = .ok (({ s with questions := some q }.ref q).ref q) := by
      have hhead' : (s.ref q).questions = none := hhead
      unfold frontendAdd
      rw [hun, hhead']
      rfl
    refine ⟨_, _, hadd, deref_ref_ref _ q, ?_⟩
    exact h.put_shown hq hdb hlist (fun _ _ => ⟨rfl, rfl⟩) false
  · have hadd : frontendAdd (s.ref q) q =
        .ok (({ s with links := s.links.append last q }.ref q).ref q) :=
      (frontendAdd_walk hun hhead hwalk).trans (if_neg fun e : last = q => hq₁ (e ▸ hlast))
    refine ⟨_, _, hadd, deref_ref_ref _ q, ?_⟩
    refine h.put_shown hq hdb (by rw [hhead]; exact hlist) (fun r hr => ?_) false
    rw [List.mem_append, List.mem_singleton, not_or] at hr
    exact Links.append_of_ne (fun e => hr.1 (e ▸ hlast)) hr.2

theorem Lists.addNoninteractive (h : Lists s L₁ L₂) (hq : q ∉ L₁ ++ L₂)
    (hdb : ∃ n ∈ s.db.root.nodes, n.2 = q) :
    ∃ t s', frontendAddNoninteractive (s.ref q) q = .ok t ∧ t.deref q = .ok s' ∧
      Lists s' L₁ (L₂ ++ [q]) := by
  have hq₂ : q ∉ L₂ := fun hm => hq (List.mem_append_right _ hm)
  have hq' : q ∉ L₂ ++ L₁ := fun hm =>
    hq (List.mem_append.mpr ((List.mem_append.mp hm).symm))
  obtain ⟨hp, hn⟩ := h.free q hq
  have hun : (s.ref q).unlinked q = true := h.unlinked_eq hq
  rcases h.hidden.put (List.nodup_append.mp h.nodup).2.1 hq₂ hp hn h.length_hidden with
    ⟨hhead, hlist⟩ | ⟨b, last, hhead, hwalk, hlast, hlist⟩
  · have hadd : frontendAddNoninteractive (s.ref q) q =
        .ok (({ s with noninteractive := some q }.ref q).ref q) := by
      have hhead' : (s.ref q).noninteractive = none := hhead
      unfold frontendAddNoninteractive
      rw [hun, hhead']
      rfl
    refine ⟨_, _, hadd, deref_ref_ref _ q, ?_⟩
    exact (h.swap.put_shown hq' hdb hlist (fun _ _ => ⟨rfl, rfl⟩) s.backedUp).swap
  · have hadd : frontendAddNoninteractive (s.ref q) q =
        .ok (({ s with links := s.links.append last q }.ref q).ref q) :=
      frontendAddNoninteractive_walk hun hhead hwalk
    refine ⟨_, _, hadd, deref_ref_ref _ q, ?_⟩
    refine (h.swap.put_shown hq' hdb (by rw [hhead]; exact hlist) (fun r hr => ?_)
      s.backedUp).swap
    rw [List.mem_append, List.mem_singleton, not_or] at hr
    exact Links.append_of_ne (fun e => hr.1 (e ▸ hlast)) hr.2

theorem Lists.add_again (h : Lists s [q] L₂) :
    frontendAdd (s.ref q) q = .ok (s.ref q) := by
  have hun : (s.ref q).unlinked q = true := by
    have hp : s.links.prev q = none := h.shown.2.1
    have hn : s.links.next q = none := h.shown.2.2.1
    show (s.links.prev q == none && s.links.next q == none) = true
    rw [hp, hn]
    rfl
  have hhead : (s.ref q).questions = some q := h.shown.1
  have hwalk : (s.ref q).links.walk q (s.ref q).steps q = some q := if_pos rfl
  exact (frontendAdd_walk hun hhead hwalk).trans (if_pos rfl)

end Add

/-! ## Commands -/

/-- The commands that empty the lists. -/
def AskCommand.Empties : AskCommand → Prop
  | .input _ => False
  | .clear arg => strcmdsplit 3 arg = []
  | .go arg _ => strcmdsplit 2 arg = []

section Commands

variable {s : Asking} {L₁ L₂ : List Ref}

theorem Lists.backedUp (h : Lists s L₁ L₂) (b : Bool) :
    Lists { s with backedUp := b } L₁ L₂ :=
  ⟨h.shown, h.hidden, h.nodup, h.free, h.alive, h.held, h.known, h.bound⟩

theorem commandInput_lists (h : Lists s L₁ L₂) (ha : Allowed s (.input arg)) :
    ∃ out s' L₁' L₂', commandInput s arg = .ok (out, s') ∧ Lists s' L₁' L₂' := by
  unfold commandInput
  split
  · next priority tag hsplit =>
      rw [h.get_eq]
      cases hget : questionGet s.db tag with
      | none => exact ⟨_, s, L₁, L₂, rfl, h⟩
      | some q =>
          have hdb : ∃ n ∈ s.db.root.nodes, n.2 = q :=
            ⟨(tag, q), Tree.tfind_eq_some.mp hget, rfl⟩
          obtain ⟨hhidden, hshown⟩ := ha priority tag q hsplit hget
          rw [h.hidden_eq] at hhidden
          rw [h.shown_eq] at hshown
          have hboth : q ∉ L₁ → q ∉ L₁ ++ L₂ := fun hq₁ hm =>
            (List.mem_append.mp hm).elim hq₁ hhidden
          have hvisible : ((s.ref q).interactive && (s.ref q).isVisible q priority) =
            (s.interactive && s.isVisible q priority) := rfl
          show ∃ out s' L₁' L₂', (if ((s.ref q).interactive && (s.ref q).isVisible q priority) =
            true then _ else _) = _ ∧ _
          rw [hvisible]
          split
          · next hv =>
              rcases hshown with hq₁ | ⟨hsole, -⟩
              · obtain ⟨t, s', hadd, hderef, hlists⟩ := h.add (hboth hq₁) hdb
                rw [hadd]
                show ∃ out s' L₁' L₂', (t.deref q >>= _) = _ ∧ _
                rw [hderef]
                exact ⟨_, _, _, _, rfl, hlists⟩
              · subst hsole
                rw [h.add_again]
                show ∃ out s' L₁' L₂', ((s.ref q).deref q >>= _) = _ ∧ _
                rw [deref_ref]
                exact ⟨_, _, [q], L₂, rfl, h.backedUp false⟩
          · next hv =>
              rcases hshown with hq₁ | ⟨-, hvis⟩
              · obtain ⟨t, s', hadd, hderef, hlists⟩ := h.addNoninteractive (hboth hq₁) hdb
                rw [hadd]
                show ∃ out s' L₁' L₂', (t.deref q >>= _) = _ ∧ _
                rw [hderef]
                exact ⟨_, _, _, _, rfl, hlists⟩
              · exact absurd hvis hv
  · exact ⟨_, s, L₁, L₂, rfl, h⟩

theorem cleared_refs (q : Ref) :
    (s.cleared (L₁ ++ L₂)).refs q = if q ∈ L₁ ++ L₂ then s.refs q - 1 else s.refs q := rfl

theorem cleared_lists (hfree : ∀ q, q ∉ L₁ ++ L₂ → s.links.prev q = none ∧ s.links.next q = none)
    (halive : ∀ n ∈ s.db.root.nodes, 1 ≤ (s.cleared (L₁ ++ L₂)).refs n.2)
    (hbound : ∀ n ∈ s.db.root.nodes, n.2 < s.heap.fresh) :
    Lists { s.cleared (L₁ ++ L₂) with questions := none, noninteractive := none } [] [] := by
  refine ⟨⟨rfl, trivial⟩, ⟨rfl, trivial⟩, List.nodup_nil, fun q _ => ?_, halive, by simp,
    by simp, hbound⟩
  obtain ⟨hp, hn⟩ := foldl_detach s.links (L₁ ++ L₂) q
  by_cases hq : q ∈ L₁ ++ L₂
  · exact ⟨hp.trans (if_pos hq), hn.trans (if_pos hq)⟩
  · exact ⟨(hp.trans (if_neg hq)).trans (hfree q hq).1, (hn.trans (if_neg hq)).trans (hfree q hq).2⟩

theorem commandClear_lists (h : Lists s L₁ L₂) (arg : Text) :
    ∃ out s' L₁' L₂', commandClear s arg = .ok (out, s') ∧ Lists s' L₁' L₂' ∧
      (strcmdsplit 3 arg = [] → L₁' = [] ∧ L₂' = []) := by
  unfold commandClear
  split
  · have hclear := frontendClear_eq h.shown h.hidden h.nodup
      (fun q hq => Nat.le_of_succ_le (h.held q hq)) h.length_shown h.length_hidden
    rw [hclear]
    refine ⟨_, _, [], [], rfl, cleared_lists h.free (fun n hn => ?_) h.bound,
      fun _ => ⟨rfl, rfl⟩⟩
    rw [cleared_refs]
    split
    · next hm =>
        have := h.held n.2 hm
        omega
    · exact h.alive n hn
  · next hne => exact ⟨_, s, L₁, L₂, rfl, h, fun he => absurd he hne⟩

end Commands

/-! ## `GO` -/

theorem selectFirst_template {env : Env} {c c' : Question} (h : selectFirst env c = some c') :
    c'.template = c.template := by
  unfold selectFirst at h
  dsimp only at h
  split at h
  · cases h
  · split at h
    · rw [Option.some.inj h]
    · rw [← Option.some.inj h]
      rfl

theorem goNoninteractive_eq (hl : s.links.IsList p L) (htyped : ∀ q ∈ L, s.Typed q)
    (hn : L.length < n) :
    ∃ cell, goNoninteractive n L.head? s = .ok { s with heap := { s.heap with cell := cell } } := by
  induction L generalizing s p n with
  | nil =>
      obtain ⟨n, rfl⟩ := Nat.exists_eq_succ_of_ne_zero (Nat.ne_of_gt hn)
      exact ⟨s.heap.cell, rfl⟩
  | cons q L ih =>
      obtain ⟨n, rfl⟩ := Nat.exists_eq_succ_of_ne_zero (Nat.ne_of_gt (Nat.zero_lt_of_lt hn))
      obtain ⟨type, htype⟩ := Option.ne_none_iff_exists'.mp (htyped q List.mem_cons_self)
      have hrest : ∀ r ∈ L, s.Typed r := fun r hr => htyped r (List.mem_cons_of_mem _ hr)
      rw [List.head?_cons, goNoninteractive, htype, hl.2.1]
      dsimp only
      split
      · cases hsel : selectFirst s.env (s.heap.cell q) with
        | none => exact ⟨s.heap.cell, rfl⟩
        | some c =>
            refine ih (s := { s with heap := s.heap.modify q fun _ => c }) hl.2.2
              (fun r hr => ?_) (Nat.lt_of_succ_lt_succ hn)
            show ((s.heap.modify q fun _ => c).cell r).template.bind Template.type ≠ none
            by_cases hrq : r = q
            · rw [hrq, modify_cell_self, selectFirst_template hsel, ← hrq]
              exact hrest r hr
            · rw [modify_cell_of_ne _ hrq]
              exact hrest r hr
      · exact ih hl.2.2 hrest (Nat.lt_of_succ_lt_succ hn)

theorem updateSeen_eq (h : s.links.Heads s.questions L) (hn : L.length < s.steps) (add : Bool) :
    ∃ seen, updateSeen s add = .ok { s with seenQuestions := seen } := by
  have htags : s.tagsOf s.questions = .ok (L.map fun q => (s.heap.cell q).tag) := by
    unfold Asking.tagsOf
    rw [h.1, Links.chain_eq h.2 (Nat.le_of_lt hn)]
    exact if_neg (Nat.ne_of_lt hn)
  unfold updateSeen
  split
  · exact ⟨s.seenQuestions, rfl⟩
  · rw [htags]
    exact ⟨_, rfl⟩

/-- What `GO` finds when the frontend is there: the lists may have lost their tails. -/
structure GoReady (s : Asking) (o : GoOutcome) (L₁ L₂ : List Ref) : Prop where
  shown : s.links.Heads s.questions L₁
  hidden : s.links.Heads s.noninteractive L₂
  nodup : (L₁ ++ L₂).Nodup
  free : ∀ q, q ∉ L₁ ++ L₂ → s.links.prev q = none ∧ s.links.next q = none
  short : L₁.length < s.steps ∧ L₂.length < s.steps
  held : ∀ q ∈ L₁ ++ L₂, 2 ≤ s.refs q + o.added q
  alive : ∀ n ∈ s.db.root.nodes, 1 ≤ s.refs n.2
  bound : ∀ n ∈ s.db.root.nodes, n.2 < s.heap.fresh
  typed : ∀ q ∈ L₂, s.Typed q

theorem goOn_lists {o : GoOutcome} (h : GoReady s o L₁ L₂) :
    ∃ out s', goOn s o = .ok (out, s') ∧ Lists s' [] [] := by
  obtain ⟨cell, hgo⟩ := goNoninteractive_eq h.hidden.2 h.typed h.short.2
  rw [← h.hidden.1] at hgo
  obtain ⟨seen, hseen⟩ := updateSeen_eq
    (s := Asking.asked { s with heap := { s.heap with cell := cell } } o) h.shown h.short.1
    (!(Asking.asked { s with heap := { s.heap with cell := cell } } o).backedUp && o.ret ≠ 0)
  have hclear := frontendClear_eq
    (s := { Asking.asked { s with heap := { s.heap with cell := cell } } o with
      seenQuestions := seen })
    h.shown h.hidden h.nodup (fun q hq => Nat.le_of_succ_le (h.held q hq)) h.short.1 h.short.2
  unfold goOn
  rw [hgo]
  show ∃ out s', (updateSeen _ _ >>= _) = .ok (out, s') ∧ Lists s' [] []
  rw [hseen]
  show ∃ out s', (frontendClear _ >>= _) = .ok (out, s') ∧ Lists s' [] []
  rw [hclear]
  refine ⟨_, _, rfl, cleared_lists h.free (fun n hn => ?_) h.bound⟩
  rw [cleared_refs]
  show 1 ≤ if n.2 ∈ L₁ ++ L₂ then s.refs n.2 + o.added n.2 - 1 else s.refs n.2 + o.added n.2
  split
  · next hm =>
      have := h.held n.2 hm
      omega
  · have := h.alive n hn
    omega

section Go

variable {s : Asking} {L₁ L₂ : List Ref} {o : GoOutcome}

theorem Lists.ready (h : Lists s L₁ L₂) (htyped : ∀ q ∈ s.hidden, s.Typed q) :
    GoReady s o L₁ L₂ where
  shown := h.shown
  hidden := h.hidden
  nodup := h.nodup
  free := h.free
  short := ⟨h.length_shown, h.length_hidden⟩
  held := fun q hq => (h.held q hq).trans (Nat.le_add_right _ _)
  alive := h.alive
  bound := h.bound
  typed := fun q hq => htyped q (h.hidden_eq.symm ▸ hq)

theorem heads_take (hhead : head = L.head?) (hl : ∀ q ∈ L, l.prev q = none ∧ l.next q = none) :
    l.Heads head (L.take 1) := by
  cases L with
  | nil => exact ⟨hhead, trivial⟩
  | cons q L =>
      obtain ⟨hp, hn⟩ := hl q List.mem_cons_self
      exact ⟨hhead, Links.isList_singleton hp hn⟩

theorem mem_take_one (h : q ∈ L.take 1) : L.head? = some q := by
  cases L with
  | nil => cases h
  | cons p L => rw [List.head?_cons, List.mem_singleton.mp h]

theorem Lists.ready_cleared (h : Lists s L₁ L₂)
    (hrefs : ∀ q, s.questions = some q ∨ s.noninteractive = some q → 3 ≤ s.refs q + o.added q)
    (htyped : ∀ q, s.noninteractive = some q → s.Typed q) (name : Text) (interactive : Bool) :
    GoReady { s.cleared (L₁ ++ L₂) with
      questions := s.questions, noninteractive := s.noninteractive
      name := name, interactive := interactive } o (L₁.take 1) (L₂.take 1) := by
  have hlinks : ∀ q, (s.cleared (L₁ ++ L₂)).links.prev q = none ∧
      (s.cleared (L₁ ++ L₂)).links.next q = none := by
    intro q
    obtain ⟨hp, hn⟩ := foldl_detach s.links (L₁ ++ L₂) q
    by_cases hq : q ∈ L₁ ++ L₂
    · exact ⟨hp.trans (if_pos hq), hn.trans (if_pos hq)⟩
    · exact ⟨(hp.trans (if_neg hq)).trans (h.free q hq).1,
        (hn.trans (if_neg hq)).trans (h.free q hq).2⟩
  have hhead : ∀ q ∈ L₁.take 1 ++ L₂.take 1,
      q ∈ L₁ ++ L₂ ∧ (s.questions = some q ∨ s.noninteractive = some q) := by
    intro q hq
    rcases List.mem_append.mp hq with hq | hq
    · exact ⟨List.mem_append_left _ (List.mem_of_mem_take hq),
        .inl (h.shown.1.trans (mem_take_one hq))⟩
    · exact ⟨List.mem_append_right _ (List.mem_of_mem_take hq),
        .inr (h.hidden.1.trans (mem_take_one hq))⟩
  refine ⟨heads_take h.shown.1 fun q _ => hlinks q, heads_take h.hidden.1 fun q _ => hlinks q, ?_,
    fun q _ => hlinks q, ⟨?_, ?_⟩, fun q hq => ?_, fun n hn => ?_, h.bound, fun q hq => ?_⟩
  · exact h.nodup.sublist ((List.take_sublist 1 L₁).append (List.take_sublist 1 L₂))
  · exact (List.length_take_le' 1 L₁).trans_lt h.length_shown
  · exact (List.length_take_le' 1 L₂).trans_lt h.length_hidden
  · obtain ⟨hmem, heads⟩ := hhead q hq
    have h₂ := h.held q hmem
    have h₃ := hrefs q heads
    show 2 ≤ (if q ∈ L₁ ++ L₂ then s.refs q - 1 else s.refs q) + o.added q
    rw [if_pos hmem]
    omega
  · show 1 ≤ if n.2 ∈ L₁ ++ L₂ then s.refs n.2 - 1 else s.refs n.2
    split
    · next hm =>
        have := h.held n.2 hm
        omega
    · exact h.alive n hn
  · exact htyped q (h.hidden.1.trans (mem_take_one hq))

theorem commandGo_lists (h : Lists s L₁ L₂) (ha : Allowed s (.go arg o)) :
    ∃ out s' L₁' L₂', commandGo s arg o = .ok (out, s') ∧ Lists s' L₁' L₂' ∧
      (strcmdsplit 2 arg = [] → L₁' = [] ∧ L₂' = []) := by
  unfold commandGo
  split
  · next harg =>
      have hready : ∃ s₁ M₁ M₂, switchFrontend s o = .ok s₁ ∧ GoReady s₁ o M₁ M₂ := by
        have hallowed := ha harg
        unfold switchFrontend
        split
        · next name interactive hwants hopened =>
            rw [hwants, hopened] at hallowed
            have hclear := frontendClear_eq h.shown h.hidden h.nodup
              (fun q hq => Nat.le_of_succ_le (h.held q hq)) h.length_shown h.length_hidden
            rw [hclear]
            exact ⟨_, _, _, rfl, h.ready_cleared hallowed.1 hallowed.2 name interactive⟩
        · next hnot =>
            rw [if_neg] at hallowed
            · exact ⟨s, L₁, L₂, rfl, h.ready hallowed⟩
            · intro hboth
              obtain ⟨hwants, hsome⟩ := Bool.and_eq_true_iff.mp hboth
              obtain ⟨⟨name, interactive⟩, hopened⟩ := Option.isSome_iff_exists.mp hsome
              exact hnot name interactive hwants hopened
      obtain ⟨s₁, M₁, M₂, hswitch, hgo⟩ := hready
      obtain ⟨out, s', hgoOn, hlists⟩ := goOn_lists hgo
      rw [hswitch]
      exact ⟨out, s', [], [], hgoOn, hlists, fun _ => ⟨rfl, rfl⟩⟩
  · next hne => exact ⟨_, s, L₁, L₂, rfl, h, fun he => absurd he hne⟩

end Go

/-! ## Runs -/

theorem handle_lists (h : Lists s L₁ L₂) {c : AskCommand} (ha : Allowed s c) :
    ∃ out s' L₁' L₂', c.handle s = .ok (out, s') ∧ Lists s' L₁' L₂' ∧
      (c.Empties → L₁' = [] ∧ L₂' = []) := by
  cases c with
  | input arg =>
      obtain ⟨out, s', L₁', L₂', hc, hl⟩ := commandInput_lists h ha
      exact ⟨out, s', L₁', L₂', hc, hl, fun he => he.elim⟩
  | clear arg => exact commandClear_lists h arg
  | go arg o => exact commandGo_lists h ha

theorem ask_lists (h : Lists s L₁ L₂) (ha : AllAllowed s cs) :
    ∃ s' L₁' L₂', ask s cs = .ok s' ∧ Lists s' L₁' L₂' ∧
      ∀ c, cs.getLast? = some c → c.Empties → L₁' = [] ∧ L₂' = [] := by
  induction cs generalizing s L₁ L₂ with
  | nil => exact ⟨s, L₁, L₂, rfl, h, fun c hc => by cases hc⟩
  | cons c cs ih =>
      obtain ⟨out, s₁, M₁, M₂, hc, hm, hempty⟩ := handle_lists h ha.1
      obtain ⟨s', L₁', L₂', hcs, hl, hlast⟩ := ih hm (ha.2 out s₁ hc)
      have hask : ask s (c :: cs) = .ok s' := by
        rw [ask, hc]
        exact hcs
      refine ⟨s', L₁', L₂', hask, hl, fun d hd he => ?_⟩
      cases cs with
      | nil =>
          obtain rfl : c = d := by simpa using hd
          obtain ⟨rfl, rfl⟩ := hempty he
          obtain rfl : s₁ = s' := by simpa [ask] using hcs
          have h₁ := hl.shown_eq.symm.trans hm.shown_eq
          have h₂ := hl.hidden_eq.symm.trans hm.hidden_eq
          exact ⟨h₁, h₂⟩
      | cons c' cs => exact hlast d (by simpa using hd) he

theorem AllAllowed.of_prefix {pre : List AskCommand} (ha : AllAllowed s cs) (hpre : pre <+: cs) :
    AllAllowed s pre := by
  induction pre generalizing s cs with
  | nil => trivial
  | cons c pre ih =>
      obtain ⟨rest, rfl⟩ := hpre
      exact ⟨ha.1, fun out s' hc => ih (ha.2 out s' hc) (List.prefix_append pre rest)⟩

/-- A frontend on whose lists nothing is yet: the database holds every question, and no
question is linked to another. -/
structure Asking.Started (s : Asking) : Prop where
  questions : s.questions = none
  noninteractive : s.noninteractive = none
  links : ∀ q, s.links.prev q = none ∧ s.links.next q = none
  alive : ∀ n ∈ s.db.root.nodes, 1 ≤ s.refs n.2
  bound : ∀ n ∈ s.db.root.nodes, n.2 < s.heap.fresh

/-- The lists end, have no question twice and none in common, and lead back as they lead
forward. -/
def Asking.InOrder (s : Asking) : Prop :=
  ∃ L₁ L₂, s.links.Heads s.questions L₁ ∧ s.links.Heads s.noninteractive L₂ ∧ (L₁ ++ L₂).Nodup

/-- After every command of a run of such commands the lists are in order, and they are
empty after `GO` and `CLEAR`. -/
theorem lists_in_order (s : Asking) (hs : s.Started) (cs : List AskCommand)
    (ha : AllAllowed s cs) (pre : List AskCommand) (hpre : pre <+: cs) :
    ∃ s', ask s pre = .ok s' ∧ s'.InOrder ∧
      ∀ c, pre.getLast? = some c → c.Empties →
        s'.questions = none ∧ s'.noninteractive = none := by
  have hstart : Lists s [] [] :=
    ⟨⟨hs.questions, trivial⟩, ⟨hs.noninteractive, trivial⟩, List.nodup_nil,
      fun q _ => hs.links q, hs.alive, by simp, by simp, hs.bound⟩
  obtain ⟨s', L₁, L₂, hask, hl, hempty⟩ := ask_lists hstart (ha.of_prefix hpre)
  refine ⟨s', hask, ⟨L₁, L₂, hl.shown, hl.hidden, hl.nodup⟩, fun c hc he => ?_⟩
  obtain ⟨rfl, rfl⟩ := hempty c hc he
  exact ⟨hl.shown.1, hl.hidden.1⟩

/-- Two questions that are not seen yet. -/
def twoQuestions : Asking where
  heap :=
    { cell := fun q =>
        { tag := if q = 0 then "d-i/a" else "d-i/b"
          template := some { tag := "d-i/t", type := some "select".toList }
          vars_nodup := noVars_nodup, owners_nodup := noOwners_nodup }
      fresh := 2 }
  db := { root := (Tree.tsearch ∅ "d-i/a".toList 0).tsearch "d-i/b".toList 1 }
  refs := fun _ => 1
  name := "text"
  interactive := true
  env := {}

theorem twoQuestions_started : twoQuestions.Started where
  questions := rfl
  noninteractive := rfl
  links := fun _ => ⟨rfl, rfl⟩
  alive := by decide
  bound := by decide

/-- The frontend leaves the questions alone and returns 1. -/
def asksNothing : GoOutcome where
  opened := none
  ret := 1
  cell := twoQuestions.heap.cell
  added := fun _ => 0
  env := {}

/-- A question that is shown, and one that is not. -/
theorem lists_in_order_both :
    ∃ s', ask twoQuestions [.input "high d-i/a", .input "low d-i/b", .go [] asksNothing] = .ok s' ∧
      s'.InOrder ∧ s'.questions = none ∧ s'.noninteractive = none := by
  have hfirst : (match (AskCommand.input "high d-i/a".toList).handle twoQuestions with
      | .ok r => some (r.2.hidden, r.2.shown, questionGet r.2.db "d-i/b")
      | .error _ => none) = some ([], [0], some 1) := by decide +kernel
  have hsecond : (match ask twoQuestions [.input "high d-i/a", .input "low d-i/b"] with
      | .ok s => some (s.wantsOther, s.hidden.all fun q =>
          ((s.heap.cell q).template.bind Template.type).isSome)
      | .error _ => none) = some (false, true) := by decide +kernel
  have hallowed :
      AllAllowed twoQuestions [.input "high d-i/a", .input "low d-i/b", .go [] asksNothing] := by
    refine ⟨fun _ _ _ _ _ => ⟨List.not_mem_nil, .inl List.not_mem_nil⟩, fun out s₁ h₁ =>
      ⟨fun priority tag q hsplit hq => ?_, fun out s₂ h₂ => ⟨fun _ => ?_, fun _ _ _ => trivial⟩⟩⟩
    · rw [h₁] at hfirst
      obtain ⟨hhidden, hshown, hget⟩ : s₁.hidden = [] ∧ s₁.shown = [0] ∧
          questionGet s₁.db "d-i/b" = some 1 := by simpa using hfirst
      obtain ⟨-, rfl⟩ : "low".toList = priority ∧ "d-i/b".toList = tag := by
        rw [show strcmdsplit 3 "low d-i/b" = ["low", "d-i/b"] by decide] at hsplit
        simpa using hsplit
      obtain rfl := Option.some.inj (hget.symm.trans hq)
      rw [hhidden, hshown]
      exact ⟨by decide, .inl (by decide)⟩
    · have hask : ask twoQuestions [.input "high d-i/a", .input "low d-i/b"] = .ok s₂ := by
        rw [ask, h₁]
        change ((AskCommand.input _).handle s₁ >>= fun r => ask r.2 []) = .ok s₂
        rw [h₂]
        rfl
      rw [hask] at hsecond
      obtain ⟨hwants, htyped⟩ : s₂.wantsOther = false ∧ _ := by simpa using hsecond
      rw [hwants]
      intro q hq
      exact Option.isSome_iff_ne_none.mp (htyped q hq)
  obtain ⟨s', hask, horder, hempty⟩ :=
    lists_in_order twoQuestions twoQuestions_started _ hallowed _ (List.prefix_refl _)
  exact ⟨s', hask, horder, hempty (.go [] asksNothing) rfl rfl⟩

/-- The second question that is shown is asked for twice. -/
theorem lists_assertion :
    twoQuestions.Started ∧
      ask twoQuestions [.input "high d-i/a", .input "high d-i/b",
        .input "high d-i/b"] = .error .assertion := by
  refine ⟨twoQuestions_started, ?_⟩
  have hstop : (match ask twoQuestions [.input "high d-i/a", .input "high d-i/b",
      .input "high d-i/b".toList] with
      | .ok _ => none
      | .error e => some e) = some .assertion := by decide +kernel
  cases h : ask twoQuestions [.input "high d-i/a", .input "high d-i/b",
      .input "high d-i/b"] with
  | ok s' =>
      rw [h] at hstop
      cases hstop
  | error e =>
      rw [h] at hstop
      rw [Option.some.inj hstop]

end DebianInstaller.Debconf
