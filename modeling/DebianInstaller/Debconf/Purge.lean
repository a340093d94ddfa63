import DebianInstaller.Debconf.Commands
import DebianInstaller.Debconf.Stack

/-!
# `PURGE` over a stack

`command_purge` asks the stack to take an owner off all questions.
`question_db_disownall` does so in one database, over a snapshot of its questions, and
drops the questions that are left without an owner. It returns 0, which is `DC_NOTOK`,
and `stack_question_db_disownall` leaves its loop at the first layer that does not
answer `DC_OK`: only the top layer is purged.

A layer further down is as it should be if the top layer happens to have done its work.
That is so for a question which does not list the owner, and for one that the top layer
holds as well, the same object, as long as it has another owner. And in the top layer a
question that had no owner before, as `UNREGISTER` leaves one, goes with the others.
-/

namespace DebianInstaller.Debconf

open Text Lib

variable {db : QuestionDb} {h : Heap}

/-- What `question_db_disownall` returns beside its effect: 0. -/
def questionDbDisownall (h : Heap) (db : QuestionDb) (owner : Text) :
    Status × Heap × QuestionDb :=
  (.notOk, questionDisownall h db owner)

/-- `stack_question_db_disownall`. -/
def stackQuestionDisownall (h : Heap) (owner : Text) :
    List QuestionDb → Status × Heap × List QuestionDb
  | [] => (.ok, h, [])
  | db :: dbs =>
      let r := questionDbDisownall h db owner
      if r.1 ≠ .ok then (r.1, r.2.1, r.2.2 :: dbs)
      else
        let s := stackQuestionDisownall r.2.1 owner dbs
        (s.1, s.2.1, r.2.2 :: s.2.2)

/-! ## One question -/

/-- The owners that are left. -/
def remaining (q : Question) (owner : Text) : List Text := (questionOwnerDelete q owner).owners

theorem foldl_ownerAdd_subset {os : List Text} {q : Question} (h : ∀ o ∈ os, o ∈ q.owners) :
    os.foldl questionOwnerAdd q = q := by
  induction os with
  | nil => rfl
  | cons o os ih =>
      have ho : questionOwnerAdd q o = q := by
        have : addOwner q.owners o = q.owners := if_pos (h o List.mem_cons_self)
        exact Question.ext rfl rfl rfl rfl rfl this
      rw [List.foldl_cons, ho]
      exact ih fun o' ho' => h o' (List.mem_cons_of_mem _ ho')

theorem questionSet_again {q : Ref} (hq : questionGet db (h.cell q).tag = some q) :
    (questionSet h db q).1 = h ∧ (questionSet h db q).2.root = db.root := by
  have hfind : db.root.tfind (h.cell q).tag = some q := hq
  constructor
  · have hmod : h.modify q (fun c => (h.cell q).owners.foldl questionOwnerAdd c) = h := by
      have hcell : (h.cell q).owners.foldl questionOwnerAdd (h.cell q) = h.cell q :=
        foldl_ownerAdd_subset fun _ ho => ho
      simp only [Heap.modify, hcell, Function.update_eq_self]
    simpa only [questionSet, hfind] using hmod
  · refine Tree.ext_tfind fun k => ?_
    by_cases hk : k = (h.cell q).tag
    · rw [hk, hfind]
      exact db.root.tfind_replace_self _ q
    · exact Tree.tfind_replace_of_ne hk

/-- `rfc822db_question_disown`: the owner is taken off the object, and the node goes if
no owner is left. -/
theorem questionDisown_found (hd : db.Tagged h) {n : Text × Ref} (hn : n ∈ db.root.nodes)
    (owner : Text) :
    (questionDisown h db n.1 owner).2.1 =
        h.modify n.2 (fun c => questionOwnerDelete c owner) ∧
      (questionDisown h db n.1 owner).2.2.root =
        if remaining (h.cell n.2) owner = [] then db.root.tdelete n.1 else db.root := by
  have hget : questionGet db n.1 = some n.2 := Tree.tfind_eq_some.mpr hn
  have htag : (questionOwnerDelete (h.cell n.2) owner).tag = n.1 := hd n hn
  simp only [questionDisown, hget, modify_cell_self, remaining]
  by_cases hrem : (questionOwnerDelete (h.cell n.2) owner).owners = []
  · have hfind : db.root.tfind n.1 = some n.2 := hget
    simp only [hrem, ↓reduceIte, htag, questionRemove, hfind, and_self]
  · simp only [hrem, ↓reduceIte]
    refine questionSet_again ?_
    rw [modify_cell_self, htag]
    exact hget

/-! ## One database -/

/-- The nodes are all different, so each is judged by the owners it had at the beginning. -/
theorem foldl_disown {ns : List (Text × Ref)} (hd : db.Tagged h) (hns : ∀ n ∈ ns, n ∈ db.root.nodes)
    (hkeys : ns.Pairwise fun a b => a.1 < b.1) (owner : Text) :
    (∀ r, (ns.foldl (fun s n => (questionDisown s.1 s.2 n.1 owner).2) (h, db)).1.cell r =
        if r ∈ ns.map Prod.snd then questionOwnerDelete (h.cell r) owner else h.cell r) ∧
      ∀ n, n ∈ (ns.foldl (fun s n => (questionDisown s.1 s.2 n.1 owner).2)
          (h, db)).2.root.nodes ↔
        n ∈ db.root.nodes ∧ ¬ (n ∈ ns ∧ remaining (h.cell n.2) owner = []) := by
  induction ns generalizing h db with
  | nil => simp
  | cons m ns ih =>
      obtain ⟨hlt, hpair⟩ := List.pairwise_cons.mp hkeys
      obtain ⟨hm, hmns⟩ := List.forall_mem_cons.mp hns
      obtain ⟨hheap, hroot⟩ := questionDisown_found hd hm owner
      rw [List.foldl_cons]
      generalize hs : questionDisown h db m.1 owner = s at hheap hroot ⊢
      obtain ⟨st, h', db'⟩ := s
      dsimp only at hheap hroot ⊢
      subst hheap
      -- the other nodes have other tags, so they point to other objects
      have hne : ∀ n ∈ db.root.nodes, n ≠ m → n.2 ≠ m.2 := by
        intro n hn hnm href
        refine hnm (Prod.ext ?_ href)
        rw [← hd n hn, ← hd m hm, href]
      have hmem : ∀ n, n ∈ db'.root.nodes ↔
          n ∈ db.root.nodes ∧ ¬ (n = m ∧ remaining (h.cell n.2) owner = []) := by
        intro n
        rw [hroot]
        by_cases hrem : remaining (h.cell m.2) owner = []
        · rw [if_pos hrem]
          simp only [Tree.tdelete, List.mem_filter, decide_eq_true_eq]
          refine and_congr_right fun hn => not_congr ⟨fun hk => ?_, fun h => h.1 ▸ rfl⟩
          have hnm : n = m := by
            have h₁ : db.root.tfind m.1 = some n.2 := Tree.tfind_eq_some.mpr (hk ▸ hn)
            have h₂ : db.root.tfind m.1 = some m.2 := Tree.tfind_eq_some.mpr hm
            exact Prod.ext hk (Option.some.inj (h₁.symm.trans h₂))
          exact ⟨hnm, hnm ▸ hrem⟩
        · rw [if_neg hrem]
          exact ⟨fun hn => ⟨hn, fun h => hrem (h.1 ▸ h.2)⟩, fun hn => hn.1⟩
      have hcellm : ∀ n ∈ db.root.nodes, n ≠ m →
          (h.modify m.2 fun c => questionOwnerDelete c owner).cell n.2 = h.cell n.2 :=
        fun n hn hnm => modify_cell_of_ne _ (hne n hn hnm)
      have hmn : ∀ n ∈ ns, n ≠ m := fun n hn e => lt_irrefl _ (e ▸ hlt n hn)
      have hd' : db'.Tagged (h.modify m.2 fun c => questionOwnerDelete c owner) := by
        refine hd.of_nodes (fun r => ?_) fun n hn => .inl ((hmem n).mp hn).1
        by_cases hr : r = m.2
        · rw [hr, modify_cell_self]
          rfl
        · rw [modify_cell_of_ne _ hr]
      obtain ⟨ihcell, ihmem⟩ := ih hd'
        (fun n hn => (hmem n).mpr ⟨hmns n hn, fun h => hmn n hn h.1⟩) hpair
      constructor
      · intro r
        rw [ihcell r]
        by_cases hr : r = m.2
        · have hnot : m.2 ∉ ns.map Prod.snd := by
            intro hmem'
            obtain ⟨n, hn, href⟩ := List.mem_map.mp hmem'
            exact hne n (hmns n hn) (hmn n hn) href
          rw [hr, if_neg hnot, modify_cell_self, if_pos (List.mem_map.mpr ⟨m, by simp, rfl⟩)]
        · have hiff : r ∈ (m :: ns).map Prod.snd ↔ r ∈ ns.map Prod.snd := by
            rw [List.map_cons, List.mem_cons]
            exact ⟨fun h => h.resolve_left hr, .inr⟩
          rw [modify_cell_of_ne _ hr]
          simp only [hiff]
      · intro n
        rw [ihmem n, hmem n, List.mem_cons]
        by_cases hnm : n = m
        · subst hnm
          have : n ∉ ns := fun hn => hmn n hn rfl
          tauto
        · by_cases hn : n ∈ db.root.nodes
          · rw [hcellm n hn hnm]
            tauto
          · tauto

/-- `question_db_disownall`: the owner is off every question of the database, and the
questions without an owner are gone. -/
theorem questionDisownall_spec (hd : db.Tagged h) (owner : Text) :
    (∀ r, (questionDisownall h db owner).1.cell r =
        if r ∈ db.root.nodes.map Prod.snd then questionOwnerDelete (h.cell r) owner
        else h.cell r) ∧
      ∀ n, n ∈ (questionDisownall h db owner).2.root.nodes ↔
        n ∈ db.root.nodes ∧ remaining (h.cell n.2) owner ≠ [] := by
  have hfold : questionDisownall h db owner =
      db.root.nodes.foldl (fun s n => (questionDisown s.1 s.2 n.1 owner).2) (h, db) := by
    rw [questionDisownall, List.foldl_map]
    refine List.foldl_ext _ _ _ fun s n hn => ?_
    rw [questionDup_eq, hd n hn]
  obtain ⟨hcell, hmem⟩ := foldl_disown hd (fun n hn => hn) db.root.sorted owner
  rw [hfold]
  refine ⟨hcell, fun n => (hmem n).trans ?_⟩
  tauto

theorem tagged_disownall {db' : QuestionDb} (hd : db.Tagged h) (hd' : db'.Tagged h) (owner : Text) :
    db'.Tagged (questionDisownall h db owner).1 := by
  refine hd'.of_nodes (fun r => ?_) fun n hn => .inl hn
  rw [(questionDisownall_spec hd owner).1 r]
  split
  · rfl
  · rfl

/-! ## The stack -/

theorem stackQuestionDisownall_cons (h : Heap) (owner : Text) (db : QuestionDb)
    (dbs : List QuestionDb) :
    stackQuestionDisownall h owner (db :: dbs) =
      (.notOk, (questionDisownall h db owner).1, (questionDisownall h db owner).2 :: dbs) := by
  rfl

/-- `stack_question_db_disownall`. -/
def Stack.disownall (s : Stack) (owner : Text) : Status × Stack :=
  ((stackQuestionDisownall s.heap owner s.layers).1,
    { heap := (stackQuestionDisownall s.heap owner s.layers).2.1
      layers := (stackQuestionDisownall s.heap owner s.layers).2.2
      tagged := by
        obtain ⟨h, layers, htagged⟩ := s
        dsimp only
        cases layers with
        | nil => exact htagged
        | cons top dbs =>
            have htop := htagged top List.mem_cons_self
            rw [stackQuestionDisownall_cons]
            intro db hdb
            rcases List.mem_cons.mp hdb with rfl | hdb
            · refine (tagged_disownall htop htop owner).of_nodes (fun _ => rfl) fun n hn => ?_
              exact .inl (((questionDisownall_spec htop owner).2 n).mp hn).1
            · exact tagged_disownall htop (htagged db (List.mem_cons_of_mem _ hdb)) owner })

/-- `command_purge`. -/
def Stack.commandPurge (s : Stack) (owner : Text) : Text × Stack :=
  (reply .success none, (s.disownall owner).2)

/-- A question has this owner and no other one. -/
def OnlyOwner (owner : Text) (q : Question) : Prop := q.owners ≠ [] ∧ ∀ o ∈ q.owners, o = owner

/-- A layer before and after its owner is purged. -/
structure Purged (owner : Text) (h h' : Heap) (db db' : QuestionDb) : Prop where
  /-- No question lists the owner. -/
  unlisted : ∀ n ∈ db'.root.nodes, owner ∉ (h'.cell n.2).owners
  /-- A question that it was the only owner of is gone. -/
  gone : ∀ n ∈ db.root.nodes, OnlyOwner owner (h.cell n.2) → questionGet db' n.1 = none
  /-- Every other question is still there, with the owners that are left. -/
  kept : ∀ n ∈ db.root.nodes, ¬ OnlyOwner owner (h.cell n.2) →
    ∃ r, questionGet db' n.1 = some r ∧
      (h'.cell r).owners = (h.cell n.2).owners.filter fun o => o ≠ owner

/-- Every layer of a stack, before and after. -/
def StackPurged (owner : Text) (s s' : Stack) : Prop :=
  List.Forall₂ (Purged owner s.heap s'.heap) s.layers s'.layers

/-- In the top layer every question has an owner. Below it, whatever lists the owner is an
object that the top layer holds, too, and that has another owner. -/
structure PurgedFromTop (owner : Text) (s : Stack) : Prop where
  owned : ∀ top ∈ s.layers.head?, ∀ n ∈ top.root.nodes, (s.heap.cell n.2).owners ≠ []
  below : ∀ db ∈ s.layers.tail, ∀ n ∈ db.root.nodes, owner ∈ (s.heap.cell n.2).owners →
    (∃ top ∈ s.layers.head?, n ∈ top.root.nodes) ∧ ∃ o ∈ (s.heap.cell n.2).owners, o ≠ owner

theorem remaining_eq_nil {q : Question} {owner : Text} :
    remaining q owner = [] ↔ q.owners = [] ∨ OnlyOwner owner q := by
  have hall : remaining q owner = [] ↔ ∀ o ∈ q.owners, o = owner := by
    simp [remaining, questionOwnerDelete]
  rw [hall, OnlyOwner]
  constructor
  · intro h
    by_cases hnil : q.owners = []
    · exact .inl hnil
    · exact .inr ⟨hnil, h⟩
  · rintro (hnil | ⟨-, h⟩)
    · rw [hnil]
      exact fun o ho => absurd ho List.not_mem_nil
    · exact h

theorem questionGet_of_not_mem {tag : Text} (h : ∀ n ∈ db.root.nodes, n.1 ≠ tag) :
    questionGet db tag = none := by
  refine Tree.tfind_eq_none.mpr fun hmem => ?_
  obtain ⟨n, hn, htag⟩ := List.mem_map.mp hmem
  exact h n hn htag

/-- The top layer is purged, but for the questions that had no owner before. -/
theorem purged_top (hd : db.Tagged h) (owner : Text) :
    Purged owner h (questionDisownall h db owner).1 db (questionDisownall h db owner).2 ↔
      ∀ n ∈ db.root.nodes, (h.cell n.2).owners ≠ [] := by
  obtain ⟨hcell, hmem⟩ := questionDisownall_spec hd owner
  have howned : ∀ n ∈ db.root.nodes, (questionDisownall h db owner).1.cell n.2 =
      questionOwnerDelete (h.cell n.2) owner := by
    intro n hn
    rw [hcell, if_pos (List.mem_map.mpr ⟨n, hn, rfl⟩)]
  have hget : ∀ n ∈ db.root.nodes, remaining (h.cell n.2) owner = [] →
      questionGet (questionDisownall h db owner).2 n.1 = none := by
    intro n hn hrem
    refine questionGet_of_not_mem fun m hm htag => ?_
    obtain ⟨hmem', hrem'⟩ := (hmem m).mp hm
    have hfind : questionGet db n.1 = some m.2 := htag ▸ Tree.tfind_eq_some.mpr hmem'
    have hfind' : questionGet db n.1 = some n.2 := Tree.tfind_eq_some.mpr hn
    rw [Option.some.inj (hfind.symm.trans hfind')] at hrem'
    exact hrem' hrem
  constructor
  · intro hp n hn hnil
    obtain ⟨r, hr, -⟩ := hp.kept n hn fun honly => honly.1 hnil
    rw [hget n hn (remaining_eq_nil.mpr (.inl hnil))] at hr
    cases hr
  · intro hall
    refine ⟨fun n hn => ?_, fun n hn honly => hget n hn (remaining_eq_nil.mpr (.inr honly)),
      fun n hn honly => ⟨n.2, ?_, ?_⟩⟩
    · rw [howned n ((hmem n).mp hn).1]
      simp [questionOwnerDelete]
    · refine Tree.tfind_eq_some.mpr ((hmem n).mpr ⟨hn, fun hrem => ?_⟩)
      rcases remaining_eq_nil.mp hrem with hnil | h
      · exact hall n hn hnil
      · exact honly h
    · rw [howned n hn]
      rfl

/-- A layer below the top one keeps its nodes, so it is purged exactly if the top layer
has taken the owner off its objects and none of them is left without one. -/
theorem purged_below {top : QuestionDb} (ht : top.Tagged h) (hd : db.Tagged h) (owner : Text) :
    Purged owner h (questionDisownall h top owner).1 db db ↔
      ∀ n ∈ db.root.nodes, owner ∈ (h.cell n.2).owners →
        n ∈ top.root.nodes ∧ ∃ o ∈ (h.cell n.2).owners, o ≠ owner := by
  have hcell := (questionDisownall_spec ht owner).1
  have hshared : ∀ n ∈ db.root.nodes, n.2 ∈ top.root.nodes.map Prod.snd ↔ n ∈ top.root.nodes := by
    intro n hn
    constructor
    · intro hmem
      obtain ⟨m, hm, href⟩ := List.mem_map.mp hmem
      have htag : m.1 = n.1 := by rw [← ht m hm, href, hd n hn]
      exact Prod.ext htag href ▸ hm
    · exact fun hmem => List.mem_map.mpr ⟨n, hmem, rfl⟩
  have hget : ∀ n ∈ db.root.nodes, questionGet db n.1 = some n.2 := fun n hn =>
    Tree.tfind_eq_some.mpr hn
  constructor
  · intro hp n hn howner
    constructor
    · by_contra hnot
      refine hp.unlisted n hn ?_
      rw [hcell, if_neg (mt (hshared n hn).mp hnot)]
      exact howner
    · by_contra hnone
      push Not at hnone
      have hgone := hp.gone n hn ⟨List.ne_nil_of_mem howner, hnone⟩
      rw [hget n hn] at hgone
      cases hgone
  · intro hc
    have howners : ∀ n ∈ db.root.nodes, ((questionDisownall h top owner).1.cell n.2).owners =
        (h.cell n.2).owners.filter fun o => o ≠ owner := by
      intro n hn
      rw [hcell]
      split
      · rfl
      · next hnot =>
          have : owner ∉ (h.cell n.2).owners :=
            fun howner => hnot ((hshared n hn).mpr (hc n hn howner).1)
          refine (List.filter_eq_self.mpr fun o ho => ?_).symm
          simpa using fun e : o = owner => this (e ▸ ho)
    refine ⟨fun n hn => ?_, fun n hn honly => ?_, fun n hn _ => ⟨n.2, hget n hn, howners n hn⟩⟩
    · rw [howners n hn]
      simp
    · obtain ⟨o, ho⟩ := List.exists_mem_of_ne_nil _ honly.1
      obtain ⟨-, o', ho', hne⟩ := hc n hn (honly.2 o ho ▸ ho)
      exact absurd (honly.2 o' ho') hne

theorem stackPurged_cons (h : Heap) (top : QuestionDb) (dbs : List QuestionDb)
    (htagged : ∀ db ∈ top :: dbs, db.Tagged h) (owner : Text) :
    StackPurged owner ⟨h, top :: dbs, htagged⟩
        (Stack.commandPurge ⟨h, top :: dbs, htagged⟩ owner).2 ↔
      (∀ n ∈ top.root.nodes, (h.cell n.2).owners ≠ []) ∧
        ∀ db ∈ dbs, ∀ n ∈ db.root.nodes, owner ∈ (h.cell n.2).owners →
          n ∈ top.root.nodes ∧ ∃ o ∈ (h.cell n.2).owners, o ≠ owner := by
  have htop := htagged top List.mem_cons_self
  show List.Forall₂ (Purged owner h (stackQuestionDisownall h owner (top :: dbs)).2.1)
    (top :: dbs) (stackQuestionDisownall h owner (top :: dbs)).2.2 ↔ _
  rw [stackQuestionDisownall_cons, List.forall₂_cons, List.forall₂_same, purged_top htop owner]
  refine and_congr_right fun _ => forall₂_congr fun db hdb => ?_
  exact purged_below htop (htagged db (List.mem_cons_of_mem _ hdb)) owner

/-- `PURGE` purges every layer exactly if the top layer's share of the work is all there
is to do, and no more than that. -/
theorem commandPurge_iff (s : Stack) (owner : Text) :
    StackPurged owner s (s.commandPurge owner).2 ↔ PurgedFromTop owner s := by
  obtain ⟨h, layers, htagged⟩ := s
  cases layers with
  | nil =>
      refine iff_of_true List.Forall₂.nil ⟨fun top htop => ?_, fun db hdb => ?_⟩
      · cases htop
      · cases hdb
  | cons top dbs =>
      rw [stackPurged_cons]
      have hhead : ∀ db : QuestionDb, db ∈ (top :: dbs).head? ↔ db = top := by simp [eq_comm]
      constructor
      · rintro ⟨howned, hbelow⟩
        refine ⟨fun db hdb => (hhead db).mp hdb ▸ howned, fun db hdb n hn howner => ?_⟩
        obtain ⟨hmem, hother⟩ := hbelow db hdb n hn howner
        exact ⟨⟨top, (hhead top).mpr rfl, hmem⟩, hother⟩
      · intro hp
        refine ⟨hp.owned top ((hhead top).mpr rfl), fun db hdb n hn howner => ?_⟩
        obtain ⟨⟨top', htop', hmem⟩, hother⟩ := hp.below db hdb n hn howner
        exact ⟨(hhead top').mp htop' ▸ hmem, hother⟩

/-- A question that belongs to one owner. -/
def ownedQuestion : Question :=
  { tag := "netcfg/hostname", owners := ["netcfg"], vars_nodup := noVars_nodup }

/-- Two layers, where only the lower one holds the question. -/
def ownedBelow : Stack where
  heap := { cell := fun _ => ownedQuestion, fresh := 1 }
  layers := [{}, { root := ⟨[(ownedQuestion.tag, 0)], List.pairwise_singleton _ _⟩ }]
  tagged := by
    intro db hdb n hn
    rcases List.mem_cons.mp hdb with rfl | hdb
    · cases hn
    · rw [List.mem_singleton.mp hdb] at hn
      rw [List.mem_singleton.mp hn]

/-- The lower layer keeps its question, and the question its owner. -/
theorem commandPurge_stops_at_top :
    ¬ StackPurged "netcfg" ownedBelow (ownedBelow.commandPurge "netcfg").2 := by
  intro h
  have hshared := ((stackPurged_cons _ _ _ ownedBelow.tagged _).mp h).2 _ List.mem_cons_self
    (ownedQuestion.tag, 0) List.mem_cons_self List.mem_cons_self
  cases hshared.1

end DebianInstaller.Debconf
