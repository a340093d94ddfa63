import DebianInstaller.Lib.Search

/-!
# The order in which an acyclic search finishes

A search of an acyclic graph finishes a node behind everything that the node leads to. Of two
nodes neither of which leads to the other, the one is finished first that is met first: the ways
on which the search comes to them part at some node, and there the one goes to an earlier
successor.
-/

namespace Search

variable {ι : Type*} [DecidableEq ι]

variable {S : List ι} {b : Bool} {fuel : ℕ} {st st' : St ι} {x : ι}

/-- A graph in which nothing fails and everything is emitted. -/
def plain (succ : ι → List ι) : Graph ι where
  next _ := succ
  dead _ := false
  emit _ := true

/-- The node is at the end of a way that begins here. -/
abbrev Leads (succ : ι → List ι) : ι → ι → Prop := Relation.ReflTransGen fun x y => y ∈ succ x

/-- No way comes back to where it begins. -/
def Acyclic (succ : ι → List ι) : Prop := ∀ x, ¬ Relation.TransGen (fun x y => y ∈ succ x) x x

variable {succ : ι → List ι}

omit [DecidableEq ι] in
theorem plain_edge : (plain succ).Edge = fun x y => y ∈ succ x := by
  funext x y
  exact propext ⟨fun ⟨_, h⟩ => h, fun h => ⟨[], h⟩⟩

omit [DecidableEq ι] in
theorem plain_reach : (plain succ).Reach = Leads succ := by
  rw [Graph.Reach, plain_edge]

/-! ## Which of two nodes is met first -/

open Classical in
/-- The first of some nodes that leads to one of the two. -/
noncomputable def firstTo (succ : ι → List ι) (cs : List ι) (x y : ι) : Option ι :=
  cs.find? fun d => Leads succ d x ∨ Leads succ d y

/-- A walk from a node that goes to its successors in their order comes to `x` before `y`. -/
inductive Meets (succ : ι → List ι) : ι → ι → ι → Prop where
  | here {x y : ι} : x ≠ y → Meets succ x x y
  | there {u c x y : ι} : u ≠ x → u ≠ y → firstTo succ (succ u) x y = some c →
      Leads succ c x → (Leads succ c y → Meets succ c x y) → Meets succ u x y

/-- A search from a node finishes `x` before `y`. -/
def Finishes (succ : ι → List ι) (u x y : ι) : Prop :=
  Leads succ y x ∨ (¬ Leads succ x y ∧ Meets succ u x y)

omit [DecidableEq ι] in
theorem firstTo_cons_of {c x y : ι} (h : Leads succ c x ∨ Leads succ c y) (cs : List ι) :
    firstTo succ (c :: cs) x y = some c := by
  rw [firstTo, List.find?_cons_of_pos (by simpa using h)]

omit [DecidableEq ι] in
theorem firstTo_cons_of_not {c x y : ι} (hx : ¬ Leads succ c x) (hy : ¬ Leads succ c y)
    (cs : List ι) : firstTo succ (c :: cs) x y = firstTo succ cs x y := by
  rw [firstTo, List.find?_cons_of_neg (by simp [hx, hy]), firstTo]

omit [DecidableEq ι] in
theorem finishes_iff {u x y : ι} (hux : u ≠ x) (huy : u ≠ y)
    (hx : ∃ c ∈ succ u, Leads succ c x) :
    Finishes succ u x y ↔ ∃ c, firstTo succ (succ u) x y = some c ∧ Leads succ c x ∧
      (Leads succ c y → Finishes succ c x y) := by
  constructor
  · rintro (hyx | ⟨hxy, hmeets⟩)
    · obtain ⟨c, hc⟩ : ∃ c, firstTo succ (succ u) x y = some c := by
        obtain ⟨d, hd, hdx⟩ := hx
        exact Option.isSome_iff_exists.mp (List.find?_isSome.mpr ⟨d, hd, by simp [hdx]⟩)
      have hleads : Leads succ c x ∨ Leads succ c y := by simpa using List.find?_some hc
      refine ⟨c, hc, ?_, fun _ => .inl hyx⟩
      rcases hleads with h | h
      · exact h
      · exact h.trans hyx
    · cases hmeets with
      | here _ => exact absurd rfl hux
      | there _ _ hc hcx hrest => exact ⟨_, hc, hcx, fun hcy => .inr ⟨hxy, hrest hcy⟩⟩
  · rintro ⟨c, hc, hcx, hrest⟩
    by_cases hcy : Leads succ c y
    · rcases hrest hcy with hyx | ⟨hxy, hmeets⟩
      · exact .inl hyx
      · exact .inr ⟨hxy, .there hux huy hc hcx fun _ => hmeets⟩
    · exact .inr ⟨fun hxy => hcy (hcx.trans hxy), .there hux huy hc hcx fun h => absurd h hcy⟩

/-! ## What a search adds to the log -/

omit [DecidableEq ι] in
theorem pair_sublist_append {l m : List ι} {x y : ι} :
    [x, y].Sublist (l ++ m) ↔ [x, y].Sublist l ∨ (x ∈ l ∧ y ∈ m) ∨ [x, y].Sublist m := by
  rw [List.sublist_append_iff]
  constructor
  · rintro ⟨l₁, l₂, heq, h₁, h₂⟩
    cases l₁ with
    | nil =>
        rw [List.nil_append] at heq
        exact .inr (.inr (heq ▸ h₂))
    | cons a l₁ =>
        cases l₁ with
        | nil =>
            obtain ⟨rfl, rfl⟩ : x = a ∧ [y] = l₂ := by simpa using heq
            exact .inr (.inl ⟨List.singleton_sublist.mp h₁, List.singleton_sublist.mp h₂⟩)
        | cons b l₁ =>
            obtain ⟨rfl, rfl, rfl, -⟩ : x = a ∧ y = b ∧ l₁ = [] ∧ l₂ = [] := by
              simpa [eq_comm] using heq
            exact .inl h₁
  · rintro (h | ⟨hx, hy⟩ | h)
    · exact ⟨[x, y], [], by simp, h, List.nil_sublist _⟩
    · exact ⟨[x], [y], rfl, List.singleton_sublist.mpr hx, List.singleton_sublist.mpr hy⟩
    · exact ⟨[], [x, y], rfl, List.nil_sublist _, h⟩

/-- The state of a search whose open nodes are `S`. -/
structure Open (succ : ι → List ι) (S : List ι) (st : St ι) : Prop where
  noFail : st.NoFail
  sorted : Sorted (plain succ) S st
  seen : ∀ s ∈ S, st.mark s ≠ .unseen

/-- What is added to the log: what was not seen before and is led to, in an order. -/
structure Adds (led : ι → Prop) (ahead : ι → ι → Prop) (st st' : St ι) (N : List ι) :
    Prop where
  log : st'.log = st.log ++ N
  nodup : N.Nodup
  mem : ∀ y, y ∈ N ↔ st.mark y = .unseen ∧ led y
  unseen : ∀ y, st'.mark y = .unseen ↔ st.mark y = .unseen ∧ y ∉ N
  order : ∀ x ∈ N, ∀ y ∈ N, x ≠ y → ([x, y].Sublist N ↔ ahead x y)

section Order

variable (hacyc : Acyclic succ)

include hacyc

theorem Open.visit (h : Open succ S st) (hS : ∀ s ∈ S, Leads succ s x)
    (hrun : Search.visit (plain succ) fuel x st = some (b, st')) : b = true ∧ Open succ S st' := by
  obtain ⟨hb, hnoFail⟩ := visit_alive (fun _ => rfl) fuel x st b st' h.noFail hrun
  have hgrows := (visit_visited _ fuel x st b st' hrun).grows
  refine ⟨hb, hnoFail, ?_, fun s hs => ?_⟩
  · refine visit_sorted (fun _ => rfl) (fun _ _ _ => rfl) fuel x S st st' b h.noFail h.sorted ?_ ?_
      hrun
    · rw [plain_reach]
      exact hS
    · rw [plain_edge]
      exact fun y _ => hacyc y
  · rw [hgrows.keep s (h.seen s hs)]
    exact h.seen s hs

theorem Open.members (h : Open succ S st) (hS : ∀ s ∈ S, Leads succ s x) (hx : x ∉ S)
    (hrun : Search.visit (plain succ) fuel x st = some (true, st')) :
    ∃ N, st'.log = st.log ++ N ∧ N.Nodup ∧
      (∀ y, y ∈ N ↔ st.mark y = .unseen ∧ Leads succ x y) ∧
      ∀ y, st'.mark y = .unseen ↔ st.mark y = .unseen ∧ y ∉ N := by
  obtain ⟨-, hopen⟩ := h.visit hacyc hS hrun
  have hvisited := visit_visited _ fuel x st true st' hrun
  obtain ⟨N, hlog, hnodup, hmem⟩ := hvisited.grows.log
  have hbelow (y : ι) (hy : Leads succ x y) : st'.mark y = .okay := by
    rcases Relation.reflTransGen_iff_eq_or_transGen.mp hy with rfl | hy
    · exact hvisited.answer
    · refine (hopen.sorted.below ⟨hvisited.answer, hx⟩ ?_).1
      rw [plain_edge]
      exact hy
  refine ⟨N, hlog, hnodup, fun y => ?_, fun y => ?_⟩
  · rw [hmem]
    constructor
    · rintro ⟨hunseen, hokay, -⟩
      obtain ⟨z, hz, hzy⟩ := hvisited.grows.reach y hunseen (by rw [hokay]; decide)
      rw [List.mem_singleton.mp hz, plain_reach] at hzy
      exact ⟨hunseen, hzy⟩
    · rintro ⟨hunseen, hy⟩
      exact ⟨hunseen, hbelow y hy, rfl⟩
  · constructor
    · intro hunseen
      refine ⟨?_, fun hy => ?_⟩
      · by_contra hseen
        rw [hvisited.grows.keep y hseen] at hunseen
        exact hseen hunseen
      · rw [((hmem y).mp hy).2.1] at hunseen
        cases hunseen
    · rintro ⟨hunseen, hy⟩
      cases hmark : st'.mark y with
      | unseen => rfl
      | okay => exact absurd ((hmem y).mpr ⟨hunseen, hmark, rfl⟩) hy
      | failed => exact absurd hmark (hopen.noFail y)

omit hacyc in
/-- What one successor adds, and after it the others. -/
theorem Adds.cons {mid : St ι} {c : ι} {cs N₁ N₂ : List ι}
    (hadds₁ : Adds (Leads succ c) (Finishes succ c) st mid N₁)
    (hadds₂ : Adds (fun y => ∃ c ∈ cs, Leads succ c y)
      (fun x y => ∃ c, firstTo succ cs x y = some c ∧ Leads succ c x ∧
        (Leads succ c y → Finishes succ c x y)) mid st' N₂) :
    Adds (fun y => ∃ d ∈ c :: cs, Leads succ d y)
      (fun x y => ∃ d, firstTo succ (c :: cs) x y = some d ∧ Leads succ d x ∧
        (Leads succ d y → Finishes succ d x y)) st st' (N₁ ++ N₂) := by
  have hmem₂ (y : ι) :
      y ∈ N₂ ↔ st.mark y = .unseen ∧ y ∉ N₁ ∧ ∃ c ∈ cs, Leads succ c y := by
    rw [hadds₂.mem, hadds₁.unseen, and_assoc]
  have hdisjoint : ∀ y ∈ N₁, y ∉ N₂ := fun y hy hy₂ => ((hmem₂ y).mp hy₂).2.1 hy
  have hnot {y : ι} (hy : y ∈ N₂) : ¬ Leads succ c y := fun hcy =>
    ((hmem₂ y).mp hy).2.1 ((hadds₁.mem y).mpr ⟨((hmem₂ y).mp hy).1, hcy⟩)
  refine ⟨?_, ?_, fun y => ?_, fun y => ?_, ?_⟩
  · rw [hadds₂.log, hadds₁.log, List.append_assoc]
  · exact List.nodup_append.mpr ⟨hadds₁.nodup, hadds₂.nodup,
      fun a ha b hb hab => hdisjoint a ha (hab ▸ hb)⟩
  · rw [List.mem_append, hadds₁.mem, hmem₂]
    constructor
    · rintro (⟨hunseen, hcy⟩ | ⟨hunseen, -, d, hd, hdy⟩)
      · exact ⟨hunseen, c, List.mem_cons_self, hcy⟩
      · exact ⟨hunseen, d, List.mem_cons_of_mem _ hd, hdy⟩
    · rintro ⟨hunseen, d, hd, hdy⟩
      by_cases hy : y ∈ N₁
      · exact .inl ((hadds₁.mem y).mp hy)
      · rcases List.mem_cons.mp hd with he | hd
        · exact .inl ⟨hunseen, he ▸ hdy⟩
        · exact .inr ⟨hunseen, hy, d, hd, hdy⟩
  · rw [hadds₂.unseen, hadds₁.unseen, List.mem_append, not_or, and_assoc]
  · intro x hx y hy hne
    rw [pair_sublist_append]
    rcases List.mem_append.mp hx with hx | hx
    · have hcx : Leads succ c x := ((hadds₁.mem x).mp hx).2
      have hfirst : firstTo succ (c :: cs) x y = some c := firstTo_cons_of (.inl hcx) cs
      rcases List.mem_append.mp hy with hy | hy
      · have hcy : Leads succ c y := ((hadds₁.mem y).mp hy).2
        constructor
        · rintro (hpair | ⟨-, hy₂⟩ | hpair)
          · exact ⟨c, hfirst, hcx, fun _ => (hadds₁.order x hx y hy hne).mp hpair⟩
          · exact absurd hy₂ (hdisjoint y hy)
          · exact absurd (hpair.subset (by simp)) (hdisjoint x hx)
        · rintro ⟨d, hd, -, hrest⟩
          obtain rfl := Option.some.inj (hfirst.symm.trans hd)
          exact .inl ((hadds₁.order x hx y hy hne).mpr (hrest hcy))
      · exact ⟨fun _ => ⟨c, hfirst, hcx, fun hcy => absurd hcy (hnot hy)⟩,
          fun _ => .inr (.inl ⟨hx, hy⟩)⟩
    · have hcx : ¬ Leads succ c x := hnot hx
      have hx₁ : x ∉ N₁ := fun hx₁ => hdisjoint x hx₁ hx
      rcases List.mem_append.mp hy with hy | hy
      · have hcy : Leads succ c y := ((hadds₁.mem y).mp hy).2
        constructor
        · rintro (hpair | ⟨hx', -⟩ | hpair)
          · exact absurd (hpair.subset (by simp)) hx₁
          · exact absurd hx' hx₁
          · exact absurd (hpair.subset (by simp)) (hdisjoint y hy)
        · rintro ⟨d, hd, hdx, -⟩
          rw [firstTo_cons_of (.inr hcy)] at hd
          obtain rfl := Option.some.inj hd
          exact absurd hdx hcx
      · rw [firstTo_cons_of_not hcx (hnot hy), ← hadds₂.order x hx y hy hne]
        constructor
        · rintro (hpair | ⟨hx', -⟩ | hpair)
          · exact absurd (hpair.subset (by simp)) hx₁
          · exact absurd hx' hx₁
          · exact hpair
        · exact fun hpair => .inr (.inr hpair)

/-- The successors of an open node, one after the other. -/
theorem Open.visitAll (ih : ∀ x S st st', Open succ S st → (∀ s ∈ S, Leads succ s x) → x ∉ S →
      st.mark x = .unseen → Search.visit (plain succ) fuel x st = some (true, st') →
      ∃ N, Adds (Leads succ x) (Finishes succ x) st st' N) {cs : List ι} (h : Open succ S st)
    (hS : ∀ s ∈ S, ∀ c ∈ cs, Relation.TransGen (fun x y => y ∈ succ x) s c)
    (hrun : Search.visitAll (Search.visit (plain succ) fuel) cs st = some (b, st')) :
    b = true ∧ Open succ S st' ∧
      ∃ N, Adds (fun y => ∃ c ∈ cs, Leads succ c y)
        (fun x y => ∃ c, firstTo succ cs x y = some c ∧ Leads succ c x ∧
          (Leads succ c y → Finishes succ c x y)) st st' N := by
  induction cs generalizing st with
  | nil =>
      cases hrun
      refine ⟨rfl, h, [], (List.append_nil _).symm, List.nodup_nil, by simp, by simp, ?_⟩
      intro x hx
      cases hx
  | cons c cs ihcs =>
      have hleads (s : ι) (hs : s ∈ S) : Leads succ s c :=
        (hS s hs c List.mem_cons_self).to_reflTransGen
      have hc : c ∉ S := fun hmem => hacyc c (hS c hmem c List.mem_cons_self)
      rw [Search.visitAll] at hrun
      split at hrun
      · cases hrun
      · next mid hmid => exact absurd (h.visit hacyc hleads hmid).1 (by decide)
      · next mid hmid =>
          obtain ⟨-, hopen⟩ := h.visit hacyc hleads hmid
          obtain ⟨hb, hopen', N₂, hadds₂⟩ := ihcs hopen
            (fun s hs d hd => hS s hs d (List.mem_cons_of_mem _ hd)) hrun
          -- What the first successor adds, also where it has been seen before.
          obtain ⟨N₁, hadds₁⟩ : ∃ N, Adds (Leads succ c) (Finishes succ c) st mid N := by
            by_cases hseen : st.mark c = .unseen
            · exact ih c S st mid h hleads hc hseen hmid
            · obtain ⟨N, hlog, hnodup, hmem, hunseen⟩ := h.members hacyc hleads hc hmid
              have hsame : mid = st := by
                cases fuel with
                | zero => cases hmid
                | succ fuel =>
                    rw [visit_seen hseen] at hmid
                    exact (congrArg Prod.snd (Option.some.inj hmid)).symm
              have hnil : N = [] := by
                rw [hsame] at hlog
                exact List.self_eq_append_right.mp hlog
              subst hnil
              refine ⟨[], hlog, hnodup, hmem, hunseen, ?_⟩
              intro x hx
              cases hx
          exact ⟨hb, hopen', N₁ ++ N₂, hadds₁.cons hadds₂⟩

/-- The order in which a search finishes what it adds. -/
theorem visit_order (fuel : ℕ) (x : ι) (S : List ι) (st st' : St ι) (h : Open succ S st)
    (hS : ∀ s ∈ S, Leads succ s x) (hx : x ∉ S) (hunseen : st.mark x = .unseen)
    (hrun : Search.visit (plain succ) fuel x st = some (true, st')) :
    ∃ N, Adds (Leads succ x) (Finishes succ x) st st' N := by
  induction fuel generalizing x S st st' with
  | zero => cases hrun
  | succ fuel ih =>
      obtain ⟨N', hlog', hnodup', hmem', hunseen'⟩ := h.members hacyc hS hx hrun
      have henter : Open succ (x :: S) (st.set x .okay) := by
        refine ⟨fun y => ?_, h.sorted.enter hunseen, fun s hs => ?_⟩
        · by_cases hy : y = x
          · rw [hy, St.set_mark_self]
            decide
          · rw [St.set_mark_of_ne st _ hy]
            exact h.noFail y
        · by_cases hsx : s = x
          · rw [hsx, St.set_mark_self]
            decide
          · rw [St.set_mark_of_ne st _ hsx]
            exact h.seen s ((List.mem_cons.mp hs).resolve_left hsx)
      rcases visit_cases hrun with ⟨hseen, -⟩ | ⟨-, hdead, -⟩ | ⟨-, -, mid, hmid, rfl⟩
      · exact absurd hunseen hseen
      · cases hdead
      · have hbelow : ∀ s ∈ x :: S, ∀ c ∈ succ x,
            Relation.TransGen (fun x y => y ∈ succ x) s c := by
          intro s hs c hc
          rcases List.mem_cons.mp hs with rfl | hs
          · exact .single hc
          · exact Relation.TransGen.tail' (hS s hs) hc
        obtain ⟨-, hopen, N, hadds⟩ := henter.visitAll hacyc
          (fun c S st st' hopen hS hc hunseen hrun => ih c S st st' hopen hS hc hunseen hrun)
          hbelow hmid
        have hlog : (mid.finish (plain succ) x).log = st.log ++ (N ++ [x]) := by
          show mid.log ++ [x] = _
          rw [hadds.log, List.append_assoc]
          rfl
        obtain rfl : N' = N ++ [x] := List.append_cancel_left (hlog'.symm.trans hlog)
        refine ⟨N ++ [x], hlog', hnodup', hmem', hunseen', ?_⟩
        have hxN : x ∉ N := by
          intro hxN
          exact (List.nodup_append.mp hnodup').2.2 x hxN x List.mem_cons_self rfl
        intro y hy z hz hne
        have hcycle {w : ι} (hw : w ∈ N) : ¬ Leads succ w x := by
          obtain ⟨-, c, hc, hcw⟩ := (hadds.mem w).mp hw
          exact fun hwx => hacyc x (Relation.TransGen.head' hc (hcw.trans hwx))
        rw [pair_sublist_append]
        rcases List.mem_append.mp hz with hzN | hzx
        · have hzx : z ≠ x := fun heq => hxN (heq ▸ hzN)
          rcases List.mem_append.mp hy with hyN | hyx
          · have hyx : y ≠ x := fun heq => hxN (heq ▸ hyN)
            obtain ⟨-, c, hc, hcy⟩ := (hadds.mem y).mp hyN
            rw [finishes_iff (Ne.symm hyx) (Ne.symm hzx) ⟨c, hc, hcy⟩,
              ← hadds.order y hyN z hzN hne]
            constructor
            · rintro (hpair | ⟨-, hz'⟩ | hpair)
              · exact hpair
              · exact absurd (List.mem_singleton.mp hz') hzx
              · exact absurd hpair.length_le (by simp)
            · exact .inl
          · obtain rfl := List.mem_singleton.mp hyx
            have hleads : Leads succ y z := ((hmem' z).mp hz).2
            constructor
            · rintro (hpair | ⟨hyN, -⟩ | hpair)
              · exact absurd (hpair.subset (by simp)) hxN
              · exact absurd hyN hxN
              · exact absurd hpair.length_le (by simp)
            · rintro (hzy | ⟨hyz, -⟩)
              · exact absurd hzy (hcycle hzN)
              · exact absurd hleads hyz
        · obtain rfl := List.mem_singleton.mp hzx
          have hyN : y ∈ N := by
            rcases List.mem_append.mp hy with hyN | hyx
            · exact hyN
            · exact absurd (List.mem_singleton.mp hyx) hne
          exact ⟨fun _ => .inl ((hmem' y).mp hy).2, fun _ => .inr (.inl ⟨hyN, hzx⟩)⟩

end Order

/-! ## A search from the beginning -/

/-- Nothing has been seen. -/
def start (ι : Type*) : St ι := ⟨fun _ => .unseen, []⟩

omit [DecidableEq ι] in
theorem start_open (succ : ι → List ι) : Open succ [] (start ι) where
  noFail y := by
    show Mark.unseen ≠ .failed
    decide
  sorted := {
    closed := fun y hy => by cases hy
    logged := fun y hy => by cases hy
    sorted := fun l₁ y l₂ heq => by
      have hnil : [] = l₁ ++ y :: l₂ := heq
      simp at hnil }
  seen s hs := by cases hs

/-- The log has what the node leads to, once each. -/
theorem start_visit (hrun : visit (plain succ) fuel x (start ι) = some (b, st)) :
    b = true ∧ st.log.Nodup ∧ (∀ y, y ∈ st.log ↔ Leads succ x y) ∧
      ∀ y, st.mark y = .unseen ↔ y ∉ st.log := by
  have hnone : (start ι).NoFail := (start_open succ).noFail
  obtain ⟨rfl, hnoFail⟩ := visit_alive (fun _ => rfl) fuel x (start ι) b st hnone hrun
  have hvisited := visit_visited _ fuel x (start ι) true st hrun
  obtain ⟨N, hlog, hnodup, hmem⟩ := hvisited.grows.log
  obtain rfl : st.log = N := hlog
  have hokay (y : ι) : y ∈ st.log ↔ st.mark y = .okay := by
    rw [hmem]
    exact ⟨fun h => h.2.1, fun h => ⟨rfl, h, rfl⟩⟩
  refine ⟨rfl, hnodup, fun y => ⟨fun hy => ?_, fun hy => ?_⟩, fun y => ?_⟩
  · have hmark : st.mark y ≠ .unseen := by
      rw [(hokay y).mp hy]
      decide
    obtain ⟨z, hz, hzy⟩ := hvisited.grows.reach y rfl hmark
    rw [List.mem_singleton.mp hz, plain_reach] at hzy
    exact hzy
  · rw [hokay]
    induction hy with
    | refl => exact hvisited.answer
    | tail _ hz ih =>
        obtain ⟨-, l, hl⟩ := hvisited.grows.okay _ rfl ih
        cases hmark : st.mark _ with
        | unseen => exact absurd hmark (hl _ hz).1
        | okay => rfl
        | failed => exact absurd hmark (hnoFail _)
  · rw [hokay]
    cases hmark : st.mark y with
    | unseen => simp
    | okay => simp
    | failed => exact absurd hmark (hnoFail y)

theorem start_order (hacyc : Acyclic succ)
    (hrun : visit (plain succ) fuel x (start ι) = some (true, st)) {y z : ι} (hy : Leads succ x y)
    (hz : Leads succ x z) (hne : y ≠ z) : [y, z].Sublist st.log ↔ Finishes succ x y z := by
  obtain ⟨N, hadds⟩ := visit_order hacyc fuel x [] (start ι) st (start_open succ) (by simp)
    (by simp) rfl hrun
  obtain rfl : st.log = N := hadds.log
  exact hadds.order y ((hadds.mem y).mpr ⟨rfl, hy⟩) z ((hadds.mem z).mpr ⟨rfl, hz⟩) hne

end Search
