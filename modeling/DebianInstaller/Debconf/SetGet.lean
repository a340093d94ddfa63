import DebianInstaller.Debconf.Commands

/-!
# What `GET` gives after `SET`

A value is sent with its backslashes and newlines escaped. `_confmodule_process`
strips the line before it takes the escapes away and splits it into words
afterwards: blanks at the end of the value are gone before, and white space at its
beginning is taken for the space between the words, also where it was escaped.
-/

namespace DebianInstaller.Debconf

open Text Lib

/-! ## Stripping and splitting a line -/

theorem rdropWhile_escaped (t : Text) :
    (escaped .capb t).rdropWhile isSpace = escaped .capb (t.rdropWhile isLead) := by
  induction t using List.reverseRecOn with
  | nil => rfl
  | append_singleton t c ih =>
      have happ : escaped .capb (t ++ [c]) = escaped .capb t ++ escaped .capb [c] :=
        List.flatMap_append
      cases he : EscapeMode.escapes .capb c with
      | true =>
          have hc : c = '\n' ∨ c = '\\' := by simpa [EscapeMode.escapes] using he
          have hlead : isLead c = false := by rcases hc with rfl | rfl <;> rfl
          have hone : (escaped .capb [c]).rdropWhile isSpace = escaped .capb [c] := by
            rcases hc with rfl | rfl <;> rfl
          have hne : escaped .capb [c] ≠ [] := by
            rcases hc with rfl | rfl <;> exact List.cons_ne_nil _ _
          rw [List.rdropWhile_concat_neg _ _ _ (by simp [hlead]), happ, rdropWhile_append, hone,
            if_neg hne]
      | false =>
          have hone : escaped .capb [c] = [c] := by simp [escaped, he]
          have hlead : isLead c = isSpace c := by
            have hn : c ≠ '\n' := by
              rintro rfl
              cases he
            simp [isLead, hn]
          rw [happ, hone, List.rdropWhile_concat, List.rdropWhile_concat, hlead, ih]
          split
          · rfl
          · rw [happ, hone]

theorem unescaped_append_word {a : Text} (ha : '\\' ∉ a) (mode : EscapeMode) (b : Text) :
    unescaped mode (a ++ b) = a ++ unescaped mode b := by
  induction a with
  | nil => rfl
  | cons c a ih =>
      rw [List.mem_cons, not_or] at ha
      rw [List.cons_append, unescaped_cons (Ne.symm ha.1), ih ha.2]
      rfl

theorem strcmdsplit_word {w : Text} (hw : IsWord w) {t : Text}
    (ht : ∀ c ∈ t.head?, isSpace c = true) (n : Nat) :
    strcmdsplit (n + 2) (w ++ t) = w :: strcmdsplit (n + 1) t := by
  have htake : (w ++ t).takeWhile (fun c => !isSpace c) = w := by
    rw [List.takeWhile_append_of_pos fun c hc => by simp [hw.2 c hc]]
    cases t with
    | nil => simp
    | cons c t => simp [ht c rfl]
  have hdrop : (w ++ t).dropWhile (fun c => !isSpace c) = t := by
    rw [List.dropWhile_append_of_pos fun c hc => by simp [hw.2 c hc]]
    cases t with
    | nil => rfl
    | cons c t => simp [ht c rfl]
  obtain ⟨c, r, hcons⟩ := List.exists_cons_of_ne_nil (List.append_ne_nil_of_left_ne_nil hw.1 t)
  rw [strcmdsplit, hw.dropWhile, hcons]
  dsimp only
  rw [if_neg (Nat.succ_ne_zero n), ← hcons, htake, hdrop]

theorem strcmdsplit_rest (t : Text) :
    (strcmdsplit 1 t).headD [] = t.dropWhile isSpace := by
  rw [strcmdsplit]
  split
  · next h => rw [h]; rfl
  · next h => rw [h]; rfl

/-! ## The two commands -/

/-- What is stored of a value that is sent. -/
def received (v : Text) : Text := (v.rdropWhile isLead).dropWhile isSpace

theorem unescaped_setLine {tag : Text} (htag : IsWord tag) (hb : '\\' ∉ tag) (v : Text) :
    unescaped .capb (strstrip ("SET ".toList ++ tag ++ ' ' :: escapestrFrontend v ++ ['\n'])) =
      "SET".toList ++ ' ' :: (tag ++
        if v.rdropWhile isLead = [] then [] else ' ' :: v.rdropWhile isLead) := by
  have hset : IsWord "SET".toList := isWord_of_all (by decide)
  have hword : '\\' ∉ "SET ".toList ++ tag := by
    rw [List.mem_append, not_or]
    exact ⟨by decide, hb⟩
  have hfront : ("SET ".toList ++ tag ++ ' ' :: escapestrFrontend v ++ ['\n']).dropWhile isSpace =
      "SET ".toList ++ tag ++ ' ' :: escapestrFrontend v ++ ['\n'] := by
    have := hset.dropWhile (' ' :: (tag ++ ' ' :: escapestrFrontend v ++ ['\n']))
    simpa using this
  have hblank : ∀ t : Text, (' ' :: t).rdropWhile isSpace =
      if t.rdropWhile isSpace = [] then [] else ' ' :: t.rdropWhile isSpace := fun t =>
    rdropWhile_append [' '] t
  have hnil : ∀ t : Text, escaped .capb t = [] ↔ t = [] := fun t => by
    cases t with
    | nil => simp [escaped]
    | cons c t =>
        rw [escaped_cons]
        split <;> simp
  unfold strstrip
  rw [hfront, List.rdropWhile_concat_pos _ _ _ rfl, rdropWhile_append, hblank,
    escapestrFrontend_eq, rdropWhile_escaped]
  by_cases hv : v.rdropWhile isLead = []
  · rw [if_pos ((hnil _).mpr hv), if_pos rfl, if_pos hv, htag.rdropWhile,
      ← List.append_nil ("SET ".toList ++ tag), unescaped_append_word hword]
    simp
  · rw [if_neg fun h => hv ((hnil _).mp h), if_neg (List.cons_ne_nil _ _), if_neg hv,
      unescaped_append_word hword, unescaped_cons (by decide), unescaped_escaped]
    simp

theorem split_setArg {tag : Text} (htag : IsWord tag) (v : Text) :
    ∃ rest, strcmdsplit 2 (tag ++
        if v.rdropWhile isLead = [] then [] else ' ' :: v.rdropWhile isLead) = tag :: rest ∧
      rest.headD [] = received v := by
  unfold received
  split
  · next h =>
      rw [h]
      exact ⟨[], strcmdsplit_word htag (by simp) 0, rfl⟩
  · refine ⟨_, strcmdsplit_word htag (by simp [isSpace]) 0, ?_⟩
    rw [strcmdsplit_rest]
    rfl

section Commands

variable (reload : Reload) (others : List (Command Module)) (mod : Module) {tag : Text} (q : Ref)

theorem frontendQdbSet_spec (prev : Option Text) :
    (frontendQdbSet reload mod q prev).escape = mod.escape ∧
      (frontendQdbSet reload mod q prev).questions = (mod.set q).questions ∧
      ∀ r, ((frontendQdbSet reload mod q prev).heap.cell r).value =
        ((mod.set q).heap.cell r).value := by
  unfold frontendQdbSet
  dsimp only
  split
  · split
    · exact ⟨rfl, rfl, fun _ => rfl⟩
    · exact ⟨rfl, rfl, fun _ => rfl⟩
  · split
    · exact ⟨rfl, rfl, fun _ => rfl⟩
    · split
      · exact ⟨rfl, rfl, fun _ => rfl⟩
      · exact ⟨rfl, rfl, fun _ => rfl⟩

theorem foldl_ownerAdd_value (os : List Text) (c : Question) :
    (os.foldl questionOwnerAdd c).value = c.value := by
  induction os generalizing c with
  | nil => rfl
  | cons o os ih => exact ih _

theorem questionSet_value (h : Heap) (db : QuestionDb) (q : Ref) :
    ((questionSet h db q).1.cell q).value = (h.cell q).value := by
  unfold questionSet
  dsimp only
  split
  · rw [modify_cell_self]
    exact foldl_ownerAdd_value _ _
  · rfl

theorem processLine_command (hesc : mod.escape = true) {line inp name arg : Text}
    {c : Command Module} (hinp : unescaped .capb (strstrip line) = inp)
    (hhash : inp.head? ≠ some '#') (hargs : strcmdsplit 2 inp = [name, arg])
    (hfind : (commandTable reload others).find? (fun c => sameIgnoringCase name c.name) = some c) :
    processLine reload others mod line = (some (c.handler mod arg).1, (c.handler mod arg).2) := by
  have hun : strunescape .capb (strstrip line).length (strstrip line) = inp := hinp
  have hhead : (strstrip line).head? ≠ some '#' := by
    intro h
    obtain ⟨t, ht⟩ := List.head?_eq_some_iff.mp h
    rw [ht, unescaped_cons (by decide)] at hinp
    exact hhash (hinp ▸ rfl)
  unfold processLine confmoduleProcess
  dsimp only
  rw [if_neg hhead, hesc, if_pos rfl, hun, hargs]
  simp only [List.getD_cons_zero, List.getD_cons_succ]
  rw [hfind]

theorem strcmdsplit_command {name tag : Text} (hname : IsWord name) (htag : IsWord tag)
    (rest : Text) : strcmdsplit 2 (name ++ ' ' :: (tag ++ rest)) = [name, tag ++ rest] := by
  rw [strcmdsplit_word hname (by simp [isSpace]), strcmdsplit, List.dropWhile_cons,
    if_pos (by decide), htag.dropWhile]
  obtain ⟨c, r, hcons⟩ := List.exists_cons_of_ne_nil htag.1
  rw [hcons]
  rfl

theorem process_set (hesc : mod.escape = true) (htag : IsWord tag) (hb : '\\' ∉ tag)
    {q : Ref} (hget : questionGet mod.questions tag = some q) (htagged : mod.questions.Tagged mod.heap)
    (v : Text) :
    let mod' := (processLine reload others mod
      ("SET " ++ tag ++ ' ' :: escapestrFrontend v ++ ['\n'])).2
    mod'.escape = true ∧ questionGet mod'.questions tag = some q ∧
      (mod'.heap.cell q).value = some (received v) := by
  have hcell : (mod.heap.cell q).tag = tag := htagged (tag, q) (Tree.tfind_eq_some.mp hget)
  obtain ⟨rest, hsplit, hrest⟩ := split_setArg htag v
  have hprocess := processLine_command reload others mod hesc
    (unescaped_setLine htag hb v) (by simp)
    (strcmdsplit_command (isWord_of_all (by decide)) htag _)
    (c := ⟨"set", commandSet reload⟩) rfl
  have hset : (commandSet reload mod (tag ++
        if v.rdropWhile isLead = [] then [] else ' ' :: v.rdropWhile isLead)).2 =
      frontendQdbSet reload
        (mod.modify q fun c => questionSetvalue c (some (received v))) q
        (questionGetvalue mod.env (mod.heap.cell q) (some [])) := by
    unfold commandSet
    rw [hsplit]
    dsimp only
    rw [hget, hrest]
  dsimp only
  rw [hprocess]
  dsimp only
  rw [hset]
  obtain ⟨h₁, h₂, h₃⟩ := frontendQdbSet_spec reload
    (mod.modify q fun c => questionSetvalue c (some (received v))) q
    (questionGetvalue mod.env (mod.heap.cell q) (some []))
  have htag' : ((mod.modify q fun c => questionSetvalue c (some (received v))).heap.cell q).tag =
      tag := by
    rw [Module.modify_cell_self]
    exact hcell
  refine ⟨h₁.trans hesc, ?_, ?_⟩
  · rw [h₂, ← htag']
    exact questionGet_set_self _ _ q
  · rw [h₃]
    refine (questionSet_value _ _ q).trans ?_
    rw [Module.modify_cell_self]
    rfl

theorem process_get (hesc : mod.escape = true) (htag : IsWord tag) (hb : '\\' ∉ tag)
    {q : Ref} (hget : questionGet mod.questions tag = some q) {v : Text}
    (hv : (mod.heap.cell q).value = some v) :
    (processLine reload others mod ("GET ".toList ++ tag ++ ['\n'])).1 =
      some (reply .escapedData (some (escapestrFrontend v))) := by
  have hword : IsWord "GET".toList := isWord_of_all (by decide)
  have hline : unescaped .capb (strstrip ("GET ".toList ++ tag ++ ['\n'])) =
      "GET".toList ++ ' ' :: (tag ++ []) := by
    have hfront := hword.dropWhile (' ' :: (tag ++ ['\n']))
    have happ : "GET ".toList ++ tag ++ ['\n'] = "GET".toList ++ ' ' :: (tag ++ ['\n']) := by simp
    unfold strstrip
    rw [happ, hfront, ← happ, List.rdropWhile_concat_pos _ _ _ rfl, htag.rdropWhile,
      ← List.append_nil ("GET ".toList ++ tag), unescaped_append_word]
    · simp
    · rw [List.mem_append, not_or]
      exact ⟨by decide, hb⟩
  have hargs : strcmdsplit 3 (tag ++ []) = [tag] := strcmdsplit_word htag (by simp) 1
  rw [processLine_command reload others mod hesc hline (by simp) (strcmdsplit_command hword htag _)
    (c := ⟨"get".toList, commandGet⟩) rfl]
  show some (commandGet mod (tag ++ [])).1 = _
  unfold commandGet
  rw [hargs]
  dsimp only
  rw [hget]
  dsimp only
  rw [hesc, if_pos rfl, questionGetvalue, hv]
  rfl

end Commands

theorem received_eq_iff (v : Text) :
    received v = v ↔
      (∀ c ∈ v.head?, isSpace c = false) ∧ ∀ c ∈ v.getLast?, isSpace c = true → c = '\n' := by
  have hlast : v.rdropWhile isLead = v ↔ ∀ c ∈ v.getLast?, isSpace c = true → c = '\n' := by
    rw [List.rdropWhile_eq_self_iff]
    constructor
    · intro h c hc hs
      obtain ⟨hne, rfl⟩ := List.mem_getLast?_eq_getLast hc
      simpa [isLead, hs] using h hne
    · intro h hne
      have := h _ (List.getLast_mem_getLast? hne)
      simpa [isLead] using this
  have hfirst : v.dropWhile isSpace = v ↔ ∀ c ∈ v.head?, isSpace c = false := by
    cases v with
    | nil => simp
    | cons c v =>
        rw [List.dropWhile_eq_self_iff]
        simp
  rw [← hlast, ← hfirst]
  unfold received
  constructor
  · intro h
    have hsuf := (List.dropWhile_suffix isSpace (l := v.rdropWhile isLead)).length_le
    have hpre := List.rdropWhile_prefix isLead v
    rw [h] at hsuf
    have hr : v.rdropWhile isLead = v := hpre.eq_of_length_le hsuf
    rw [hr] at h
    exact ⟨h, hr⟩
  · rintro ⟨hf, hr⟩
    rw [hr, hf]

/-- The value comes back exactly if no white space stands before it, and none but newlines
behind it. -/
theorem set_get_iff (reload : Reload) (others : List (Command Module)) (mod : Module)
    (hesc : mod.escape = true) (htagged : mod.questions.Tagged mod.heap) (tag : Text)
    (hne : tag ≠ []) (htag : ∀ c ∈ tag, isSpace c = false ∧ c ≠ '\\')
    (hget : questionGet mod.questions tag ≠ none) (v : Text) :
    (∃ data, (processLine reload others (processLine reload others mod
          ("SET " ++ tag ++ ' ' :: escapestrFrontend v ++ ['\n'])).2
          ("GET " ++ tag ++ ['\n'])).1 = some (reply .escapedData (some data)) ∧
        unescaped .capb data = v) ↔
      (∀ c ∈ v.head?, isSpace c = false) ∧ ∀ c ∈ v.getLast?, isSpace c = true → c = '\n' := by
  have hword : IsWord tag := ⟨hne, fun c hc => (htag c hc).1⟩
  have hb : '\\' ∉ tag := fun h => (htag _ h).2 rfl
  obtain ⟨q, hq⟩ := Option.ne_none_iff_exists'.mp hget
  obtain ⟨hesc', hq', hv⟩ :=
    process_set reload others mod hesc hword hb hq htagged v
  rw [process_get reload others _ hesc' hword hb hq' hv, ← received_eq_iff]
  constructor
  · rintro ⟨data, hdata, rfl⟩
    have hsame : escapestrFrontend (received (unescaped .capb data)) = data := by
      simpa [reply] using hdata
    rw [escapestrFrontend_eq] at hsame
    rw [← unescaped_escaped (received (unescaped .capb data)), hsame]
  · intro h
    refine ⟨_, rfl, ?_⟩
    rw [escapestrFrontend_eq, unescaped_escaped, h]

theorem oneOwner_nodup : ["d-i".toList].Nodup := List.nodup_singleton _

/-- A module with one question. -/
def oneModule : Module where
  heap :=
    { cell := fun _ =>
        { tag := "d-i/answer", template := some (templateNew "d-i/answer")
          owners := ["d-i"], vars_nodup := noVars_nodup, owners_nodup := oneOwner_nodup }
      fresh := 1 }
  questions := { root := Tree.tsearch ∅ "d-i/answer" 0 }
  templates := templateDbSet {} (templateNew "d-i/answer")
  escape := true
  owner := "d-i"
  env := {}

theorem set_get_iff_lines :
    ∃ data, (processLine noReload [] (processLine noReload [] oneModule
          ("SET " ++ "d-i/answer" ++
            ' ' :: escapestrFrontend "one \\n\n two\n" ++ ['\n'])).2
          ("GET " ++ "d-i/answer" ++ ['\n'])).1 =
        some (reply .escapedData (some data)) ∧
      unescaped .capb data = "one \\n\n two\n" :=
  (set_get_iff noReload [] oneModule rfl (by unfold QuestionDb.Tagged; decide) _ (by decide)
    (by simp [isSpace]) (by decide) _).mpr ⟨by simp [isSpace], by simp⟩

/-- A newline before a value is lost, though it is escaped. -/
theorem set_get_newline :
    ¬ ∃ data, (processLine noReload [] (processLine noReload [] oneModule
          ("SET " ++ "d-i/answer" ++
            ' ' :: escapestrFrontend "\none" ++ ['\n'])).2
          ("GET " ++ "d-i/answer" ++ ['\n'])).1 =
        some (reply .escapedData (some data)) ∧
      unescaped .capb data = "\none" := by
  rintro ⟨data, hdata, hvalue⟩
  have hreply : (processLine noReload [] (processLine noReload [] oneModule
          ("SET " ++ "d-i/answer" ++
            ' ' :: escapestrFrontend "\none" ++ ['\n'])).2
          ("GET " ++ "d-i/answer" ++ ['\n'])).1 =
        some (reply .escapedData (some "one")) := by decide +kernel
  rw [hreply] at hdata
  obtain rfl : "one" = data := by simpa [reply] using hdata
  revert hvalue
  decide

end DebianInstaller.Debconf
