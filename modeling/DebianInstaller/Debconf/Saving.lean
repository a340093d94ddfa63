import DebianInstaller.Debconf.Commands

/-!
# What is saved

`rfc822db_question_save` writes the file only if a change has marked the database.
`FSET` and `UNREGISTER` change a question in place and mark nothing, and once a
database is marked it stays so. What has been saved is therefore what is in memory as
long as the changes of these two come after a marked one, the file was as it is
written in the first place, and the writing succeeds: `confmodule_save` collects the
results with `|=`, starting from `DC_OK`, and reports a failure to save as a success.
-/

namespace DebianInstaller.Debconf

open Text Lib

variable {arg file : Text} {db : QuestionDb} {f : Question → Question} {h : Heap} {mod : Module}
  {q : Ref}

/-! ## `X_SAVE` -/

/-- `confmodule_save` marks that translations are dropped. A question without a value
there is where `strcmp` reads a null pointer. -/
def markTranslations (mod : Module) : Option Module :=
  if mod.env.dropTranslations then
    match questionGet mod.questions "debconf/translations-dropped" with
    | none => some mod
    | some q =>
        match questionGetvalue mod.env (mod.heap.cell q) (some []) with
        | none => none
        | some v =>
            if v ≠ "true" then
              some ((mod.modify q fun c => questionSetvalue c (some "true")).set q)
            else some mod
  else some mod

/-- `confmodule_save`, where no question has been shown yet, with the file of the
questions, how writing it goes, and what saving the templates gives. -/
def confmoduleSave (mod : Module) (file : Option Text) (r : WriteResult) (templates : Status) :
    Option (Status × Module × Option Text) :=
  (markTranslations mod).map fun mod =>
    let saved := questionSave mod.heap mod.questions file r
    let ret := Status.ok.code ||| saved.1.code ||| templates.code
    (if ret ≠ Status.ok.code then .notOk else .ok, mod, saved.2)

/-- `command_x_save`. -/
def commandXSave (mod : Module) (arg : Text) (file : Option Text) (r : WriteResult)
    (templates : Status) : Option (Text × Module × Option Text) :=
  match strcmdsplit 2 arg with
  | [] =>
      (confmoduleSave mod file r templates).map fun s =>
        (if s.1 = .ok then reply .success (some "OK")
          else reply .internalError (some "not OK"), s.2)
  | _ => some (incorrectArgs, mod, file)

/-! ## Runs -/

/-- The commands that change questions. -/
inductive Change where
  | set
  | reset
  | subst
  | fset
  | register
  | unregister
  | purge
  deriving DecidableEq

def Change.handler (reload : Reload) : Change → Module → Text → Text × Module
  | .set => commandSet reload
  | .reset => commandReset
  | .subst => commandSubst
  | .fset => commandFset
  | .register => commandRegister
  | .unregister => commandUnregister
  | .purge => commandPurge

/-- The module after some commands. -/
def afterChanges (reload : Reload) (mod : Module) (cs : List (Change × Text)) : Module :=
  cs.foldl (fun mod c => (c.1.handler reload mod c.2).2) mod

/-- A module whose questions have been loaded from a file. -/
def Module.loaded (heap : Heap) (tdb : TemplateDb) (file : Text) (escape : Bool) (owner : Text)
    (env : Env) : Module :=
  let s := questionLoad ⟨heap, {}, tdb⟩ file
  { heap := s.heap, questions := s.db, templates := s.tdb, escape := escape, owner := owner
    env := env }

/-- A command whose change is marked, by itself or because the database is marked
already, or that changes nothing: `FSET` of a flag that is as it is set, `UNREGISTER` of
what the module does not own. -/
def Marked (mod : Module) : Change → Text → Prop
  | .fset, arg =>
      mod.questions.dirty = true ∨
        ∀ tag field value q, strcmdsplit 5 arg = [tag, field, value] →
          questionGet mod.questions tag = some q → (fsetFlag field value).1 = "seen" →
          (mod.heap.cell q).seen = (fsetFlag field value).2
  | .unregister, arg =>
      mod.questions.dirty = true ∨
        ∀ tag q, strcmdsplit 3 arg = [tag] → questionGet mod.questions tag = some q →
          mod.owner ∉ (mod.heap.cell q).owners
  | _, _ => True

/-- All commands of a run are such commands where they are handled. -/
def AllMarked (reload : Reload) : Module → List (Change × Text) → Prop
  | _, [] => True
  | mod, c :: cs => Marked mod c.1 c.2 ∧ AllMarked reload (c.1.handler reload mod c.2).2 cs

/-- The file is as it would be written, unless the database is marked. -/
def Accounted (file : Text) (mod : Module) : Prop :=
  mod.questions.dirty = true ∨ dumpFile mod.heap mod.questions = file

/-! ## Sound databases -/

/-- What is found under a tag is a question in memory that has it. -/
def Sound (h : Heap) (db : QuestionDb) : Prop :=
  ∀ tag r, questionGet db tag = some r → (h.cell r).tag = tag ∧ r < h.fresh

theorem Sound.modify (hs : Sound h db) (hf : ∀ c, (f c).tag = c.tag) : Sound (h.modify q f) db := by
  intro tag r hr
  refine ⟨?_, (hs tag r hr).2⟩
  by_cases hq : r = q
  · rw [hq, modify_cell_self, hf, ← hq]
    exact (hs tag r hr).1
  · rw [modify_cell_of_ne f hq]
    exact (hs tag r hr).1

theorem Sound.alloc (hs : Sound h db) (c : Question) : Sound (h.alloc c).2 db := by
  intro tag r hr
  have hlt := (hs tag r hr).2
  refine ⟨?_, Nat.lt_succ_of_lt hlt⟩
  have hcell : (h.alloc c).2.cell r = h.cell r := Function.update_of_ne (Nat.ne_of_lt hlt) ..
  rw [hcell]
  exact (hs tag r hr).1

theorem questionSet_fresh (h : Heap) (db : QuestionDb) (q : Ref) :
    (questionSet h db q).1.fresh = h.fresh := by
  unfold questionSet
  dsimp only
  split <;> rfl

theorem Sound.set (hs : Sound h db) (hq : q < h.fresh) :
    Sound (questionSet h db q).1 (questionSet h db q).2 := by
  intro tag r hr
  rw [(questionSet_cell h db q r).1, questionSet_fresh]
  by_cases htag : tag = (h.cell q).tag
  · rw [htag, questionGet_set_self] at hr
    rw [← Option.some.inj hr, htag]
    exact ⟨rfl, hq⟩
  · rw [questionGet_set_of_ne htag] at hr
    exact hs tag r hr

theorem Sound.remove (hs : Sound h db) (tag : Text) : Sound h (questionRemove db tag).2 := by
  intro tag' r hr
  by_cases htag : tag' = tag
  · rw [htag, questionGet_remove_self] at hr
    cases hr
  · rw [questionGet_remove_of_ne htag] at hr
    exact hs tag' r hr

theorem questionDisown_marks (hs : Sound h db) (tag owner : Text) :
    Sound (questionDisown h db tag owner).2.1 (questionDisown h db tag owner).2.2 ∧
      ((questionDisown h db tag owner).2 = (h, db) ∨
        (questionDisown h db tag owner).2.2.dirty = true) := by
  unfold questionDisown
  cases hget : questionGet db tag with
  | none => exact ⟨hs, .inl rfl⟩
  | some q =>
      have hdel : ∀ c, (questionOwnerDelete c owner).tag = c.tag := fun _ => rfl
      have hmod : Sound (h.modify q fun c => questionOwnerDelete c owner) db := hs.modify hdel
      dsimp only
      split
      · refine ⟨hmod.remove _, .inr ?_⟩
        have htag := (hmod tag q hget).1
        have hfind : db.root.tfind tag = some q := hget
        rw [htag]
        simp only [questionRemove, hfind]
      · exact ⟨hmod.set (hs tag q hget).2, .inr rfl⟩

theorem questionDisownall_marks (hs : Sound h db) (owner : Text) :
    Sound (questionDisownall h db owner).1 (questionDisownall h db owner).2 ∧
      (questionDisownall h db owner = (h, db) ∨ (questionDisownall h db owner).2.dirty = true) := by
  unfold questionDisownall
  generalize (db.root.nodes.map fun n => questionDup (h.cell n.2)) = qs
  induction qs generalizing h db with
  | nil => exact ⟨hs, .inl rfl⟩
  | cons q qs ih =>
      obtain ⟨hs', hmarks⟩ := questionDisown_marks hs q.tag owner
      rw [List.foldl_cons]
      obtain ⟨hsound, hrest⟩ := ih hs'
      refine ⟨hsound, ?_⟩
      rcases hmarks with hsame | hd
      · rw [hsame] at hrest ⊢
        exact hrest
      · rcases hrest with hrest | hrest
        · refine .inr ?_
          rw [hrest]
          exact hd
        · exact .inr hrest

/-! ## Steps -/

theorem Module.modify_eq_self (h : f (mod.heap.cell q) = mod.heap.cell q) :
    mod.modify q f = mod := by
  unfold Module.modify Heap.modify
  rw [h, Function.update_eq_self]

/-- A module that is left as it is or whose database is marked. -/
def Marks (mod mod' : Module) : Prop :=
  Sound mod'.heap mod'.questions ∧ (mod' = mod ∨ mod'.questions.dirty = true)

theorem Sound.modifyModule (hs : Sound mod.heap mod.questions) (hf : ∀ c, (f c).tag = c.tag) :
    Sound (mod.modify q f).heap (mod.modify q f).questions := hs.modify hf

theorem frontendQdbSet_marks (reload : Reload) (mod₀ : Module) (hs : Sound mod.heap mod.questions)
    (hq : q < mod.heap.fresh) (prev : Option Text) :
    Marks mod₀ (frontendQdbSet reload mod q prev) := by
  have hset : Sound (mod.set q).heap (mod.set q).questions := hs.set hq
  unfold frontendQdbSet
  dsimp only
  split
  · split
    · exact ⟨hset, .inr rfl⟩
    · exact ⟨hset, .inr rfl⟩
  · split
    · exact ⟨hset, .inr rfl⟩
    · split
      · exact ⟨hset, .inr rfl⟩
      · exact ⟨hset, .inr rfl⟩

theorem modify_set_marks (mod₀ : Module) (hs : Sound mod.heap mod.questions)
    (hq : q < mod.heap.fresh) (hf : ∀ c, (f c).tag = c.tag) : Marks mod₀ ((mod.modify q f).set q) :=
  ⟨(hs.modify hf).set hq, .inr rfl⟩

section Handlers

variable {mod : Module} (hs : Sound mod.heap mod.questions)

include hs

theorem Marks.refl : Marks mod mod := ⟨hs, .inl rfl⟩

theorem commandSet_marks (reload : Reload) (arg : Text) :
    Marks mod (commandSet reload mod arg).2 := by
  unfold commandSet
  split
  · next tag rest _ =>
      split
      · exact .refl hs
      · next q hget =>
          have hmod : Sound (mod.modify q fun c => questionSetvalue c (some (rest.headD []))).heap
              (mod.modify q fun c => questionSetvalue c (some (rest.headD []))).questions :=
            hs.modifyModule fun _ => rfl
          exact frontendQdbSet_marks reload mod hmod (hs tag q hget).2 _
  · exact .refl hs

theorem commandReset_marks (arg : Text) : Marks mod (commandReset mod arg).2 := by
  unfold commandReset
  split
  · split
    · exact .refl hs
    · next q hget =>
        exact modify_set_marks mod hs (hs _ q hget).2 fun _ => rfl
  · exact .refl hs

theorem commandSubst_marks (arg : Text) : Marks mod (commandSubst mod arg).2 := by
  unfold commandSubst
  split
  · split
    · exact .refl hs
    · next q hget =>
        exact modify_set_marks mod hs (hs _ q hget).2 fun _ => rfl
  · exact .refl hs

theorem questionFor_sound (tag : Text) :
    Sound (mod.questionFor tag).2.heap (mod.questionFor tag).2.questions ∧
      (mod.questionFor tag).1 < (mod.questionFor tag).2.heap.fresh := by
  unfold Module.questionFor
  split
  · next q hget => exact ⟨hs, (hs _ q hget).2⟩
  · exact ⟨hs.alloc _, Nat.lt_succ_self _⟩

theorem commandRegister_marks (arg : Text) : Marks mod (commandRegister mod arg).2 := by
  unfold commandRegister
  split
  · split
    · exact .refl hs
    · next tag _ _ t _ =>
        obtain ⟨hsound, hlt⟩ := questionFor_sound hs tag
        exact modify_set_marks mod hsound hlt fun _ => rfl
  · exact .refl hs

theorem commandPurge_marks (arg : Text) : Marks mod (commandPurge mod arg).2 := by
  obtain ⟨hsound, hmarks⟩ := questionDisownall_marks hs mod.owner
  refine ⟨hsound, ?_⟩
  rcases hmarks with hsame | hd
  · refine .inl ?_
    show ({ mod with heap := _, questions := _ } : Module) = mod
    rw [hsame]
  · exact .inr hd

theorem commandFset_marks (hm : Marked mod .fset arg) : Marks mod (commandFset mod arg).2 := by
  have hflag : ∀ (c : Question) (flag : Text) (on : Bool),
      (flag = "seen" → c.seen = on) →
      (if on then questionSetFlag c flag else questionClearFlag c flag) = c := by
    intro c flag on hkeep
    by_cases hseen : flag = "seen"
    · have hc := hkeep hseen
      subst hseen
      cases on <;> simp [questionSetFlag, questionClearFlag, flagValue, ← hc]
    · have hv : flagValue flag = false := by simpa [flagValue] using hseen
      cases on <;> simp [questionSetFlag, questionClearFlag, hv]
  unfold commandFset
  split
  · next tag field value hsplit =>
      split
      · exact .refl hs
      · next q hget =>
          show Marks mod (mod.modify q fun c => if (fsetFlag field value).2 then
            questionSetFlag c (fsetFlag field value).1
            else questionClearFlag c (fsetFlag field value).1)
          refine ⟨hs.modifyModule fun c => ?_, ?_⟩
          · split <;> rfl
          · rcases hm with hd | hkeep
            · exact .inr hd
            · exact .inl (Module.modify_eq_self
                (hflag _ _ _ (hkeep tag field value q hsplit hget)))
  · exact .refl hs

theorem commandUnregister_marks (hm : Marked mod .unregister arg) :
    Marks mod (commandUnregister mod arg).2 := by
  unfold commandUnregister
  split
  · next tag hsplit =>
      split
      · exact .refl hs
      · next q hget =>
          refine ⟨hs.modifyModule fun c => rfl, ?_⟩
          rcases hm with hd | hkeep
          · exact .inr hd
          · refine .inl (Module.modify_eq_self ?_)
            have hkeep := hkeep tag q hsplit hget
            refine Question.ext rfl rfl rfl rfl rfl ?_
            refine List.filter_eq_self.mpr fun o ho => decide_eq_true ?_
            rintro rfl
            exact hkeep ho
  · exact .refl hs

end Handlers

theorem handler_marks (reload : Reload) (hs : Sound mod.heap mod.questions) {c : Change}
    (hm : Marked mod c arg) : Marks mod (c.handler reload mod arg).2 := by
  cases c with
  | set => exact commandSet_marks hs reload arg
  | reset => exact commandReset_marks hs arg
  | subst => exact commandSubst_marks hs arg
  | fset => exact commandFset_marks hs hm
  | register => exact commandRegister_marks hs arg
  | unregister => exact commandUnregister_marks hs hm
  | purge => exact commandPurge_marks hs arg

theorem afterChanges_accounted (reload : Reload) (cs : List (Change × Text))
    (hs : Sound mod.heap mod.questions) (hfile : Accounted file mod)
    (hm : AllMarked reload mod cs) :
    Sound (afterChanges reload mod cs).heap (afterChanges reload mod cs).questions ∧
      Accounted file (afterChanges reload mod cs) := by
  induction cs generalizing mod with
  | nil => exact ⟨hs, hfile⟩
  | cons c cs ih =>
      obtain ⟨hmark, hrest⟩ := hm
      obtain ⟨hsound, hsame | hd⟩ := handler_marks reload hs hmark
      · have hfile' : Accounted file (c.1.handler reload mod c.2).2 := by
          rw [hsame]
          exact hfile
        exact ih hsound hfile' hrest
      · exact ih hsound (.inl hd) hrest

/-! ## Saving -/

theorem questionLoad_sound {s : Loading} (hs : Sound s.heap s.db) (file : Text) :
    Sound (questionLoad s file).heap (questionLoad s file).db := by
  unfold questionLoad
  induction parseFile file generalizing s with
  | nil => exact hs
  | cons stanza stanzas ih =>
      refine ih ?_
      unfold loadQuestion
      split
      · exact hs
      · next q tdb _ =>
          intro tag r hr
          have hr' : (s.db.root.tsearch q.tag s.heap.fresh).tfind tag = some r := hr
          by_cases htag : tag = q.tag
          · rw [htag, Tree.tfind_tsearch_self] at hr'
            cases hf : s.db.root.tfind q.tag with
            | some r' =>
                rw [hf] at hr'
                obtain rfl : r' = r := Option.some.inj hr'
                exact htag ▸ (hs.alloc q) q.tag r' hf
            | none =>
                rw [hf] at hr'
                obtain rfl : s.heap.fresh = r := Option.some.inj hr'
                refine ⟨?_, Nat.lt_succ_self _⟩
                have hcell : (s.heap.alloc q).2.cell s.heap.fresh = q := Function.update_self ..
                show ((s.heap.alloc q).2.cell s.heap.fresh).tag = tag
                rw [hcell, htag]
          · rw [Tree.tfind_tsearch_of_ne htag] at hr'
            exact (hs.alloc q) tag r hr'

theorem markTranslations_accounted {mod' : Module} (hfile : Accounted file mod)
    (h : markTranslations mod = some mod') : Accounted file mod' := by
  unfold markTranslations at h
  split at h
  · split at h
    · exact Option.some.inj h ▸ hfile
    · split at h
      · cases h
      · split at h
        · exact .inl (Option.some.inj h ▸ rfl)
        · exact Option.some.inj h ▸ hfile
  · exact Option.some.inj h ▸ hfile

theorem commandXSave_accounted {mod' : Module} {out : Text} {file' : Option Text}
    {templates : Status} (hfile : Accounted file mod)
    (hout : out = reply .success (some "OK"))
    (h : commandXSave mod arg (some file) .written templates = some (out, mod', file')) :
    file' = some (dumpFile mod'.heap mod'.questions) := by
  unfold commandXSave at h
  split at h
  · obtain ⟨⟨st, mod₁, file₁⟩, hsave, heq⟩ := Option.map_eq_some_iff.mp h
    obtain ⟨-, htail⟩ := Prod.mk.inj heq
    obtain ⟨rfl, rfl⟩ := Prod.mk.inj htail
    unfold confmoduleSave at hsave
    obtain ⟨mod₂, hmark, heq⟩ := Option.map_eq_some_iff.mp hsave
    have hacc := markTranslations_accounted hfile hmark
    obtain ⟨-, rfl, rfl⟩ : _ ∧ mod₂ = mod₁ ∧ _ = file₁ := by simpa using heq
    unfold questionSave
    cases hd : mod₂.questions.dirty with
    | true => rfl
    | false =>
        rcases hacc with hacc | hacc
        · rw [hd] at hacc
          cases hacc
        · rw [hacc]
          rfl
  · obtain ⟨rfl, -, -⟩ : incorrectArgs = out ∧ mod = mod' ∧ some file = file' := by simpa using h
    exact absurd hout (by decide)

/-- If the file is as it is written, each `FSET` and `UNREGISTER` that changes something
comes after a change that is marked, and the writing goes well, then the file has what is
in memory when `X_SAVE` reports success. -/
theorem saved_of_marked (reload : Reload) (heap : Heap) (tdb : TemplateDb) (file : Text)
    (escape : Bool) (owner : Text) (env : Env) (cs : List (Change × Text)) (arg : Text)
    (templates : Status)
    (hwritten : dumpFile (Module.loaded heap tdb file escape owner env).heap
      (Module.loaded heap tdb file escape owner env).questions = file)
    (hm : AllMarked reload (Module.loaded heap tdb file escape owner env) cs)
    (mod' : Module) (file' : Option Text)
    (hsave : commandXSave
        (afterChanges reload (Module.loaded heap tdb file escape owner env) cs) arg (some file)
        .written templates = some (reply .success (some "OK"), mod', file')) :
    file' = some (dumpFile mod'.heap mod'.questions) := by
  have hsound : Sound (Module.loaded heap tdb file escape owner env).heap
      (Module.loaded heap tdb file escape owner env).questions :=
    questionLoad_sound (fun _ _ h => by cases h) file
  exact commandXSave_accounted (afterChanges_accounted reload cs hsound (.inr hwritten) hm).2 rfl
    hsave

/-- A file with one question. -/
def answerFile : Text :=
  "Name: d-i/answer\nTemplate: d-i/answer\nOwners: d-i\n\n"

def answerModule : Module :=
  Module.loaded ⟨fun _ => questionNew [], 0⟩ (templateDbSet {} (templateNew "d-i/answer"))
    answerFile true "d-i" {}

/-- `SET` marks the database for the commands after it. -/
theorem saved_of_marked_answer :
    ∃ mod' file', commandXSave (afterChanges noReload answerModule
          [(.set, "d-i/answer yes"), (.fset, "d-i/answer seen true"),
            (.unregister, "d-i/answer")]) [] (some answerFile) .written .ok =
        some (reply .success (some "OK"), mod', file') ∧
      file' = some (dumpFile mod'.heap mod'.questions) := by
  have hreply : (commandXSave (afterChanges noReload answerModule
          [(.set, "d-i/answer yes"), (.fset, "d-i/answer seen true"),
            (.unregister, "d-i/answer")]) [] (some answerFile) .written .ok).map Prod.fst =
        some (reply .success (some "OK")) := by decide
  obtain ⟨⟨out, mod', file'⟩, hsave, rfl⟩ := Option.map_eq_some_iff.mp hreply
  refine ⟨mod', file', hsave, saved_of_marked noReload _ _ _ _ _ _ _ _ _ ?_ ?_ _ _ hsave⟩
  · decide
  · exact ⟨trivial, .inl (by decide), .inl (by decide), trivial⟩

/-- `FSET` alone is lost, and `X_SAVE` reports success. -/
theorem fset_not_saved :
    ∃ mod' file', commandXSave (afterChanges noReload answerModule
          [(.fset, "d-i/answer seen true")]) [] (some answerFile) .written .ok =
        some (reply .success (some "OK"), mod', file') ∧
      file' ≠ some (dumpFile mod'.heap mod'.questions) := by
  have hreply : (commandXSave (afterChanges noReload answerModule
          [(.fset, "d-i/answer seen true")]) [] (some answerFile) .written .ok).map
          (fun s => (s.1, decide (s.2.2 = some (dumpFile s.2.1.heap s.2.1.questions)))) =
        some (reply .success (some "OK"), false) := by decide
  obtain ⟨⟨out, mod', file'⟩, hsave, hout⟩ := Option.map_eq_some_iff.mp hreply
  obtain ⟨rfl, hfile⟩ := Prod.mk.inj hout
  exact ⟨mod', file', hsave, of_decide_eq_false hfile⟩

end DebianInstaller.Debconf
