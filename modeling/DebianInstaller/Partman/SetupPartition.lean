import DebianInstaller.Text

/-!
# Files for a partition

`setup_partition` from `partman-auto/lib/recipes.sh` goes through the words of a partition in
a recipe. An item `name{ words }` is a file in the directory of the partition, with a line
for each group of words; a `;` ends a group. An item with a `$` is for the partitioner itself:
two of these names are known to the function, the others are passed over.

The line of a group is not emptied at the `;`, so it begins with the words of the groups
before it. The file is what the item says only where no group but the last has a word, and
where `echo` does not take the last one for an option.

Directories are made and files are opened here without errors of the file system. Names are
told apart as they are written.
-/

namespace DebianInstaller.Partman

open Text

variable {g : List Text} {gs : List (List Text)} {line s w : Text}

variable {n : Nat}

/-! ## The shell -/

/-- What `echo` takes for options. -/
def isEchoOption : Text → Bool
  | '-' :: c :: t => (c :: t).all fun c => c == 'n' || c == 'e' || c == 'E'
  | _ => false

/-- What `echo` of one word prints. -/
def echo (s : Text) : Text :=
  if isEchoOption s then if 'n' ∈ s then [] else ['\n'] else s ++ ['\n']

/-- The files and directories of a partition, and the dialogs with `parted_server`. -/
structure PartitionDir where
  files : Text → Option Text
  dirs : List Text
  dialogs : List (List Text)

/-- What the function is told: the flags, after the dialogs so far, and
`partman/default_filesystem`. -/
structure Answers where
  flags : List (List Text) → Text
  filesystem : Text

/-- `mkdir -p` of a directory below that of the partition. -/
def PartitionDir.mkdir (s : PartitionDir) (dir : Text) : PartitionDir :=
  { s with dirs := dir :: s.dirs }

/-- `${file%/*}`, and nothing for a file in the directory of the partition. -/
def dirOf (file : Text) : Text := (file.rdropWhile (· ≠ '/')).dropLast

/-- What is written to a file that is emptied before, if its directory is there. -/
def PartitionDir.write (s : PartitionDir) (file text : Text) : PartitionDir :=
  if dirOf file ∈ s.dirs then { s with files := Function.update s.files file (some text) } else s

/-! ## The function -/

/-- `line="${line:+$line }$1"`. -/
def addWord (line word : Text) : Text := if line = [] then word else line ++ ' ' :: word

/-- The loop over the words of an item: what is appended to its file, and the words that are
left. -/
def itemText : Text → List Text → Text × List Text
  | line, [] => (echo line, [])
  | line, w :: ws =>
      if w = "\x7d" ∨ w = [] then (echo line, w :: ws)
      else if w = ";" then (echo line ++ (itemText line ws).1, (itemText line ws).2)
      else itemText (addWord line w) ws

/-- The loops that do nothing but `shift`. -/
def toBrace (args : List Text) : List Text := args.dropWhile fun w => w ≠ "\x7d" ∧ w ≠ []

/-- The dialogs about the flags. -/
def setBootable (a : Answers) (s : PartitionDir) : PartitionDir :=
  { s with dialogs := s.dialogs ++ [["GET_FLAGS".toList],
      ["SET_FLAGS".toList, a.flags s.dialogs, "boot".toList, "NO_MORE".toList]] }

/-- The branch of `$default_filesystem`. -/
def writeFilesystem (a : Answers) (s : PartitionDir) : PartitionDir :=
  (s.mkdir []).write "filesystem" (echo a.filesystem)

/-- The branch of a file, with what is written to it. -/
def createFile (s : PartitionDir) (file text : Text) : PartitionDir :=
  (if '/' ∈ file then (s.mkdir []).mkdir (dirOf file) else s.mkdir []).write file text

/-- The loop of `setup_partition` over its arguments, for a number of rounds. -/
def setupLoop (a : Answers) : Nat → List Text → PartitionDir → Option PartitionDir
  | 0, _, _ => none
  | _ + 1, [], s => some s
  | n + 1, w :: args, s =>
      if w = [] then some s
      else if w = "$bootable\x7b" then
        setupLoop a n (toBrace (w :: args)).tail (setBootable a s)
      else if w = "$default_filesystem\x7b" then
        setupLoop a n (toBrace (w :: args)).tail (writeFilesystem a s)
      else if w.head? = some '$' ∧ w.getLast? = some '{' then
        setupLoop a n (toBrace (w :: args)).tail s
      else if w.getLast? = some '{' then
        setupLoop a n (itemText [] args).2.tail (createFile s w.dropLast (itemText [] args).1)
      else setupLoop a n args s

/-- `setup_partition` with the arguments behind the id. -/
def setupPartition (a : Answers) (args : List Text) (s : PartitionDir) : Option PartitionDir :=
  setupLoop a (args.length + 1) args s

/-! ## Recipes -/

/-- An item of a partition: whether it has a `$`, its name and its groups of words. -/
structure RecipeItem where
  internal : Bool
  name : Text
  groups : List (List Text)
  deriving DecidableEq

variable {i : RecipeItem} {is : List RecipeItem}

/-- The words of an item. -/
def RecipeItem.args (i : RecipeItem) : List Text :=
  ((if i.internal then '$' :: i.name else i.name) ++ ['{']) ::
    ([";".toList].intercalate i.groups ++ ["\x7d".toList])

/-- What a recipe has as a word within an item. -/
structure IsItemWord (w : Text) : Prop where
  ne_nil : w ≠ []
  ne_brace : w ≠ "\x7d"
  ne_semicolon : w ≠ ";"
  split : ∀ c ∈ w, isIfs c = false

theorem split_of_any (h : w.any isIfs = false) : ∀ c ∈ w, isIfs c = false :=
  fun c hc => eq_false_of_ne_true (List.any_eq_false.mp h c hc)

/-- A name does not begin with the `$` of the internal ones, and the words are split at
blanks. -/
structure RecipeItem.WellFormed (i : RecipeItem) : Prop where
  name : i.internal = false → i.name ≠ [] ∧ i.name.head? ≠ some '$'
  nameWord : ∀ c ∈ i.name, isIfs c = false
  groups : i.groups ≠ []
  words : ∀ g ∈ i.groups, ∀ w ∈ g, IsItemWord w

/-- A partition of a recipe: its limits, if they are still there, and its items. -/
structure Specification where
  limits : List Text
  items : List RecipeItem

def Specification.args (p : Specification) : List Text :=
  p.limits ++ p.items.flatMap RecipeItem.args

/-- Limits are no items. -/
structure Specification.WellFormed (p : Specification) : Prop where
  limits : ∀ w ∈ p.limits, w ≠ [] ∧ w.getLast? ≠ some '{'
  items : ∀ i ∈ p.items, i.WellFormed

/-- The words of a group with single spaces between them. -/
def joined (g : List Text) : Text := [' '].intercalate g

/-- One line for each group. -/
def groupsLines (gs : List (List Text)) : Text := gs.flatMap fun g => joined g ++ ['\n']

/-- What an item says. -/
def RecipeItem.says (i : RecipeItem) : Text := groupsLines i.groups

/-! ## One item -/

/-- The file that an item writes. -/
def RecipeItem.file (i : RecipeItem) : Option Text :=
  if i.internal then
    if i.name = "default_filesystem" then some "filesystem" else none
  else some i.name

/-- What the loop over the groups appends, with the line as it stands before them. -/
def groupsText : Text → List (List Text) → Text
  | _, [] => []
  | line, g :: gs => echo (g.foldl addWord line) ++ groupsText (g.foldl addWord line) gs

/-- What is left in the file of an item. -/
def RecipeItem.written (a : Answers) (i : RecipeItem) : Text :=
  if i.internal then echo a.filesystem else groupsText [] i.groups

/-- What an item does. -/
def RecipeItem.run (a : Answers) (i : RecipeItem) (s : PartitionDir) : PartitionDir :=
  if i.internal then
    if i.name = "bootable" then setBootable a s
    else if i.name = "default_filesystem" then writeFilesystem a s
    else s
  else createFile s i.name (groupsText [] i.groups)

theorem itemText_words (hg : ∀ w ∈ g, IsItemWord w) (line : Text) (rest : List Text) :
    itemText line (g ++ rest) = itemText (g.foldl addWord line) rest := by
  induction g generalizing line with
  | nil => rfl
  | cons w g ih =>
      obtain ⟨hw, hg⟩ := List.forall_mem_cons.mp hg
      rw [List.cons_append, itemText, if_neg (not_or.mpr ⟨hw.ne_brace, hw.ne_nil⟩),
        if_neg hw.ne_semicolon, ih hg, List.foldl_cons]

theorem itemText_groups (hne : gs ≠ []) (hgs : ∀ g ∈ gs, ∀ w ∈ g, IsItemWord w) (line : Text)
    (rest : List Text) :
    itemText line ([";".toList].intercalate gs ++ "\x7d".toList :: rest) =
      (groupsText line gs, "\x7d".toList :: rest) := by
  induction gs generalizing line with
  | nil => exact absurd rfl hne
  | cons g gs ih =>
      obtain ⟨hg, hgs⟩ := List.forall_mem_cons.mp hgs
      cases gs with
      | nil =>
          rw [List.intercalate_singleton, itemText_words hg, itemText, if_pos (.inl rfl),
            groupsText, groupsText, List.append_nil]
      | cons g' gs =>
          rw [List.intercalate_cons_cons, List.append_assoc, List.append_assoc, itemText_words hg,
            List.singleton_append, itemText, if_neg (by decide), if_pos rfl,
            ih (List.cons_ne_nil _ _) hgs]
          rfl

theorem mem_intercalate (h : w ∈ [";".toList].intercalate gs) :
    w = ";" ∨ ∃ g ∈ gs, w ∈ g := by
  induction gs with
  | nil => cases h
  | cons g gs ih =>
      cases gs with
      | nil => exact .inr ⟨g, List.mem_cons_self, by simpa using h⟩
      | cons g' gs =>
          rw [List.intercalate_cons_cons, List.append_assoc, List.mem_append,
            List.singleton_append, List.mem_cons] at h
          rcases h with h | h | h
          · exact .inr ⟨g, List.mem_cons_self, h⟩
          · exact .inl h
          · rcases ih h with h | ⟨g'', hg'', h⟩
            · exact .inl h
            · exact .inr ⟨g'', List.mem_cons_of_mem _ hg'', h⟩

theorem append_brace_ne (t : Text) : t ++ ['{'] ≠ [] ∧ t ++ ['{'] ≠ "\x7d" := by
  refine ⟨by simp, fun h => ?_⟩
  have hlast := congrArg List.getLast? h
  rw [List.getLast?_concat] at hlast
  cases hlast

theorem toBrace_args (hi : i.WellFormed) (rest : List Text) :
    toBrace (i.args ++ rest) = "\x7d".toList :: rest := by
  have hhead := append_brace_ne (if i.internal then '$' :: i.name else i.name)
  have hgo : ∀ w ∈ ((if i.internal then '$' :: i.name else i.name) ++ ['{']) ::
      [";".toList].intercalate i.groups, decide (w ≠ "\x7d".toList ∧ w ≠ []) = true := by
    intro w hw
    rw [decide_eq_true_iff]
    rcases List.mem_cons.mp hw with rfl | hw
    · exact ⟨hhead.2, hhead.1⟩
    · rcases mem_intercalate hw with rfl | ⟨g, hg, hw⟩
      · decide
      · exact ⟨(hi.words g hg w hw).ne_brace, (hi.words g hg w hw).ne_nil⟩
  have hargs : i.args ++ rest = (((if i.internal then '$' :: i.name else i.name) ++ ['{']) ::
      [";".toList].intercalate i.groups) ++ "\x7d".toList :: rest := by
    simp [RecipeItem.args]
  unfold toBrace
  rw [hargs, List.dropWhile_append_of_pos hgo, List.dropWhile_cons, if_neg (by decide)]

theorem dollar_eq_iff (t u : Text) : '$' :: t ++ ['{'] = '$' :: u ++ ['{'] ↔ t = u := by
  rw [List.append_left_inj, List.cons_inj_right]

theorem bootable_iff (t : Text) :
    '$' :: t ++ ['{'] = "$bootable\x7b" ↔ t = "bootable" := by
  rw [show "$bootable\x7b" = '$' :: "bootable" ++ ['{'] from rfl]
  exact dollar_eq_iff _ _

theorem defaultFilesystem_iff (t : Text) :
    '$' :: t ++ ['{'] = "$default_filesystem\x7b" ↔ t = "default_filesystem" := by
  rw [show "$default_filesystem\x7b" = '$' :: "default_filesystem" ++ ['{'] from rfl]
  exact dollar_eq_iff _ _

theorem setupLoop_internal (a : Answers) (n : Nat) (hi : i.WellFormed) (hint : i.internal = true)
    (rest : List Text) (s : PartitionDir) :
    setupLoop a (n + 1) (i.args ++ rest) s = setupLoop a n rest (i.run a s) := by
  have hbrace := toBrace_args hi rest
  have hhead := append_brace_ne ('$' :: i.name)
  have hlast : ('$' :: i.name ++ ['{']).getLast? = some '{' := List.getLast?_concat
  unfold RecipeItem.args at hbrace ⊢
  rw [if_pos hint, List.cons_append] at hbrace ⊢
  have hboot := bootable_iff i.name
  have hfs := defaultFilesystem_iff i.name
  rw [setupLoop, if_neg hhead.1, hbrace, List.tail_cons, RecipeItem.run, if_pos hint]
  by_cases hb : i.name = "bootable"
  · rw [if_pos (hboot.mpr hb), if_pos hb]
  · rw [if_neg (mt hboot.mp hb), if_neg hb]
    by_cases hf : i.name = "default_filesystem"
    · rw [if_pos (hfs.mpr hf), if_pos hf]
    · rw [if_neg (mt hfs.mp hf), if_neg hf, if_pos ⟨rfl, hlast⟩]

theorem setupLoop_file (a : Answers) (n : Nat) (hi : i.WellFormed) (hint : i.internal = false)
    (rest : List Text) (s : PartitionDir) :
    setupLoop a (n + 1) (i.args ++ rest) s = setupLoop a n rest (i.run a s) := by
  obtain ⟨hne, hdollar⟩ := hi.name hint
  have hhead : (i.name ++ ['{']).head? ≠ some '$' := by
    rwa [List.head?_append_of_ne_nil _ hne]
  have hnot : ∀ w : Text, w.head? = some '$' → i.name ++ ['{'] ≠ w := fun w hw h => hhead (h ▸ hw)
  have hargs : i.args ++ rest = (i.name ++ ['{']) ::
      ([";".toList].intercalate i.groups ++ "\x7d".toList :: rest) := by
    unfold RecipeItem.args
    rw [if_neg (by simp [hint])]
    simp
  rw [hargs, setupLoop, if_neg (append_brace_ne i.name).1, if_neg (hnot _ rfl),
    if_neg (hnot _ rfl), if_neg fun h => hhead h.1, if_pos List.getLast?_concat,
    itemText_groups hi.groups hi.words, List.dropLast_concat, List.tail_cons, RecipeItem.run,
    if_neg (by simp [hint])]

/-! ## A whole partition -/

theorem setupLoop_limits (a : Answers) {ws : List Text}
    (hws : ∀ w ∈ ws, w ≠ [] ∧ w.getLast? ≠ some '{') (n : Nat) (rest : List Text)
    (s : PartitionDir) : setupLoop a (n + ws.length) (ws ++ rest) s = setupLoop a n rest s := by
  induction ws with
  | nil => rfl
  | cons w ws ih =>
      obtain ⟨⟨hne, hlast⟩, hws⟩ := List.forall_mem_cons.mp hws
      have hnot : ∀ t : Text, t.getLast? = some '{' → w ≠ t := fun t ht h => hlast (h ▸ ht)
      rw [List.length_cons, ← Nat.add_assoc, List.cons_append, setupLoop, if_neg hne,
        if_neg (hnot _ rfl), if_neg (hnot _ rfl),
        if_neg fun h => hlast h.2, if_neg hlast, ih hws]

theorem setupLoop_items (a : Answers) (his : ∀ i ∈ is, i.WellFormed) (hn : is.length < n)
    (s : PartitionDir) :
    setupLoop a n (is.flatMap RecipeItem.args) s =
      some (is.foldl (fun s i => i.run a s) s) := by
  induction is generalizing n s with
  | nil =>
      obtain ⟨n, rfl⟩ := Nat.exists_eq_succ_of_ne_zero (Nat.ne_of_gt hn)
      rfl
  | cons i is ih =>
      obtain ⟨hi, his⟩ := List.forall_mem_cons.mp his
      obtain ⟨n, rfl⟩ := Nat.exists_eq_succ_of_ne_zero (Nat.ne_of_gt (Nat.zero_lt_of_lt hn))
      rw [List.flatMap_cons, List.foldl_cons, ← ih his (Nat.lt_of_succ_lt_succ hn)]
      cases hint : i.internal with
      | true => exact setupLoop_internal a _ hi hint _ s
      | false => exact setupLoop_file a _ hi hint _ s

theorem length_items_le (is : List RecipeItem) :
    is.length ≤ (is.flatMap RecipeItem.args).length := by
  induction is with
  | nil => exact Nat.le_refl _
  | cons i is ih =>
      rw [List.flatMap_cons, List.length_append, List.length_cons, RecipeItem.args,
        List.length_cons]
      omega

theorem setupPartition_eq (a : Answers) {p : Specification} (hp : p.WellFormed)
    (s : PartitionDir) :
    setupPartition a p.args s = some (p.items.foldl (fun s i => i.run a s) s) := by
  have hitems := length_items_le p.items
  have hlen : p.args.length + 1 =
      (p.items.flatMap RecipeItem.args).length + 1 + p.limits.length := by
    unfold Specification.args
    rw [List.length_append]
    omega
  unfold setupPartition
  rw [hlen, Specification.args, setupLoop_limits a hp.limits]
  exact setupLoop_items a hp.items (Nat.lt_succ_of_le hitems) s

theorem itemText_rest_le (line : Text) (args : List Text) :
    (itemText line args).2.length ≤ args.length := by
  induction args generalizing line with
  | nil => exact Nat.le_refl _
  | cons w ws ih =>
      unfold itemText
      split
      · exact Nat.le_refl _
      · split
        · exact Nat.le_succ_of_le (ih _)
        · exact Nat.le_succ_of_le (ih _)

theorem setupLoop_ends (a : Answers) {args : List Text} (hn : args.length < n) (s : PartitionDir) :
    ∃ s', setupLoop a n args s = some s' := by
  induction n generalizing args s with
  | zero => exact absurd hn (Nat.not_lt_zero _)
  | succ n ih =>
      cases args with
      | nil => exact ⟨s, rfl⟩
      | cons w args =>
          have hargs : args.length < n := Nat.lt_of_succ_lt_succ hn
          have hbrace : (toBrace (w :: args)).tail.length < n := by
            have hle : (toBrace (w :: args)).length ≤ args.length + 1 :=
              (List.dropWhile_suffix _).length_le
            rw [List.length_tail]
            omega
          have hitem : (itemText [] args).2.tail.length < n := by
            have hle := itemText_rest_le [] args
            rw [List.length_tail]
            omega
          unfold setupLoop
          split
          · exact ⟨s, rfl⟩
          · repeat' split
            · exact ih hbrace _
            · exact ih hbrace _
            · exact ih hbrace _
            · exact ih hitem _
            · exact ih hargs _

/-! ## The lines of a file -/

/-- No group but the last one has a word, and that one is not taken for an option. -/
def SaysOneGroup (gs : List (List Text)) : Prop :=
  (∀ g ∈ gs.dropLast, g = []) ∧ ∀ g ∈ gs.getLast?, isEchoOption (joined g) = false

theorem joined_cons (hg : g ≠ []) : joined (w :: g) = w ++ ' ' :: joined g := by
  unfold joined
  rw [List.intercalate_cons_of_ne_nil hg]
  simp

theorem joined_ne_nil (hne : g ≠ []) (hg : ∀ w ∈ g, IsItemWord w) : joined g ≠ [] := by
  obtain ⟨w, g, rfl⟩ := List.exists_cons_of_ne_nil hne
  have hw := (hg w List.mem_cons_self).ne_nil
  cases g with
  | nil => simpa [joined] using hw
  | cons w' g =>
      rw [joined_cons (List.cons_ne_nil _ _)]
      exact List.append_ne_nil_of_left_ne_nil hw _

theorem foldl_addWord (hg : ∀ w ∈ g, IsItemWord w) (hline : line ≠ []) : g.foldl addWord line =
      if g = [] then line else line ++ ' ' :: joined g := by
  induction g generalizing line with
  | nil => rfl
  | cons w g ih =>
      obtain ⟨hw, hg⟩ := List.forall_mem_cons.mp hg
      have hword : addWord line w = line ++ ' ' :: w := if_neg hline
      rw [List.foldl_cons, hword, ih hg (by simp), if_neg (List.cons_ne_nil _ _)]
      split
      · next h => rw [h]; simp [joined]
      · next h => rw [joined_cons h]; simp

theorem foldl_addWord_nil (hg : ∀ w ∈ g, IsItemWord w) : g.foldl addWord [] = joined g := by
  cases g with
  | nil => rfl
  | cons w g =>
      obtain ⟨hw, hg⟩ := List.forall_mem_cons.mp hg
      rw [List.foldl_cons, show addWord [] w = w from rfl, foldl_addWord hg hw.ne_nil]
      split
      · next h => rw [h]; simp [joined]
      · next h => rw [joined_cons h]

theorem newline_not_mem_joined (hg : ∀ w ∈ g, IsItemWord w) : '\n' ∉ joined g := by
  induction g with
  | nil => exact List.not_mem_nil
  | cons w g ih =>
      obtain ⟨hw, hg⟩ := List.forall_mem_cons.mp hg
      have hnot : '\n' ∉ w := fun h => absurd (hw.split _ h) (by decide)
      by_cases h : g = []
      · subst h
        simpa [joined] using hnot
      · rw [joined_cons h]
        simp [hnot, ih hg]

theorem space_not_mem_option (h : isEchoOption s = true) : ' ' ∉ s := by
  unfold isEchoOption at h
  split at h
  · next c t =>
      intro hmem
      rw [List.all_eq_true] at h
      rcases List.mem_cons.mp hmem with he | he
      · cases he
      · exact absurd (h _ he) (by decide)
  · cases h

theorem echo_of_not (h : isEchoOption s = false) : echo s = s ++ ['\n'] := by
  unfold echo
  rw [h, if_neg Bool.false_ne_true]

theorem echo_eq_iff (s : Text) : echo s = s ++ ['\n'] ↔ isEchoOption s = false := by
  refine ⟨fun h => ?_, echo_of_not⟩
  by_contra hopt
  rw [Bool.not_eq_false] at hopt
  have hne : s ≠ [] := fun hs => by
    rw [hs] at hopt
    cases hopt
  have hlen := congrArg List.length h
  have hpos := List.length_pos_of_ne_nil hne
  unfold echo at hlen
  rw [if_pos hopt, List.length_append, List.length_singleton] at hlen
  split at hlen
  · rw [List.length_nil] at hlen
    omega
  · rw [List.length_singleton] at hlen
    omega

theorem count_echo (hs : '\n' ∉ s) : (echo s).count '\n' ≤ 1 := by
  have hcount : s.count '\n' = 0 := List.count_eq_zero.mpr hs
  unfold echo
  split
  · split
    · exact Nat.zero_le _
    · exact Nat.le_refl _
  · rw [List.count_append, hcount]
    exact Nat.le_refl _

theorem newline_not_mem_foldl (hg : ∀ w ∈ g, IsItemWord w) (hline : '\n' ∉ line) :
    '\n' ∉ g.foldl addWord line := by
  by_cases h : line = []
  · rw [h, foldl_addWord_nil hg]
    exact newline_not_mem_joined hg
  · rw [foldl_addWord hg h]
    split
    · exact hline
    · simp [hline, newline_not_mem_joined hg]

theorem count_groupsText (hgs : ∀ g ∈ gs, ∀ w ∈ g, IsItemWord w) (hline : '\n' ∉ line) :
    (groupsText line gs).count '\n' ≤ gs.length := by
  induction gs generalizing line with
  | nil => exact Nat.zero_le _
  | cons g gs ih =>
      obtain ⟨hg, hgs⟩ := List.forall_mem_cons.mp hgs
      have hnl := newline_not_mem_foldl hg hline
      have hecho := count_echo hnl
      have hrest := ih hgs hnl
      rw [groupsText, List.count_append, List.length_cons]
      omega

theorem count_groupsLines (hgs : ∀ g ∈ gs, ∀ w ∈ g, IsItemWord w) :
    (groupsLines gs).count '\n' = gs.length := by
  induction gs with
  | nil => rfl
  | cons g gs ih =>
      obtain ⟨hg, hgs⟩ := List.forall_mem_cons.mp hgs
      have hcount : (joined g).count '\n' = 0 :=
        List.count_eq_zero.mpr (newline_not_mem_joined hg)
      have hih := ih hgs
      unfold groupsLines at hih ⊢
      rw [List.flatMap_cons, List.count_append, List.count_append, hcount, hih, List.length_cons]
      simp [Nat.add_comm]

theorem line_inj {t x y : Text} (hs : '\n' ∉ s) (ht : '\n' ∉ t)
    (h : s ++ ['\n'] ++ x = t ++ ['\n'] ++ y) : s = t := by
  rw [List.append_assoc, List.append_assoc, List.singleton_append, List.singleton_append] at h
  have hfirst : ∀ {u z : Text}, '\n' ∉ u → (u ++ '\n' :: z).takeWhile (· != '\n') = u := by
    intro u z hu
    have hne : ∀ c ∈ u, (c != '\n') = true := by
      intro c hc
      rw [bne_iff_ne]
      exact fun he => hu (he ▸ hc)
    rw [List.takeWhile_append_of_pos hne]
    exact List.append_nil u
  have hline := congrArg (List.takeWhile (· != '\n')) h
  rwa [hfirst hs, hfirst ht] at hline

theorem groupsText_ne {g' : List Text} (hne : g ≠ [])
    (hgs : ∀ h ∈ g :: g' :: gs, ∀ w ∈ h, IsItemWord w) :
    groupsText [] (g :: g' :: gs) ≠ groupsLines (g :: g' :: gs) := by
  obtain ⟨hg, hgs'⟩ := List.forall_mem_cons.mp hgs
  obtain ⟨hg', hgs''⟩ := List.forall_mem_cons.mp hgs'
  have hjoined := joined_ne_nil hne hg
  have hnl := newline_not_mem_joined hg
  intro heq
  have hcount := count_groupsLines hgs
  have hle := count_groupsText hgs' hnl
  rw [← heq] at hcount
  rw [groupsText, foldl_addWord_nil hg] at heq hcount
  rw [List.count_append, List.length_cons] at hcount
  unfold groupsLines at heq
  rw [List.flatMap_cons] at heq
  cases hopt : isEchoOption (joined g) with
  | true =>
      unfold echo at heq hcount
      rw [if_pos hopt] at heq hcount
      split at heq
      · next hn =>
          rw [if_pos hn, List.count_nil] at hcount
          omega
      · obtain ⟨c, t, hc⟩ := List.exists_cons_of_ne_nil hjoined
        rw [hc] at heq hnl
        obtain rfl := (List.cons.inj heq).1
        exact hnl List.mem_cons_self
  | false =>
      rw [echo_of_not hopt, List.append_cancel_left_eq, groupsText, List.flatMap_cons] at heq
      by_cases hnil : g' = []
      · subst hnil
        rw [List.foldl_nil, echo_of_not hopt] at heq
        exact hjoined (line_inj hnl List.not_mem_nil heq)
      · have hword := foldl_addWord hg' hjoined
        rw [if_neg hnil] at hword
        have hnot : isEchoOption (joined g ++ ' ' :: joined g') = false := by
          rw [Bool.eq_false_iff]
          exact fun h => space_not_mem_option h (by simp)
        rw [hword, echo_of_not hnot] at heq
        have hsame := line_inj (hword ▸ newline_not_mem_foldl hg' hnl)
          (newline_not_mem_joined hg') heq
        have hlen := congrArg List.length hsame
        rw [List.length_append, List.length_cons] at hlen
        omega

theorem groupsText_eq_iff (hgs : ∀ g ∈ gs, ∀ w ∈ g, IsItemWord w) :
    groupsText [] gs = groupsLines gs ↔ SaysOneGroup gs := by
  induction gs with
  | nil => exact iff_of_true rfl ⟨nofun, nofun⟩
  | cons g gs ih =>
      obtain ⟨hg, hgs'⟩ := List.forall_mem_cons.mp hgs
      cases gs with
      | nil =>
          have hecho := echo_eq_iff (joined g)
          unfold SaysOneGroup
          rw [groupsText, groupsText, foldl_addWord_nil hg, List.append_nil]
          simpa [groupsLines] using hecho
      | cons g' gs =>
          by_cases hne : g = []
          · subst hne
            have hlast : SaysOneGroup ([] :: g' :: gs) ↔ SaysOneGroup (g' :: gs) := by
              unfold SaysOneGroup
              rw [List.dropLast_cons_cons, List.forall_mem_cons, List.getLast?_cons_cons]
              exact and_congr_left' (and_iff_right rfl)
            rw [hlast, ← ih hgs']
            show ['\n'] ++ groupsText [] (g' :: gs) = ['\n'] ++ groupsLines (g' :: gs) ↔ _
            rw [List.append_cancel_left_eq]
          · refine iff_of_false (groupsText_ne hne hgs) fun h => hne (h.1 g ?_)
            rw [List.dropLast_cons_cons]
            exact List.mem_cons_self

/-! ## The files of a partition -/

/-- The last item that writes a file. -/
def lastWriter (is : List RecipeItem) (file : Text) : Option RecipeItem :=
  (is.filter fun i => i.file = some file).getLast?

theorem mkdir_write {s : PartitionDir} {dir file : Text} (h : dirOf file = dir) (text : Text) :
    ((s.mkdir dir).write file text).files = Function.update s.files file (some text) := by
  unfold PartitionDir.write PartitionDir.mkdir
  rw [if_pos (by rw [h]; exact List.mem_cons_self)]

theorem dirOf_of_not_mem {file : Text} (h : '/' ∉ file) : dirOf file = [] := by
  have hall : ∀ c ∈ file, decide (c ≠ '/') = true := by
    intro c hc
    rw [decide_eq_true_iff]
    rintro rfl
    exact h hc
  unfold dirOf
  rw [List.rdropWhile_eq_nil_iff.mpr hall]
  rfl

theorem createFile_files (s : PartitionDir) (file text : Text) :
    (createFile s file text).files = Function.update s.files file (some text) := by
  unfold createFile
  split
  · exact mkdir_write rfl text
  · next h => exact mkdir_write (dirOf_of_not_mem h) text

theorem createFile_dialogs (s : PartitionDir) (file text : Text) :
    (createFile s file text).dialogs = s.dialogs := by
  unfold createFile PartitionDir.write PartitionDir.mkdir
  split <;> split <;> rfl

theorem writeFilesystem_files (a : Answers) (s : PartitionDir) :
    (writeFilesystem a s).files =
      Function.update s.files "filesystem" (some (echo a.filesystem)) := by
  exact mkdir_write (dirOf_of_not_mem (by decide)) _

theorem update_file (files : Text → Option Text) (name file : Text) (text : Option Text) :
    Function.update files name text file = if some name = some file then text else files file := by
  by_cases h : name = file
  · rw [h, Function.update_self, if_pos rfl]
  · rw [Function.update_of_ne (Ne.symm h), if_neg fun he => h (Option.some.inj he)]

theorem run_files (a : Answers) (i : RecipeItem) (s : PartitionDir) (file : Text) :
    (i.run a s).files file = if i.file = some file then some (i.written a) else s.files file := by
  have hnone : (none : Option Text) ≠ some file := (Option.some_ne_none file).symm
  unfold RecipeItem.run RecipeItem.file RecipeItem.written
  cases i.internal with
  | false =>
      rw [if_neg Bool.false_ne_true, if_neg Bool.false_ne_true, if_neg Bool.false_ne_true,
        createFile_files, update_file]
  | true =>
      rw [if_pos rfl, if_pos rfl, if_pos rfl]
      by_cases hboot : i.name = "bootable"
      · have hother : "bootable".toList ≠ "default_filesystem".toList := by decide
        rw [if_pos hboot, hboot, if_neg hother, if_neg hnone]
        rfl
      · rw [if_neg hboot]
        split
        · rw [writeFilesystem_files, update_file]
        · rfl

theorem files_foldl (a : Answers) (is : List RecipeItem) (s : PartitionDir) (file : Text) :
    (is.foldl (fun s i => i.run a s) s).files file =
      match lastWriter is file with
      | some w => some (w.written a)
      | none => s.files file := by
  induction is using List.reverseRecOn with
  | nil => rfl
  | append_singleton is i ih =>
      unfold lastWriter at ih ⊢
      rw [List.foldl_append, List.foldl_cons, List.foldl_nil, run_files, List.filter_append]
      by_cases h : i.file = some file
      · rw [if_pos h, List.filter_cons_of_pos (by simpa using h), List.filter_nil,
          List.getLast?_concat]
      · rw [if_neg h, List.filter_cons_of_neg (by simpa using h), List.filter_nil,
          List.append_nil, ih]

/-- The dialogs about the flags that an item leads to. -/
def RecipeItem.dialogs (a : Answers) (dialogs : List (List Text)) (i : RecipeItem) :
    List (List Text) :=
  if i.internal ∧ i.name = "bootable" then
    dialogs ++ [["GET_FLAGS".toList],
      ["SET_FLAGS".toList, a.flags dialogs, "boot".toList, "NO_MORE".toList]]
  else dialogs

theorem run_dialogs (a : Answers) (i : RecipeItem) (s : PartitionDir) :
    (i.run a s).dialogs = i.dialogs a s.dialogs := by
  unfold RecipeItem.run RecipeItem.dialogs
  by_cases hint : i.internal = true
  · rw [if_pos hint]
    by_cases hboot : i.name = "bootable"
    · rw [if_pos hboot, if_pos ⟨hint, hboot⟩]
      rfl
    · have hnot : ¬ (i.internal = true ∧ i.name = "bootable") := fun h => hboot h.2
      rw [if_neg hnot, if_neg hboot]
      split
      · unfold writeFilesystem PartitionDir.write PartitionDir.mkdir
        split <;> rfl
      · rfl
  · rw [if_neg hint, if_neg fun h => hint h.1, createFile_dialogs]

theorem dialogs_foldl (a : Answers) (is : List RecipeItem) (s : PartitionDir) :
    (is.foldl (fun s i => i.run a s) s).dialogs = is.foldl (RecipeItem.dialogs a) s.dialogs := by
  induction is generalizing s with
  | nil => rfl
  | cons i is ih => rw [List.foldl_cons, List.foldl_cons, ih, run_dialogs]

theorem lastWriter_mem {file : Text} {w : RecipeItem} (h : lastWriter is file = some w) :
    w ∈ is ∧ w.file = some file := by
  have hmem := List.mem_of_getLast? h
  rw [List.mem_filter, decide_eq_true_iff] at hmem
  exact hmem

theorem exists_lastWriter (hi : i ∈ is) {file : Text} (hfile : i.file = some file) :
    ∃ w, lastWriter is file = some w := by
  refine Option.isSome_iff_exists.mp ?_
  unfold lastWriter
  rw [List.getLast?_isSome]
  refine List.ne_nil_of_mem (a := i) (List.mem_filter.mpr ⟨hi, decide_eq_true hfile⟩)

theorem file_regular (h : i.internal = false) : i.file = some i.name := by
  unfold RecipeItem.file
  rw [h, if_neg Bool.false_ne_true]

/-- What is left in the file of an item is what the item says. The last one that writes the
file has words in its last group only, and says the same; or it is the default file system,
and the item names this one. -/
def FilesSaid (a : Answers) (is : List RecipeItem) : Prop :=
  ∀ i ∈ is, i.internal = false → ∀ w, lastWriter is i.name = some w →
    if w.internal then echo a.filesystem = i.says else SaysOneGroup w.groups ∧ w.says = i.says

theorem files_said_iff (a : Answers) (his : ∀ i ∈ is, i.WellFormed) (s : PartitionDir) :
    (∀ i ∈ is, i.internal = false →
      (is.foldl (fun s i => i.run a s) s).files i.name = some i.says) ↔ FilesSaid a is := by
  have hwritten : ∀ w ∈ is, w.internal = false →
      (w.written a = w.says ↔ SaysOneGroup w.groups) := by
    intro w hw hint
    unfold RecipeItem.written RecipeItem.says
    rw [if_neg (by simp [hint])]
    exact groupsText_eq_iff (his w hw).words
  constructor
  · intro h i hi hint w hw
    have hsaid := h i hi hint
    rw [files_foldl, hw] at hsaid
    have hsame := Option.some.inj hsaid
    obtain ⟨hmem, hfile⟩ := lastWriter_mem hw
    cases hwi : w.internal with
    | true =>
        unfold RecipeItem.written at hsame
        rw [if_pos hwi] at hsame
        exact hsame
    | false =>
        have hname : w.name = i.name := by
          rw [file_regular hwi] at hfile
          exact Option.some.inj hfile
        have hself := h w hmem hwi
        rw [hname, files_foldl, hw] at hself
        have hown := Option.some.inj hself
        rw [if_neg Bool.false_ne_true]
        exact ⟨(hwritten w hmem hwi).mp hown, hown.symm.trans hsame⟩
  · intro h i hi hint
    obtain ⟨w, hw⟩ := exists_lastWriter hi (file_regular hint)
    have hcond := h i hi hint w hw
    rw [files_foldl, hw]
    refine congrArg some ?_
    cases hwi : w.internal with
    | true =>
        rw [if_pos hwi] at hcond
        unfold RecipeItem.written
        rw [if_pos hwi, hcond]
    | false =>
        rw [if_neg (by simp [hwi])] at hcond
        rw [(hwritten w (lastWriter_mem hw).1 hwi).mpr hcond.1, hcond.2]

/-- `setup_partition` comes to its end on all arguments. On a partition of a recipe it changes
no file but those of the items and of the default file system, it asks for nothing but the
flags, and its files hold what the items say exactly if each has one group of words. -/
theorem setupPartition_iff (a : Answers) (s : PartitionDir) :
    (∀ args, ∃ s', setupPartition a args s = some s') ∧
    ∀ p : Specification, p.WellFormed → ∃ s', setupPartition a p.args s = some s' ∧
      (∀ file, (∀ i ∈ p.items, i.file ≠ some file) → s'.files file = s.files file) ∧
      s'.dialogs = p.items.foldl (RecipeItem.dialogs a) s.dialogs ∧
      ((∀ i ∈ p.items, i.internal = false → s'.files i.name = some i.says) ↔
        FilesSaid a p.items) := by
  refine ⟨fun args => setupLoop_ends a (Nat.lt_succ_self _) s, fun p hp =>
    ⟨_, setupPartition_eq a hp s, fun file hfile => ?_, dialogs_foldl a p.items s,
      files_said_iff a hp.items s⟩⟩
  rw [files_foldl]
  cases hw : lastWriter p.items file with
  | none => rfl
  | some w => exact absurd (lastWriter_mem hw).2 (hfile w (lastWriter_mem hw).1)

/-- An empty directory, and `ext4` for the default file system. -/
def emptyDir : PartitionDir := ⟨fun _ => none, [], []⟩

def ext4 : Answers := ⟨fun _ => [], "ext4"⟩

/-- `$default_filesystem{ }` and a mount point. -/
def rootPartition : Specification where
  limits := ["900", "10000", "-1", "$default_filesystem"]
  items := [⟨true, "default_filesystem", [[]]⟩, ⟨false, "mountpoint", [["/"]]⟩]

/-- `a{ x ; y }`. -/
def twoGroups : Specification where
  limits := []
  items := [⟨false, "a", [["x"], ["y"]]⟩]

theorem setupPartition_root : ∃ s', setupPartition ext4 rootPartition.args emptyDir = some s' ∧
    s'.files "mountpoint" = some "/\n".toList := by
  have hwf : rootPartition.WellFormed := by
    refine ⟨by decide, fun i hi => ?_⟩
    rcases List.mem_cons.mp hi with rfl | hi
    · exact ⟨nofun, split_of_any rfl, List.cons_ne_nil _ _, by simp⟩
    · obtain rfl := List.mem_singleton.mp hi
      have hslash : IsItemWord "/" := ⟨by decide, by decide, by decide, split_of_any rfl⟩
      exact ⟨by decide, split_of_any rfl, List.cons_ne_nil _ _, by simpa using hslash⟩
  obtain ⟨s', hrun, -, -, hfiles⟩ := (setupPartition_iff ext4 emptyDir).2 rootPartition hwf
  refine ⟨s', hrun, hfiles.mpr (fun i hi hint w hw => ?_) _ (List.mem_cons_of_mem _
    List.mem_cons_self) rfl⟩
  rcases List.mem_cons.mp hi with rfl | hi
  · cases hint
  · obtain rfl := List.mem_singleton.mp hi
    obtain rfl := Option.some.inj hw
    exact ⟨⟨nofun, fun g hg => Option.some.inj hg ▸ rfl⟩, rfl⟩

/-- The second line begins with the first one. -/
theorem setupPartition_groups : twoGroups.WellFormed ∧
    ¬ ∃ s', setupPartition ext4 twoGroups.args emptyDir = some s' ∧
      ∀ i ∈ twoGroups.items, i.internal = false → s'.files i.name = some i.says := by
  have hwf : twoGroups.WellFormed := by
    refine ⟨nofun, fun i hi => ?_⟩
    obtain rfl := List.mem_singleton.mp hi
    have hx : IsItemWord "x" := ⟨by decide, by decide, by decide, split_of_any rfl⟩
    have hy : IsItemWord "y" := ⟨by decide, by decide, by decide, split_of_any rfl⟩
    exact ⟨by decide, split_of_any rfl, List.cons_ne_nil _ _, by simpa using ⟨hx, hy⟩⟩
  refine ⟨hwf, ?_⟩
  rintro ⟨s', hrun, hall⟩
  obtain rfl := Option.some.inj ((setupPartition_eq ext4 hwf emptyDir).symm.trans hrun)
  have hsaid := (files_said_iff ext4 hwf.items emptyDir).mp hall _ List.mem_cons_self rfl
    _ (show lastWriter twoGroups.items "a" = some _ from rfl)
  have hempty := hsaid.1.1 ["x"] List.mem_cons_self
  cases hempty

end DebianInstaller.Partman
