import DebianInstaller.Text

/-!
# The words of a status

The status of a package is a set of flags in three groups: what is wanted, whether there is
a problem, and what state the package is in. `status_parse` sets one flag of each group or
none at all, and every assignment of `udpkg` clears a group before it sets a flag of it, so
a group never has two flags. A group is therefore an optional word here, and the status `0`
has no words.

`status_parse` looks for the next blank behind each word and goes on there. If there is no
blank it goes on at the address 1 and the program is stopped, which is `none` here.
-/

namespace DebianInstaller.Udpkg

/-- `STATUS_WANT…`. -/
inductive Want where
  | unknown
  | install
  | hold
  | deinstall
  | purge
  deriving DecidableEq, Repr

/-- `STATUS_FLAG…`. -/
inductive Flag where
  | ok
  | reinstreq
  | hold
  | holdReinstreq
  deriving DecidableEq, Repr

/-- `STATUS_STATUS…`. -/
inductive State where
  | notInstalled
  | unpacked
  | halfConfigured
  | installed
  | halfInstalled
  | configFiles
  | postInstFailed
  | removalFailed
  deriving DecidableEq, Repr

/-- The flags of a package. -/
structure Status where
  want : Option Want := none
  flag : Option Flag := none
  state : Option State := none
  deriving DecidableEq, Repr

/-! ## `statuswords` -/

def Want.all : List Want := [.unknown, .install, .hold, .deinstall, .purge]

def Want.word : Want → Text
  | .unknown => "unknown"
  | .install => "install"
  | .hold => "hold"
  | .deinstall => "deinstall"
  | .purge => "purge"

def Flag.all : List Flag := [.ok, .reinstreq, .hold, .holdReinstreq]

def Flag.word : Flag → Text
  | .ok => "ok"
  | .reinstreq => "reinstreq"
  | .hold => "hold"
  | .holdReinstreq => "hold-reinstreq"

def State.all : List State :=
  [.notInstalled, .unpacked, .halfConfigured, .installed, .halfInstalled, .configFiles,
    .postInstFailed, .removalFailed]

def State.word : State → Text
  | .notInstalled => "not-installed"
  | .unpacked => "unpacked"
  | .halfConfigured => "half-configured"
  | .installed => "installed"
  | .halfInstalled => "half-installed"
  | .configFiles => "config-files"
  | .postInstFailed => "post-inst-failed"
  | .removalFailed => "removal-failed"

/-! ## The code -/

/-- The word up to the next blank, and what is behind the blank. -/
def nextWord (line : Text) : Text × Option Text :=
  (line.takeWhile (· != ' '), (line.dropWhile (· != ' ')).tail?)

/-- `status_parse`. -/
def statusParse (line : Text) : Option Status :=
  match Want.all.find? (·.word = (nextWord line).1) with
  | none => some {}
  | some want =>
      match (nextWord line).2 with
      | none => none
      | some line =>
          match Flag.all.find? (·.word = (nextWord line).1) with
          | none => some {}
          | some flag =>
              match (nextWord line).2 with
              | none => none
              | some line =>
                  match State.all.find? (·.word = (nextWord line).1) with
                  | none => some {}
                  | some state => some ⟨some want, some flag, some state⟩

/-- `status_print`; `NULL` if a group has no flag. -/
def statusPrint (flags : Status) : Option Text :=
  match flags with
  | ⟨some want, some flag, some state⟩ =>
      some (want.word ++ ' ' :: (flag.word ++ ' ' :: state.word))
  | _ => none

/-- `%s` prints a `NULL` so. -/
def null : Text := "(null)"

def printed (t : Option Text) : Text := t.getD null

/-! ## Printing and parsing -/

/-- One word of each group. -/
def Status.full (want : Want) (flag : Flag) (state : State) : Status :=
  ⟨some want, some flag, some state⟩

theorem nextWord_append {w : Text} (h : ' ' ∉ w) (r : Text) :
    nextWord (w ++ ' ' :: r) = (w, some r) := by
  have hw : ∀ c ∈ w, (c != ' ') = true := by
    intro c hc
    simp only [bne_iff_ne, ne_eq]
    rintro rfl
    exact h hc
  rw [nextWord, List.takeWhile_append_of_pos hw, List.dropWhile_append_of_pos hw]
  simp

theorem nextWord_last {w : Text} (h : ' ' ∉ w) : nextWord w = (w, none) := by
  have hw : ∀ c ∈ w, (c != ' ') = true := by
    intro c hc
    simp only [bne_iff_ne, ne_eq]
    rintro rfl
    exact h hc
  rw [nextWord, List.takeWhile_eq_self_iff.mpr hw, List.dropWhile_eq_nil_iff.mpr hw]
  rfl

theorem Want.find_word (w : Want) : Want.all.find? (·.word = w.word) = some w := by
  cases w <;> decide

theorem Flag.find_word (f : Flag) : Flag.all.find? (·.word = f.word) = some f := by
  cases f <;> decide

theorem State.find_word (s : State) : State.all.find? (·.word = s.word) = some s := by
  cases s <;> decide

theorem statusParse_print (want : Want) (flag : Flag) (state : State) :
    statusParse (printed (statusPrint (.full want flag state))) =
      some (.full want flag state) := by
  have hwant : ' ' ∉ want.word := by cases want <;> decide
  have hflag : ' ' ∉ flag.word := by cases flag <;> decide
  have hstate : ' ' ∉ state.word := by cases state <;> decide
  show statusParse (want.word ++ ' ' :: (flag.word ++ ' ' :: state.word)) = _
  simp only [statusParse, nextWord_append hwant, Want.find_word, nextWord_append hflag,
    Flag.find_word, nextWord_last hstate, State.find_word, Status.full]

theorem statusParse_null : statusParse null = some {} := by
  decide

theorem printed_fits (s : Status) :
    '\n' ∉ printed (statusPrint s) ∧ (printed (statusPrint s)).length ≤ 100 := by
  have hnull : '\n' ∉ null ∧ null.length ≤ 100 := by decide
  rcases s with ⟨_ | want, _ | flag, _ | state⟩
  all_goals try exact hnull
  have hwant : '\n' ∉ want.word ∧ want.word.length ≤ 20 := by cases want <;> decide
  have hflag : '\n' ∉ flag.word ∧ flag.word.length ≤ 20 := by cases flag <;> decide
  have hstate : '\n' ∉ state.word ∧ state.word.length ≤ 20 := by cases state <;> decide
  show '\n' ∉ want.word ++ ' ' :: (flag.word ++ ' ' :: state.word) ∧
    (want.word ++ ' ' :: (flag.word ++ ' ' :: state.word)).length ≤ 100
  simp only [List.mem_append, List.mem_cons, List.length_append, List.length_cons]
  refine ⟨?_, by omega⟩
  rintro (h | h | h | h | h)
  · exact hwant.1 h
  · exact absurd h (by decide)
  · exact hflag.1 h
  · exact absurd h (by decide)
  · exact hstate.1 h

end DebianInstaller.Udpkg
