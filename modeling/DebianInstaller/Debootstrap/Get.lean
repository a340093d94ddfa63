import DebianInstaller.Debootstrap.Words
import DebianInstaller.Lib.Regime
import Mathlib.Data.List.Lex
import Mathlib.Data.Char

/-!
# Fetching a file

`get` fetches a file for which one or more checksums are known, each for another compression, and
takes what it has fetched only if it has the checksum. Its parameters are words, three for each
compression, and it goes through these in the order of the sizes. A file that is there already
is taken if it has the first of the checksums, and as it is if there is none.

What lies outside the script is a parameter: which programs there are, what they print and what
they unpack. What the requests are answered, one after the other, is part of the state.
Messages about progress are left out, and so is what `dest` is made into where it is a relative
path or there is a cache, since that names the same file.
-/

namespace DebianInstaller.Debootstrap.Download

open Programs Text

variable {args : List Text} {w : Text}

variable {c : Text × Text} {k : ℕ} {typ : Text}

/-- What a file can contain: its size is an `off_t`. -/
abbrev Content := { t : Text // t.length < 2 ^ 63 }

variable {data : Content}

/-- A path, in its two parts `${path%/*}` and `${path##*/}`. -/
structure Path where
  dir : Text
  base : Text
  deriving DecidableEq

variable {p : Path} {q : Path}

/-- The path with something at its end. -/
def Path.addExt (p : Path) (ext : Text) : Path := { p with base := p.base ++ ext }

/-- `dir/partial/base` -/
def Path.inPartial (p : Path) : Path := { p with dir := p.dir ++ "/partial" }

/-- What comes of a request: the command has fetched the file, it has failed and perhaps left
something, or there is no such file to copy. -/
inductive Response where
  | fetched (content : Content)
  | failed (left : Option Content)
  | missing
  deriving DecidableEq

/-- What is at the place of the file after the command. -/
def Response.written : Response → Option Content
  | .fetched content => some content
  | .failed left => left
  | .missing => none

/-- A word that has nothing of a pattern, or of an option of `echo`. -/
def isPlain (w : Text) : Bool := w = ['-'] || w.all fun c => c.isAlphanum || c == '.'

/-- What the script finds around it. -/
structure Shell where
  /-- `in_path` -/
  inPath : Text → Bool
  /-- `DEBOOTSTRAP_CHECKSUM_FIELD` -/
  field : Text
  /-- `SHA_SIZE` -/
  shaSize : Text
  /-- What a program prints about a file, up to the first blank. -/
  digest : Text → Content → Text
  /-- What a program makes of a file that it can unpack. -/
  unpack : Text → Content → Option Content
  /-- `[ -d … ]` -/
  isDir : Text → Bool
  /-- The file names that a word stands for. -/
  glob : Text → List Text
  glob_plain : ∀ w, isPlain w = true → glob w = [w]

/-- A call of `just_get`, the checksum that its file is to have, and what came of it. -/
structure Fetch where
  src : Text
  checksum : Text
  response : Response
  deriving DecidableEq

/-- The files, what was fetched, and what the next requests are answered. -/
structure World where
  files : Path → Option Content
  fetched : List Fetch
  answers : List Response

variable {w₀ : World} {P : World → Prop}

/-- What `error` ends the script with. -/
structure Failure where
  name : Text
  message : Text
  world : World

/-- A part of the script. -/
abbrev Run := Prog World Failure

/-- `error 1 name message` -/
def error {α : Type} (name message : Text) : Run α := do
  let w ← MonadState.get
  throw ⟨name, message, w⟩

/-- `[ -e path ]` and `[ -f path ]` -/
def fileExists (path : Path) : Run Bool := do
  let w ← MonadState.get
  return (w.files path).isSome

/-- `rm -f` -/
def rm (path : Path) : Run PUnit :=
  modify fun w => { w with files := Function.update w.files path none }

def write (path : Path) (content : Content) : Run PUnit :=
  modify fun w => { w with files := Function.update w.files path (some content) }

/-- `mv` -/
def mv (src dest : Path) : Run PUnit := do
  let w ← MonadState.get
  match w.files src with
  | none => return ⟨⟩
  | some content => do
      rm src
      write dest content

/-! ## `verify_checksum` -/

/-- The value of decimal digits. -/
def digits (w : Text) : Option ℤ := if Text.isNumber w then some (Text.number w) else none

/-- A number for `[`: an `intmax_t`. -/
def intmax (w : Text) : Option ℤ :=
  let n :=
    match w with
    | '-' :: d => (digits d).map Neg.neg
    | '+' :: d => digits d
    | d => digits d
  n.filter fun n => -2 ^ 63 ≤ n ∧ n < 2 ^ 63

/-- `[ a -ne b ]`, which is an error and not true where one is no number. -/
def testNe (a b : Text) : Bool :=
  match intmax a, intmax b with
  | some m, some n => m != n
  | _, _ => false

namespace Shell

variable (sh : Shell)

/-- The programs that print checksums. -/
def checksumPrograms : List Text :=
  if sh.field = "MD5SUM" then ["md5sum", "md5"]
  else ["sha" ++ sh.shaSize ++ "sum", "sha" ++ sh.shaSize]

/-- `verify_checksum` -/
def verifyChecksum (dest : Path) (expchecksum expsize : Text) : Run Bool := do
  match sh.checksumPrograms.find? sh.inPath with
  | none =>
      error "SIGCHECK"
        ("Cannot check " ++ sh.checksumPrograms.head?.getD [])
  | some program => do
      let w ← MonadState.get
      let relchecksum := (w.files dest).elim [] (sh.digest program)
      let relsize := (w.files dest).elim [] fun content => Nat.toDigits 10 content.1.length
      return !(testNe expsize relsize || expchecksum != relchecksum)

end Shell

/-! ## `just_get` -/

/-- `just_get`: whether it returns 0. That `cp` or `scp` failed makes no difference. -/
def justGet (response : Response) (src : Text) (dest : Path) : Run Bool :=
  if "null:" <+: src then
    error "NOTPREDL" (src.drop 5 ++ " was not pre-downloaded")
  else if "http://" <+: src ∨ "https://" <+: src ∨ "ftp://" <+: src then
    match response with
    | .fetched content => do
        write dest content
        return true
    | _ => do
        rm dest
        return false
  else if "file:" <+: src then
    match response with
    | .missing => return false
    | _ => do
        response.written.forM (write dest)
        return true
  else if "ssh:" <+: src then
    if src = "ssh://" then return false
    else do
      response.written.forM (write dest)
      return true
  else error "UNKNOWNLOC" ("unknown location " ++ src)

/-! ## `get` -/

/-- `just_get`, noted down. -/
def fetch (checksum src : Text) (dest : Path) : Run Bool := do
  let w ← MonadState.get
  let response := w.answers.headD .missing
  modify fun w => { w with
    fetched := w.fetched ++ [⟨src, checksum, response⟩], answers := w.answers.tail }
  justGet response src dest

/-- `eval echo \${…}` -/
def Shell.evalEcho (sh : Shell) (w : Text) : Text := Text.joinWords ((expand w).flatMap sh.glob)

/-- `${a}`, counted from one. -/
def param (args : List Text) (a : ℕ) : Text :=
  match a with
  | 0 => []
  | a + 1 => args[a]?.getD []

/-- The number that a line begins with, as `sort -n` reads it. -/
def sortNumber (line : Text) : ℤ :=
  match line with
  | '-' :: d => -(Text.number (d.takeWhile Char.isDigit) : ℤ)
  | d => Text.number (d.takeWhile Char.isDigit)

/-- `order`: where the compressions stand among the parameters. -/
def order (args : List Text) : List ℕ :=
  if 3 < args.length then
    let st := if param args 3 = ['-'] then 4 else 1
    let line (a : ℕ) : Text := param args (a + 1) ++ ' ' :: Nat.toDigits 10 a
    ((List.range args.length).map fun k => st + 3 * k)
      |>.filter (· ≤ args.length)
      |>.mergeSort fun a b =>
          sortNumber (line a) < sortNumber (line b) ∨
            (sortNumber (line a) = sortNumber (line b) ∧ line a ≤ line b)
  else [1]

/-- What is added to the name of a file of a type, and the program that takes it away. -/
def compression (typ : Text) : Option (Text × Text) :=
  if typ = "xz" then some (".xz", "unxz")
  else if typ = "bz2" then some (".bz2", "bunzip2")
  else if typ = "gz" then some (".gz", "gunzip")
  else none

/-- The text that a type adds to a name. -/
def extOf (typ : Text) : Text := (compression typ).elim [] Prod.fst

/-- `dirname` -/
def dirname (path : Text) : Text :=
  if '/' ∈ path then
    let dir := (path.rdropWhile (· ≠ '/')).rdropWhile (· = '/')
    if dir = [] then ['/'] else dir
  else ['.']

namespace Shell

variable (sh : Shell)

/-- `gunzip` and its like: nothing is written over. -/
def unpackFile (program : Text) (src dest : Path) : Run PUnit := do
  let w ← MonadState.get
  if (w.files dest).isSome || !sh.inPath program then return ⟨⟩
  else
    match (w.files src).bind (sh.unpack program) with
    | none => return ⟨⟩
    | some content => do
        rm src
        write dest content

/-- Where a file is by its checksum. -/
def hashed (checksum src : Text) : Text :=
  dirname src ++ "/by-hash/SHA" ++ sh.shaSize ++ '/' :: checksum

/-- The request by checksum, where that is asked for. -/
def fetchByHash (byhash : Bool) (checksum src : Text) (dest2 : Path) : Run Bool :=
  let from2 := if checksum ≠ [] ∧ byhash then sh.hashed checksum src else []
  if from2 = [] then return false else fetch checksum from2 dest2

/-- The file that a round looks at is there already, or it is fetched. -/
def fill (byhash : Bool) (checksum src : Text) (dest2 : Path) : Run Bool := do
  let there ← fileExists dest2
  if there then return true
  else do
    let hashed ← sh.fetchByHash byhash checksum src dest2
    if hashed then return true else fetch checksum src dest2

/-- Without a checksum any file is as good. -/
def validate (checksum siz : Text) (dest2 : Path) : Run Bool :=
  if checksum = [] then return true else sh.verifyChecksum dest2 checksum siz

/-- What happens to a file that has the checksum. -/
def accept (typ : Text) (dest2 dest destBase : Path) : Run PUnit := do
  if dest2 ≠ dest then mv dest2 dest
  (compression typ).forM fun c => sh.unpackFile c.2 dest destBase

/-- `dest2`: in the directory `partial`, where there is one. -/
def dest2 (dest : Path) : Path :=
  if sh.isDir (dest.dir ++ "/partial") then dest.inPartial else dest

/-- The loop that tries a source again, with the rounds that are left: whether `get` returns. -/
def attempts (byhash : Bool) (checksum siz typ src : Text) (destBase : Path) : ℕ → Run Bool
  | 0 => return false
  | iters + 1 => do
      let dest := destBase.addExt (extOf typ)
      let dest2 := sh.dest2 dest
      let got ← sh.fill byhash checksum src dest2
      if !got then return false
      else do
        let verified ← sh.validate checksum siz dest2
        if verified then do
          sh.accept typ dest2 dest destBase
          return true
        else do
          rm dest2
          attempts byhash checksum siz typ src destBase iters

/-- The compressions, one after the other. -/
def retrieve (byhash : Bool) (args : List Text) (fromBase : Text) (destBase : Path) :
    List ℕ → Run Bool
  | [] => return false
  | a :: as => do
      let checksum := sh.evalEcho (param args a)
      let siz := sh.evalEcho (param args (a + 1))
      let typ := sh.evalEcho (param args (a + 2))
      let src := fromBase ++ extOf typ
      let done ← sh.attempts byhash checksum siz typ src destBase 10
      if done then return true
      else retrieve byhash args fromBase destBase as

/-- What `get` does about a file that is there: whether it returns. -/
def settled (nocache : Bool) (args : List Text) (destBase : Path) : Run Bool := do
  let there ← fileExists destBase
  if !there then return false
  else if param args 1 = [] then return true
  else if nocache then do
    rm destBase
    return false
  else do
    let verified ← sh.verifyChecksum destBase (param args 1) (param args 2)
    if verified then return true
    else do
      rm destBase
      return false

/-- `get` after its first parameters are shifted away. -/
def getWith (nocache byhash : Bool) (fromBase : Text) (destBase : Path) (args : List Text) :
    Run Bool := do
  let done ← sh.settled nocache args destBase
  if done then return true
  else sh.retrieve byhash args fromBase destBase (order args)

/-- `get`: whether it returns 0. -/
def get (fromBase : Text) (destBase : Path) (args : List Text) : Run Bool :=
  if param args 1 = "nocache" then sh.getWith true false fromBase destBase args.tail
  else if param args 1 = "byhash" then sh.getWith false true fromBase destBase args.tail
  else sh.getWith false false fromBase destBase args

end Shell

/-! ## What the parts touch -/

/-- Nothing was fetched without a checksum. -/
def Checked (w : World) : Prop := ∀ f ∈ w.fetched, f.checksum ≠ []

/-- What is known of the files says nothing about this one. -/
structure Ignores (P : World → Prop) (path : Path) : Prop where
  checked : ∀ w, P w → Checked w
  only : ∀ w w', P w → (∀ p, p ≠ path → w'.files p = w.files p) → Checked w' → P w'

/-- The script may end wherever nothing was fetched without a checksum. -/
def Failure.checked (e : Failure) : Prop := Checked e.world

section Files

variable {P : World → Prop} {path : Path}

theorem update_other {files : Path → Option Content} {c : Option Content} (h : p ≠ path) :
    Function.update files path c p = files p :=
  Function.update_of_ne h c files

theorem error_triple {α : Type} {Q : α → World → Prop} (name message : Text)
    (hP : ∀ w, P w → Checked w) : Triple P (error name message : Run α) Q Failure.checked := by
  intro w hw
  exact hP w hw

theorem rm_triple (h : Ignores P path) :
    Triple P (rm path) (fun _ w => P w ∧ w.files path = none) Failure.checked := by
  refine Triple.modify fun w hw => ⟨?_, Function.update_self _ _ _⟩
  exact h.only w _ hw (fun p hp => update_other hp) (h.checked w hw)

theorem write_triple (h : Ignores P path) (content : Content) :
    Triple P (write path content) (fun _ w => P w ∧ w.files path = some content)
      Failure.checked := by
  refine Triple.modify fun w hw => ⟨?_, Function.update_self _ _ _⟩
  exact h.only w _ hw (fun p hp => update_other hp) (h.checked w hw)

theorem fileExists_triple :
    Triple P (fileExists path) (fun there w => P w ∧ there = (w.files path).isSome)
      Failure.checked := by
  intro w hw
  exact ⟨hw, rfl⟩

theorem written_triple (h : Ignores P path) (written : Option Content) :
    Triple P (written.forM (write path)) (fun _ w => P w) Failure.checked := by
  cases written with
  | none => exact Triple.pure fun w hw => hw
  | some content =>
      exact (write_triple h content).weaken (fun w hw => hw) fun _ w hw => hw.1

end Files

namespace Shell

variable {sh : Shell} {P : World → Prop} {path : Path} {checksum siz typ src : Text}

theorem justGet_triple (h : Ignores P path) (response : Response) (src : Text) :
    Triple (fun w => P w ∧ w.files path = none) (justGet response src path)
      (fun got w => P w ∧ (got = false → w.files path = none)) Failure.checked := by
  have hchecked : ∀ w, P w ∧ w.files path = none → Checked w := fun w hw => h.checked w hw.1
  have hwritten (written : Option Content) :
      Triple (fun w => P w ∧ w.files path = none)
        (do written.forM (write path); return true)
        (fun got w => P w ∧ (got = false → w.files path = none)) Failure.checked := by
    refine Triple.bind (Q := fun _ w => P w) ?_ fun _ => Triple.pure fun w hw => ⟨hw, by simp⟩
    exact (written_triple h written).weaken (fun w hw => hw.1) fun _ w hw => hw
  have hfalse : Triple (fun w => P w ∧ w.files path = none) (return false : Run Bool)
      (fun got w => P w ∧ (got = false → w.files path = none)) Failure.checked :=
    Triple.pure fun w hw => ⟨hw.1, fun _ => hw.2⟩
  unfold justGet
  split
  · exact error_triple _ _ hchecked
  · split
    · split
      · refine Triple.bind (Q := fun _ w => P w) ?_ fun _ => Triple.pure fun w hw => ⟨hw, by simp⟩
        exact (write_triple h _).weaken (fun w hw => hw.1) fun _ w hw => hw.1
      · refine Triple.bind (Q := fun _ w => P w ∧ w.files path = none) ?_ fun _ => hfalse
        exact (rm_triple h).weaken (fun w hw => hw.1) fun _ w hw => hw
    · split
      · split
        · exact hfalse
        · exact hwritten _
      · split
        · split
          · exact hfalse
          · exact hwritten _
        · exact error_triple _ _ hchecked

theorem fetch_triple (h : Ignores P path) (hchecksum : checksum ≠ []) (src : Text) :
    Triple (fun w => P w ∧ w.files path = none) (fetch checksum src path)
      (fun got w => P w ∧ (got = false → w.files path = none)) Failure.checked := by
  refine Triple.bind (Q := fun _ w => P w ∧ w.files path = none)
    (Triple.get fun w hw => hw) fun w₀ => ?_
  refine Triple.bind (Q := fun _ w => P w ∧ w.files path = none) ?_
    fun _ => justGet_triple h _ src
  refine Triple.modify fun w hw => ⟨h.only w _ hw.1 (fun _ _ => rfl) ?_, hw.2⟩
  intro f hf
  rcases List.mem_append.mp hf with hf | hf
  · exact h.checked w hw.1 f hf
  · rw [List.mem_singleton.mp hf]
    exact hchecksum

/-- What a file is that `verify_checksum` accepts. -/
def Passes (sh : Shell) (content : Content) (checksum siz : Text) : Prop :=
  ∃ program, sh.checksumPrograms.find? sh.inPath = some program ∧
    sh.digest program content = checksum ∧
    testNe siz (Nat.toDigits 10 content.1.length) = false

theorem verifyChecksum_triple (hP : ∀ w, P w → Checked w) (hchecksum : checksum ≠ []) :
    Triple P (sh.verifyChecksum path checksum siz)
      (fun ok w => P w ∧
        (ok = true → ∃ content, w.files path = some content ∧ sh.Passes content checksum siz))
      Failure.checked := by
  rw [verifyChecksum]
  split
  · exact error_triple _ _ hP
  · next program hprogram =>
      refine Triple.bind (Q := fun w w' => P w' ∧ w = w') (Triple.get fun w hw => ⟨hw, rfl⟩)
        fun w => Triple.pure fun w' hw => ⟨hw.1, fun hok => ?_⟩
      obtain ⟨hw, rfl⟩ := hw
      simp only [Bool.not_eq_true', Bool.or_eq_false_iff, bne_eq_false_iff_eq] at hok
      cases hfile : w.files path with
      | none =>
          rw [hfile] at hok
          exact absurd hok.2 hchecksum
      | some content =>
          rw [hfile] at hok
          exact ⟨content, rfl, program, hprogram, hok.2.symm, hok.1⟩

end Shell

/-! ## The places of a file -/

/-- What the names end in of the files that are fetched for a file. -/
def exts : List Text := [[], ".xz", ".bz2", ".gz"]

/-- Where something is written when this file is fetched. -/
def Path.Place (dest p : Path) : Prop :=
  ∃ ext ∈ exts, p = dest.addExt ext ∨ p = (dest.addExt ext).inPartial

theorem Path.addExt_nil (p : Path) : p.addExt [] = p := by
  rw [addExt, List.append_nil]

theorem Path.addExt_ne {ext : Text} (h : ext ≠ []) (p : Path) : p.addExt ext ≠ p := by
  intro heq
  have hbase : p.base ++ ext = p.base := congrArg base heq
  exact h (List.append_right_eq_self.mp hbase)

theorem Path.inPartial_dir_ne (p : Path) : p.inPartial.dir ≠ p.dir := by
  intro heq
  have hdir : p.dir ++ "/partial" = p.dir := heq
  exact absurd (List.append_right_eq_self.mp hdir) (by decide)

theorem Path.place_self (p : Path) : p.Place p :=
  ⟨[], List.mem_cons_self, .inl p.addExt_nil.symm⟩

theorem extOf_mem (typ : Text) : extOf typ ∈ exts := by
  unfold extOf compression
  split_ifs <;> decide

theorem extOf_none (h : compression typ = none) : extOf typ = [] := by
  rw [extOf, h]
  rfl

theorem extOf_ne_nil (h : compression typ = some c) : extOf typ ≠ [] := by
  unfold extOf
  revert h
  unfold compression
  split_ifs <;> simp

/-- Only the places of the file have changed, and nothing was fetched without a checksum. -/
def Apart (dest : Path) (w₀ w : World) : Prop :=
  Checked w ∧ ∀ p, ¬ dest.Place p → w.files p = w₀.files p

theorem Apart.ignores {dest : Path} (hp : dest.Place p) (w₀ : World) :
    Ignores (fun w => Apart dest w₀ w ∧ (p ≠ dest → w.files dest = none)) p where
  checked w hw := hw.1.1
  only w w' hw hfiles hchecked := by
    refine ⟨⟨hchecked, fun q hq => ?_⟩, fun hne => ?_⟩
    · have hqp : q ≠ p := fun heq => hq (heq ▸ hp)
      rw [hfiles q hqp, hw.1.2 q hq]
    · rw [hfiles dest (Ne.symm hne), hw.2 hne]

namespace Shell

variable {sh : Shell} {dest : Path} {checksum siz typ src : Text} {byhash : Bool}

/-- What `get` makes of a file of a type that has the checksum. -/
def Makes (sh : Shell) (typ : Text) (data content : Content) : Prop :=
  match compression typ with
  | none => content = data
  | some c => sh.unpack c.2 data = some content

/-- Whatever has the checksum can be unpacked if it has to be. -/
def Unpacks (sh : Shell) (checksum siz typ : Text) : Prop :=
  ∀ c, compression typ = some c → ∀ data, sh.Passes data checksum siz →
    sh.inPath c.2 = true ∧ (sh.unpack c.2 data).isSome = true

/-- What is at its place is made of a file that has the checksum. -/
structure Made (sh : Shell) (checksum siz typ : Text) (dest : Path) (w : World) : Prop where
  made : ∀ content, w.files dest = some content →
    ∃ data, sh.Passes data checksum siz ∧ sh.Makes typ data content
  there : sh.Unpacks checksum siz typ → (w.files dest).isSome = true

theorem mv_triple (hp : dest.Place p) (hq : dest.Place q) (hpd : p ≠ dest) :
    Triple
      (fun w => (Apart dest w₀ w ∧ (p ≠ dest → w.files dest = none)) ∧ w.files p = some data)
      (mv p q)
      (fun _ w => (Apart dest w₀ w ∧ (q ≠ dest → w.files dest = none)) ∧ w.files q = some data)
      Failure.checked := by
  intro w hw
  obtain ⟨⟨hapart, hnone⟩, hdata⟩ := hw
  have hrun : mv p q w =
      .ok (⟨⟩, { w with
        files := Function.update (Function.update w.files p none) q (some data) }) := by
    rw [mv, get_run, hdata]
    rfl
  rw [hrun]
  refine ⟨⟨⟨hapart.1, fun r hr => ?_⟩, fun hqd => ?_⟩, Function.update_self _ _ _⟩
  · have hrq : r ≠ q := fun heq => hr (heq ▸ hq)
    have hrp : r ≠ p := fun heq => hr (heq ▸ hp)
    show Function.update (Function.update w.files p none) q (some data) r = w₀.files r
    rw [update_other hrq, update_other hrp, hapart.2 r hr]
  · show Function.update (Function.update w.files p none) q (some data) dest = none
    rw [update_other (Ne.symm hqd), update_other (Ne.symm hpd), hnone hpd]

theorem unpackFile_triple (hq : dest.Place q) (hqd : q ≠ dest) (hc : compression typ = some c)
    (hdata : sh.Passes data checksum siz) :
    Triple
      (fun w => (Apart dest w₀ w ∧ (q ≠ dest → w.files dest = none)) ∧ w.files q = some data)
      (sh.unpackFile c.2 q dest)
      (fun _ w => Apart dest w₀ w ∧ sh.Made checksum siz typ dest w) Failure.checked := by
  intro w hw
  obtain ⟨⟨hapart, hnone⟩, hfile⟩ := hw
  have hnothing : ¬ (sh.inPath c.2 = true ∧ (sh.unpack c.2 data).isSome = true) →
      Apart dest w₀ w ∧ sh.Made checksum siz typ dest w := by
    refine fun hfails => ⟨hapart, ?_, fun hunpacks => absurd (hunpacks c hc data hdata) hfails⟩
    intro content hcontent
    rw [hnone hqd] at hcontent
    cases hcontent
  rw [unpackFile, get_run, hnone hqd, hfile, Option.bind_some]
  by_cases hin : sh.inPath c.2 = true
  · rw [if_neg (by simp [hin])]
    cases hunpack : sh.unpack c.2 data with
    | none => exact hnothing fun h => by simp [hunpack] at h
    | some content =>
        have hself : Function.update (Function.update w.files q none) dest (some content) dest =
            some content := Function.update_self _ _ _
        refine ⟨⟨hapart.1, fun r hr => ?_⟩, fun content' hcontent' => ?_, fun _ => ?_⟩
        · have hrd : r ≠ dest := fun heq => hr (heq ▸ dest.place_self)
          have hrq : r ≠ q := fun heq => hr (heq ▸ hq)
          show Function.update (Function.update w.files q none) dest (some content) r = _
          rw [update_other hrd, update_other hrq, hapart.2 r hr]
        · obtain rfl := Option.some.inj (hself.symm.trans hcontent')
          refine ⟨data, hdata, ?_⟩
          rw [Makes, hc]
          exact hunpack
        · exact congrArg Option.isSome hself
  · rw [if_pos (by simp [hin])]
    exact hnothing fun h => hin h.1

theorem fill_triple (h : Ignores P dest) (hchecksum : checksum ≠ []) :
    Triple P (sh.fill byhash checksum src dest)
      (fun got w => P w ∧ (got = false → w.files dest = none)) Failure.checked := by
  refine Triple.bind fileExists_triple fun there => ?_
  cases there with
  | true => exact Triple.pure fun w hw => ⟨hw.1, by simp⟩
  | false =>
      have hnone : ∀ w, P w ∧ false = (w.files dest).isSome → P w ∧ w.files dest = none := by
        intro w hw
        have hfile : (w.files dest).isNone = true := by simpa using hw.2.symm
        exact ⟨hw.1, Option.isNone_iff_eq_none.mp hfile⟩
      have hhash : Triple (fun w => P w ∧ false = (w.files dest).isSome)
          (sh.fetchByHash byhash checksum src dest)
          (fun got w => P w ∧ (got = false → w.files dest = none)) Failure.checked := by
        unfold fetchByHash
        extract_lets from2
        split
        · exact Triple.pure fun w hw => ⟨hw.1, fun _ => (hnone w hw).2⟩
        · exact (fetch_triple h hchecksum _).weaken hnone fun _ _ hw => hw
      refine Triple.bind hhash fun hashed => ?_
      cases hashed with
      | true => exact Triple.pure fun w hw => ⟨hw.1, by simp⟩
      | false =>
          exact (fetch_triple h hchecksum src).weaken (fun w hw => ⟨hw.1, hw.2 rfl⟩)
            fun _ _ hw => hw

theorem validate_triple (hP : ∀ w, P w → Checked w) (hchecksum : checksum ≠ []) :
    Triple P (sh.validate checksum siz dest)
      (fun ok w => P w ∧
        (ok = true → ∃ content, w.files dest = some content ∧ sh.Passes content checksum siz))
      Failure.checked := by
  rw [validate, if_neg hchecksum]
  exact verifyChecksum_triple hP hchecksum

theorem accept_triple {dest2 : Path} (hdest2 : dest.Place dest2)
    (hne : dest2 ≠ dest.addExt (extOf typ) → dest2 ≠ dest) (hdata : sh.Passes data checksum siz) :
    Triple
      (fun w => (Apart dest w₀ w ∧ (dest2 ≠ dest → w.files dest = none)) ∧
        w.files dest2 = some data)
      (sh.accept typ dest2 (dest.addExt (extOf typ)) dest)
      (fun _ w => Apart dest w₀ w ∧ sh.Made checksum siz typ dest w) Failure.checked := by
  have hplace : dest.Place (dest.addExt (extOf typ)) := ⟨extOf typ, extOf_mem typ, .inl rfl⟩
  have hunpack :
      Triple
        (fun w => (Apart dest w₀ w ∧ (dest.addExt (extOf typ) ≠ dest → w.files dest = none)) ∧
          w.files (dest.addExt (extOf typ)) = some data)
        ((compression typ).forM fun c => sh.unpackFile c.2 (dest.addExt (extOf typ)) dest)
        (fun _ w => Apart dest w₀ w ∧ sh.Made checksum siz typ dest w) Failure.checked := by
    cases hc : compression typ with
    | none =>
        refine Triple.pure fun w hw => ⟨hw.1.1, fun content hcontent => ?_, fun _ => ?_⟩
        · have hfile := hw.2
          rw [extOf_none hc, Path.addExt_nil, hcontent] at hfile
          refine ⟨data, hdata, ?_⟩
          rw [Makes, hc]
          exact Option.some.inj hfile
        · have hfile := hw.2
          rw [extOf_none hc, Path.addExt_nil] at hfile
          exact congrArg Option.isSome hfile
    | some c =>
        exact unpackFile_triple hplace (Path.addExt_ne (extOf_ne_nil hc) dest) hc hdata
  unfold accept
  by_cases heq : dest2 = dest.addExt (extOf typ)
  · subst heq
    simpa using hunpack
  · rw [if_pos heq]
    exact (mv_triple hdest2 hplace (hne heq)).bind fun _ => hunpack

theorem place_dest2 (sh : Shell) (typ : Text) (dest : Path) :
    dest.Place (sh.dest2 (dest.addExt (extOf typ))) ∧
      (sh.dest2 (dest.addExt (extOf typ)) ≠ dest.addExt (extOf typ) →
        sh.dest2 (dest.addExt (extOf typ)) ≠ dest) := by
  unfold dest2
  split
  · refine ⟨⟨extOf typ, extOf_mem typ, .inr rfl⟩, fun _ heq => ?_⟩
    have hdir : (dest.addExt (extOf typ)).inPartial.dir = dest.dir := congrArg Path.dir heq
    exact Path.inPartial_dir_ne (dest.addExt (extOf typ)) hdir
  · exact ⟨⟨extOf typ, extOf_mem typ, .inl rfl⟩, fun hne => absurd rfl hne⟩

theorem attempts_triple (hchecksum : checksum ≠ []) (w₀ : World) (n : ℕ) :
    Triple (fun w => Apart dest w₀ w ∧ w.files dest = none)
      (sh.attempts byhash checksum siz typ src dest n)
      (fun done w => Apart dest w₀ w ∧
        if done then sh.Made checksum siz typ dest w else w.files dest = none)
      Failure.checked := by
  induction n with
  | zero => exact Triple.pure fun w hw => hw
  | succ n ih =>
      rw [attempts]
      obtain ⟨hplace, hne⟩ := place_dest2 sh typ dest
      generalize sh.dest2 (dest.addExt (extOf typ)) = dest2 at hplace hne ⊢
      have hignores := Apart.ignores hplace w₀
      refine Triple.bind ((fill_triple hignores hchecksum).weaken
        (fun w hw => ⟨hw.1, fun _ => hw.2⟩) fun _ _ hw => hw) fun got => ?_
      cases got with
      | false =>
          refine Triple.pure fun w hw => ⟨hw.1.1, ?_⟩
          by_cases heq : dest2 = dest
          · exact heq ▸ hw.2 rfl
          · exact hw.1.2 heq
      | true =>
          refine Triple.bind ((validate_triple hignores.checked hchecksum).weaken
            (fun w hw => hw.1) fun _ _ hw => hw) fun verified => ?_
          cases verified with
          | true =>
              refine Triple.bind (Q := fun _ w => Apart dest w₀ w ∧
                sh.Made checksum siz typ dest w) ?_ fun _ => Triple.pure fun w hw => hw
              intro w hw
              obtain ⟨data, hdata, hpasses⟩ := hw.2 rfl
              exact accept_triple hplace hne hpasses w ⟨hw.1, hdata⟩
          | false =>
              refine Triple.bind (((rm_triple hignores).weaken (fun w hw => hw.1)
                fun _ w hw => ?_)) fun _ => ih
              refine ⟨hw.1.1, ?_⟩
              by_cases heq : dest2 = dest
              · exact heq ▸ hw.2
              · exact hw.1.2 heq

end Shell

/-! ## The parameters -/

/-- A checksum that is known, the size, and the compression that they are of. -/
structure Sum where
  checksum : Text
  siz : Text
  typ : Text
  deriving DecidableEq

/-- The parameters of `get` after `byhash`. -/
def parameters (sums : List Sum) : List Text :=
  sums.flatMap fun sum => [sum.checksum, sum.siz, sum.typ]

/-- Words that the shell leaves alone, and that are no words of `get` itself. -/
structure Sum.Good (sum : Sum) : Prop where
  checksum : isPlain sum.checksum = true
  siz : isPlain sum.siz = true
  typ : isPlain sum.typ = true
  ne_nil : sum.checksum ≠ []
  ne_nocache : sum.checksum ≠ "nocache"
  ne_byhash : sum.checksum ≠ "byhash"

theorem isPlain_of_all (h : ∀ c ∈ w, (c.isAlphanum || c == '.') = true) : isPlain w = true :=
  Bool.or_eq_true_iff.mpr (.inr (List.all_eq_true.mpr h))

theorem isIfs_of_isPlain (h : isPlain w = true) : ∀ c ∈ w, isIfs c = false := by
  intro c hc
  rcases Bool.or_eq_true_iff.mp h with hdash | hall
  · rw [of_decide_eq_true hdash, List.mem_singleton] at hc
    rw [hc]
    rfl
  have hplain := List.all_eq_true.mp hall c hc
  by_contra hifs
  rw [Bool.not_eq_false] at hifs
  simp only [isIfs, Bool.or_eq_true, beq_iff_eq] at hifs
  rcases hifs with (rfl | rfl) | rfl <;> exact absurd hplain (by decide)

theorem Shell.evalEcho_plain (sh : Shell) (h : isPlain w = true) : sh.evalEcho w = w := by
  by_cases hne : w = []
  · subst hne
    rfl
  · rw [evalEcho, expand_word (isIfs_of_isPlain h) hne, List.flatMap_singleton, sh.glob_plain w h]
    rfl

theorem length_parameters (sums : List Sum) : (parameters sums).length = 3 * sums.length := by
  induction sums with
  | nil => rfl
  | cons sum sums ih =>
      show (parameters sums).length + 1 + 1 + 1 = 3 * (sums.length + 1)
      omega

theorem param_parameters {sums : List Sum} {sum : Sum} (h : sums[k]? = some sum) :
    param (parameters sums) (3 * k + 1) = sum.checksum ∧
      param (parameters sums) (3 * k + 2) = sum.siz ∧
      param (parameters sums) (3 * k + 3) = sum.typ := by
  induction sums generalizing k with
  | nil => cases h
  | cons s sums ih =>
      cases k with
      | zero =>
          obtain rfl : s = sum := Option.some.inj h
          exact ⟨rfl, rfl, rfl⟩
      | succ k =>
          have hk := ih (k := k) h
          have hstep (j : ℕ) : param (parameters (s :: sums)) (3 * (k + 1) + (j + 1)) =
              param (parameters sums) (3 * k + (j + 1)) := by
            show (parameters (s :: sums))[3 * k + 3 + j]?.getD [] =
              (parameters sums)[3 * k + j]?.getD []
            rw [show 3 * k + 3 + j = 3 * k + j + 1 + 1 + 1 by omega]
            rfl
          exact ⟨(hstep 0).trans hk.1, (hstep 1).trans hk.2.1, (hstep 2).trans hk.2.2⟩

/-- What the parameters from one on say. -/
def sumAt (args : List Text) (a : ℕ) : Sum := ⟨param args a, param args (a + 1), param args (a + 2)⟩

theorem sumAt_parameters {sums : List Sum} {sum : Sum} (h : sums[k]? = some sum) :
    sumAt (parameters sums) (3 * k + 1) = sum := by
  obtain ⟨hchecksum, hsiz, htyp⟩ := param_parameters h
  rw [sumAt, hchecksum, show 3 * k + 1 + 1 = 3 * k + 2 from rfl, hsiz,
    show 3 * k + 1 + 2 = 3 * k + 3 from rfl, htyp]

theorem mem_order {sums : List Sum} (hne : sums ≠ []) {a : ℕ}
    (ha : a ∈ order (parameters sums)) : sumAt (parameters sums) a ∈ sums := by
  obtain ⟨k, hk, rfl⟩ : ∃ k, k < sums.length ∧ a = 3 * k + 1 := by
    have hpos : 0 < sums.length := List.length_pos_iff.mpr hne
    unfold order at ha
    split at ha
    · have hmem := (List.mergeSort_perm _ _).mem_iff.mp ha
      obtain ⟨hmap, hle⟩ := List.mem_filter.mp hmem
      obtain ⟨k, hk, rfl⟩ := List.mem_map.mp hmap
      rw [decide_eq_true_iff, length_parameters] at hle
      -- The first one is left out where it has the type `-`.
      by_cases hdash : param (parameters sums) 3 = ['-']
      · rw [if_pos hdash] at hle ⊢
        exact ⟨k + 1, by omega, by omega⟩
      · rw [if_neg hdash] at hle ⊢
        exact ⟨k, by omega, by omega⟩
    · exact ⟨0, hpos, List.mem_singleton.mp ha⟩
  rw [sumAt_parameters (List.getElem?_eq_getElem hk)]
  exact List.getElem_mem hk

namespace Shell

variable {sh : Shell} {dest : Path} {byhash : Bool} {sums : List Sum} {w₀ : World}

/-- A file that has one of the checksums, or is made of one that has. -/
def Verified (sh : Shell) (sums : List Sum) (content : Content) : Prop :=
  ∃ sum ∈ sums, sh.Passes content sum.checksum sum.siz ∨
    ∃ data, sh.Passes data sum.checksum sum.siz ∧ sh.Makes sum.typ data content

theorem retrieve_triple (fromBase : Text) {as : List ℕ} (has : ∀ a ∈ as, (sumAt args a).Good) :
    Triple (fun w => Apart dest w₀ w ∧ w.files dest = none)
      (sh.retrieve byhash args fromBase dest as)
      (fun done w => Apart dest w₀ w ∧
        if done then
          ∃ a ∈ as, sh.Made (sumAt args a).checksum (sumAt args a).siz (sumAt args a).typ dest w
        else w.files dest = none)
      Failure.checked := by
  induction as with
  | nil => exact Triple.pure fun w hw => hw
  | cons a as ih =>
      obtain ⟨hg, htail⟩ := List.forall_mem_cons.mp has
      have hchecksum : sh.evalEcho (param args a) = param args a := evalEcho_plain sh hg.checksum
      have hsiz : sh.evalEcho (param args (a + 1)) = param args (a + 1) := evalEcho_plain sh hg.siz
      have htyp : sh.evalEcho (param args (a + 2)) = param args (a + 2) := evalEcho_plain sh hg.typ
      rw [retrieve, hchecksum, hsiz, htyp]
      refine Triple.bind (attempts_triple hg.ne_nil w₀ 10) fun done => ?_
      cases done with
      | true => exact Triple.pure fun w hw => ⟨hw.1, a, List.mem_cons_self, hw.2⟩
      | false =>
          refine (ih htail).weaken (fun w hw => hw) fun done w hw => ⟨hw.1, ?_⟩
          cases done with
          | true =>
              obtain ⟨b, hb, hmade⟩ := hw.2
              exact ⟨b, List.mem_cons_of_mem _ hb, hmade⟩
          | false => exact hw.2

theorem settled_triple (hchecksum : param args 1 ≠ []) :
    Triple (Apart dest w₀) (sh.settled false args dest)
      (fun done w => Apart dest w₀ w ∧
        if done then
          ∃ content, w.files dest = some content ∧ sh.Passes content (param args 1) (param args 2)
        else w.files dest = none)
      Failure.checked := by
  have hignores : Ignores (Apart dest w₀) dest := by
    have h := Apart.ignores dest.place_self w₀
    refine ⟨fun w hw => hw.1, fun w w' hw hfiles hc => ?_⟩
    exact (h.only w w' ⟨hw, fun hne => absurd rfl hne⟩ hfiles hc).1
  refine Triple.bind fileExists_triple fun there => ?_
  cases there with
  | false =>
      refine Triple.pure fun w hw => ⟨hw.1, ?_⟩
      have hfile : (w.files dest).isNone = true := by simpa using hw.2.symm
      exact Option.isNone_iff_eq_none.mp hfile
  | true =>
      rw [if_neg (by decide), if_neg hchecksum, if_neg (by decide)]
      refine Triple.bind ((verifyChecksum_triple hignores.checked hchecksum).weaken
        (fun w hw => hw.1) fun _ _ hw => hw) fun verified => ?_
      cases verified with
      | true => exact Triple.pure fun w hw => ⟨hw.1, hw.2 rfl⟩
      | false =>
          exact ((rm_triple hignores).weaken (fun w hw => hw.1) fun _ _ hw => hw).bind
            fun _ => Triple.pure fun w hw => hw

/-- The file was there and has the first checksum, or it was made with one of those tried. -/
def Taken (sh : Shell) (args : List Text) (as : List ℕ) (dest : Path) (w : World) : Prop :=
  (∃ content, w.files dest = some content ∧ sh.Passes content (param args 1) (param args 2)) ∨
    ∃ a ∈ as, sh.Made (sumAt args a).checksum (sumAt args a).siz (sumAt args a).typ dest w

theorem getWith_triple (hchecksum : param args 1 ≠ []) (has : ∀ a ∈ order args, (sumAt args a).Good)
    (fromBase : Text) :
    Triple (Apart dest w₀) (sh.getWith false byhash fromBase dest args)
      (fun done w => Apart dest w₀ w ∧
        if done then sh.Taken args (order args) dest w else w.files dest = none)
      Failure.checked := by
  refine Triple.bind (settled_triple hchecksum) fun done => ?_
  cases done with
  | true => exact Triple.pure fun w hw => ⟨hw.1, .inl hw.2⟩
  | false =>
      refine (retrieve_triple fromBase has).weaken (fun w hw => hw) fun done w hw => ⟨hw.1, ?_⟩
      cases done with
      | true => exact .inr hw.2
      | false => exact hw.2

theorem get_byhash (fromBase : Text) (args : List Text)
    (hnocache : param args 1 ≠ "nocache") (hbyhash : param args 1 ≠ "byhash") :
    sh.get fromBase dest ((if byhash then ["byhash".toList] else []) ++ args) =
      sh.getWith false byhash fromBase dest args := by
  cases byhash with
  | true => rfl
  | false =>
      rw [if_neg (by decide), List.nil_append, get, if_neg hnocache, if_neg hbyhash]

theorem Taken.verified {w : World} (hne : sums ≠ [])
    (h : sh.Taken (parameters sums) (order (parameters sums)) dest w) {content : Content}
    (hcontent : w.files dest = some content) : sh.Verified sums content := by
  rcases h with ⟨content', hcontent', hpasses⟩ | ⟨a, ha, hmade⟩
  · obtain ⟨first, rest, rfl⟩ := List.exists_cons_of_ne_nil hne
    obtain rfl := Option.some.inj (hcontent.symm.trans hcontent')
    exact ⟨first, List.mem_cons_self, .inl hpasses⟩
  · exact ⟨_, mem_order hne ha, .inr (hmade.made content hcontent)⟩

theorem get_triple (sh : Shell) (dest : Path) (w₀ : World) (hgood : ∀ sum ∈ sums, sum.Good)
    (hne : sums ≠ []) (fromBase : Text) (byhash : Bool) :
    Triple (Apart dest w₀)
      (sh.get fromBase dest ((if byhash then ["byhash".toList] else []) ++ parameters sums))
      (fun done w => Apart dest w₀ w ∧
        if done then ∀ content, w.files dest = some content → sh.Verified sums content
        else w.files dest = none)
      Failure.checked := by
  obtain ⟨first, rest, rfl⟩ := List.exists_cons_of_ne_nil hne
  have hg := hgood first List.mem_cons_self
  rw [get_byhash fromBase (parameters (first :: rest)) hg.ne_nocache hg.ne_byhash]
  have hone : param (parameters (first :: rest)) 1 ≠ [] := hg.ne_nil
  refine (getWith_triple hone (fun a ha => hgood _ (mem_order hne ha)) fromBase).weaken
    (fun w hw => hw) fun done w hw => ⟨hw.1, ?_⟩
  cases done with
  | true => exact fun content hcontent => Taken.verified hne hw.2 hcontent
  | false => exact hw.2

end Shell

end DebianInstaller.Debootstrap.Download
