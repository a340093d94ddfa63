import DebianInstaller.Debootstrap.Get
import Mathlib.Data.Bool.AllAny

/-!
# The calls of `get`

`get` is called with `nocache`, with a checksum and a size, or with three words for each
compression. With a checksum, what it leaves when it returns 0 has one of the checksums or is
unpacked from a file that has, unless that file cannot be unpacked: `gunzip` and its like are not
asked whether they have succeeded. With `nocache` it is to fetch the file again, but a file that
is there is returned before `nocache` is looked at, and a file in the directory `partial` is as
good as one that was fetched.

The conditions are exact. Where a location is one that `just_get` does not know, the script ends
with the first of the checksums that is tried.
-/

namespace DebianInstaller.Debootstrap.Download

open Programs

variable {a : ℕ} {checksum src : Text} {content : Content} {done : Bool} {path : Path} {sh : Shell}
  {w : World}

variable {as : List ℕ} {b : Bool} {c : Run Bool} {dest : Path} {ext program : Text}
  {response : Response}

/-! ## Locations -/

/-- What the locations begin with that `just_get` knows. -/
def schemes : List Text :=
  ["http://", "https://", "ftp://", "file:", "ssh:"]

/-- `just_get` does not end the script. -/
def knowsLocation (src : Text) : Bool := schemes.any fun scheme => scheme.isPrefixOf src

/-- The location that is asked first is one that `just_get` knows. -/
def knows (byhash : Bool) (fromBase : Text) : Bool :=
  if byhash then knowsLocation (dirname fromBase ++ "/by-hash/")
  else knowsLocation fromBase

/-- What `just_get` comes back with: nothing where it returns 1, and what it has written, if it
has written something. -/
def arrives (src : Text) (response : Response) : Option (Option Content) :=
  if "http://" <+: src ∨ "https://" <+: src ∨ "ftp://" <+: src then
    match response with
    | .fetched content => some (some content)
    | _ => none
  else if "file:" <+: src then
    match response with
    | .missing => none
    | _ => some response.written
  else if "ssh:" <+: src ∧ src ≠ "ssh://" then some response.written
  else none

theorem knowsLocation_iff : knowsLocation src = true ↔ ∃ scheme ∈ schemes, scheme <+: src := by
  rw [knowsLocation, List.any_eq_true]
  exact exists_congr fun scheme => and_congr_right fun _ => List.isPrefixOf_iff_prefix

theorem knowsLocation_append {a b : Text}
    (h : ∀ scheme ∈ schemes, scheme <+: a ++ b → scheme <+: a) :
    knowsLocation (a ++ b) = knowsLocation a := by
  rw [Bool.eq_iff_iff, knowsLocation_iff, knowsLocation_iff]
  constructor
  · rintro ⟨scheme, hscheme, hpre⟩
    exact ⟨scheme, hscheme, h scheme hscheme hpre⟩
  · rintro ⟨scheme, hscheme, hpre⟩
    exact ⟨scheme, hscheme, hpre.trans (List.prefix_append a b)⟩

theorem knowsLocation_ext (hext : ext ∈ exts) (src : Text) :
    knowsLocation (src ++ ext) = knowsLocation src := by
  refine knowsLocation_append fun scheme hscheme hpre => ?_
  rcases List.prefix_or_prefix_of_prefix hpre (List.prefix_append src ext) with h | ⟨t, rfl⟩
  · exact h
  · -- No scheme has a dot in it.
    have ht : t <+: ext := (List.prefix_append_right_inj src).mp hpre
    have hdot : '.' ∉ src ++ t := by
      have hall : ∀ scheme ∈ schemes, '.' ∉ scheme := by decide
      exact hall _ hscheme
    cases t with
    | nil => rw [List.append_nil]
    | cons c t =>
        have hhead : ∀ ext ∈ exts, ext.head?.getD '.' = '.' :=
          List.all_iff_forall_prop.mp (by decide)
        have hc : ext.head? = some c := by
          obtain ⟨rest, hrest⟩ := ht
          rw [← hrest]
          rfl
        obtain rfl : c = '.' := by
          have hdot := hhead ext hext
          rwa [hc] at hdot
        exact absurd (List.mem_append_right src List.mem_cons_self) hdot

theorem dirname_ext (hext : ext ∈ exts) (src : Text) : dirname (src ++ ext) = dirname src := by
  have hslash : ∀ ext ∈ exts, '/' ∉ ext ∧ ext.rdropWhile (· ≠ '/') = [] := by decide
  obtain ⟨hnot, hdrop⟩ := hslash ext hext
  have hmem : '/' ∈ src ++ ext ↔ '/' ∈ src := by
    rw [List.mem_append]
    exact or_iff_left hnot
  unfold dirname
  rw [Text.rdropWhile_append, if_pos hdrop]
  by_cases h : '/' ∈ src
  · rw [if_pos h, if_pos (hmem.mpr h)]
  · rw [if_neg h, if_neg fun h' => h (hmem.mp h')]

theorem knowsLocation_hashed (sh : Shell) (checksum src : Text) :
    knowsLocation (sh.hashed checksum src) =
      knowsLocation (dirname src ++ "/by-hash/") := by
  have heq : sh.hashed checksum src =
      (dirname src ++ "/by-hash/") ++ ("SHA" ++ sh.shaSize ++ '/' :: checksum) := by
    unfold Shell.hashed
    simp only [List.append_assoc]
    rfl
  rw [heq]
  refine knowsLocation_append fun scheme hscheme hpre => ?_
  have hlength : ∀ scheme ∈ schemes, scheme.length ≤ "/by-hash/".toList.length := by decide
  refine List.prefix_of_prefix_length_le hpre (List.prefix_append _ _) ?_
  rw [List.length_append]
  exact Nat.le_add_left_of_le (hlength scheme hscheme)

theorem knowsLocation_of_dirname (h : knowsLocation (dirname src ++ "/by-hash/") = true) :
    knowsLocation src = true := by
  obtain ⟨scheme, hscheme, hpre⟩ := knowsLocation_iff.mp h
  refine knowsLocation_iff.mpr ⟨scheme, hscheme, ?_⟩
  have hroot : ∀ scheme ∈ schemes, ¬ scheme <+: ['.'] ++ "/by-hash/" ∧
      ¬ scheme <+: ['/'] ++ "/by-hash/" := by decide
  unfold dirname at hpre
  split at hpre
  · dsimp only at hpre
    split at hpre
    · exact absurd hpre (hroot scheme hscheme).2
    · next hne =>
        generalize hdir : (src.rdropWhile (· ≠ '/')).rdropWhile (· = '/') = dir at hpre hne
        have hsrc : dir <+: src := by
          rw [← hdir]
          exact (List.rdropWhile_prefix _ _).trans (List.rdropWhile_prefix _ _)
        have hlast : dir.getLast? ≠ some '/' := by
          subst hdir
          rw [List.getLast?_eq_getLast_of_ne_nil hne]
          intro heq
          have hnot := List.rdropWhile_last_not (· = '/') _ hne
          exact hnot (decide_eq_true (Option.some.inj heq))
        rcases List.prefix_or_prefix_of_prefix hpre (List.prefix_append dir _) with hp | hp
        · exact hp.trans hsrc
        · -- What comes before `//` in a scheme is not followed by `/b`.
          have hinits : ∀ scheme ∈ schemes, ∀ dir ∈ scheme.inits, dir ≠ [] →
              dir.getLast? ≠ some '/' → scheme <+: dir ++ "/by-hash/" → scheme = dir := by
            decide
          rw [hinits scheme hscheme dir ((List.mem_inits _ _).mpr hp) hne hlast hpre]
          exact hsrc
  · exact absurd hpre (hroot scheme hscheme).1

theorem knowsLocation_of_knows (sh : Shell) {byhash : Bool} {fromBase : Text}
    (h : knows byhash fromBase = true) (typ checksum : Text) :
    knowsLocation (fromBase ++ extOf typ) = true ∧
      (byhash = true → knowsLocation (sh.hashed checksum (fromBase ++ extOf typ)) = true) := by
  rw [knowsLocation_ext (extOf_mem typ), knowsLocation_hashed, dirname_ext (extOf_mem typ)]
  unfold knows at h
  cases byhash with
  | true => exact ⟨knowsLocation_of_dirname h, fun _ => h⟩
  | false => exact ⟨h, fun heq => by cases heq⟩

/-! ## One request -/

theorem not_null_of_knowsLocation (h : knowsLocation src = true) : ¬ "null:" <+: src := by
  intro hnull
  obtain ⟨scheme, hscheme, hpre⟩ := knowsLocation_iff.mp h
  have hnone : ∀ scheme ∈ schemes, ¬ scheme <+: "null:" ∧ ¬ "null:" <+: scheme := by
    decide
  rcases List.prefix_or_prefix_of_prefix hpre hnull with hp | hp
  · exact (hnone scheme hscheme).1 hp
  · exact (hnone scheme hscheme).2 hp

theorem ssh_of_knowsLocation (h : knowsLocation src = true)
    (hhttp : ¬ ("http://" <+: src ∨ "https://" <+: src ∨ "ftp://" <+: src))
    (hlocal : ¬ "file:" <+: src) : "ssh:" <+: src := by
  obtain ⟨scheme, hscheme, hpre⟩ := knowsLocation_iff.mp h
  simp only [schemes, List.mem_cons, List.not_mem_nil, or_false] at hscheme
  rcases hscheme with rfl | rfl | rfl | rfl | rfl
  · exact absurd (.inl hpre) hhttp
  · exact absurd (.inr (.inl hpre)) hhttp
  · exact absurd (.inr (.inr hpre)) hhttp
  · exact absurd hpre hlocal
  · exact hpre

theorem justGet_run (h : knowsLocation src = true) (hfile : w.files path = none)
    (response : Response) :
    justGet response src path w =
      .ok ((arrives src response).isSome,
        { w with files := Function.update w.files path (arrives src response).join }) := by
  have hsame : Function.update w.files path none = w.files := by
    rw [← hfile]
    exact Function.update_eq_self path w.files
  unfold justGet arrives
  rw [if_neg (not_null_of_knowsLocation h)]
  by_cases hhttp : "http://" <+: src ∨ "https://" <+: src ∨ "ftp://" <+: src
  · rw [if_pos hhttp, if_pos hhttp]
    cases response <;> rfl
  · rw [if_neg hhttp, if_neg hhttp]
    by_cases hlocal : "file:" <+: src
    · rw [if_pos hlocal, if_pos hlocal]
      cases response with
      | fetched content => rfl
      | failed left =>
          cases left with
          | none =>
              show _ = Except.ok (true, { w with files := Function.update w.files path none })
              rw [hsame]
              rfl
          | some content => rfl
      | missing =>
          show _ = Except.ok (false, { w with files := Function.update w.files path none })
          rw [hsame]
          rfl
    · rw [if_neg hlocal, if_neg hlocal]
      have hssh := ssh_of_knowsLocation h hhttp hlocal
      rw [if_pos hssh]
      by_cases hempty : src = "ssh://"
      · rw [if_pos hempty, if_neg fun hand => hand.2 hempty]
        show _ = Except.ok (false, { w with files := Function.update w.files path none })
        rw [hsame]
        rfl
      · rw [if_neg hempty, if_pos ⟨hssh, hempty⟩]
        cases hwritten : response.written with
        | none =>
            show _ = Except.ok (true, { w with files := Function.update w.files path none })
            rw [hsame]
            rfl
        | some content => rfl

theorem justGet_error (h : knowsLocation src = false) (response : Response) (w : World) :
    ∃ e, justGet response src path w = .error e := by
  have hnot : ∀ scheme ∈ schemes, ¬ scheme <+: src := by
    intro scheme hscheme hpre
    rw [knowsLocation_iff.mpr ⟨scheme, hscheme, hpre⟩] at h
    cases h
  unfold justGet
  split
  · exact ⟨_, rfl⟩
  · rw [if_neg, if_neg (hnot _ (by decide)), if_neg (hnot _ (by decide))]
    · exact ⟨_, rfl⟩
    · rintro (hhttp | hhttp | hhttp) <;> exact hnot _ (by decide) hhttp

/-- The state after a request. -/
def World.after (w : World) (checksum src : Text) (path : Path) : World where
  files := Function.update w.files path (arrives src (w.answers.headD .missing)).join
  fetched := w.fetched ++ [⟨src, checksum, w.answers.headD .missing⟩]
  answers := w.answers.tail

theorem fetch_run (h : knowsLocation src = true) (hfile : w.files path = none) (checksum : Text) :
    fetch checksum src path w =
      .ok ((arrives src (w.answers.headD .missing)).isSome, w.after checksum src path) := by
  rw [fetch, get_run, modify_run, justGet_run h (by exact hfile)]
  rfl

theorem fetch_error (h : knowsLocation src = false) (path : Path) (checksum : Text) (w : World) :
    ∃ e, fetch checksum src path w = .error e := by
  rw [fetch, get_run, modify_run]
  exact justGet_error h _ _

theorem arrives_missing (src : Text) :
    arrives src .missing = none ∨ arrives src .missing = some none := by
  unfold arrives
  split
  · exact .inl rfl
  · split
    · exact .inl rfl
    · split
      · exact .inr rfl
      · exact .inl rfl

theorem arrives_fetched (h : knowsLocation src = true) (hne : src ≠ "ssh://")
    (content : Content) : arrives src (.fetched content) = some (some content) := by
  unfold arrives
  split
  · rfl
  · next hhttp =>
      split
      · rfl
      · next hlocal =>
          rw [if_pos ⟨ssh_of_knowsLocation h hhttp hlocal, hne⟩]
          rfl

theorem knowsLocation_of_arrives {written : Option Content}
    (h : arrives src response = some written) : knowsLocation src = true := by
  by_contra hnot
  have hnone (scheme : Text) (hscheme : scheme ∈ schemes) : ¬ scheme <+: src := by
    intro hpre
    exact hnot (knowsLocation_iff.mpr ⟨scheme, hscheme, hpre⟩)
  unfold arrives at h
  rw [if_neg, if_neg (hnone _ (by decide)), if_neg fun hssh => hnone _ (by decide) hssh.1] at h
  · cases h
  · rintro (hhttp | hhttp | hhttp) <;> exact hnone _ (by decide) hhttp

theorem written_of_arrives (h : arrives src response = some (some content)) :
    response.written = some content := by
  unfold arrives at h
  split at h
  · cases response with
    | fetched content' =>
        cases h
        rfl
    | failed left => cases h
    | missing => cases h
  · split at h
    · cases response with
      | fetched content' =>
          cases h
          rfl
      | failed left => exact Option.some.inj h
      | missing => cases h
    · split at h
      · exact Option.some.inj h
      · cases h

theorem fileExists_some (h : w.files path = some content) : fileExists path w = .ok (true, w) := by
  show Except.ok ((w.files path).isSome, w) = _
  rw [h]
  rfl

theorem fileExists_none (h : w.files path = none) : fileExists path w = .ok (false, w) := by
  show Except.ok ((w.files path).isSome, w) = _
  rw [h]
  rfl

/-! ## Rounds in which nothing comes -/

/-- A run that comes back with `b` and leaves the files alone, as long as nothing comes of the
next requests, and how many these are. -/
def Fruitless (path : Path) (c : Run Bool) (b : Bool) : Prop :=
  ∃ n, ∀ w answers, w.files path = none → w.answers = List.replicate n .missing ++ answers →
    ∃ w', c w = .ok (b, w') ∧ w'.files = w.files ∧ w'.answers = answers

theorem Fruitless.pure (path : Path) (b : Bool) : Fruitless path (Pure.pure b) b :=
  ⟨0, fun w _ _ hw => ⟨w, rfl, rfl, hw⟩⟩

theorem Fruitless.bind {b' : Bool} {k : Bool → Run Bool} (hc : Fruitless path c b)
    (hk : Fruitless path (k b) b') : Fruitless path (c >>= k) b' := by
  obtain ⟨m, hm⟩ := hc
  obtain ⟨n, hn⟩ := hk
  refine ⟨m + n, fun w answers hfile hw => ?_⟩
  rw [List.replicate_add, List.append_assoc] at hw
  obtain ⟨w₁, hrun₁, hfiles₁, hanswers₁⟩ := hm w _ hfile hw
  obtain ⟨w₂, hrun₂, hfiles₂, hanswers₂⟩ := hn w₁ answers (by rw [hfiles₁, hfile]) hanswers₁
  exact ⟨w₂, (bind_run hrun₁ k).trans hrun₂, hfiles₂.trans hfiles₁, hanswers₂⟩

theorem Fruitless.rm (h : Fruitless path c b) : Fruitless path (do rm path; c) b := by
  obtain ⟨n, hn⟩ := h
  refine ⟨n, fun w answers hfile hw => ?_⟩
  have hsame : { w with files := Function.update w.files path none } = w := by
    rw [← hfile, Function.update_eq_self]
  obtain ⟨w', hrun, hrest⟩ := hn w answers hfile hw
  refine ⟨w', ?_, hrest⟩
  rw [Download.rm, modify_run, hsame]
  exact hrun

theorem Fruitless.fetch (h : knowsLocation src = true) (checksum : Text) :
    Fruitless path (Download.fetch checksum src path) (arrives src .missing).isSome := by
  refine ⟨1, fun w answers hfile hw => ?_⟩
  have hhead : w.answers.headD .missing = .missing := by
    rw [hw]
    rfl
  refine ⟨w.after checksum src path, by rw [fetch_run h hfile checksum, hhead], ?_, ?_⟩
  · have hjoin : (arrives src (w.answers.headD .missing)).join = none := by
      rw [hhead]
      rcases arrives_missing src with heq | heq
      · exact congrArg Option.join heq
      · exact congrArg Option.join heq
    show Function.update w.files path _ = w.files
    rw [hjoin, ← hfile, Function.update_eq_self]
  · show w.answers.tail = answers
    rw [hw]
    rfl

theorem fetchByHash_true (h : checksum ≠ []) (src : Text) (path : Path) :
    sh.fetchByHash true checksum src path = fetch checksum (sh.hashed checksum src) path := by
  have hne : sh.hashed checksum src ≠ [] := by simp [Shell.hashed]
  unfold Shell.fetchByHash
  rw [if_pos (⟨h, rfl⟩ : checksum ≠ [] ∧ true = true)]
  exact if_neg hne

theorem fetchByHash_false (sh : Shell) (checksum src : Text) (path : Path) :
    sh.fetchByHash false checksum src path = pure false := by
  unfold Shell.fetchByHash
  rw [if_neg (by simp : ¬ (checksum ≠ [] ∧ false = true))]
  exact if_pos rfl

theorem Fruitless.fill {byhash : Bool} (path : Path) (hchecksum : checksum ≠ [])
    (hsrc : knowsLocation src = true)
    (hhashed : byhash = true → knowsLocation (sh.hashed checksum src) = true) :
    ∃ b, Fruitless path (sh.fill byhash checksum src path) b := by
  have hthere : Fruitless path (fileExists path) false := by
    refine ⟨0, fun w answers hfile hw => ⟨w, ?_, rfl, hw⟩⟩
    show Except.ok ((w.files path).isSome, w) = _
    rw [hfile]
    rfl
  have hhash : ∃ b, Fruitless path (sh.fetchByHash byhash checksum src path) b := by
    cases byhash with
    | true =>
        rw [fetchByHash_true hchecksum]
        exact ⟨_, .fetch (hhashed rfl) checksum⟩
    | false =>
        rw [fetchByHash_false]
        exact ⟨false, .pure path false⟩
  obtain ⟨b, hb⟩ := hhash
  cases b with
  | true => exact ⟨true, hthere.bind (hb.bind (.pure path true))⟩
  | false => exact ⟨_, hthere.bind (hb.bind (.fetch hsrc checksum))⟩

theorem Fruitless.attempts {byhash : Bool} (siz typ : Text)
    (hprogram : sh.checksumPrograms.find? sh.inPath = some program) (dest : Path)
    (hchecksum : checksum ≠ []) (hsrc : knowsLocation src = true)
    (hhashed : byhash = true → knowsLocation (sh.hashed checksum src) = true) (n : ℕ) :
    Fruitless (sh.dest2 (dest.addExt (extOf typ)))
      (sh.attempts byhash checksum siz typ src dest n) false := by
  induction n with
  | zero => exact .pure _ false
  | succ n ih =>
      rw [Shell.attempts]
      generalize sh.dest2 (dest.addExt (extOf typ)) = path at ih ⊢
      have hvalidate : Fruitless path (sh.validate checksum siz path) false := by
        refine ⟨0, fun w answers hfile hw => ⟨w, ?_, rfl, hw⟩⟩
        rw [Shell.validate, if_neg hchecksum, Shell.verifyChecksum, hprogram]
        dsimp only
        rw [get_run, hfile]
        show Except.ok (!(testNe siz [] || checksum != []), w) = _
        rw [bne_iff_ne.mpr hchecksum, Bool.or_true]
        rfl
      obtain ⟨b, hb⟩ := Fruitless.fill path hchecksum hsrc hhashed
      cases b with
      | true => exact hb.bind (hvalidate.bind ih.rm)
      | false => exact hb.bind (.pure path false)

/-! ## Without a checksum -/

theorem accept_nil_run (sh : Shell) (dest : Path)
    (h : w.files (sh.dest2 dest) = none → w.files dest = none) :
    ∃ w', sh.accept [] (sh.dest2 dest) dest dest w = .ok (⟨⟩, w') ∧
      w'.files dest = w.files (sh.dest2 dest) ∧ w'.fetched = w.fetched := by
  unfold Shell.accept
  by_cases heq : sh.dest2 dest = dest
  · rw [heq]
    exact ⟨w, by rw [if_neg (not_not_intro rfl)]; rfl, rfl, rfl⟩
  · rw [if_pos heq]
    cases hfile : w.files (sh.dest2 dest) with
    | none =>
        have hmv : mv (sh.dest2 dest) dest w = .ok (⟨⟩, w) := by
          rw [mv, get_run, hfile]
          rfl
        exact ⟨w, bind_run hmv _, h hfile, rfl⟩
    | some content =>
        let removed := Function.update w.files (sh.dest2 dest) none
        have hmv : mv (sh.dest2 dest) dest w =
            .ok (⟨⟩, { w with files := Function.update removed dest (some content) }) := by
          rw [mv, get_run, hfile]
          rfl
        exact ⟨_, bind_run hmv _, Function.update_self _ _ _, rfl⟩

theorem attempts_nil_run {byhash : Bool} {w₁ : World} (siz : Text)
    (hfill : sh.fill byhash [] src (sh.dest2 dest) w = .ok (true, w₁))
    (hfile : w₁.files (sh.dest2 dest) = none → w₁.files dest = none) (n : ℕ) :
    ∃ w', sh.attempts byhash [] siz [] src dest (n + 1) w = .ok (true, w') ∧
      w'.files dest = w₁.files (sh.dest2 dest) ∧ w'.fetched = w₁.fetched := by
  obtain ⟨w', hrun, hrest⟩ := accept_nil_run sh dest hfile
  refine ⟨w', ?_, hrest⟩
  have hext : dest.addExt (extOf []) = dest := dest.addExt_nil
  rw [Shell.attempts, hext]
  refine (bind_run hfill _).trans ?_
  exact bind_run hrun fun _ => pure true

theorem getWith_nil (sh : Shell) (nocache byhash : Bool) (fromBase : Text)
    (h : w.files dest = none) :
    sh.getWith nocache byhash fromBase dest [] w =
      sh.attempts byhash [] [] [] fromBase dest 10 w := by
  have hsettled : sh.settled nocache [] dest w = .ok (false, w) := bind_run (fileExists_none h) _
  have heval : sh.evalEcho [] = [] := sh.evalEcho_plain rfl
  have hext : fromBase ++ extOf [] = fromBase := List.append_nil fromBase
  have hlast (c : Run Bool) :
      (do let done ← c; if done then return true else return false) = c := by
    refine (congrArg (c >>= ·) (funext fun done => ?_)).trans (bind_pure c)
    cases done <;> rfl
  rw [Shell.getWith, bind_run hsettled, if_neg (by decide)]
  show (do
    let done ← sh.attempts byhash (sh.evalEcho []) (sh.evalEcho []) (sh.evalEcho [])
      (fromBase ++ extOf (sh.evalEcho [])) dest 10
    if done then return true else return false : Run Bool) w = _
  rw [hlast, heval, hext]

theorem fill_there {byhash : Bool} (h : w.files path = some content) :
    sh.fill byhash checksum src path w = .ok (true, w) :=
  bind_run (fileExists_some h) _

theorem fill_nil {byhash : Bool} (h : w.files path = none) :
    sh.fill byhash [] src path w = fetch [] src path w :=
  bind_run (fileExists_none h) _

section Nil

variable (sh : Shell) (nocache byhash : Bool) (fromBase : Text) {dest : Path} {w : World}

theorem getWith_nil_there (hdest : w.files dest = none)
    (h : w.files (sh.dest2 dest) = some content) :
    ∃ w', sh.getWith nocache byhash fromBase dest [] w = .ok (true, w') ∧
      w'.files dest = some content ∧ w'.fetched = w.fetched := by
  have hnone : w.files (sh.dest2 dest) = none → w.files dest = none := fun _ => hdest
  obtain ⟨w', hrun, hfile, hfetched⟩ := attempts_nil_run [] (fill_there h) hnone 9
  rw [getWith_nil sh nocache byhash fromBase hdest]
  exact ⟨w', hrun, hfile.trans h, hfetched⟩

theorem getWith_nil_fetched (hsrc : knowsLocation fromBase = true) (hdest : w.files dest = none)
    (h : w.files (sh.dest2 dest) = none) :
    ∃ w', sh.getWith nocache byhash fromBase dest [] w =
        .ok ((arrives fromBase (w.answers.headD .missing)).isSome, w') ∧
      w'.files dest = (arrives fromBase (w.answers.headD .missing)).join ∧
      w'.fetched = w.fetched ++ [⟨fromBase, [], w.answers.headD .missing⟩] := by
  rw [getWith_nil sh nocache byhash fromBase hdest]
  have hfetch := fetch_run (w := w) hsrc h []
  have hfill : sh.fill byhash [] fromBase (sh.dest2 dest) w = _ := (fill_nil h).trans hfetch
  have hafter : (w.after [] fromBase (sh.dest2 dest)).files (sh.dest2 dest) =
      (arrives fromBase (w.answers.headD .missing)).join := Function.update_self _ _ _
  have hnone : (w.after [] fromBase (sh.dest2 dest)).files (sh.dest2 dest) = none →
      (w.after [] fromBase (sh.dest2 dest)).files dest = none := by
    intro hjoin
    by_cases heq : dest = sh.dest2 dest
    · exact (congrArg _ heq).trans hjoin
    · exact (update_other heq).trans hdest
  cases harrives : arrives fromBase (w.answers.headD .missing) with
  | none =>
      rw [harrives] at hfill hafter
      refine ⟨w.after [] fromBase (sh.dest2 dest), ?_, hnone hafter, rfl⟩
      have hext : dest.addExt (extOf []) = dest := dest.addExt_nil
      rw [Shell.attempts, hext]
      exact bind_run hfill _
  | some written =>
      rw [harrives] at hfill hafter
      obtain ⟨w', hrun, hfile, hfetched⟩ := attempts_nil_run [] hfill hnone 9
      exact ⟨w', hrun, hfile.trans hafter, hfetched⟩

theorem getWith_nil_error (hsrc : knowsLocation fromBase = false) (hdest : w.files dest = none)
    (h : w.files (sh.dest2 dest) = none) :
    ∃ e, sh.getWith nocache byhash fromBase dest [] w = .error e := by
  obtain ⟨e, he⟩ := fetch_error hsrc (sh.dest2 dest) [] w
  have hfill : sh.fill byhash [] fromBase (sh.dest2 dest) w = .error e := (fill_nil h).trans he
  have hext : dest.addExt (extOf []) = dest := dest.addExt_nil
  rw [getWith_nil sh nocache byhash fromBase hdest, Shell.attempts, hext]
  exact ⟨e, bind_error hfill _⟩

end Nil

/-! ## Locations that are not known -/

section Unknown

variable {sh : Shell} {byhash : Bool} {checksum siz typ fromBase : Text} {dest : Path}
  {w w' : World}

theorem fill_error (sh : Shell) (typ : Text) (hchecksum : checksum ≠ [])
    (hknows : knows byhash fromBase = false) (h : w.files path = none) :
    ∃ e, sh.fill byhash checksum (fromBase ++ extOf typ) path w = .error e := by
  rw [Shell.fill, bind_run (fileExists_none h), if_neg (by decide)]
  cases byhash with
  | true =>
      have hhashed : knowsLocation (sh.hashed checksum (fromBase ++ extOf typ)) = false := by
        rw [knowsLocation_hashed, dirname_ext (extOf_mem typ)]
        exact hknows
      obtain ⟨e, he⟩ := fetch_error hhashed path checksum w
      rw [fetchByHash_true hchecksum]
      exact ⟨e, bind_error he _⟩
  | false =>
      have hsrc : knowsLocation (fromBase ++ extOf typ) = false := by
        rw [knowsLocation_ext (extOf_mem typ)]
        exact hknows
      rw [fetchByHash_false]
      exact fetch_error hsrc path checksum w

theorem attempts_error (siz : Text) (hchecksum : checksum ≠ [])
    (hknows : knows byhash fromBase = false)
    (h : w.files (sh.dest2 (dest.addExt (extOf typ))) = none) (n : ℕ) :
    ∃ e, sh.attempts byhash checksum siz typ (fromBase ++ extOf typ) dest (n + 1) w = .error e := by
  obtain ⟨e, he⟩ := fill_error sh typ hchecksum hknows h
  rw [Shell.attempts]
  exact ⟨e, bind_error he _⟩

theorem attempts_unknown (hchecksum : checksum ≠ []) (hknows : knows byhash fromBase = false)
    {n : ℕ} (h : sh.attempts byhash checksum siz typ (fromBase ++ extOf typ) dest (n + 2) w =
      .ok (done, w')) : done = true := by
  cases hfile : w.files (sh.dest2 (dest.addExt (extOf typ))) with
  | none =>
      obtain ⟨e, he⟩ := attempts_error siz hchecksum hknows hfile (n + 1)
      rw [he] at h
      cases h
  | some content =>
      rw [Shell.attempts, bind_run (fill_there hfile), if_neg (by decide)] at h
      obtain ⟨verified, w₁, -, h₁⟩ := bind_ok h
      cases verified with
      | true =>
          obtain ⟨-, w₂, -, h₂⟩ := bind_ok h₁
          cases h₂
          rfl
      | false =>
          let left := Function.update w₁.files (sh.dest2 (dest.addExt (extOf typ))) none
          have hleft : ({ w₁ with files := left } : World).files
              (sh.dest2 (dest.addExt (extOf typ))) = none := Function.update_self _ _ _
          obtain ⟨e, he⟩ := attempts_error siz hchecksum hknows hleft n
          have hrun : sh.attempts byhash checksum siz typ (fromBase ++ extOf typ) dest (n + 1)
              { w₁ with files := left } = .ok (done, w') := h₁
          rw [he] at hrun
          cases hrun

/-- The checksums that `get` may try. -/
def tried (byhash : Bool) (fromBase : Text) (args : List Text) : List ℕ :=
  if knows byhash fromBase then order args else (order args).take 1

theorem mem_order_of_tried {args : List Text} (h : a ∈ tried byhash fromBase args) :
    a ∈ order args := by
  unfold tried at h
  split at h
  · exact h
  · exact List.mem_of_mem_take h

theorem retrieve_unknown {args : List Text} (hknows : knows byhash fromBase = false)
    (has : ∀ a ∈ as, (sumAt args a).Good)
    (h : sh.retrieve byhash args fromBase dest as w = .ok (done, w')) :
    sh.retrieve byhash args fromBase dest (as.take 1) w = .ok (done, w') := by
  cases as with
  | nil => exact h
  | cons a as =>
      have hg := has a List.mem_cons_self
      have hchecksum : sh.evalEcho (param args a) ≠ [] := by
        have heval : sh.evalEcho (param args a) = param args a := sh.evalEcho_plain hg.checksum
        rw [heval]
        exact hg.ne_nil
      obtain ⟨taken, w₁, hrun, hrest⟩ := bind_ok h
      obtain rfl := attempts_unknown hchecksum hknows hrun
      exact (bind_run hrun _).trans hrest

theorem getWith_tried {args : List Text} (hchecksum : param args 1 ≠ [])
    (has : ∀ a ∈ order args, (sumAt args a).Good) (hw : Checked w)
    (h : sh.getWith false byhash fromBase dest args w = .ok (done, w')) :
    if done then sh.Taken args (tried byhash fromBase args) dest w'
    else w'.files dest = none := by
  have hapart : Apart dest w w := ⟨hw, fun _ _ => rfl⟩
  unfold tried
  cases hknows : knows byhash fromBase with
  | true => exact ((Shell.getWith_triple hchecksum has fromBase).ok hapart h).2
  | false =>
      obtain ⟨settled, w₁, hrun, hrest⟩ := bind_ok h
      have hsettled := (Shell.settled_triple hchecksum).ok hapart hrun
      cases settled with
      | true =>
          cases hrest
          exact .inl hsettled.2
      | false =>
          have htake : ∀ a ∈ (order args).take 1, (sumAt args a).Good :=
            fun a ha => has a (List.mem_of_mem_take ha)
          have hretrieve := ((Shell.retrieve_triple fromBase htake).ok hsettled
            (retrieve_unknown hknows has hrest)).2
          cases done with
          | true => exact .inr hretrieve
          | false => exact hretrieve

end Unknown

/-! ## A file that cannot be unpacked -/

section Serving

variable {sh : Shell} {byhash : Bool} {checksum siz typ src fromBase : Text} {dest : Path}
  {w w₁ : World} {data : Content} {c : Text × Text}

theorem attempts_serving (hchecksum : checksum ≠ []) (hdata : sh.Passes data checksum siz)
    (hc : compression typ = some c)
    (hunpack : sh.inPath c.2 = true → sh.unpack c.2 data = none)
    (hfill : sh.fill byhash checksum src (sh.dest2 (dest.addExt (extOf typ))) w = .ok (true, w₁))
    (hfile : w₁.files (sh.dest2 (dest.addExt (extOf typ))) = some data)
    (hdest : w₁.files dest = none) (n : ℕ) :
    ∃ w', sh.attempts byhash checksum siz typ src dest (n + 1) w = .ok (true, w') ∧
      w'.files dest = none := by
  have hne : dest.addExt (extOf typ) ≠ dest := Path.addExt_ne (extOf_ne_nil hc) dest
  have hne2 := (Shell.place_dest2 sh typ dest).2
  rw [Shell.attempts, bind_run hfill, if_neg (by decide)]
  generalize sh.dest2 (dest.addExt (extOf typ)) = dest2 at hfile hne2 ⊢
  obtain ⟨program, hprogram, hdigest, hsiz⟩ := hdata
  have hvalidate : sh.validate checksum siz dest2 w₁ = .ok (true, w₁) := by
    rw [Shell.validate, if_neg hchecksum, Shell.verifyChecksum, hprogram]
    dsimp only
    rw [get_run, hfile]
    show Except.ok (!(testNe siz (Nat.toDigits 10 data.1.length) ||
      checksum != sh.digest program data), w₁) = _
    rw [hsiz, hdigest, bne_self_eq_false]
    rfl
  rw [bind_run hvalidate, if_pos rfl]
  have hleft (w₂ : World) (hfile₂ : w₂.files (dest.addExt (extOf typ)) = some data)
      (hdest₂ : w₂.files dest = none) :
      sh.unpackFile c.2 (dest.addExt (extOf typ)) dest w₂ = .ok (⟨⟩, w₂) := by
    rw [Shell.unpackFile, get_run, hdest₂, hfile₂, Option.bind_some]
    by_cases hin : sh.inPath c.2 = true
    · rw [if_neg (by simp [hin]), hunpack hin]
      rfl
    · rw [if_pos (by simp [hin])]
      rfl
  suffices haccept : ∃ w', sh.accept typ dest2 (dest.addExt (extOf typ)) dest w₁ = .ok (⟨⟩, w') ∧
      w'.files dest = none by
    obtain ⟨w', hrun, hnone⟩ := haccept
    exact ⟨w', bind_run hrun _, hnone⟩
  unfold Shell.accept
  rw [hc]
  by_cases heq : dest2 = dest.addExt (extOf typ)
  · subst heq
    refine ⟨w₁, ?_, hdest⟩
    rw [if_neg (not_not_intro rfl)]
    exact hleft w₁ hfile hdest
  · rw [if_pos heq]
    let moved := Function.update (Function.update w₁.files dest2 none) (dest.addExt (extOf typ))
      (some data)
    have hmv : mv dest2 (dest.addExt (extOf typ)) w₁ = .ok (⟨⟩, { w₁ with files := moved }) := by
      rw [mv, get_run, hfile]
      rfl
    have hmoved : moved dest = none := by
      show Function.update (Function.update w₁.files dest2 none) _ _ dest = none
      rw [update_other (Ne.symm hne), update_other (Ne.symm (hne2 heq)), hdest]
    exact ⟨_, (bind_run hmv _).trans (hleft _ (Function.update_self _ _ _) hmoved), hmoved⟩

theorem fill_fetched (hchecksum : checksum ≠ []) (hne : src ≠ "ssh://")
    (hsrc : knowsLocation src = true)
    (hhashed : byhash = true → knowsLocation (sh.hashed checksum src) = true)
    (h : w.files path = none) (hanswer : w.answers.head? = some (.fetched data)) :
    ∃ w₁, sh.fill byhash checksum src path w = .ok (true, w₁) ∧ w₁.files path = some data ∧
      ∀ p, p ≠ path → w₁.files p = w.files p := by
  have hhead : w.answers.headD .missing = .fetched data := by
    rw [List.headD_eq_head?_getD, hanswer]
    rfl
  have hfetch {src : Text} (hsrc : knowsLocation src = true) (hne : src ≠ "ssh://") :
      fetch checksum src path w = .ok (true, w.after checksum src path) ∧
        (w.after checksum src path).files path = some data ∧
        ∀ p, p ≠ path → (w.after checksum src path).files p = w.files p := by
    have harrives := arrives_fetched hsrc hne data
    refine ⟨?_, ?_, fun p hp => update_other hp⟩
    · rw [fetch_run hsrc h, hhead, harrives]
      rfl
    · refine (Function.update_self _ _ _).trans ?_
      rw [hhead, harrives]
      rfl
  rw [Shell.fill, bind_run (fileExists_none h), if_neg (by decide)]
  cases byhash with
  | true =>
      have hnessh : sh.hashed checksum src ≠ "ssh://" := by
        intro heq
        have hmem : 'H' ∈ sh.hashed checksum src := by simp [Shell.hashed]
        rw [heq] at hmem
        exact absurd hmem (by decide)
      obtain ⟨hrun, hrest⟩ := hfetch (hhashed rfl) hnessh
      rw [fetchByHash_true hchecksum]
      exact ⟨_, bind_run hrun _, hrest⟩
  | false =>
      obtain ⟨hrun, hrest⟩ := hfetch hsrc hne
      rw [fetchByHash_false]
      exact ⟨_, hrun, hrest⟩

theorem retrieve_fruitless {args : List Text} (dest : Path)
    (hprogram : sh.checksumPrograms.find? sh.inPath = some program)
    (hknows : knows byhash fromBase = true) (has : ∀ a ∈ as, (sumAt args a).Good) (bs : List ℕ) :
    ∃ n, ∀ w answers, (∀ p, w.files p = none) → w.answers = List.replicate n .missing ++ answers →
      ∃ w₁, sh.retrieve byhash args fromBase dest (as ++ bs) w =
          sh.retrieve byhash args fromBase dest bs w₁ ∧
        w₁.files = w.files ∧ w₁.answers = answers := by
  induction as with
  | nil => exact ⟨0, fun w answers _ hw => ⟨w, rfl, rfl, hw⟩⟩
  | cons a as ih =>
      obtain ⟨hg, htail⟩ := List.forall_mem_cons.mp has
      obtain ⟨n, hn⟩ := ih htail
      have hchecksum : sh.evalEcho (param args a) = param args a := sh.evalEcho_plain hg.checksum
      have hne : sh.evalEcho (param args a) ≠ [] := by
        rw [hchecksum]
        exact hg.ne_nil
      have hsrc := knowsLocation_of_knows sh hknows (sh.evalEcho (param args (a + 2)))
        (sh.evalEcho (param args a))
      obtain ⟨m, hm⟩ := Fruitless.attempts (sh.evalEcho (param args (a + 1)))
        (sh.evalEcho (param args (a + 2))) hprogram dest hne hsrc.1 hsrc.2 10
      refine ⟨m + n, fun w answers hfiles hw => ?_⟩
      rw [List.replicate_add, List.append_assoc] at hw
      obtain ⟨w₁, hrun, hfiles₁, hanswers₁⟩ := hm w _ (hfiles _) hw
      obtain ⟨w₂, hrest, hfiles₂, hanswers₂⟩ := hn w₁ answers
        (fun p => (congrFun hfiles₁ p).trans (hfiles p)) hanswers₁
      exact ⟨w₂, (bind_run hrun _).trans hrest, hfiles₂.trans hfiles₁, hanswers₂⟩

end Serving

section Serving

variable {sh : Shell} {byhash : Bool} {fromBase : Text} {dest : Path} {w : World} {data : Content}
  {c : Text × Text}

theorem retrieve_serving (byhash : Bool) (fromBase : Text) {args : List Text}
    (hg : (sumAt args a).Good) (hdata : sh.Passes data (sumAt args a).checksum (sumAt args a).siz)
    (hc : compression (sumAt args a).typ = some c)
    (hunpack : sh.inPath c.2 = true → sh.unpack c.2 data = none)
    (hfill : ∃ w₁, sh.fill byhash (sumAt args a).checksum (fromBase ++ extOf (sumAt args a).typ)
        (sh.dest2 (dest.addExt (extOf (sumAt args a).typ))) w = .ok (true, w₁) ∧
      w₁.files (sh.dest2 (dest.addExt (extOf (sumAt args a).typ))) = some data ∧
      w₁.files dest = none) (as : List ℕ) :
    ∃ w', sh.retrieve byhash args fromBase dest (a :: as) w = .ok (true, w') ∧
      w'.files dest = none := by
  obtain ⟨w₁, hrun, hfile, hdest⟩ := hfill
  obtain ⟨w', hdone, hnone⟩ := attempts_serving hg.ne_nil hdata hc hunpack hrun hfile hdest 9
  have hchecksum : sh.evalEcho (param args a) = param args a := sh.evalEcho_plain hg.checksum
  have hsiz : sh.evalEcho (param args (a + 1)) = param args (a + 1) := sh.evalEcho_plain hg.siz
  have htyp : sh.evalEcho (param args (a + 2)) = param args (a + 2) := sh.evalEcho_plain hg.typ
  rw [Shell.retrieve, hchecksum, hsiz, htyp]
  exact ⟨w', bind_run hdone _, hnone⟩

/-- Where a file with the right sum cannot be unpacked, the call succeeds and there is no file. -/
theorem getWith_serving (dest : Path) {args : List Text}
    (has : ∀ a ∈ order args, (sumAt args a).Good) (ha : a ∈ tried byhash fromBase args)
    (hdata : sh.Passes data (sumAt args a).checksum (sumAt args a).siz)
    (hc : compression (sumAt args a).typ = some c)
    (hunpack : sh.inPath c.2 = true → sh.unpack c.2 data = none) :
    ∃ files answers w', sh.getWith false byhash fromBase dest args ⟨files, [], answers⟩ =
      .ok (true, w') ∧ w'.files dest = none := by
  have hext : extOf (sumAt args a).typ ≠ [] := extOf_ne_nil hc
  obtain ⟨hplace, hne2⟩ := Shell.place_dest2 sh (sumAt args a).typ dest
  have hdest2 : dest ≠ sh.dest2 (dest.addExt (extOf (sumAt args a).typ)) := by
    by_cases heq : sh.dest2 (dest.addExt (extOf (sumAt args a).typ)) =
        dest.addExt (extOf (sumAt args a).typ)
    · rw [heq]
      exact Ne.symm (Path.addExt_ne hext dest)
    · exact Ne.symm (hne2 heq)
  have hsettled (w : World) (h : w.files dest = none) :
      sh.settled false args dest w = .ok (false, w) := bind_run (fileExists_none h) _
  unfold tried at ha
  cases hknows : knows byhash fromBase with
  | true =>
      rw [hknows, if_pos rfl] at ha
      have hg := has a ha
      obtain ⟨as, bs, horder⟩ := List.append_of_mem ha
      obtain ⟨program, hprogram, -⟩ := id hdata
      have hgood : ∀ b ∈ as, (sumAt args b).Good := by
        intro b hb
        refine has b ?_
        rw [horder]
        exact List.mem_append_left _ hb
      obtain ⟨n, hn⟩ := retrieve_fruitless dest hprogram hknows hgood (a :: bs)
      let w₀ : World := ⟨fun _ => none, [], List.replicate n .missing ++ [.fetched data]⟩
      obtain ⟨w₁, hrun, hfiles, hanswers⟩ := hn w₀ [.fetched data] (fun _ => rfl) rfl
      have hnone (p : Path) : w₁.files p = none := congrFun hfiles p
      have hsrc := knowsLocation_of_knows sh hknows (sumAt args a).typ
        (sumAt args a).checksum
      have hssh : fromBase ++ extOf (sumAt args a).typ ≠ "ssh://" := by
        intro heq
        have hdot : '.' ∈ extOf (sumAt args a).typ := by
          have hall : ∀ ext ∈ exts, ext ≠ [] → '.' ∈ ext := by decide
          exact hall _ (extOf_mem _) hext
        have hmem := List.mem_append_right fromBase hdot
        rw [heq] at hmem
        exact absurd hmem (by decide)
      obtain ⟨w₂, hfill, hfile, hothers⟩ := fill_fetched hg.ne_nil hssh hsrc.1
        hsrc.2 (hnone (sh.dest2 (dest.addExt (extOf (sumAt args a).typ))))
        (congrArg List.head? hanswers)
      obtain ⟨w', hdone, hgone⟩ := retrieve_serving byhash fromBase hg hdata hc hunpack
        ⟨w₂, hfill, hfile, (hothers dest hdest2).trans (hnone dest)⟩ bs
      refine ⟨_, _, w', (bind_run (hsettled w₀ rfl) _).trans ?_, hgone⟩
      rw [if_neg (by decide), horder, hrun]
      exact hdone
  | false =>
      rw [hknows, if_neg (by decide)] at ha
      have hg := has a (List.mem_of_mem_take ha)
      obtain ⟨bs, horder⟩ : ∃ bs, order args = a :: bs := by
        cases hlist : order args with
        | nil =>
            rw [hlist] at ha
            cases ha
        | cons b bs =>
            rw [hlist] at ha
            exact ⟨bs, by rw [List.mem_singleton.mp ha]⟩
      let path := sh.dest2 (dest.addExt (extOf (sumAt args a).typ))
      let files : Path → Option Content := Function.update (fun _ => none) path (some data)
      let w₀ : World := ⟨files, [], []⟩
      have hfile : files path = some data := Function.update_self _ _ _
      have hnone : files dest = none := update_other hdest2
      obtain ⟨w', hdone, hgone⟩ := retrieve_serving byhash fromBase hg
        hdata hc hunpack ⟨w₀, fill_there hfile, hfile, hnone⟩ bs
      refine ⟨_, _, w', (bind_run (hsettled w₀ hnone) _).trans ?_, hgone⟩
      rw [if_neg (by decide), horder]
      exact hdone

end Serving

/-! ## The calls -/

/-- What `get` is called with after the location and the place. -/
inductive Call where
  | nocache
  | one (byhash : Bool) (checksum siz : Text)
  | triples (byhash : Bool) (sums : List Sum)
  deriving DecidableEq

variable {call : Call}

namespace Call

def byhash : Call → Bool
  | nocache => false
  | one byhash _ _ => byhash
  | triples byhash _ => byhash

/-- The words after the one that says how to fetch. -/
def rest : Call → List Text
  | nocache => []
  | one _ checksum siz => [checksum, siz]
  | triples _ sums => parameters sums

def args (call : Call) : List Text :=
  if call = nocache then ["nocache"]
  else (if call.byhash then ["byhash".toList] else []) ++ call.rest

/-- The checksums that are given. -/
def sums : Call → List Sum
  | nocache => []
  | one _ checksum siz => [⟨checksum, siz, []⟩]
  | triples _ sums => sums

theorem rest_nil (h : call.sums = []) : call.rest = [] := by
  cases call with
  | nocache => rfl
  | one byhash checksum siz => cases h
  | triples byhash sums =>
      obtain rfl : sums = [] := h
      rfl

theorem sumAt_one (h : call.sums ≠ []) :
    ∃ sum ∈ call.sums, param call.rest 1 = sum.checksum ∧ param call.rest 2 = sum.siz := by
  cases call with
  | nocache => exact absurd rfl h
  | one byhash checksum siz => exact ⟨_, List.mem_cons_self, rfl, rfl⟩
  | triples byhash sums =>
      obtain ⟨first, sums, rfl⟩ := List.exists_cons_of_ne_nil h
      exact ⟨first, List.mem_cons_self, rfl, rfl⟩

theorem mem_order (h : call.sums ≠ []) (ha : a ∈ order call.rest) :
    sumAt call.rest a ∈ call.sums := by
  cases call with
  | nocache => exact absurd rfl h
  | one byhash checksum siz =>
      obtain rfl : a = 1 := List.mem_singleton.mp ha
      exact List.mem_cons_self
  | triples byhash sums => exact Download.mem_order h ha

end Call

section Calls

variable {sh : Shell} {call : Call} {fromBase : Text} {dest : Path}

/-- What is to hold after a call that has returned. -/
structure Holds (sh : Shell) (call : Call) (dest : Path) (done : Bool) (w : World) : Prop where
  /-- With a checksum, the file has it or is made of one that has. -/
  verified : done = true → call.sums ≠ [] →
    ∃ content, w.files dest = some content ∧ sh.Verified call.sums content
  absent : done = false → w.files dest = none
  /-- With `nocache`, the file is what this call has fetched. -/
  fetched : done = true → call = .nocache →
    ∃ content, w.files dest = some content ∧ ∃ f ∈ w.fetched, f.response.written = some content

/-- A call with these files before it and these answers to its requests. -/
def Meets (sh : Shell) (call : Call) (fromBase : Text) (dest : Path)
    (files : Path → Option Content) (answers : List Response) : Prop :=
  ∀ done w, sh.get fromBase dest call.args ⟨files, [], answers⟩ = .ok (done, w) →
    Holds sh call dest done w

theorem getWith_nil_absent {nocache byhash : Bool} {w' : World}
    (h : sh.getWith nocache byhash fromBase dest [] w = .ok (false, w')) :
    w'.files dest = none := by
  cases hdest : w.files dest with
  | some content =>
      have hsettled : sh.settled nocache [] dest w = .ok (true, w) :=
        bind_run (fileExists_some hdest) _
      rw [Shell.getWith, bind_run hsettled] at h
      cases h
  | none =>
      cases hfile : w.files (sh.dest2 dest) with
      | some content =>
          obtain ⟨w₁, hrun, -⟩ := getWith_nil_there sh nocache byhash fromBase hdest
            hfile
          rw [hrun] at h
          cases h
      | none =>
          cases hsrc : knowsLocation fromBase with
          | true =>
              obtain ⟨w₁, hrun, hfile₁, -⟩ := getWith_nil_fetched sh nocache byhash fromBase
                hsrc hdest hfile
              rw [hrun] at h
              cases harrives : arrives fromBase (w.answers.headD .missing) with
              | none =>
                  rw [harrives] at h hfile₁
                  cases h
                  exact hfile₁
              | some written =>
                  rw [harrives] at h
                  cases h
          | false =>
              obtain ⟨e, he⟩ := getWith_nil_error sh nocache byhash fromBase hsrc hdest
                hfile
              rw [he] at h
              cases h

theorem get_nocache (w : World) :
    sh.get fromBase dest Call.nocache.args w = sh.getWith true false fromBase dest [] w := rfl

theorem get_checksums (hne : call ≠ .nocache) (hgood : ∀ sum ∈ call.sums, sum.Good) :
    sh.get fromBase dest call.args = sh.getWith false call.byhash fromBase dest call.rest := by
  have hone : param call.rest 1 ≠ "nocache" ∧ param call.rest 1 ≠ "byhash" := by
    by_cases hsums : call.sums = []
    · rw [Call.rest_nil hsums]
      decide
    · obtain ⟨sum, hsum, heq, -⟩ := Call.sumAt_one hsums
      rw [heq]
      exact ⟨(hgood sum hsum).ne_nocache, (hgood sum hsum).ne_byhash⟩
  rw [Call.args, if_neg hne]
  exact Shell.get_byhash fromBase call.rest hone.1 hone.2

theorem nocache_meets {files : Path → Option Content} {answers : List Response} :
    Meets sh .nocache fromBase dest files answers ↔
      files dest = none ∧ files (sh.dest2 dest) = none ∧
        arrives fromBase (answers.headD .missing) ≠ some none := by
  constructor
  · intro h
    have hrun {w : World}
        (hrun : sh.getWith true false fromBase dest [] ⟨files, [], answers⟩ = .ok (true, w)) :
        ∃ content, w.files dest = some content ∧
          ∃ f ∈ w.fetched, f.response.written = some content :=
      (h true w hrun).fetched rfl rfl
    have hdest : files dest = none := by
      cases hfile : files dest with
      | none => rfl
      | some content =>
          have hsettled : sh.settled true [] dest ⟨files, [], answers⟩ =
              .ok (true, ⟨files, [], answers⟩) := bind_run (fileExists_some hfile) _
          obtain ⟨-, -, f, hf, -⟩ := hrun (bind_run hsettled _)
          cases hf
    have hfile : files (sh.dest2 dest) = none := by
      cases hfile : files (sh.dest2 dest) with
      | none => rfl
      | some content =>
          obtain ⟨w, hdone, -, hfetched⟩ := getWith_nil_there sh true false fromBase
            (w := ⟨files, [], answers⟩) hdest hfile
          obtain ⟨-, -, f, hf, -⟩ := hrun hdone
          rw [hfetched] at hf
          cases hf
    refine ⟨hdest, hfile, fun harrives => ?_⟩
    have hsrc : knowsLocation fromBase = true := knowsLocation_of_arrives harrives
    obtain ⟨w, hdone, hleft, -⟩ := getWith_nil_fetched sh true false fromBase
      (w := ⟨files, [], answers⟩) hsrc hdest hfile
    rw [harrives] at hdone hleft
    obtain ⟨content, hcontent, -⟩ := hrun hdone
    rw [hleft] at hcontent
    cases hcontent
  · rintro ⟨hdest, hfile, harrives⟩ done w h
    rw [get_nocache] at h
    refine ⟨fun _ hsums => absurd rfl hsums, fun hdone => ?_, fun hdone _ => ?_⟩
    · subst hdone
      exact getWith_nil_absent h
    · subst hdone
      cases hsrc : knowsLocation fromBase with
      | true =>
          obtain ⟨w₁, hrun, hleft, hfetched⟩ := getWith_nil_fetched sh true false fromBase
            (w := ⟨files, [], answers⟩) hsrc hdest hfile
          rw [hrun] at h
          cases hcame : arrives fromBase (answers.headD .missing) with
          | none =>
              have hnone : arrives fromBase
                ((⟨files, [], answers⟩ : World).answers.headD .missing) = none := hcame
              rw [hnone] at h
              cases h
          | some written =>
              cases written with
              | none => exact absurd hcame harrives
              | some content =>
                  have hcame' : arrives fromBase
                    ((⟨files, [], answers⟩ : World).answers.headD .missing) =
                      some (some content) := hcame
                  rw [hcame'] at h hleft
                  cases h
                  refine ⟨content, hleft, ⟨fromBase, [], answers.headD .missing⟩, ?_,
                    written_of_arrives hcame⟩
                  rw [hfetched]
                  exact List.mem_cons_self
      | false =>
          obtain ⟨e, he⟩ := getWith_nil_error sh true false fromBase
            (w := ⟨files, [], answers⟩) hsrc hdest hfile
          rw [he] at h
          cases h

/-- Whatever is tried can be unpacked if it has its checksum. -/
def Unpackable (sh : Shell) (call : Call) (fromBase : Text) : Prop :=
  ∀ a ∈ tried call.byhash fromBase call.rest,
    sh.Unpacks (sumAt call.rest a).checksum (sumAt call.rest a).siz (sumAt call.rest a).typ

theorem checksums_meets (hne : call ≠ .nocache) (hgood : ∀ sum ∈ call.sums, sum.Good) :
    (∀ files answers, Meets sh call fromBase dest files answers) ↔
      Unpackable sh call fromBase := by
  by_cases hsums : call.sums = []
  · -- There is no compression to take away.
    have hrest := Call.rest_nil hsums
    constructor
    · intro _ a ha c hc
      have horder := mem_order_of_tried ha
      rw [hrest] at horder hc
      obtain rfl : a = 1 := List.mem_singleton.mp horder
      cases hc
    · intro _ files answers done w h
      rw [get_checksums hne hgood, hrest] at h
      refine ⟨fun _ hsome => absurd hsums hsome, fun hdone => ?_, fun _ hcall => absurd hcall hne⟩
      subst hdone
      exact getWith_nil_absent h
  · have hall : ∀ a ∈ order call.rest, (sumAt call.rest a).Good :=
      fun a ha => hgood _ (Call.mem_order hsums ha)
    constructor
    · intro h a ha c hc data hdata
      by_contra hfails
      have hunpack : sh.inPath c.2 = true → sh.unpack c.2 data = none := by
        intro hin
        by_contra hsome
        exact hfails ⟨hin, Option.isSome_iff_ne_none.mpr hsome⟩
      obtain ⟨files, answers, w, hrun, hnone⟩ := getWith_serving dest hall ha hdata hc
        hunpack
      rw [← get_checksums hne hgood] at hrun
      obtain ⟨content, hcontent, -⟩ := (h files answers true w hrun).verified rfl hsums
      rw [hnone] at hcontent
      cases hcontent
    · intro h files answers done w hrun
      rw [get_checksums hne hgood] at hrun
      obtain ⟨sum, hsum, hone, htwo⟩ := Call.sumAt_one hsums
      have hchecksum : param call.rest 1 ≠ [] := by
        rw [hone]
        exact (hgood sum hsum).ne_nil
      have htaken := getWith_tried hchecksum hall (by intro f hf; cases hf) hrun
      refine ⟨fun hdone _ => ?_, fun hdone => ?_, fun _ hcall => absurd hcall hne⟩
      · subst hdone
        rcases htaken with ⟨content, hcontent, hpasses⟩ | ⟨a, ha, hmade⟩
        · rw [hone, htwo] at hpasses
          exact ⟨content, hcontent, sum, hsum, .inl hpasses⟩
        · obtain ⟨content, hcontent⟩ := Option.isSome_iff_exists.mp (hmade.there (h a ha))
          exact ⟨content, hcontent, _, Call.mem_order hsums (mem_order_of_tried ha),
            .inr (hmade.made content hcontent)⟩
      · subst hdone
        exact htaken

/-- When `get` keeps what its callers expect of it. -/
theorem get_meets (sh : Shell) (fromBase : Text) (dest : Path) :
    (∀ files answers, Meets sh .nocache fromBase dest files answers ↔
      files dest = none ∧ files (sh.dest2 dest) = none ∧
        arrives fromBase (answers.headD .missing) ≠ some none) ∧
    ∀ call, call ≠ .nocache → (∀ sum ∈ call.sums, sum.Good) →
      ((∀ files answers, Meets sh call fromBase dest files answers) ↔
        Unpackable sh call fromBase) :=
  ⟨fun _ _ => nocache_meets, fun _ hne hgood => checksums_meets hne hgood⟩

end Calls

/-! ## A call of each kind -/

/-- What `gzip` makes of nothing. -/
def emptyGz : Content :=
  ⟨[0x1f, 0x8b, 8, 0, 0, 0, 0, 0, 0, 3, 3, 0, 0, 0, 0, 0, 0, 0, 0, 0].map Char.ofNat, by decide⟩

def emptyGzSum : Text :=
  Nat.toDigits 16 0x59869db34853933b239f1e2219cf7d431da006aa919635478511fabbfc8849d2

/-- Where there are `sha256sum` and `gunzip`, and only that file is known. -/
def gunzips : Shell where
  inPath program := program = "sha256sum" || program = "gunzip"
  field := "SHA256"
  shaSize := "256"
  digest _ content := if content = emptyGz then emptyGzSum else []
  unpack _ content := if content = emptyGz then some ⟨[], by decide⟩ else none
  isDir _ := true
  glob w := [w]
  glob_plain _ _ := rfl

def inRelease : Path := ⟨"/target/var/lib/apt/lists", "InRelease"⟩

/-- The file of the last run. -/
def stale : Path → Option Content :=
  Function.update (fun _ => none) inRelease (some ⟨"Suite: old", by decide⟩)

/-- `nocache` is not looked at where the file is there. -/
theorem stale_kept : ¬ Meets gunzips .nocache "http://deb.debian.org/InRelease" inRelease
    stale [.fetched ⟨"Suite: new", by decide⟩] := by
  intro h
  have hrun : gunzips.get "http://deb.debian.org/InRelease" inRelease Call.nocache.args
      ⟨stale, [], [.fetched ⟨"Suite: new", by decide⟩]⟩ =
      .ok (true, ⟨stale, [], [.fetched ⟨"Suite: new", by decide⟩]⟩) := rfl
  obtain ⟨-, -, f, hf, -⟩ := (h true _ hrun).fetched rfl rfl
  cases hf

/-- A compressed file is fetched and unpacked. -/
def gzCall : Call := .triples true [⟨emptyGzSum, "20", "gz"⟩]

theorem gzCall_good : ∀ sum ∈ gzCall.sums, sum.Good := by
  intro sum hsum
  obtain rfl := List.mem_singleton.mp hsum
  exact ⟨by decide +kernel, by decide, by decide, by decide +kernel, by decide +kernel,
    by decide +kernel⟩

theorem gzCall_unpackable (fromBase : Text) : Unpackable gunzips gzCall fromBase := by
  intro a ha c hc data hdata
  obtain ⟨program, -, hdigest, -⟩ := hdata
  obtain rfl : a = 1 := List.mem_singleton.mp (mem_order_of_tried ha)
  obtain rfl := Option.some.inj hc
  have hgz : data = emptyGz := by
    by_contra hne
    have hempty : gunzips.digest program data = [] := if_neg hne
    rw [hempty] at hdigest
    exact absurd hdigest (by decide +kernel)
  rw [hgz]
  exact ⟨by decide, rfl⟩

theorem calls_meet :
    Meets gunzips .nocache "http://deb.debian.org/InRelease" inRelease (fun _ => none)
      [.fetched ⟨"Suite: new", by decide⟩] ∧
    ∀ files answers, Meets gunzips gzCall "http://deb.debian.org/Packages"
      ⟨"/target", "Packages"⟩ files answers :=
  ⟨((get_meets gunzips _ inRelease).1 _ _).mpr ⟨rfl, rfl, by decide⟩,
    ((get_meets gunzips _ _).2 gzCall (by decide) gzCall_good).mpr (gzCall_unpackable _)⟩

end DebianInstaller.Debootstrap.Download
