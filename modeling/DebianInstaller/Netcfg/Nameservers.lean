import DebianInstaller.Debootstrap.Words
import DebianInstaller.Lib.Lines
import DebianInstaller.Netcfg.Canonical

/-!
# The nameservers

`netcfg_nameservers_to_array` reads the words of an answer into four slots. A word that is no
address leaves its slot empty. Three writers go through the slots: the one for `resolv.conf` skips
the empty ones, the one for the interfaces file writes nothing if the first is empty, and the one
for NetworkManager stops at the first that is. So they write the same as long as what is empty
comes last.
-/

namespace DebianInstaller.Netcfg

open Text Lib Debootstrap

variable {c : Char} {inet : Inet} {keyword ns : Text} {l : List Text}

/-! ## The code -/

/-- `strtok_r`: a token, and what is left after its delimiter. -/
def strtokR (delim s : Text) : Option (Text × Text) :=
  match s.dropWhile (· ∈ delim) with
  | [] => none
  | c :: t => some ((c :: t).takeWhile (· ∉ delim), ((c :: t).dropWhile (· ∉ delim)).tail)

/-- `NETCFG_NAMESERVERS_MAX` -/
def netcfgNameserversMax : ℕ := 4

/-- What becomes of a word. -/
def slot (inet : Inet) (ns : Text) : Text :=
  match inet.pton .inet ns with
  | some addr => inet.ntop .inet addr
  | none =>
      match inet.pton .inet6 ns with
      | some addr => inet.ntop .inet6 addr
      | none => []

/-- The loop, with so many slots to fill. -/
def slots (inet : Inet) : ℕ → Text → List Text
  | 0, _ => []
  | n + 1, ptr =>
      match strtokR " \n\t" ptr with
      | some (ns, ptr) => slot inet ns :: slots inet n ptr
      | none => [] :: slots inet n []

/-- `netcfg_nameservers_to_array`: what is in `interface->nameservers` then. -/
def netcfgNameserversToArray (inet : Inet) : Option Text → List Text
  | some nameservers => slots inet netcfgNameserversMax nameservers
  | none => List.replicate netcfgNameserversMax []

/-- A domain or an address, of which a line is made. -/
abbrev Line := { t : Text // '\n' ∉ t }

/-- `netcfg_write_resolv`, if the file can be opened. No domain is the same as an empty one. -/
def netcfgWriteResolv (domain : Line) (nameservers : List Text) : Text :=
  (if domain.1 ≠ [] then "search " ++ domain.1 ++ ['\n'] else []) ++
    nameservers.flatMap fun ns =>
      if ns ≠ [] then "nameserver ".toList ++ ns ++ ['\n'] else []

/-- `netcfg_write_resolvconf_options`: what it appends to the interfaces file, if that can be
opened. -/
def netcfgWriteResolvconfOptions (domain : Line) (nameservers : List Text) : Text :=
  let first := nameservers.headD []
  if first ≠ [] ∨ domain.1 ≠ [] then
    "\t# dns-* options are implemented by the resolvconf package, if installed\n" ++
      (if first ≠ [] then
        "\tdns-nameservers" ++
          (nameservers.flatMap fun ns => if ns ≠ [] then ' ' :: ns else []) ++ ['\n']
      else []) ++
      if domain.1 ≠ [] then "\tdns-search " ++ domain.1 ++ ['\n'] else []
  else []

/-- `nm_ipvX` -/
structure NmIpvX where
  ipAddress : Line
  gateway : Line
  nameservers : List Text
  masklen : BitVec 32

/-- The loop of `strcat`, which ends at an empty slot. -/
def dnsBuffer : List Text → Text
  | [] => []
  | ns :: nameservers => if ns ≠ [] then ns ++ ';' :: dnsBuffer nameservers else []

/-- `NM_MAX_LEN_IPV4` -/
def nmMaxLenIpv4 : ℕ := 20

/-- `nm_write_static_ipvX` -/
def nmWriteStaticIpvX (ipvx : NmIpvX) : Text :=
  let dns := dnsBuffer ipvx.nameservers
  let gateway :=
    if ipvx.gateway.1 ≠ [] then ipvx.gateway.1.take (nmMaxLenIpv4 - 1) else ['0']
  (if dns ≠ [] then "dns=" ++ dns ++ ['\n'] else []) ++
    ("addresses1=" ++ (ipvx.ipAddress.1 ++ ';' :: (ofInt ipvx.masklen.toInt ++
      ';' :: (gateway ++ [';'])) ++ ['\n']))

/-! ## What a reader finds -/

/-- What stands in a line behind a keyword. -/
def behind (keyword l : Text) : Option Text :=
  if keyword.isPrefixOf l then some (l.drop keyword.length) else none

/-- What stands in the lines of a file behind a keyword. -/
def entries (keyword file : Text) : List Text := (file.splitOn '\n').filterMap (behind keyword)

/-- The servers that `resolv.conf` names. -/
def resolvServers (file : Text) : List Text := entries "nameserver " file

/-- Those of the interfaces file. -/
def interfacesServers (file : Text) : List Text :=
  (entries "\tdns-nameservers " file).flatMap words

/-- And those of NetworkManager. -/
def nmServers (file : Text) : List Text :=
  (entries "dns=" file).flatMap fun l => (l.splitOn ';').filter (· ≠ [])

/-- The addresses in the array. -/
def stored (nameservers : List Text) : List Text := nameservers.filter (· ≠ [])

/-- A word is an address of one family or the other. -/
def IsAddress (inet : Inet) (ns : Text) : Prop :=
  (inet.pton .inet ns).isSome = true ∨ (inet.pton .inet6 ns).isSome = true

/-- What addresses are written with. -/
def isAddressChar (c : Char) : Bool := digitValue c < 16 || c == '.' || c == ':'

/-! ## The slots -/

theorem decide_mem_delim : (fun c => decide (c ∈ " \n\t".toList)) = isIfs := by
  funext c
  simp only [isIfs, String.reduceToList, List.mem_cons, List.not_mem_nil, or_false, Bool.decide_or,
    ← beq_eq_decide]
  cases c == ' ' <;> cases c == '\n' <;> cases c == '\t' <;> rfl

theorem decide_not_mem_delim : (fun c => decide (c ∉ " \n\t".toList)) = fun c => !isIfs c := by
  funext c
  rw [← decide_mem_delim, decide_not]

theorem expand_strtokR (s : Text) :
    expand s = (strtokR " \n\t" s).elim [] fun p => p.1 :: expand p.2 := by
  have hdrop : expand (s.dropWhile isIfs) = expand s := by
    have happ := expand_ifs_append (b := s.takeWhile isIfs)
      (fun c hc => List.mem_takeWhile_imp hc) (s.dropWhile isIfs)
    rw [List.takeWhile_append_dropWhile] at happ
    exact happ.symm
  have hstart := List.head?_dropWhile_not isIfs s
  rw [strtokR, decide_mem_delim, decide_not_mem_delim, ← hdrop]
  cases ht : s.dropWhile isIfs with
  | nil => rfl
  | cons c t =>
      rw [ht] at hstart
      have hc : isIfs c = false := by simpa using hstart
      show expand (c :: t) = (c :: t).takeWhile (fun c => !isIfs c) ::
        expand ((c :: t).dropWhile fun c => !isIfs c).tail
      generalize hu : c :: t = u
      have hne : u.takeWhile (fun c => !isIfs c) ≠ [] := by
        rw [← hu, List.takeWhile_cons_of_pos (by simpa using hc)]
        exact List.cons_ne_nil _ _
      have hword : ∀ c ∈ u.takeWhile fun c => !isIfs c, isIfs c = false := fun c hc => by
        simpa using List.mem_takeWhile_imp hc
      have hrest := List.head?_dropWhile_not (fun c => !isIfs c) u
      have hsplit := List.takeWhile_append_dropWhile (p := fun c => !isIfs c) (l := u)
      conv_lhs => rw [← hsplit]
      cases hv : u.dropWhile fun c => !isIfs c with
      | nil =>
          rw [List.append_nil, expand_word hword hne]
          rfl
      | cons d v =>
          rw [hv] at hrest
          rw [expand_append_cons _ _ (by simpa using hrest), expand_word hword hne]
          rfl

theorem slots_eq (inet : Inet) (n : ℕ) (ptr : Text) : slots inet n ptr
    = ((expand ptr).take n).map (slot inet) ++ List.replicate (n - (expand ptr).length) [] := by
  induction n generalizing ptr with
  | zero => simp [slots]
  | succ n ih =>
      have hexpand := expand_strtokR ptr
      rw [slots]
      cases hptr : strtokR " \n\t" ptr with
      | none =>
          rw [hptr, Option.elim_none] at hexpand
          have hempty : expand [] = [] := rfl
          rw [hexpand]
          simp only [ih, hempty]
          simp [List.replicate_succ]
      | some p =>
          rw [hptr, Option.elim_some] at hexpand
          rw [hexpand]
          simp only [ih]
          simp

theorem slot_ne_nil_iff (hne : ∀ af addr, inet.ntop af addr ≠ []) :
    slot inet ns ≠ [] ↔ IsAddress inet ns := by
  unfold slot IsAddress
  cases inet.pton .inet ns with
  | some addr => simpa using hne .inet addr
  | none =>
      cases inet.pton .inet6 ns with
      | some addr => simpa using hne .inet6 addr
      | none => simp

/-! ## Files read back -/

theorem behind_append (keyword t : Text) : behind keyword (keyword ++ t) = some t := by
  rw [behind, if_pos (List.isPrefixOf_iff_prefix.2 (List.prefix_append keyword t)), List.drop_left]

theorem entries_unlines (hne : keyword ≠ []) {ls : List Text} (hls : ∀ l ∈ ls, '\n' ∉ l) :
    entries keyword (unlines '\n' ls) = ls.filterMap (behind keyword) := by
  have hsplit := splitOn_unlines '\n' hls []
  have hempty : behind keyword [] = none := if_neg fun h =>
    hne (List.prefix_nil.1 (List.isPrefixOf_iff_prefix.1 h))
  rw [List.append_nil, List.splitOn_nil] at hsplit
  rw [entries, hsplit, List.filterMap_append, List.filterMap_cons_none hempty]
  exact List.append_nil _

theorem filterMap_behind (keyword : Text) (l : List Text) :
    (l.map (keyword ++ ·)).filterMap (behind keyword) = l := by
  induction l with
  | nil => rfl
  | cons t l ih => rw [List.map_cons, List.filterMap_cons_some (behind_append keyword t), ih]

theorem unlines_singleton (l : Text) : unlines '\n' [l] = l ++ ['\n'] := by
  rw [unlines, List.flatMap_singleton]

theorem unlines_ite (p : Prop) [Decidable p] (l : Text) :
    unlines '\n' (if p then [l] else []) = if p then l ++ ['\n'] else [] := by
  split
  · rw [unlines_singleton]
  · rfl

theorem unlines_map (keyword : Text) (l : List Text) :
    unlines '\n' (l.map (keyword ++ ·)) = l.flatMap fun t => keyword ++ t ++ ['\n'] := by
  rw [unlines, List.flatMap_map]

/-- Nothing in an address separates anything. -/
def IsClean (ns : Text) : Prop := ∀ c ∈ ns, isAddressChar c = true

theorem IsClean.not_mem (h : IsClean ns) (hc : isAddressChar c = false) : c ∉ ns := by
  intro hmem
  rw [h c hmem] at hc
  nomatch hc

theorem IsClean.isSpace (h : IsClean ns) : ∀ c ∈ ns, isSpace c = false := by
  intro c hc
  by_contra hspace
  rw [Bool.not_eq_false, Text.isSpace] at hspace
  simp only [Bool.or_eq_true, beq_iff_eq] at hspace
  rcases hspace with ((((rfl | rfl) | rfl) | rfl) | rfl) | rfl <;>
    exact h.not_mem (by decide) hc

theorem line_of_keyword {t : Text} (hkeyword : '\n' ∉ keyword) (ht : '\n' ∉ t) :
    '\n' ∉ keyword ++ t := fun hmem => (List.mem_append.1 hmem).elim hkeyword ht

theorem words_flatMap (hne : ∀ ns ∈ l, ns ≠ []) (hclean : ∀ ns ∈ l, IsClean ns) :
    words (l.flatMap (' ' :: ·)) = l := by
  induction l with
  | nil => rfl
  | cons ns l ih =>
      obtain ⟨hns, hl⟩ := List.forall_mem_cons.1 hne
      obtain ⟨hword, hl'⟩ := List.forall_mem_cons.1 hclean
      have hrest : ∀ c ∈ (l.flatMap (' ' :: ·)).head?, isSpace c = true := by
        intro c hc
        cases l with
        | nil => nomatch hc
        | cons ns l =>
            obtain rfl := Option.some.inj hc
            rfl
      rw [List.flatMap_cons, List.cons_append, words_space rfl, words_word hns hword.isSpace hrest,
        ih hl hl']

theorem dnsBuffer_eq (nameservers : List Text) :
    dnsBuffer nameservers = unlines ';' (nameservers.takeWhile (· ≠ [])) := by
  induction nameservers with
  | nil => rfl
  | cons ns nameservers ih =>
      rw [dnsBuffer]
      by_cases hns : ns ≠ []
      · rw [if_pos hns, List.takeWhile_cons_of_pos (by simpa using hns), unlines_cons, ih]
      · rw [if_neg hns, List.takeWhile_cons_of_neg (by simpa using hns)]
        rfl

section Written

variable {nameservers : List Text} (hclean : ∀ ns ∈ nameservers, IsClean ns)

theorem flatMap_nonempty (f : Text → Text) (nameservers : List Text) :
    (nameservers.flatMap fun ns => if ns ≠ [] then f ns else [])
      = (stored nameservers).flatMap f := by
  induction nameservers with
  | nil => rfl
  | cons ns nameservers ih =>
      rw [List.flatMap_cons, ih]
      unfold stored
      by_cases hns : ns ≠ []
      · rw [if_pos hns, List.filter_cons_of_pos (by simpa using hns), List.flatMap_cons]
      · rw [if_neg hns, List.filter_cons_of_neg (by simpa using hns), List.nil_append]

include hclean

theorem resolvServers_write (domain : Line) :
    resolvServers (netcfgWriteResolv domain nameservers) = stored nameservers := by
  have hsearch : ∀ t : Text, behind "nameserver " ("search " ++ t) = none :=
    fun t => rfl
  have hlines : netcfgWriteResolv domain nameservers = unlines '\n'
      ((if domain.1 ≠ [] then ["search ".toList ++ domain.1] else []) ++
        (stored nameservers).map ("nameserver ".toList ++ ·)) := by
    rw [netcfgWriteResolv, flatMap_nonempty, unlines_append, unlines_map, unlines_ite]
  rw [resolvServers, hlines, entries_unlines (by decide), List.filterMap_append, filterMap_behind]
  · split
    · rw [List.filterMap_cons_none (hsearch _)]
      rfl
    · rfl
  · intro l hl
    rcases List.mem_append.1 hl with hl | hl
    · split at hl
      · rw [List.mem_singleton.1 hl]
        exact line_of_keyword (by decide) domain.2
      · exact absurd hl List.not_mem_nil
    · obtain ⟨ns, hns, rfl⟩ := List.mem_map.1 hl
      have hns' := hclean ns (List.mem_filter.1 hns).1
      exact line_of_keyword (by decide) (hns'.not_mem (by decide))

/-- The writer for the interfaces file looks at the first slot only. -/
theorem interfacesServers_write (domain : Line) :
    interfacesServers (netcfgWriteResolvconfOptions domain nameservers)
      = if nameservers.headD [] ≠ [] then stored nameservers else [] := by
  have hsearch : ∀ t : Text,
      behind "\tdns-nameservers " ("\tdns-search " ++ t) = none := fun t => rfl
  have hstored : ∀ ns ∈ stored nameservers, ns ≠ [] ∧ IsClean ns := by
    intro ns hns
    obtain ⟨hns, hne⟩ := List.mem_filter.1 hns
    exact ⟨by simpa using hne, hclean ns hns⟩
  obtain ⟨comment, hcomment, hbehind, hnewline⟩ : ∃ comment : Text,
      "\t# dns-* options are implemented by the resolvconf package, if installed\n"
        = comment ++ ['\n'] ∧ behind "\tdns-nameservers " comment = none ∧
      '\n' ∉ comment :=
    ⟨"\t# dns-* options are implemented by the resolvconf package, if installed", by decide,
      rfl, by decide⟩
  have hlines : netcfgWriteResolvconfOptions domain nameservers = unlines '\n'
      (if nameservers.headD [] ≠ [] ∨ domain.1 ≠ [] then
        comment :: ((if nameservers.headD [] ≠ [] then
          ["\tdns-nameservers" ++ (stored nameservers).flatMap (' ' :: ·)] else []) ++
          if domain.1 ≠ [] then ["\tdns-search " ++ domain.1] else [])
      else []) := by
    rw [netcfgWriteResolvconfOptions, flatMap_nonempty, hcomment]
    split
    · rw [unlines_cons, unlines_append, unlines_ite, unlines_ite]
      simp only [List.append_assoc, List.cons_append, List.nil_append]
    · rfl
  have hwords : ∀ ns l, stored nameservers = ns :: l →
      words (ns ++ l.flatMap (' ' :: ·)) = stored nameservers := by
    intro ns l heq
    have hread := words_flatMap (l := stored nameservers) (fun ns hns => (hstored ns hns).1)
      fun ns hns => (hstored ns hns).2
    rw [heq, List.flatMap_cons, List.cons_append, words_space rfl] at hread
    rw [hread, heq]
  rw [interfacesServers, hlines, entries_unlines (by decide)]
  · have hmissing : (if domain.1 ≠ [] then ["\tdns-search " ++ domain.1] else []).filterMap
        (behind "\tdns-nameservers ") = [] := by
      split
      · exact List.filterMap_cons_none (hsearch _)
      · rfl
    by_cases hfirst : nameservers.headD [] ≠ []
    · obtain ⟨l, hl⟩ : ∃ l, stored nameservers = nameservers.headD [] :: l := by
        cases nameservers with
        | nil => exact absurd rfl hfirst
        | cons ns l => exact ⟨stored l, List.filter_cons_of_pos (by simpa using hfirst)⟩
      have hline : "\tdns-nameservers" ++ (stored nameservers).flatMap (' ' :: ·)
          = "\tdns-nameservers " ++
            (nameservers.headD [] ++ l.flatMap (' ' :: ·)) := by
        rw [hl]
        rfl
      rw [if_pos (.inl hfirst), if_pos hfirst, if_pos hfirst, List.filterMap_cons_none hbehind,
        List.filterMap_append, hline, List.filterMap_cons_some (behind_append _ _), hmissing,
        List.filterMap_nil, List.append_nil, List.flatMap_singleton, hwords _ l hl]
    · rw [if_neg hfirst, if_neg hfirst]
      split
      · rw [List.filterMap_cons_none hbehind, List.nil_append, hmissing]
        rfl
      · rfl
  · intro l hl
    split at hl
    · rcases List.mem_cons.1 hl with rfl | hl
      · exact hnewline
      rcases List.mem_append.1 hl with hl | hl
      · split at hl
        · rw [List.mem_singleton.1 hl]
          refine line_of_keyword (by decide) fun hmem => ?_
          obtain ⟨ns, hns, hmem⟩ := List.mem_flatMap.1 hmem
          rcases List.mem_cons.1 hmem with hmem | hmem
          · exact absurd hmem (by decide)
          · exact (hstored ns hns).2.not_mem (by decide) hmem
        · exact absurd hl List.not_mem_nil
      · split at hl
        · rw [List.mem_singleton.1 hl]
          exact line_of_keyword (by decide) domain.2
        · exact absurd hl List.not_mem_nil
    · exact absurd hl List.not_mem_nil

/-- The writer for NetworkManager stops at the first empty slot. -/
theorem nmServers_write (ipAddress gateway : Line) (masklen : BitVec 32) :
    nmServers (nmWriteStaticIpvX ⟨ipAddress, gateway, nameservers, masklen⟩)
      = nameservers.takeWhile (· ≠ []) := by
  generalize hservers : nameservers.takeWhile (· ≠ []) = servers
  have hall : ∀ ns ∈ servers, ns ≠ [] ∧ IsClean ns := by
    intro ns hns
    rw [← hservers] at hns
    exact ⟨by simpa using List.mem_takeWhile_imp hns,
      hclean ns ((List.takeWhile_prefix _).subset hns)⟩
  have hother : ∀ t : Text, behind "dns=" ("addresses1=" ++ t) = none := fun t => rfl
  have hline : '\n' ∉ unlines ';' servers := by
    intro hmem
    obtain ⟨ns, hns, hmem⟩ := List.mem_flatMap.1 hmem
    rcases List.mem_append.1 hmem with hmem | hmem
    · exact (hall ns hns).2.not_mem (by decide) hmem
    · exact absurd hmem (by decide)
  have hread : ((unlines ';' servers).splitOn ';').filter (· ≠ []) = servers := by
    have hsplit := splitOn_unlines ';' (fun ns hns => (hall ns hns).2.not_mem (by decide)) []
    rw [List.append_nil, List.splitOn_nil] at hsplit
    rw [hsplit, List.filter_append,
      List.filter_eq_self.2 fun ns hns => decide_eq_true (hall ns hns).1]
    exact List.append_nil _
  generalize hgateway :
    (if gateway.1 ≠ [] then gateway.1.take (nmMaxLenIpv4 - 1) else ['0']) = gw
  have hgw : '\n' ∉ gw := by
    rw [← hgateway]
    split
    · exact fun hmem => gateway.2 (List.mem_of_mem_take hmem)
    · decide
  have haddresses : '\n' ∉ ipAddress.1 ++ ';' :: (ofInt masklen.toInt ++ ';' :: (gw ++ [';'])) := by
    simp only [List.mem_append, List.mem_cons, ipAddress.2, newline_not_mem_ofInt, hgw,
      List.not_mem_nil, or_false, false_or]
    decide
  have hlines : nmWriteStaticIpvX ⟨ipAddress, gateway, nameservers, masklen⟩ = unlines '\n'
      ((if unlines ';' servers ≠ [] then ["dns=" ++ unlines ';' servers] else []) ++
        ["addresses1=" ++
          (ipAddress.1 ++ ';' :: (ofInt masklen.toInt ++ ';' :: (gw ++ [';'])))]) := by
    rw [nmWriteStaticIpvX, dnsBuffer_eq, hservers, unlines_append, unlines_ite]
    dsimp only
    rw [hgateway, unlines_singleton, List.append_assoc "addresses1=".toList]
  rw [nmServers, hlines, entries_unlines (by decide), List.filterMap_append,
    List.filterMap_cons_none (hother _), List.filterMap_nil, List.append_nil]
  · split
    · rw [List.filterMap_cons_some (behind_append _ _), List.filterMap_nil, List.flatMap_singleton,
        hread]
    · next hempty =>
        cases servers with
        | nil => rfl
        | cons ns servers => exact absurd (by rw [unlines_cons]; simp) hempty
  · intro l hl
    rcases List.mem_append.1 hl with hl | hl
    · split at hl
      · rw [List.mem_singleton.1 hl]
        exact line_of_keyword (by decide) hline
      · exact absurd hl List.not_mem_nil
    · rw [List.mem_singleton.1 hl]
      exact line_of_keyword (by decide) haddresses

end Written

/-! ## Agreement -/

/-- All that is read back is what is in the array. -/
structure Agree (domain ipAddress gateway : Line) (masklen : BitVec 32)
    (nameservers : List Text) : Prop where
  resolv : resolvServers (netcfgWriteResolv domain nameservers) = stored nameservers
  interfaces : interfacesServers (netcfgWriteResolvconfOptions domain nameservers)
    = stored nameservers
  nm : nmServers (nmWriteStaticIpvX ⟨ipAddress, gateway, nameservers, masklen⟩)
    = stored nameservers

theorem isClean_array (hntop : ∀ af addr, ∀ c ∈ inet.ntop af addr, isAddressChar c = true)
    (nameservers : Option Text) : ∀ ns ∈ netcfgNameserversToArray inet nameservers, IsClean ns := by
  have hnil : IsClean [] := fun c hc => absurd hc List.not_mem_nil
  intro ns hns
  cases nameservers with
  | none =>
      rw [List.eq_of_mem_replicate hns]
      exact hnil
  | some nameservers =>
      rw [netcfgNameserversToArray, slots_eq] at hns
      rcases List.mem_append.1 hns with hns | hns
      · obtain ⟨w, -, rfl⟩ := List.mem_map.1 hns
        unfold slot
        split
        · exact hntop _ _
        · split
          · exact hntop _ _
          · exact hnil
      · rw [List.eq_of_mem_replicate hns]
        exact hnil

/-- No empty slot stands before one that is not, if no word that is none stands before an
address. -/
theorem pairwise_array_iff (hne : ∀ af addr, inet.ntop af addr ≠ []) (nameservers : Option Text) :
    (netcfgNameserversToArray inet nameservers).Pairwise (fun a b => b ≠ [] → a ≠ []) ↔
      ∀ words ∈ nameservers.map expand,
        (words.take netcfgNameserversMax).Pairwise fun v w =>
          IsAddress inet w → IsAddress inet v := by
  cases nameservers with
  | none => simp [netcfgNameserversToArray]
  | some nameservers =>
      rw [netcfgNameserversToArray, slots_eq, List.pairwise_append, List.pairwise_map]
      simp only [slot_ne_nil_iff hne, Option.map_some, Option.mem_def, Option.some.injEq,
        forall_eq']
      refine and_iff_left ⟨?_, fun a _ b hb hfull => ?_⟩
      · exact List.pairwise_of_forall_mem_list fun b _ c hc hfull =>
          absurd (List.eq_of_mem_replicate hc) hfull
      · exact absurd (List.eq_of_mem_replicate hb) hfull

/-- The three writers agree exactly if among the first four words there is no address behind a
word that is none. -/
theorem agree_iff {inet : Inet} (hntop : ∀ af addr, inet.ntop af addr ≠ [] ∧
      ∀ c ∈ inet.ntop af addr, isAddressChar c = true)
    (nameservers : Option Text) (domain ipAddress gateway : Line) (masklen : BitVec 32) :
    Agree domain ipAddress gateway masklen (netcfgNameserversToArray inet nameservers) ↔
      ∀ words ∈ nameservers.map expand,
        (words.take netcfgNameserversMax).Pairwise fun v w =>
          IsAddress inet w → IsAddress inet v := by
  rw [← pairwise_array_iff fun af addr => (hntop af addr).1]
  have hclean := isClean_array (fun af addr => (hntop af addr).2) nameservers
  generalize netcfgNameserversToArray inet nameservers = array at hclean ⊢
  have hiff : array.takeWhile (· ≠ []) = stored array ↔
      array.Pairwise fun a b => b ≠ [] → a ≠ [] := by
    rw [stored, takeWhile_eq_filter_iff]
    simp only [decide_eq_true_eq]
  rw [← hiff]
  constructor
  · intro hagree
    rw [← hagree.nm, nmServers_write hclean]
  · intro heq
    refine ⟨resolvServers_write hclean domain, ?_, ?_⟩
    · rw [interfacesServers_write hclean]
      split
      · rfl
      · next hempty =>
          rw [← heq]
          cases array with
          | nil => rfl
          | cons ns array => exact (List.takeWhile_cons_of_neg (by simpa using hempty)).symm
    · rw [nmServers_write hclean, heq]

theorem mem_intercalate {sep : Char} (h : c ∈ [sep].intercalate l) : c = sep ∨ ∃ w ∈ l, c ∈ w := by
  obtain ⟨w, hw, hc⟩ := List.mem_flatten.1 h
  induction l with
  | nil => nomatch hw
  | cons v l ih =>
      cases l with
      | nil =>
          rw [List.intersperse_singleton, List.mem_singleton] at hw
          exact .inr ⟨v, List.mem_cons_self, hw ▸ hc⟩
      | cons v' l =>
          rw [List.intersperse_cons_cons, List.mem_cons, List.mem_cons] at hw
          rcases hw with rfl | rfl | hw
          · exact .inr ⟨w, List.mem_cons_self, hc⟩
          · exact .inl (List.mem_singleton.1 hc)
          · have hc' := List.mem_flatten.2 ⟨w, hw, hc⟩
            exact (ih hc' hw).imp_right fun ⟨u, hu, hcu⟩ => ⟨u, List.mem_cons_of_mem _ hu, hcu⟩

theorem canonical_ntop (af : Family) (addr : Address af) : canonical.ntop af addr ≠ [] ∧
    ∀ c ∈ canonical.ntop af addr, isAddressChar c = true := by
  constructor
  · intro hnil
    have hread := canonical_pton_ntop af addr
    rw [hnil] at hread
    cases af <;> nomatch hread
  · intro c hc
    have hdigit : ∀ d, digitValue c = d → d < 16 → isAddressChar c = true := by
      rintro d rfl hd
      rw [isAddressChar, decide_eq_true hd]
      rfl
    cases af with
    | inet =>
        rcases mem_intercalate hc with rfl | ⟨w, hw, hc⟩
        · rfl
        · obtain ⟨b, -, rfl⟩ := List.mem_map.1 hw
          have hlt := digitValue_lt (by omega) (by omega) hc
          exact hdigit _ rfl (by omega)
    | inet6 =>
        rcases mem_intercalate hc with rfl | ⟨w, hw, hc⟩
        · rfl
        · obtain ⟨b, -, rfl⟩ := List.mem_map.1 hw
          exact hdigit _ rfl (digitValue_lt (by omega) le_rfl hc)

/-- An address, and a word that is none behind it. -/
theorem agree_behind : Agree ⟨[], by decide⟩ ⟨"10.0.0.2", by decide⟩ ⟨[], by decide⟩ 8#32
    (netcfgNameserversToArray canonical (some "10.0.0.1 banana")) := by
  refine (agree_iff canonical_ntop _ _ _ _ _).2 fun words hwords => ?_
  have hsplit : expand "10.0.0.1 banana" = ["10.0.0.1", "banana"] := by decide
  rw [Option.mem_def, Option.map_some, hsplit, Option.some.injEq] at hwords
  rw [← hwords]
  have haddress : IsAddress canonical "10.0.0.1" := .inl (by decide)
  exact List.pairwise_pair.2 fun _ => haddress

/-- A word that is no address in front of one: only `resolv.conf` has the address. -/
theorem agree_before :
    let array := netcfgNameserversToArray canonical (some "banana 10.0.0.1".toList)
    stored array = ["10.0.0.1".toList] ∧
      resolvServers (netcfgWriteResolv ⟨[], by decide⟩ array) = ["10.0.0.1".toList] ∧
      interfacesServers (netcfgWriteResolvconfOptions ⟨[], by decide⟩ array) = [] ∧
      nmServers (nmWriteStaticIpvX
        ⟨⟨"10.0.0.2".toList, by decide⟩, ⟨[], by decide⟩, array, 8#32⟩) = [] := by
  have harray : netcfgNameserversToArray canonical (some "banana 10.0.0.1".toList)
      = [[], "10.0.0.1".toList, [], []] := by decide
  rw [harray]
  decide

end DebianInstaller.Netcfg
