import DebianInstaller.Netcfg.Canonical

/-!
# Reading the address of an interface

`netcfg_parse_cidr_address` reads an address and the length of its mask into an interface. Its
comment promises that an interface stays as it is when something goes wrong, and where the mask
has something else than digits that is so. But the length of the mask is written at the very end,
where an address that cannot be read gets there too, with a length of zero.
-/

namespace DebianInstaller.Netcfg

/-! ## The code -/

/-- `struct netcfg_interface`, as far as static addresses are concerned, with the values of
`netcfg_interface_init`. An address family that is neither of the two is `none`. -/
structure NetcfgInterface where
  name : Text := []
  addressFamily : Option Family := none
  ipaddress : Text := []
  masklen : BitVec 32 := 0#32
  gateway : Text := []
  pointopoint : Text := []
  deriving DecidableEq

/-- `NETCFG_ADDRSTRLEN` -/
def netcfgAddrstrlen : ℕ := 46

/-- `strtrim` -/
def strtrim (s : Text) : Text := (s.rdropWhile Text.isSpace).dropWhile Text.isSpace

/-- `strchr (addrstr, '/')`: the address, and the mask behind it. -/
def splitMask (addrstr : Text) : Text × Option Text :=
  match addrstr.dropWhile (· ≠ '/') with
  | [] => (addrstr, none)
  | _ :: mask => (addrstr.takeWhile (· ≠ '/'), some mask)

/-- `atoi` of digits: `strtol` stops at the largest `long`, and an `int` is the end of that. -/
def atoi (digits : Text) : BitVec 32 := BitVec.ofNat 32 (min (Text.number digits) (2 ^ 63 - 1))

/-- What is read of the text: at most so many characters, without blanks around. -/
def addrMask (address : Text) : Text × Option Text :=
  splitMask (strtrim (address.take (netcfgAddrstrlen - 1)))

/-- `netcfg_parse_cidr_address` -/
def netcfgParseCidrAddress (inet : Inet) (address : Text) (interface : NetcfgInterface) :
    Bool × NetcfgInterface :=
  let (addrstr, maskptr) := addrMask address
  if maskptr.any fun mask => mask.any (!·.isDigit) then (false, interface)
  else
    let (ok, interface) :=
      match inet.pton .inet addrstr with
      | some addr =>
          (true, { interface with addressFamily := some .inet, ipaddress := inet.ntop .inet addr })
      | none =>
          match inet.pton .inet6 addrstr with
          | some addr6 =>
              (true, { interface with
                addressFamily := some .inet6, ipaddress := inet.ntop .inet6 addr6 })
          | none => (false, interface)
    let masklen :=
      match ok, maskptr with
      | true, some mask => atoi mask
      | _, _ => 0#32
    (ok, { interface with masklen := masklen })

/-! ## What a call does -/

/-- The mask has a character that is not a digit. -/
def BadMask (address : Text) : Prop :=
  (addrMask address).2.any (fun mask => mask.any (!·.isDigit)) = true

/-- The text in front of the mask is an address of one family; IPv4 is tried first. -/
def Reads (inet : Inet) (address : Text) : (af : Family) → Address af → Prop
  | .inet, addr => inet.pton .inet (addrMask address).1 = some addr
  | .inet6, addr =>
      inet.pton .inet (addrMask address).1 = none ∧
        inet.pton .inet6 (addrMask address).1 = some addr

/-- The length of the mask, zero if there is none. -/
def givenMasklen (address : Text) : BitVec 32 := (addrMask address).2.elim 0#32 atoi

instance (address : Text) : Decidable (BadMask address) := by
  unfold BadMask
  infer_instance

theorem parse_badMask (inet : Inet) {address : Text} (h : BadMask address)
    (interface : NetcfgInterface) :
    netcfgParseCidrAddress inet address interface = (false, interface) := if_pos h

theorem parse_reads (inet : Inet) {address : Text} (h : ¬ BadMask address) {af : Family}
    {addr : Address af} (hreads : Reads inet address af addr) (interface : NetcfgInterface) :
    netcfgParseCidrAddress inet address interface = (true, { interface with
      addressFamily := some af, ipaddress := inet.ntop af addr,
      masklen := givenMasklen address }) := by
  unfold netcfgParseCidrAddress givenMasklen
  unfold BadMask at h
  unfold Reads at hreads
  generalize addrMask address = split at h hreads ⊢
  obtain ⟨addrstr, maskptr⟩ := split
  cases af with
  | inet =>
      simp only [if_neg h, hreads]
      cases maskptr <;> rfl
  | inet6 =>
      simp only [if_neg h, hreads.1, hreads.2]
      cases maskptr <;> rfl

theorem parse_unread (inet : Inet) {address : Text} (h : ¬ BadMask address)
    (hreads : ∀ af addr, ¬ Reads inet address af addr) (interface : NetcfgInterface) :
    netcfgParseCidrAddress inet address interface
      = (false, { interface with masklen := 0#32 }) := by
  have hnone : inet.pton .inet (addrMask address).1 = none :=
    Option.eq_none_iff_forall_ne_some.2 fun addr haddr => hreads .inet addr haddr
  have hnone6 : inet.pton .inet6 (addrMask address).1 = none :=
    Option.eq_none_iff_forall_ne_some.2 fun addr haddr => hreads .inet6 addr ⟨hnone, haddr⟩
  unfold netcfgParseCidrAddress
  unfold BadMask at h
  generalize addrMask address = split at h hnone hnone6 ⊢
  obtain ⟨addrstr, maskptr⟩ := split
  simp only [if_neg h, hnone, hnone6]

theorem parse_true {inet : Inet} {address : Text} {interface interface' : NetcfgInterface}
    (h : netcfgParseCidrAddress inet address interface = (true, interface')) :
    ∃ af addr, Reads inet address af addr ∧ interface' = { interface with
      addressFamily := some af, ipaddress := inet.ntop af addr,
      masklen := givenMasklen address } := by
  by_cases hbad : BadMask address
  · rw [parse_badMask inet hbad] at h
    nomatch h
  · by_cases hreads : ∃ af addr, Reads inet address af addr
    · obtain ⟨af, addr, hreads⟩ := hreads
      rw [parse_reads inet hbad hreads] at h
      exact ⟨af, addr, hreads, (Prod.mk.inj h).2.symm⟩
    · rw [parse_unread inet hbad fun af addr hr => hreads ⟨af, addr, hr⟩] at h
      nomatch h

/-- A call that fails leaves the interface as it was if the mask is wrong, or if there was no
mask before; a call that succeeds promises nothing. -/
theorem parse_unchanged_iff (inet : Inet) (address : Text) (interface : NetcfgInterface) :
    ((netcfgParseCidrAddress inet address interface).1 = false →
      (netcfgParseCidrAddress inet address interface).2 = interface) ↔
      BadMask address ∨ (∃ af addr, Reads inet address af addr) ∨ interface.masklen = 0#32 := by
  by_cases hbad : BadMask address
  · rw [parse_badMask inet hbad]
    exact ⟨fun _ => .inl hbad, fun _ _ => rfl⟩
  · by_cases hreads : ∃ af addr, Reads inet address af addr
    · obtain ⟨af, addr, hreads⟩ := hreads
      rw [parse_reads inet hbad hreads]
      exact ⟨fun _ => .inr (.inl ⟨af, addr, hreads⟩), fun _ h => nomatch h⟩
    · rw [parse_unread inet hbad fun af addr hr => hreads ⟨af, addr, hr⟩]
      constructor
      · intro h
        exact .inr (.inr (congrArg NetcfgInterface.masklen (h rfl)).symm)
      · rintro (h | h | h)
        · exact absurd h hbad
        · exact absurd h hreads
        · intro _
          rw [← h]

/-- Something that is no address, for an interface with a mask. -/
theorem parse_bogus :
    ¬ ((netcfgParseCidrAddress canonical "bogus" { masklen := 24#32 }).1 = false →
      (netcfgParseCidrAddress canonical "bogus" { masklen := 24#32 }).2
        = { masklen := 24#32 }) := by
  decide +kernel

end DebianInstaller.Netcfg
