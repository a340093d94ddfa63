import DebianInstaller.Netcfg.Addresses

/-!
# How long a mask may be

Of the length of a mask only the characters are looked at when it is read. It is used as a number
of shifts and of bytes where nothing is checked again, so the bound has to hold when the mask is
read. For the three functions that compute addresses it is the number of bits of an address. But
the question whether the settings are right shows the mask as one of IPv4 whatever the family is,
so no mask of IPv6 that is longer than 32 bits comes through.
-/

namespace DebianInstaller.Netcfg

variable {af : Family} {inet : Inet} {interface : NetcfgInterface} {α : Type}

/-! ## The code -/

/-- The end of the state `CONFIRM` of `netcfg_get_static`, as far as `netcfg/confirm_static` is
filled in. -/
def confirmStatic (inet : Inet) (iface : NetcfgInterface) (none : Text)
    (nameservers : Option Text) : Except Fault (List (Text × Text)) := do
  let netmask ← inetMtop inet .inet iface.masklen
  let orNone (w : Text) : Text := if w = [] then none else w
  return [("interface", iface.name),
    ("ipaddress", orNone iface.ipaddress),
    ("pointopoint", orNone iface.pointopoint),
    ("netmask", orNone netmask),
    ("gateway", orNone iface.gateway),
    ("nameservers", nameservers.getD none)]

/-! ## What stays inside an address -/

/-- Nothing is shifted too far, and nothing written behind an address. -/
def Inside {α : Type} (run : Except Fault α) : Prop := ∀ fault, run = .error fault → fault = .unset

theorem Inside.ok (a : α) : Inside (.ok a : Except Fault α) := fun _ h => nomatch h

theorem Inside.written (a : Option α) : Inside (written a) := by
  cases a with
  | none =>
      intro fault h
      exact (Except.error.inj h).symm
  | some a => exact Inside.ok a

theorem Inside.bind {β : Type} {run : Except Fault α} {next : α → Except Fault β}
    (hrun : Inside run) (hnext : ∀ a, run = .ok a → Inside (next a)) : Inside (run >>= next) := by
  cases run with
  | error fault =>
      intro fault' h
      obtain rfl := Except.error.inj h
      exact hrun fault rfl
  | ok a => exact hnext a rfl

theorem inside_inetMton_iff {src : BitVec 32} : Inside (inetMton af src) ↔ src.toNat ≤ af.bits := by
  constructor
  · intro h
    by_contra hlt
    obtain ⟨fault, hmton, hfault⟩ := inetMton_fault (Nat.lt_of_not_le hlt)
    exact hfault (h fault hmton)
  · intro h
    obtain ⟨mask, hmton, -⟩ := inetMton_eq h
    rw [hmton]
    exact Inside.ok mask

theorem inside_networkAddress (haf : interface.addressFamily = some af)
    (h : interface.masklen.toNat ≤ af.bits) (network : Text) :
    Inside (netcfgNetworkAddress inet interface network) := by
  simp only [netcfgNetworkAddress, haf]
  refine Inside.bind (inside_inetMton_iff.2 h) fun mask _ => ?_
  exact Inside.bind (Inside.written _) fun ipaddr _ => Inside.ok _

theorem inside_broadcastAddress (haf : interface.addressFamily = some af)
    (h : interface.masklen.toNat ≤ af.bits) : Inside (netcfgBroadcastAddress inet interface) := by
  unfold netcfgBroadcastAddress
  split
  · exact Inside.ok _
  · next hinet =>
      obtain rfl : af = .inet := by
        rw [haf] at hinet
        exact Option.some.inj (not_not.1 hinet)
      refine Inside.bind (inside_networkAddress haf h []) fun network _ => ?_
      refine Inside.bind (inside_inetMton_iff.2 h) fun mask _ => ?_
      exact Inside.bind (Inside.written _) fun net _ => Inside.ok _

theorem inside_gatewayInNet (gwAddr net : Option (Address af)) (mask : Address af) :
    Inside (gatewayInNet af gwAddr net mask) := by
  cases af with
  | inet =>
      refine Inside.bind (Inside.written _) fun gateway _ => ?_
      split
      · exact Inside.ok _
      · exact Inside.bind (Inside.written _) fun net _ => Inside.ok _
  | inet6 =>
      refine Inside.bind (Inside.written _) fun gateway _ => ?_
      split
      · exact Inside.ok _
      · exact Inside.bind (Inside.written _) fun net _ => Inside.ok _

theorem inside_gatewayReachable (haf : interface.addressFamily = some af)
    (h : interface.masklen.toNat ≤ af.bits) : Inside (netcfgGatewayReachable inet interface) := by
  refine Inside.bind (inside_networkAddress haf h []) fun network _ => ?_
  simp only [haf]
  exact Inside.bind (inside_inetMton_iff.2 h) fun mask _ => inside_gatewayInNet _ _ _

theorem inside_confirmStatic_iff {iface : NetcfgInterface} {none : Text}
    {nameservers : Option Text} :
    Inside (confirmStatic inet iface none nameservers) ↔ iface.masklen.toNat ≤ 32 := by
  constructor
  · intro h
    by_contra hlt
    obtain ⟨fault, hmtop, hfault⟩ := inetMtop_fault inet (Nat.lt_of_not_le hlt) .inet
    refine hfault (h fault ?_)
    rw [confirmStatic, hmtop]
    rfl
  · intro h
    obtain ⟨mask, hmtop, -⟩ := inetMtop_eq inet h
    rw [confirmStatic, hmtop]
    exact Inside.ok _

/-! ## Masks that are accepted -/

/-- The three functions that compute addresses stay inside. -/
def AddressesInside (inet : Inet) (interface : NetcfgInterface) : Prop :=
  (∀ network, Inside (netcfgNetworkAddress inet interface network)) ∧
    Inside (netcfgBroadcastAddress inet interface) ∧
    Inside (netcfgGatewayReachable inet interface)

/-- The mask is no longer than an address of its family. -/
def MaskFits (interface : NetcfgInterface) : Prop :=
  (interface.addressFamily = some .inet → interface.masklen.toNat ≤ 32) ∧
    (interface.addressFamily = some .inet6 → interface.masklen.toNat ≤ 128)

theorem maskFits_iff (haf : interface.addressFamily = some af) :
    MaskFits interface ↔ interface.masklen.toNat ≤ af.bits := by
  unfold MaskFits
  rw [haf]
  cases af with
  | inet => exact ⟨fun h => h.1 rfl, fun h => ⟨fun _ => h, fun heq => nomatch heq⟩⟩
  | inet6 => exact ⟨fun h => h.2 rfl, fun h => ⟨fun heq => (nomatch heq), fun _ => h⟩⟩

theorem addressesInside (haf : interface.addressFamily = some af)
    (h : interface.masklen.toNat ≤ af.bits) : AddressesInside inet interface :=
  ⟨inside_networkAddress haf h, inside_broadcastAddress haf h, inside_gatewayReachable haf h⟩

theorem Reads.family {address : Text} {af' : Family} {addr : Address af} {addr' : Address af'}
    (h : Reads inet address af addr) (h' : Reads inet address af' addr') : af = af' := by
  cases af with
  | inet =>
      cases af' with
      | inet => rfl
      | inet6 => nomatch h.symm.trans h'.1
  | inet6 =>
      cases af' with
      | inet => nomatch h'.symm.trans h.1
      | inet6 => rfl

theorem bits_ge (af : Family) : 32 ≤ af.bits := by
  cases af <;> decide

/-- What the length of a mask that is accepted has to be: no more than the bits of an address for
the addresses that are computed, and no more than 32 if the settings are also shown. -/
theorem masklen_fits_iff {inet : Inet} {address : Text} {interface interface' : NetcfgInterface}
    (h : netcfgParseCidrAddress inet address interface = (true, interface')) :
    ((MaskFits interface' ∧ ∀ later : NetcfgInterface,
        later.addressFamily = interface'.addressFamily → later.masklen = interface'.masklen →
          AddressesInside inet later) ↔
      ∀ af addr, Reads inet address af addr → (givenMasklen address).toNat ≤ af.bits) ∧
    ((MaskFits interface' ∧ ∀ later : NetcfgInterface,
        later.addressFamily = interface'.addressFamily → later.masklen = interface'.masklen →
          AddressesInside inet later ∧
            ∀ none nameservers, Inside (confirmStatic inet later none nameservers)) ↔
      (givenMasklen address).toNat ≤ 32) := by
  obtain ⟨af, addr, hreads, rfl⟩ := parse_true h
  have hfits : MaskFits { interface with
      addressFamily := some af, ipaddress := inet.ntop af addr, masklen := givenMasklen address } ↔
      (givenMasklen address).toNat ≤ af.bits := maskFits_iff rfl
  refine ⟨⟨fun hinside af' addr' hreads' => ?_, fun hle => ?_⟩, ⟨fun hinside => ?_, fun hle => ?_⟩⟩
  · obtain rfl := Reads.family hreads hreads'
    exact hfits.1 hinside.1
  · have hle := hle af addr hreads
    refine ⟨hfits.2 hle, fun later haf hmasklen => addressesInside haf ?_⟩
    rw [hmasklen]
    exact hle
  · exact inside_confirmStatic_iff.1 ((hinside.2 _ rfl rfl).2 [] none)
  · have hbits : (givenMasklen address).toNat ≤ af.bits := hle.trans (bits_ge af)
    refine ⟨hfits.2 hbits, fun later haf hmasklen => ⟨addressesInside haf ?_, ?_⟩⟩
    · rw [hmasklen]
      exact hbits
    · intro none nameservers
      refine inside_confirmStatic_iff.2 ?_
      rw [hmasklen]
      exact hle

theorem masklen_fits_24 :
    (MaskFits (netcfgParseCidrAddress canonical "192.0.2.12/24" {}).2 ∧
      ∀ later : NetcfgInterface, later.addressFamily = some .inet → later.masklen = 24#32 →
        AddressesInside canonical later ∧
          ∀ none nameservers, Inside (confirmStatic canonical later none nameservers)) := by
  have h : netcfgParseCidrAddress canonical "192.0.2.12/24" {} = (true,
      { addressFamily := some .inet, ipaddress := "192.0.2.12", masklen := 24#32 }) := by
    decide
  have hfits := (masklen_fits_iff h).2.2 (by decide)
  rw [h]
  exact hfits

/-- With a mask of 33 bits the address of IPv4 is accepted. -/
theorem masklen_33 :
    ¬ ∀ (address : Text) (interface interface' : NetcfgInterface),
      netcfgParseCidrAddress canonical address interface = (true, interface') →
        MaskFits interface' ∧ ∀ later : NetcfgInterface,
          later.addressFamily = interface'.addressFamily → later.masklen = interface'.masklen →
            AddressesInside canonical later ∧
              ∀ none nameservers, Inside (confirmStatic canonical later none nameservers) := by
  intro hall
  have h := hall "192.0.2.12/33" {}
    { addressFamily := some .inet, ipaddress := "192.0.2.12", masklen := 33#32 }
    (by decide)
  have hle : (33#32).toNat ≤ 32 := h.1.1 rfl
  revert hle
  decide

end DebianInstaller.Netcfg
