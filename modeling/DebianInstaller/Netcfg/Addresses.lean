import DebianInstaller.Netcfg.Interface
import Mathlib.Data.Fintype.Basic

/-!
# The network of an interface

From the address of an interface and the length of its mask follow the address of its network,
the one for all of its hosts, and whether a gateway can be reached. Each is computed with words of
the machine, and the network is even written as a text and read again in between. What comes out
depends on the bits of the addresses alone: the first ones are those of the interface, the others
cleared or set.
-/

namespace DebianInstaller.Netcfg

open Lib

/-! ## The code -/

/-- An address that `inet_pton` was to write, when it is used. -/
def written {α : Type} : Option α → Except Fault α
  | some a => .ok a
  | none => .error .unset

/-- `netcfg_network_address`: both families do the same, with one word or with four. For any
other family `inet_ntop` writes nothing. -/
def netcfgNetworkAddress (inet : Inet) (interface : NetcfgInterface) (network : Text) :
    Except Fault Text :=
  match interface.addressFamily with
  | none => return network
  | some af => do
      let ipaddr := inet.pton af interface.ipaddress
      let mask ← inetMton af interface.masklen
      let ipaddr ← written ipaddr
      let net := Octets.ofWords fun i => ipaddr.word i &&& mask.word i
      return inet.ntop af net

/-- `netcfg_broadcast_address` -/
def netcfgBroadcastAddress (inet : Inet) (interface : NetcfgInterface) : Except Fault Text :=
  -- IPv6 has no concept of broadcast addresses
  if interface.addressFamily ≠ some .inet then return []
  else do
    let network ← netcfgNetworkAddress inet interface []
    let net := inet.pton .inet network
    let mask ← inetMton .inet interface.masklen
    let net ← written net
    let broad := Octets.ofWords fun i => net.word i ||| ~~~ mask.word i
    return inet.ntop .inet broad

/-- The end of `netcfg_gateway_reachable`, for each family. -/
def gatewayInNet : (af : Family) → (gwAddr net : Option (Address af)) → Address af →
    Except Fault Bool
  | .inet, gwAddr, net, mask => do
      let gwAddr ← written gwAddr
      if gwAddr.word 0 = 0#32 then return false
      else
        let net ← written net
        return gwAddr.word 0 &&& mask.word 0 == net.word 0
  | .inet6, gwAddr, net, mask => do
      let gwAddr ← written gwAddr
      if Octets.swapShort ((gwAddr.word 0).setWidth 16) &&& 0xffc0#16 = 0xfe80#16 &&& 0xffc0#16 then
        return true
      else
        let net ← written net
        return (List.finRange 4).all fun i => gwAddr.word i &&& mask.word i == net.word i

/-- `netcfg_gateway_reachable` -/
def netcfgGatewayReachable (inet : Inet) (interface : NetcfgInterface) : Except Fault Bool := do
  let network ← netcfgNetworkAddress inet interface []
  match interface.addressFamily with
  | none => return false
  | some af =>
      let net := inet.pton af network
      let mask ← inetMton af interface.masklen
      let gwAddr := inet.pton af interface.gateway
      gatewayInNet af gwAddr net mask

/-! ## Networks -/

/-- `fe80::` -/
def fe80 : Address .inet6 := fun i => if i = 0 then 0xfe#8 else if i = 1 then 0x80#8 else 0#8

/-- A gateway that can be reached: one of the same network that is not all zeros, or for IPv6
one of the same network or of `fe80::/10`. -/
def Reachable : (af : Family) → (masklen : ℕ) → (ipaddr gateway : Address af) → Prop
  | .inet, masklen, ipaddr, gateway =>
      Octets.Agree masklen gateway ipaddr ∧ gateway ≠ fun _ => 0#8
  | .inet6, masklen, ipaddr, gateway =>
      Octets.Agree masklen gateway ipaddr ∨ Octets.Agree 10 gateway fe80

theorem netcfgNetworkAddress_eq (inet : Inet) {interface : NetcfgInterface} {af : Family}
    {ipaddr mask : Address af} (haf : interface.addressFamily = some af)
    (hip : inet.pton af interface.ipaddress = some ipaddr)
    (hmton : inetMton af interface.masklen = .ok mask) (network : Text) :
    netcfgNetworkAddress inet interface network
      = .ok (inet.ntop af (Octets.ofWords fun i => ipaddr.word i &&& mask.word i)) := by
  simp only [netcfgNetworkAddress, haf, hmton, hip]
  rfl

theorem linkLocal_iff (gateway : Address .inet6) :
    Octets.swapShort ((gateway.word 0).setWidth 16) &&& 0xffc0#16 = 0xfe80#16 &&& 0xffc0#16 ↔
      Octets.Agree 10 gateway fe80 := by
  have hbits : ∀ i < 16, (Octets.swapShort ((gateway.word 0).setWidth 16) &&& 0xffc0#16).getMsbD i
      = (gateway.bit i && decide (i < 10)) := by
    intro i hi
    have hmask : ∀ i < 16, (0xffc0#16).getMsbD i = decide (i < 10) := by decide
    rw [BitVec.getMsbD_and, hmask i hi]
    congr 1
    exact Octets.getMsbD_swapShort gateway (by decide) hi
  have hfe80 : ∀ i < 16, (0xfe80#16 &&& 0xffc0#16).getMsbD i = (fe80.bit i && decide (i < 10)) := by
    decide
  constructor
  · intro h i hi
    have hbit := hbits i (by omega)
    rw [h, hfe80 i (by omega), decide_eq_true hi, Bool.and_true, Bool.and_true] at hbit
    exact hbit.symm
  · intro h
    refine BitVec.eq_of_getMsbD_eq fun i hi => ?_
    rw [hbits i hi, hfe80 i hi]
    by_cases hlt : i < 10
    · rw [h i hlt]
    · rw [decide_eq_false hlt, Bool.and_false, Bool.and_false]

theorem gatewayInNet_eq {af : Family} {masklen : ℕ} (hmasklen : masklen ≤ af.bits)
    {ipaddr gateway net mask : Address af} (hmask : Octets.IsMask masklen mask)
    (hnet : Octets.Fills masklen ipaddr false net) :
    ∃ r, gatewayInNet af (some gateway) (some net) mask = .ok r ∧
      (r = true ↔ Reachable af masklen ipaddr gateway) := by
  cases af with
  | inet =>
      have hagree := Octets.agree_iff_words (n := 1) (b := gateway) hmasklen hmask hnet
      have hzero := Octets.words_eq_zero_iff (n := 1) (a := gateway)
      rw [Fin.forall_fin_one] at hagree hzero
      by_cases hgateway : gateway.word 0 = 0#32
      · refine ⟨false, if_pos hgateway, ?_⟩
        exact ⟨fun h => (nomatch h), fun h => absurd (hzero.1 hgateway) h.2⟩
      · refine ⟨gateway.word 0 &&& mask.word 0 == net.word 0, if_neg hgateway, ?_⟩
        rw [beq_iff_eq]
        exact hagree.trans ⟨fun h => ⟨h, fun heq => hgateway (hzero.2 heq)⟩, fun h => h.1⟩
  | inet6 =>
      have hagree := Octets.agree_iff_words (n := 4) (b := gateway) hmasklen hmask hnet
      by_cases hlocal : Octets.swapShort ((gateway.word 0).setWidth 16) &&& 0xffc0#16
          = 0xfe80#16 &&& 0xffc0#16
      · refine ⟨true, if_pos hlocal, ?_⟩
        exact ⟨fun _ => .inr ((linkLocal_iff gateway).1 hlocal), fun _ => rfl⟩
      · refine ⟨_, if_neg hlocal, ?_⟩
        rw [List.all_eq_true]
        constructor
        · intro h
          exact .inl (hagree.1 fun i => beq_iff_eq.1 (h i (List.mem_finRange i)))
        · rintro (h | h)
          · exact fun i _ => beq_iff_eq.2 (hagree.2 h i)
          · exact absurd ((linkLocal_iff gateway).2 h) hlocal

/-- For every address, gateway and length of a mask: the first bits make the network and decide
on the gateway. -/
theorem addresses_of_masklen (inet : Inet)
    (hinverse : ∀ af a, inet.pton af (inet.ntop af a) = some a) {interface : NetcfgInterface}
    {af : Family} {ipaddr gateway : Address af} (haf : interface.addressFamily = some af)
    (hip : inet.pton af interface.ipaddress = some ipaddr)
    (hgateway : inet.pton af interface.gateway = some gateway)
    (hmasklen : interface.masklen.toNat ≤ af.bits) (network : Text) :
    (∃ net, netcfgNetworkAddress inet interface network = .ok (inet.ntop af net) ∧
      Octets.Fills interface.masklen.toNat ipaddr false net) ∧
    (af = .inet → ∃ broad, netcfgBroadcastAddress inet interface = .ok (inet.ntop af broad) ∧
      Octets.Fills interface.masklen.toNat ipaddr true broad) ∧
    ∃ r, netcfgGatewayReachable inet interface = .ok r ∧
      (r = true ↔ Reachable af interface.masklen.toNat ipaddr gateway) := by
  obtain ⟨mask, hmton, hmask⟩ := inetMton_eq hmasklen
  have hnetwork := netcfgNetworkAddress_eq inet haf hip hmton
  have hnet := Octets.Fills.and hmask ipaddr
  refine ⟨⟨_, hnetwork network, hnet⟩, ?_, ?_⟩
  · rintro rfl
    refine ⟨_, ?_, Octets.Fills.or_not hmask hnet⟩
    rw [netcfgBroadcastAddress, if_neg (not_not.2 haf), hnetwork []]
    simp only [hmton]
    change (written (inet.pton _ (inet.ntop _ _)) >>= _) = _
    rw [hinverse]
    rfl
  · obtain ⟨r, hr, hiff⟩ : ∃ r, gatewayInNet af (some gateway) (some _) mask = .ok r ∧
        (r = true ↔ Reachable af interface.masklen.toNat ipaddr gateway) :=
      gatewayInNet_eq hmasklen hmask hnet
    refine ⟨r, ?_, hiff⟩
    rw [netcfgGatewayReachable, hnetwork []]
    simp only [haf, hmton, hgateway]
    change gatewayInNet af (some gateway) (inet.pton af (inet.ntop af _)) mask = _
    rw [hinverse]
    exact hr

/-- An interface with a gateway in its network. -/
def withGateway22 : NetcfgInterface where
  addressFamily := some .inet
  ipaddress := "192.168.1.25"
  masklen := 22#32
  gateway := "192.168.3.254"

def withGateway120 : NetcfgInterface where
  addressFamily := some .inet6
  ipaddress := "2001:db8:1:2:3:4:5:6"
  masklen := 120#32
  gateway := "2001:db8:1:2:3:4:5:1"

theorem addresses_of_22_120 :
    (∃ r, netcfgGatewayReachable canonical withGateway22 = .ok r ∧
      (r = true ↔ Reachable .inet 22
        (fun i => [192#8, 168#8, 1#8, 25#8].get i) fun i => [192#8, 168#8, 3#8, 254#8].get i)) ∧
    ∃ r, netcfgGatewayReachable canonical withGateway120 = .ok r ∧
      (r = true ↔ Reachable .inet6 120
        (ofGroups fun i => [0x2001#16, 0xdb8#16, 1#16, 2#16, 3#16, 4#16, 5#16, 6#16].get i)
        (ofGroups fun i => [0x2001#16, 0xdb8#16, 1#16, 2#16, 3#16, 4#16, 5#16, 1#16].get i)) := by
  refine ⟨(addresses_of_masklen canonical canonical_pton_ntop rfl ?_ ?_ (by decide) []).2.2,
    (addresses_of_masklen canonical canonical_pton_ntop rfl ?_ ?_ (by decide) []).2.2⟩ <;>
  decide +kernel

end DebianInstaller.Netcfg
