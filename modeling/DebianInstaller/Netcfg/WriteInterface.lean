import DebianInstaller.Netcfg.Devices
import DebianInstaller.Netcfg.Interface

/-!
# Writing the interfaces file

`netcfg_write_interface` copies the interfaces file to a temporary one, appends what there is to
say about an interface, and renames the temporary file. Its comment promises that the file is not
modified where it returns false. Where there is no interface, though, the file is deleted first,
and it stays deleted if something goes wrong then. Nothing asks whether the renaming worked, nor,
as the data is still in a buffer at that time, whether it could be written. Which calls fail is
given beforehand.
-/

namespace DebianInstaller.Netcfg

open Text

/-! ## The code -/

/-- `wifimode_t` -/
inductive WifiMode where
  | adhoc
  | managed
  deriving DecidableEq

/-- `wpa_t` -/
inductive Wpa where
  | ok
  | queued
  | unavail
  deriving DecidableEq

/-- What of `struct netcfg_interface` gets into the file. A pointer may be `NULL`. -/
structure InterfaceConfig extends NetcfgInterface where
  loopback : ℤ := -1
  dhcp : ℤ := -1
  slaac : ℤ := -1
  dhcpHostname : Text := []
  mode : WifiMode := .managed
  wepkey : Option Text := none
  essid : Option Text := none
  wpaSupplicantStatus : Wpa := .unavail
  passphrase : Option Text := none

/-- What the system knows of interfaces: the lists of devices, and which are wireless. -/
structure Devices where
  devhotplug : Option Text
  stab : Option Text
  isWirelessIface : Text → Bool

/-- `nc_wi_header` -/
def ncWiHeader : Text :=
  "# This file describes the network interfaces available on your system\n" ++
    ("# and how to activate them. For more information, see interfaces(5).\n" ++
      "\nsource /etc/network/interfaces.d/*\n")

/-- `fprintf(fd, "%s %s%s\n", ..)`, as all stanzas begin. -/
def option (keyword name rest : Text) : Text := keyword ++ ' ' :: name ++ rest ++ ['\n']

/-- `nc_wi_loopback` -/
def ncWiLoopback (interface : InterfaceConfig) : Text :=
  "\n# The loopback network interface\n" ++
    (option "auto" interface.name [] ++
      option "iface" interface.name " inet loopback")

/-- `%s` of a pointer that may be `NULL`. -/
def orNull (s : Option Text) : Text := s.getD "(null)"

/-- `nc_wi_wireless_options` -/
def ncWiWirelessOptions (interface : InterfaceConfig) : Text :=
  match interface.wpaSupplicantStatus with
  | .queued =>
      option "\twpa-ssid" (orNull interface.essid) [] ++
        option "\twpa-psk " (orNull interface.passphrase) []
  | _ =>
      "\t# wireless-* options are implemented by the wireless-tools package\n" ++
        (option "\twireless-mode"
            (if interface.mode = .managed then "managed" else "ad-hoc") [] ++
          (option "\twireless-essid"
              (if interface.essid.getD [] ≠ [] then interface.essid.getD [] else "any") [] ++
            match interface.wepkey with
            | some wepkey => option "\twireless-key1" wepkey []
            | none => []))

/-- How an interface is brought up. -/
def bringUp (devices : Devices) (interface : InterfaceConfig) : Text :=
  if !ifaceIsHotpluggable interface.name devices.devhotplug &&
      !findInStab interface.name devices.stab then
    option "auto" interface.name []
  else option "allow-hotplug" interface.name []

def primary : Text := "\n# The primary network interface\n"

/-- `nc_wi_dhcp` -/
def ncWiDhcp (devices : Devices) (interface : InterfaceConfig) : Text :=
  primary ++ (bringUp devices interface ++
    (option "iface" interface.name " inet dhcp" ++
      if interface.dhcpHostname ≠ [] then option "\thostname" interface.dhcpHostname []
      else []))

/-- `nc_wi_slaac` -/
def ncWiSlaac (devices : Devices) (interface : InterfaceConfig) : Text :=
  (if interface.dhcp = 0 then primary else []) ++
    ("# This is an autoconfigured IPv6 interface\n" ++
      ((if interface.dhcp = 0 then bringUp devices interface else []) ++
        option "iface" interface.name " inet6 auto"))

def address (interface : InterfaceConfig) (masklen : BitVec 32) : Text :=
  option "\taddress" interface.ipaddress ('/' :: ofInt masklen.toInt)

/-- `nc_wi_static_ipv4` -/
def ncWiStaticIpv4 (devices : Devices) (interface : InterfaceConfig) : Text :=
  primary ++ (bringUp devices interface ++
    (option "iface" interface.name " inet static" ++
      (address interface (if interface.pointopoint = [] then interface.masklen else 32#32) ++
        ((if interface.gateway ≠ [] ∨ interface.pointopoint ≠ [] then
            option "\tgateway"
              (if interface.pointopoint = [] then interface.gateway else interface.pointopoint) []
          else []) ++
          if interface.pointopoint ≠ [] then option "\tpointopoint" interface.pointopoint []
          else []))))

/-- `nc_wi_static_ipv6` -/
def ncWiStaticIpv6 (devices : Devices) (interface : InterfaceConfig) : Text :=
  primary ++ (bringUp devices interface ++
    (option "iface" interface.name " inet6 static" ++
      (address interface interface.masklen ++
        if interface.gateway ≠ [] then option "\tgateway" interface.gateway [] else [])))

/-- What is written: each of the functions returns 1. -/
def stanza (devices : Devices) : Option InterfaceConfig → Text
  | none => ncWiHeader
  | some interface =>
      (if interface.loopback = 1 then ncWiLoopback interface
      else if interface.dhcp = 1 ∨ interface.slaac = 1 then
        (if interface.dhcp = 1 then ncWiDhcp devices interface else []) ++
          if interface.slaac = 1 then ncWiSlaac devices interface else []
      else
        match interface.addressFamily with
        | some .inet => ncWiStaticIpv4 devices interface
        | some .inet6 => ncWiStaticIpv6 devices interface
        | none => []) ++
        if devices.isWirelessIface interface.name then ncWiWirelessOptions interface else []

/-- How the calls end. A file that is not there is no failure of `unlink` and `stat`. What `read`
and `fwrite` return is a number of bytes, and `flush` is what of the data gets into the temporary
file. -/
structure Calls where
  unlinkFails : Bool
  openTmpFails : Bool
  statFails : Bool
  openFails : Bool
  read : Option ℕ
  fwrite : ℕ
  renameFails : Bool
  unlinkTmpFails : Bool
  flush : Text → Text

/-- `INTERFACES_FILE`, and the temporary file beside it. -/
structure Files where
  interfaces : Option Text
  tmp : Option Text
  deriving DecidableEq

/-- `unlink(INTERFACES_FILE ".tmp")` -/
def Files.unlinkTmp (files : Files) (calls : Calls) : Files :=
  if calls.unlinkTmpFails then files else { files with tmp := none }

/-- What is done before anything is opened. -/
def clear (calls : Calls) (interface : Option InterfaceConfig) (files : Files) : Option Files :=
  if interface.isNone then
    if calls.unlinkFails then none else some { files with interfaces := none }
  else some files

/-- The old file copied: what has been given to the temporary file when it fails, or when it
does not. -/
def copy (calls : Calls) : Option Text → Except Text Text
  | none => .ok []
  | some old =>
      if calls.openFails then .error []
      else if calls.read ≠ some old.length then .error []
      else if calls.fwrite ≠ old.length then .error (old.take calls.fwrite)
      else .ok old

/-- `netcfg_write_interface` -/
def netcfgWriteInterface (devices : Devices) (calls : Calls) (interface : Option InterfaceConfig)
    (files : Files) : Bool × Files :=
  match clear calls interface files with
  | none => (false, files)
  | some files =>
      if calls.openTmpFails then (false, files)
      else if calls.statFails then (false, { files with tmp := some [] }.unlinkTmp calls)
      else
        match copy calls files.interfaces with
        | .error copied =>
            (false, { files with tmp := some (calls.flush copied) }.unlinkTmp calls)
        | .ok copied =>
            let data := calls.flush (copied ++ stanza devices interface)
            if calls.renameFails then (true, { files with tmp := some data }.unlinkTmp calls)
            else (true, { interfaces := some data, tmp := none : Files }.unlinkTmp calls)

/-! ## What is promised -/

/-- What the file begins with: nothing if there is no interface, and else what it held. -/
def kept (interface : Option InterfaceConfig) (files : Files) : Text :=
  if interface.isNone then [] else files.interfaces.getD []

/-- The file is as it was, or there is one stanza more. -/
def Kept (devices : Devices) (interface : Option InterfaceConfig) (files : Files)
    (result : Bool × Files) : Prop :=
  match result.1 with
  | false => result.2.interfaces = files.interfaces
  | true => result.2.interfaces = some (kept interface files ++ stanza devices interface)

/-- A call that is asked about fails, from opening the temporary file to copying the old one. -/
def Fails (calls : Calls) (interface : Option InterfaceConfig) (files : Files) : Prop :=
  calls.openTmpFails = true ∨ calls.statFails = true ∨
    interface ≠ none ∧ ∃ old, files.interfaces = some old ∧
      (calls.openFails = true ∨ calls.read ≠ some old.length ∨ calls.fwrite ≠ old.length)

/-- After a failure nothing may have been deleted. Without one all the data has to get into the
file, and the file to its place, unless there is nothing to be added. -/
def Safe (devices : Devices) (calls : Calls) (interface : Option InterfaceConfig) (files : Files) :
    Prop :=
  interface = none ∧ calls.unlinkFails = true ∨
    (Fails calls interface files → interface = none → files.interfaces = none) ∧
      (¬ Fails calls interface files →
        if calls.renameFails = true then
          stanza devices interface = [] ∧ interface ≠ none ∧ files.interfaces ≠ none
        else calls.flush (kept interface files ++ stanza devices interface)
          = kept interface files ++ stanza devices interface)

@[simp] theorem Files.unlinkTmp_interfaces (files : Files) (calls : Calls) :
    (files.unlinkTmp calls).interfaces = files.interfaces := by
  unfold unlinkTmp
  split <;> rfl

/-! ## The ways to end -/

variable (devices : Devices) {calls : Calls} {interface : Option InterfaceConfig} {files : Files}

theorem copy_cases (calls : Calls) (interfaces : Option Text) :
    (copy calls interfaces = .ok (interfaces.getD []) ∧ ∀ old, interfaces = some old →
      ¬ (calls.openFails = true ∨ calls.read ≠ some old.length ∨ calls.fwrite ≠ old.length)) ∨
    (∃ copied, copy calls interfaces = .error copied) ∧ ∃ old, interfaces = some old ∧
      (calls.openFails = true ∨ calls.read ≠ some old.length ∨ calls.fwrite ≠ old.length) := by
  cases interfaces with
  | none => exact .inl ⟨rfl, fun old h => nomatch h⟩
  | some old =>
      rw [copy]
      by_cases hopen : calls.openFails = true
      · exact .inr ⟨⟨_, if_pos hopen⟩, old, rfl, .inl hopen⟩
      rw [if_neg hopen]
      by_cases hread : calls.read ≠ some old.length
      · exact .inr ⟨⟨_, if_pos hread⟩, old, rfl, .inr (.inl hread)⟩
      rw [if_neg hread]
      by_cases hwrite : calls.fwrite ≠ old.length
      · exact .inr ⟨⟨_, if_pos hwrite⟩, old, rfl, .inr (.inr hwrite)⟩
      rw [if_neg hwrite]
      refine .inl ⟨rfl, fun old' h => ?_⟩
      obtain rfl := Option.some.inj h
      rintro (h | h | h)
      · exact hopen h
      · exact hread h
      · exact hwrite h

/-- The files once nothing stands in the way of opening the temporary one. -/
def cleared (interface : Option InterfaceConfig) (files : Files) : Files :=
  if interface.isNone then { files with interfaces := none } else files

theorem clear_eq (h : ¬ (interface = none ∧ calls.unlinkFails = true)) :
    clear calls interface files = some (cleared interface files) := by
  cases interface with
  | none => exact if_neg fun hunlink => h ⟨rfl, hunlink⟩
  | some interface => rfl

theorem kept_eq : kept interface files = (cleared interface files).interfaces.getD [] := by
  cases interface <;> rfl

theorem fails_iff : Fails calls interface files ↔ calls.openTmpFails = true ∨
    calls.statFails = true ∨ ∃ old, (cleared interface files).interfaces = some old ∧
      (calls.openFails = true ∨ calls.read ≠ some old.length ∨ calls.fwrite ≠ old.length) := by
  unfold Fails
  cases interface with
  | none => simp [cleared]
  | some interface => simp [cleared]

theorem write_fails (h : ¬ (interface = none ∧ calls.unlinkFails = true))
    (hfails : Fails calls interface files) :
    (netcfgWriteInterface devices calls interface files).1 = false ∧
      (netcfgWriteInterface devices calls interface files).2.interfaces
        = (cleared interface files).interfaces := by
  rw [fails_iff] at hfails
  unfold netcfgWriteInterface
  rw [clear_eq h]
  dsimp only
  by_cases htmp : calls.openTmpFails = true
  · rw [if_pos htmp]
    exact ⟨rfl, rfl⟩
  rw [if_neg htmp]
  by_cases hstat : calls.statFails = true
  · rw [if_pos hstat]
    exact ⟨rfl, Files.unlinkTmp_interfaces _ _⟩
  rw [if_neg hstat]
  rcases copy_cases calls (cleared interface files).interfaces with ⟨-, hnone⟩ | ⟨⟨copied, hcopy⟩, -⟩
  · obtain ⟨old, hold, hcall⟩ := (hfails.resolve_left htmp).resolve_left hstat
    exact absurd hcall (hnone old hold)
  · rw [hcopy]
    exact ⟨rfl, Files.unlinkTmp_interfaces _ _⟩

theorem write_succeeds (h : ¬ (interface = none ∧ calls.unlinkFails = true))
    (hfails : ¬ Fails calls interface files) :
    (netcfgWriteInterface devices calls interface files).1 = true ∧
      (netcfgWriteInterface devices calls interface files).2.interfaces
        = if calls.renameFails = true then (cleared interface files).interfaces
          else some (calls.flush (kept interface files ++ stanza devices interface)) := by
  rw [fails_iff, not_or, not_or] at hfails
  obtain ⟨htmp, hstat, hcalls⟩ := hfails
  unfold netcfgWriteInterface
  rw [clear_eq h]
  dsimp only
  rw [if_neg htmp, if_neg hstat]
  rcases copy_cases calls (cleared interface files).interfaces with ⟨hcopy, -⟩ | ⟨-, hcall⟩
  · rw [hcopy, ← kept_eq]
    dsimp only
    split
    · exact ⟨rfl, Files.unlinkTmp_interfaces _ _⟩
    · exact ⟨rfl, Files.unlinkTmp_interfaces _ _⟩
  · exact absurd hcall hcalls

/-- The promise is kept exactly if nothing has been deleted in vain, and if what has been written
gets to its place. -/
theorem writeInterface_kept_iff (calls : Calls) (interface : Option InterfaceConfig)
    (files : Files) :
    Kept devices interface files (netcfgWriteInterface devices calls interface files) ↔
      Safe devices calls interface files := by
  unfold Kept Safe
  by_cases hunlink : interface = none ∧ calls.unlinkFails = true
  · refine iff_of_true ?_ (.inl hunlink)
    obtain ⟨rfl, hunlink⟩ := hunlink
    have hclear : clear calls none files = none := if_pos hunlink
    rw [netcfgWriteInterface, hclear]
  rw [or_iff_right hunlink]
  by_cases hfails : Fails calls interface files
  · obtain ⟨hfalse, hfile⟩ := write_fails devices hunlink hfails
    rw [hfalse, hfile]
    simp only [hfails, true_implies, not_true_eq_false, false_implies, and_true]
    cases interface with
    | none => simp [cleared, eq_comm]
    | some interface => simp [cleared]
  · obtain ⟨htrue, hfile⟩ := write_succeeds devices hunlink hfails
    rw [htrue, hfile]
    simp only [hfails, false_implies, not_false_eq_true, true_implies, true_and]
    split
    · cases interface with
      | none => simp [cleared]
      | some interface =>
          cases hold : files.interfaces with
          | none => simp [cleared, hold]
          | some old => simp [cleared, kept, hold]
    · rw [Option.some.injEq]

/-- Nothing goes wrong. -/
def fine (files : Files) : Calls where
  unlinkFails := false
  openTmpFails := false
  statFails := false
  openFails := false
  read := files.interfaces.map List.length
  fwrite := (files.interfaces.getD []).length
  renameFails := false
  unlinkTmpFails := false
  flush := id

/-- An interfaces file, and no lists of devices. -/
def loopbackOnly : Files := ⟨some "auto lo\n", none⟩

def noDevices : Devices := ⟨none, none, fun _ => false⟩

/-- The temporary file cannot be opened when the file has been deleted already. And a file that
cannot be renamed, or not written, passes for one that was. -/
theorem writeInterface_deleted :
    netcfgWriteInterface noDevices { fine loopbackOnly with openTmpFails := true } none
        loopbackOnly = (false, ⟨none, none⟩) ∧
      (netcfgWriteInterface noDevices { fine loopbackOnly with renameFails := true }
        (some { name := "lo", loopback := 1 }) loopbackOnly).1 = true ∧
      (netcfgWriteInterface noDevices { fine loopbackOnly with renameFails := true }
        (some { name := "lo", loopback := 1 }) loopbackOnly).2.interfaces = loopbackOnly.interfaces ∧
      ¬ Kept noDevices none loopbackOnly (netcfgWriteInterface noDevices
        { fine loopbackOnly with openTmpFails := true } none loopbackOnly) := by
  refine ⟨by decide, by decide, by decide, ?_⟩
  intro h
  exact absurd (show none = some "auto lo\n".toList from h) (by decide)

end DebianInstaller.Netcfg
