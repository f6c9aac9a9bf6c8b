import IpeLang.Package.Fields

/-!
# Capabilities

The capabilities of `kernels/src/capability.rs` and their wire names. The source reads a name with a
second table of the same names; here it is looked up in the first one (`fromStr_asStr`).
-/

namespace IpeLang.Package

open IpeLang.Lib

/-- The browser interface that a port reaches. -/
inductive WebCapability
  | geolocation
  | clipboard
  | notification
  | storage
  | vibration
  | share
  | battery
  | networkInfo
  | file
  | camera
  | microphone
  | gamepad
  | recorder
  | visibility
  | mediaQuery
  | connectivity
  | raw
  | speech
  | permission
  | orientation
  | motion
  | channel
  | fullscreen
  | screenOrientation
  | wakeLock
  | webAuthn
  deriving DecidableEq, Repr

namespace WebCapability

/-- Every web axis, in the order of declaration. -/
def ALL : List WebCapability :=
  [.geolocation, .clipboard, .notification, .storage, .vibration, .share, .battery, .networkInfo,
    .file, .camera, .microphone, .gamepad, .recorder, .visibility, .mediaQuery, .connectivity, .raw,
    .speech, .permission, .orientation, .motion, .channel, .fullscreen, .screenOrientation,
    .wakeLock, .webAuthn]

def asStr : WebCapability → String
  | .geolocation => "geolocation"
  | .clipboard => "clipboard"
  | .notification => "notification"
  | .storage => "storage"
  | .vibration => "vibration"
  | .share => "share"
  | .battery => "battery"
  | .networkInfo => "network-info"
  | .file => "file"
  | .camera => "camera"
  | .microphone => "microphone"
  | .gamepad => "gamepad"
  | .recorder => "recorder"
  | .visibility => "visibility"
  | .mediaQuery => "media-query"
  | .connectivity => "connectivity"
  | .raw => "raw"
  | .speech => "speech"
  | .permission => "permission"
  | .orientation => "orientation"
  | .motion => "motion"
  | .channel => "channel"
  | .fullscreen => "fullscreen"
  | .screenOrientation => "screen-orientation"
  | .wakeLock => "wake-lock"
  | .webAuthn => "web-authn"

/-- Read a web axis after the start `js-port:`. -/
def fromSuffix (suffix : Str) : Option WebCapability :=
  ALL.find? fun w => w.asStr.toList == suffix

theorem mem_all (w : WebCapability) : w ∈ ALL := by
  cases w <;> decide

theorem fromSuffix_asStr (w : WebCapability) : fromSuffix w.asStr.toList = some w := by
  have hall : ∀ w ∈ ALL, fromSuffix w.asStr.toList = some w := by decide +kernel
  exact hall w (mem_all w)

end WebCapability

/-- What a program is permitted to do. -/
inductive Capability
  | network
  | filesystem
  | database
  | env
  | subprocess
  | clock
  | random
  | nativeFfi
  | ffiRaw
  | unsafeEscape
  | customElement
  | jsPort (w : WebCapability)
  deriving DecidableEq, Repr

namespace Capability

/-- The capabilities that are no port. -/
def PLAIN : List Capability :=
  [.network, .filesystem, .database, .env, .subprocess, .clock, .random, .nativeFfi, .ffiRaw,
    .unsafeEscape, .customElement]

/-- Every capability, in the order of declaration. -/
def ALL : List Capability := PLAIN ++ WebCapability.ALL.map .jsPort

/-- What the names of ports start with. -/
def JS_PORT : Str := "js-port:".toList

def asStr : Capability → Str
  | .network => "network".toList
  | .filesystem => "filesystem".toList
  | .database => "database".toList
  | .env => "env".toList
  | .subprocess => "subprocess".toList
  | .clock => "clock".toList
  | .random => "random".toList
  | .nativeFfi => "native-ffi".toList
  | .ffiRaw => "ffi-raw".toList
  | .unsafeEscape => "unsafe".toList
  | .customElement => "custom-element".toList
  | .jsPort w => JS_PORT ++ w.asStr.toList

/-- Read a capability; a name that is in no table is none. -/
def fromStr (name : Str) : Option Capability :=
  match PLAIN.find? fun c => c.asStr == name with
  | some c => some c
  | none => (name.dropPrefix? JS_PORT).bind fun suffix =>
      (WebCapability.fromSuffix suffix).map .jsPort

theorem mem_all (c : Capability) : c ∈ ALL := by
  cases c with
  | jsPort w =>
    have hport : Capability.jsPort w ∈ WebCapability.ALL.map Capability.jsPort :=
      List.mem_map_of_mem (WebCapability.mem_all w)
    exact List.mem_append_right PLAIN hport
  | _ => exact List.mem_append_left _ (by decide)

theorem fromStr_asStr (c : Capability) : fromStr c.asStr = some c := by
  have hall : ∀ c ∈ ALL, fromStr c.asStr = some c := by decide +kernel
  exact hall c (mem_all c)

/-- The characters of a name of a capability. -/
theorem isNameChar_of_mem_asStr {c : Capability} {a : Char} (h : a ∈ c.asStr) :
    Semver.isIdentChar a = true ∨ a = ':' := by
  have hall : ∀ c ∈ ALL, (c.asStr.all fun a => Semver.isIdentChar a || a == ':') = true := by
    decide +kernel
  simpa using List.all_eq_true.1 (hall c (mem_all c)) a h

theorem asStr_ne_nil (c : Capability) : c.asStr ≠ [] := by
  have hall : ∀ c ∈ ALL, c.asStr ≠ [] := by decide +kernel
  exact hall c (mem_all c)

end Capability

/-- A set of capabilities. -/
abbrev CapabilitySet := Finset Capability

/-- The capabilities of a set, in the order of declaration. -/
def CapabilitySet.iter (s : CapabilitySet) : List Capability :=
  Capability.ALL.filter fun c => c ∈ s

@[simp] theorem CapabilitySet.mem_iter {s : CapabilitySet} {c : Capability} : c ∈ s.iter ↔ c ∈ s := by
  simp [iter, Capability.mem_all]

theorem CapabilitySet.toFinset_iter (s : CapabilitySet) : s.iter.toFinset = s := by
  ext c
  simp

end IpeLang.Package
