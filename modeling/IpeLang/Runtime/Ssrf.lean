import IpeLang.Lib.Whatwg

/-!
# Showing URLs with credentials

The gate of outgoing connections refuses URLs and says why. What it says of a URL is derived from the same
split that is dialled, and leaves out what may be credentials.

* `DisplayableUrl.of`: a URL as it is shown;
* `vet_url_with`, `ssrf_check_url_nonblocking`: the two ways to vet a URL;
* `vet_url_with_names`, `ssrf_check_url_nonblocking_names`: a refusal names a host or an address only where
  the URL shows its origin;
* `displays_independent_iff`: for which schemes and remainders nothing that is shown depends on the
  credentials.
-/

namespace IpeLang.Runtime.Ssrf

open Lib (Str)
open Lib.Whatwg

/-! ### Addresses -/

structure Ipv4Addr where
  a : UInt8
  b : UInt8
  c : UInt8
  d : UInt8
  deriving DecidableEq

/-- The segments of an address of version 6. -/
structure Ipv6Addr where
  s0 : UInt16
  s1 : UInt16
  s2 : UInt16
  s3 : UInt16
  s4 : UInt16
  s5 : UInt16
  s6 : UInt16
  s7 : UInt16
  deriving DecidableEq

inductive IpAddr
  | V4 (v4 : Ipv4Addr)
  | V6 (v6 : Ipv6Addr)
  deriving DecidableEq

structure SocketAddr where
  ip : IpAddr
  port : ℕ
  deriving DecidableEq

/-- The class of a blocked address. -/
inductive BlockedRange
  | Loopback
  | LinkLocal
  | Private
  | Reserved
  deriving DecidableEq

def BlockedRange.display : BlockedRange → Str
  | .Loopback => "loopback".toList
  | .LinkLocal => "link-local".toList
  | .Private => "private".toList
  | .Reserved => "reserved".toList

def Ipv4Addr.is_loopback (v4 : Ipv4Addr) : Bool := v4.a = 127

def Ipv4Addr.is_link_local (v4 : Ipv4Addr) : Bool := v4.a = 169 && v4.b = 254

def Ipv4Addr.is_private (v4 : Ipv4Addr) : Bool :=
  v4.a = 10 || (v4.a = 172 && 16 ≤ v4.b && v4.b ≤ 31) || (v4.a = 192 && v4.b = 168)

def Ipv4Addr.is_unspecified (v4 : Ipv4Addr) : Bool := v4.a = 0 && v4.b = 0 && v4.c = 0 && v4.d = 0

def blocked_v4 (v4 : Ipv4Addr) : Option BlockedRange :=
  let cgnat := v4.a = 100 ∧ v4.b &&& 0xc0 = 0x40
  let reserved := v4.a = 0 ∨ (v4.a = 192 ∧ v4.b = 0 ∧ v4.c = 0) ∨ (v4.a = 198 ∧ v4.b &&& 0xfe = 18) ∨ 240 ≤ v4.a
  if v4.is_loopback then some .Loopback
  else if v4.is_link_local then some .LinkLocal
  else if v4.is_private = true ∨ cgnat then some .Private
  else if v4.is_unspecified = true ∨ reserved then some .Reserved
  else none

/-- The address of version 4 in two segments. -/
def v4_from_segments (hi lo : UInt16) : Ipv4Addr :=
  ⟨(hi >>> 8).toUInt8, hi.toUInt8, (lo >>> 8).toUInt8, lo.toUInt8⟩

/-- The segments that an address of version 4 does not fill are zero, but for the last one of them. -/
def Ipv6Addr.embeds (v6 : Ipv6Addr) (s5 : UInt16) : Bool :=
  v6.s0 = 0 && v6.s1 = 0 && v6.s2 = 0 && v6.s3 = 0 && v6.s4 = 0 && v6.s5 = s5

def Ipv6Addr.to_ipv4_mapped (v6 : Ipv6Addr) : Option Ipv4Addr :=
  if v6.embeds 0xffff then some (v4_from_segments v6.s6 v6.s7) else none

def Ipv6Addr.to_ipv4 (v6 : Ipv6Addr) : Option Ipv4Addr :=
  if v6.embeds 0 || v6.embeds 0xffff then some (v4_from_segments v6.s6 v6.s7) else none

def Ipv6Addr.is_loopback (v6 : Ipv6Addr) : Bool := v6.embeds 0 && v6.s6 = 0 && v6.s7 = 1

def Ipv6Addr.is_unspecified (v6 : Ipv6Addr) : Bool := v6.embeds 0 && v6.s6 = 0 && v6.s7 = 0

def blocked_v6 (v6 : Ipv6Addr) : Option BlockedRange :=
  if v6.is_loopback then some .Loopback
  else if v6.is_unspecified then some .Reserved
  else if v6.s0 &&& 0xffc0 = 0xfe80 then some .LinkLocal
  else if v6.s0 &&& 0xfe00 = 0xfc00 then some .Private
  else if v6.s0 = 0x0064 ∧ v6.s1 = 0xff9b then blocked_v4 (v4_from_segments v6.s6 v6.s7)
  else if v6.s0 = 0x2002 then blocked_v4 (v4_from_segments v6.s1 v6.s2)
  else
    match v6.to_ipv4_mapped with
    | some v4 => blocked_v4 v4
    | none =>
      match v6.to_ipv4 with
      | some v4 => blocked_v4 v4
      | none => none

def blocked_range : IpAddr → Option BlockedRange
  | .V4 v4 => blocked_v4 v4
  | .V6 v6 => blocked_v6 v6

/-! ### What a refusal shows -/

/-- The texts of the standard library: addresses, quoted texts and the classes of failures. -/
structure Std (Kind : Type) where
  parse_ip : Str → Option IpAddr
  ip : IpAddr → Str
  quoted : Str → Str
  kind : Kind → Str

variable {Kind : Type}

inductive HostDisclosure
  | Named
  | Withheld
  deriving DecidableEq

inductive HostShown
  | Named (host : Str)
  | Withheld
  deriving DecidableEq

def HostShown.of (host : Str) : HostDisclosure → HostShown
  | .Named => .Named host
  | .Withheld => .Withheld

inductive BlockedHost
  | Named (host : Str) (ip : IpAddr)
  | Withheld
  deriving DecidableEq

/-- A host that is not read from a URL with credentials. -/
structure ConfiguredHost where
  text : Str
  deriving DecidableEq

inductive SsrfRefusal (Kind : Type)
  | Blocked (host : BlockedHost) (range : BlockedRange)
  | Unresolvable (host : HostShown) (kind : Kind)
  | NoAddresses (host : HostShown)
  | Timeout (host : HostShown) (after : ℕ)
  | LocalSocket
  | UnprovenTarget
  | UnpinnableTlsName (host : ConfiguredHost)

def WITHHELD_URL_TAIL : Str := "<withheld: may hold credentials>".toList

def WITHHELD_HOST : Str := "<withheld: may be part of the URL's credentials>".toList

def WITHHELD_SCHEME : Str := "<withheld: may be a user name>".toList

def HostShown.display (t : Std Kind) : HostShown → Str
  | .Named host => "host ".toList ++ t.quoted host
  | .Withheld => "host ".toList ++ WITHHELD_HOST

/-- Without the brackets of an address of version 6. -/
def strip_ipv6_brackets : Str → Str
  | '[' :: host => if host.getLast? = some ']' then host.dropLast else '[' :: host
  | host => host

def BlockedHost.display (t : Std Kind) (range : BlockedRange) : BlockedHost → Str
  | .Named host ip =>
    if (t.parse_ip (strip_ipv6_brackets host)).isSome then
      "blocked: ".toList ++ range.display ++ " host ".toList ++ t.ip ip
    else
      "blocked: host ".toList ++ t.quoted host ++ " resolved to ".toList ++ range.display ++ " address ".toList ++
        t.ip ip
  | .Withheld => "blocked: ".toList ++ range.display ++ " host ".toList ++ WITHHELD_HOST

/-- The text of a refusal. A deadline is in nanoseconds. -/
def SsrfRefusal.display (t : Std Kind) (refusal : SsrfRefusal Kind) : Str :=
  (match refusal with
    | .Blocked host range => host.display t range
    | .Unresolvable host kind =>
      "blocked: could not resolve ".toList ++ host.display t ++ ": ".toList ++ t.kind kind
    | .NoAddresses host => "blocked: ".toList ++ host.display t ++ " resolved to no addresses".toList
    | .Timeout host after =>
      "blocked: resolving ".toList ++ host.display t ++ " timed out after ".toList ++
        Nat.toDigits 10 (after / 1000000) ++ " ms".toList
    | .LocalSocket => "blocked: local socket dial target".toList
    | .UnprovenTarget => "blocked: connection URL names no host, so the dial target is unproven".toList
    | .UnpinnableTlsName host =>
      "blocked: sslmode=verify-full checks the certificate against host ".toList ++ t.quoted host.text ++
        (", but the dial is pinned to its vetted address; use an IP-literal host " ++
          "whose certificate names that address, or sslmode=verify-ca").toList) ++
    " (IPE_HTTP_DENY_PRIVATE)".toList

/-- The text of a refusal holds a host or an address. -/
def SsrfRefusal.Names : SsrfRefusal Kind → Prop
  | .Blocked host _ => host ≠ .Withheld
  | .Unresolvable host _ => host ≠ .Withheld
  | .NoAddresses host => host ≠ .Withheld
  | .Timeout host _ => host ≠ .Withheld
  | .LocalSocket => False
  | .UnprovenTarget => False
  | .UnpinnableTlsName _ => True

/-! ### Hosts -/

/-- What becomes of a lookup within its deadline. -/
inductive Lookup (Kind : Type)
  | found (addrs : List SocketAddr)
  | failed (kind : Kind)
  | elapsed

def HostResolver (Kind : Type) : Type := Str → ℕ → Lookup Kind

/-- The addresses a host was vetted with. -/
structure VettedAddrs where
  first : SocketAddr
  rest : List SocketAddr

def refuse_blocked (host : Str) (disclosure : HostDisclosure) (ip : IpAddr) : Except (SsrfRefusal Kind) Unit :=
  match blocked_range ip with
  | none => .ok ()
  | some range =>
    .error (.Blocked
      (match disclosure with
        | .Named => .Named host ip
        | .Withheld => .Withheld) range)

/-- The first address that is refused. -/
def refuse_addrs (host : Str) (disclosure : HostDisclosure) : List SocketAddr → Except (SsrfRefusal Kind) Unit
  | [] => .ok ()
  | addr :: addrs =>
    match refuse_blocked host disclosure addr.ip with
    | .error e => .error e
    | .ok () => refuse_addrs host disclosure addrs

def vet_host_addrs_with (t : Std Kind) (resolver : HostResolver Kind) (host : Str) (disclosure : HostDisclosure)
    (port deadline : ℕ) : Except (SsrfRefusal Kind) VettedAddrs :=
  match t.parse_ip (strip_ipv6_brackets host) with
  | some ip => (refuse_blocked host disclosure ip).map fun _ => ⟨⟨ip, port⟩, []⟩
  | none =>
    match resolver host port with
    | .failed kind => .error (.Unresolvable (.of host disclosure) kind)
    | .elapsed => .error (.Timeout (.of host disclosure) deadline)
    | .found addrs =>
      match refuse_addrs host disclosure addrs with
      | .error e => .error e
      | .ok () =>
        match addrs.map fun addr => (⟨addr.ip, port⟩ : SocketAddr) with
        | [] => .error (.NoAddresses (.of host disclosure))
        | first :: rest => .ok ⟨first, rest⟩

def vet_host_with (t : Std Kind) (resolver : HostResolver Kind) (host : Str) (disclosure : HostDisclosure)
    (port deadline : ℕ) : Except (SsrfRefusal Kind) SocketAddr :=
  (vet_host_addrs_with t resolver host disclosure port deadline).map VettedAddrs.first

/-! ### Schemes -/

/-- The schemes that may be named. -/
def NAMEABLE_SCHEMES : List Str :=
  ["http", "https", "ws", "wss", "ftp", "ftps", "sftp", "file", "data", "blob", "about", "javascript", "mailto",
    "tel", "gopher", "dict", "ldap", "ldaps", "ssh", "telnet", "postgres", "postgresql"].map String.toList

/-- A scheme as it is shown: only one that may be named is. -/
inductive SchemeShown
  | Known (scheme : { scheme // scheme ∈ NAMEABLE_SCHEMES })
  | Withheld

def eq_ignore_ascii_case (s t : Str) : Bool := s.map Char.toLower = t.map Char.toLower

def SchemeShown.of (scheme : Str) : SchemeShown :=
  match NAMEABLE_SCHEMES.attach.find? fun known => eq_ignore_ascii_case known.val scheme with
  | some known => .Known known
  | none => .Withheld

def SchemeShown.display (t : Std Kind) : SchemeShown → Str
  | .Known scheme => t.quoted scheme.val
  | .Withheld => WITHHELD_SCHEME

inductive GatedSchemes
  | Http
  | HttpAndWebSocket
  deriving DecidableEq

def GatedSchemes.schemes : GatedSchemes → List Str
  | .Http => ["http".toList, "https".toList]
  | .HttpAndWebSocket => ["http".toList, "https".toList, "ws".toList, "wss".toList]

def GatedSchemes.admits (admitted : GatedSchemes) (scheme : Str) : Bool := admitted.schemes.contains scheme

def GatedSchemes.display (admitted : GatedSchemes) : Str := ['/'].intercalate admitted.schemes

/-! ### URLs -/

/-- The user name and the password may run into the host, the path or the fragment. -/
def userinfo_may_spill_past_the_query (raw : Str) (parsed : Option Url) : Bool :=
  raw.contains '\\' ||
    match parsed with
    | none => raw.contains '@'
    | some url => url.path.contains '@' || url.fragment.any fun fragment => fragment.contains '@'

/-- The user name and the password may run past the authority. -/
def userinfo_is_ambiguous (raw : Str) (parsed : Option Url) : Bool :=
  userinfo_may_spill_past_the_query raw parsed ||
    parsed.any fun url => url.query.any fun query => query.contains '@'

inductive Shown
  | Origin (scheme : { scheme // scheme ∈ NAMEABLE_SCHEMES }) (host : Str) (port : Option ℕ)
  | SchemeOnly (scheme : SchemeShown)

/-- A URL as it is shown. -/
structure DisplayableUrl where
  shown : Shown

def DisplayableUrl.of_parsed (raw : Str) : Option Url → DisplayableUrl
  | none => ⟨.SchemeOnly .Withheld⟩
  | some parsed =>
    match SchemeShown.of parsed.scheme with
    | .Withheld => ⟨.SchemeOnly .Withheld⟩
    | .Known known =>
      if userinfo_is_ambiguous raw (some parsed) then ⟨.SchemeOnly (.Known known)⟩
      else
        match parsed.host with
        | none => ⟨.SchemeOnly (.Known known)⟩
        | some host => ⟨.Origin known host parsed.port⟩

def DisplayableUrl.of (H : HostReader) (raw : Str) : DisplayableUrl := .of_parsed raw (parse H raw).toOption

def DisplayableUrl.shows_host (url : DisplayableUrl) : Bool :=
  match url.shown with
  | .Origin _ _ _ => true
  | .SchemeOnly _ => false

def DisplayableUrl.host_disclosure (url : DisplayableUrl) : HostDisclosure :=
  if url.shows_host then .Named else .Withheld

def DisplayableUrl.display (url : DisplayableUrl) : Str :=
  match url.shown with
  | .Origin scheme host (some port) => scheme.val ++ "://".toList ++ host ++ ':' :: Nat.toDigits 10 port
  | .Origin scheme host none => scheme.val ++ "://".toList ++ host
  | .SchemeOnly (.Known scheme) => scheme.val ++ ':' :: WITHHELD_URL_TAIL
  | .SchemeOnly .Withheld => WITHHELD_URL_TAIL

def url_host_disclosure (raw : Str) (parsed : Url) : HostDisclosure :=
  (DisplayableUrl.of_parsed raw (some parsed)).host_disclosure

/-! ### Refusing URLs -/

inductive UrlRefusal (Kind : Type)
  | MisplacedUserinfo
  | Invalid (reason : ParseError)
  | Scheme (scheme : SchemeShown) (admitted : GatedSchemes)
  | NoHost
  | Host (refusal : SsrfRefusal Kind)

def ParseError.display : ParseError → Str
  | .EmptyHost => "empty host".toList
  | .IdnaError => "invalid international domain name".toList
  | .InvalidPort => "invalid port number".toList
  | .InvalidIpv4Address => "invalid IPv4 address".toList
  | .InvalidIpv6Address => "invalid IPv6 address".toList
  | .InvalidDomainCharacter => "invalid domain character".toList
  | .RelativeUrlWithoutBase => "relative URL without a base".toList

def UrlRefusal.display (t : Std Kind) : UrlRefusal Kind → Str
  | .MisplacedUserinfo =>
    ("blocked: the URL has a `\\`, or an `@` in its path or fragment, so its user " ++
      "name and password may run into the host or path; percent-encode `@`, `/`, " ++
      "`?`, `#` and `\\` in the user name and password (as %40, %2F, %3F, %23, " ++
      "%5C), and `@` in the path (as %40)").toList
  | .Invalid reason =>
    "blocked: invalid URL: ".toList ++ ParseError.display reason ++ " (IPE_HTTP_DENY_PRIVATE)".toList
  | .Scheme scheme admitted =>
    "blocked: scheme ".toList ++ scheme.display t ++ " is not ".toList ++ admitted.display ++
      " (IPE_HTTP_DENY_PRIVATE)".toList
  | .NoHost => "blocked: URL has no host (IPE_HTTP_DENY_PRIVATE)".toList
  | .Host refusal => refusal.display t

/-- The text of a refusal holds a host or an address. -/
def UrlRefusal.Names : UrlRefusal Kind → Prop
  | .MisplacedUserinfo => False
  | .Invalid _ => False
  | .Scheme _ _ => False
  | .NoHost => False
  | .Host refusal => refusal.Names

def refuse_misplaced_userinfo (H : HostReader) (raw : Str) : Except (UrlRefusal Kind) Unit :=
  let spills :=
    match parse H raw with
    | .error _ => raw.contains '\\'
    | .ok url => userinfo_may_spill_past_the_query raw (some url)
  if spills then .error .MisplacedUserinfo else .ok ()

def parse_gated_url_within (H : HostReader) (url : Str) (admitted : GatedSchemes) : Except (UrlRefusal Kind) Url :=
  match parse H url with
  | .error reason => .error (.Invalid reason)
  | .ok parsed =>
    if admitted.admits parsed.scheme then .ok parsed
    else .error (.Scheme (SchemeShown.of parsed.scheme) admitted)

def parse_gated_url (H : HostReader) (url : Str) : Except (UrlRefusal Kind) Url :=
  parse_gated_url_within H url .HttpAndWebSocket

inductive DialPolicy
  | DenyPrivate
  | AllowAll
  deriving DecidableEq

inductive VettedDial
  | Pinned (addr : SocketAddr)
  | Unrestricted
  deriving DecidableEq

/-- The port of a URL, or that of its scheme. -/
def port_or_known_default (url : Url) : Option ℕ := url.port <|> defaultPort url.scheme

def vet_url_with (H : HostReader) (t : Std Kind) (policy : DialPolicy) (resolver : HostResolver Kind) (url : Str)
    (deadline : ℕ) : Except (UrlRefusal Kind) VettedDial :=
  match refuse_misplaced_userinfo H url with
  | .error e => .error e
  | .ok () =>
    match policy with
    | .AllowAll => .ok .Unrestricted
    | .DenyPrivate =>
      match parse_gated_url H url with
      | .error e => .error e
      | .ok parsed =>
        match parsed.host with
        | none => .error .NoHost
        | some host =>
          match vet_host_with t resolver host (url_host_disclosure url parsed)
              ((port_or_known_default parsed).getD 0) deadline with
          | .error e => .error (.Host e)
          | .ok addr => .ok (.Pinned addr)

def ssrf_check_url_nonblocking (H : HostReader) (t : Std Kind) (url : Str) : Except (UrlRefusal Kind) Unit :=
  match parse_gated_url H url with
  | .error e => .error e
  | .ok parsed =>
    match parsed.host with
    | none => .error .NoHost
    | some host =>
      match t.parse_ip (strip_ipv6_brackets host) with
      | none => .ok ()
      | some ip =>
        match refuse_blocked host (url_host_disclosure url parsed) ip with
        | .error e => .error (.Host e)
        | .ok () => .ok ()

/-! ### What a refusal names -/

theorem refuse_blocked_names {host : Str} {disclosure : HostDisclosure} {ip : IpAddr} {e : SsrfRefusal Kind}
    (h : refuse_blocked host disclosure ip = .error e) (hnames : e.Names) : disclosure = .Named := by
  unfold refuse_blocked at h
  cases hrange : blocked_range ip with
  | none =>
    rw [hrange] at h
    cases h
  | some range =>
    rw [hrange] at h
    cases h
    cases disclosure with
    | Named => rfl
    | Withheld => exact absurd rfl hnames

theorem refuse_addrs_names {host : Str} {disclosure : HostDisclosure} {addrs : List SocketAddr}
    {e : SsrfRefusal Kind} (h : refuse_addrs host disclosure addrs = .error e) (hnames : e.Names) :
    disclosure = .Named := by
  induction addrs with
  | nil => cases h
  | cons addr addrs ih =>
    rw [refuse_addrs] at h
    cases hblocked : @refuse_blocked Kind host disclosure addr.ip with
    | error e' =>
      rw [hblocked] at h
      cases h
      exact refuse_blocked_names hblocked hnames
    | ok _ =>
      rw [hblocked] at h
      exact ih h

theorem of_ne_withheld {host : Str} {disclosure : HostDisclosure} (h : HostShown.of host disclosure ≠ .Withheld) :
    disclosure = .Named := by
  cases disclosure with
  | Named => rfl
  | Withheld => exact absurd rfl h

/-- A refused host is named only under that disclosure. -/
theorem vet_host_with_names {t : Std Kind} {resolver : HostResolver Kind} {host : Str}
    {disclosure : HostDisclosure} {port deadline : ℕ} {e : SsrfRefusal Kind}
    (h : vet_host_with t resolver host disclosure port deadline = .error e) (hnames : e.Names) :
    disclosure = .Named := by
  unfold vet_host_with vet_host_addrs_with at h
  cases hip : t.parse_ip (strip_ipv6_brackets host) with
  | some ip =>
    rw [hip] at h
    dsimp only at h
    cases hblocked : @refuse_blocked Kind host disclosure ip with
    | error e' =>
      rw [hblocked] at h
      cases h
      exact refuse_blocked_names hblocked hnames
    | ok _ =>
      rw [hblocked] at h
      cases h
  | none =>
    rw [hip] at h
    dsimp only at h
    cases hlookup : resolver host port with
    | failed kind =>
      rw [hlookup] at h
      cases h
      exact of_ne_withheld hnames
    | elapsed =>
      rw [hlookup] at h
      cases h
      exact of_ne_withheld hnames
    | found addrs =>
      rw [hlookup] at h
      dsimp only at h
      cases hblocked : @refuse_addrs Kind host disclosure addrs with
      | error e' =>
        rw [hblocked] at h
        cases h
        exact refuse_addrs_names hblocked hnames
      | ok _ =>
        rw [hblocked] at h
        dsimp only at h
        cases haddrs : addrs.map fun addr => (⟨addr.ip, port⟩ : SocketAddr) with
        | nil =>
          rw [haddrs] at h
          cases h
          exact of_ne_withheld hnames
        | cons first rest =>
          rw [haddrs] at h
          cases h

section Url

variable {H : HostReader} {t : Std Kind} {raw : Str} {parsed : Url}

/-- The disclosure of a URL is what the URL shows. -/
theorem shows_host_of_named (hparsed : parse H raw = .ok parsed) (h : url_host_disclosure raw parsed = .Named) :
    (DisplayableUrl.of H raw).shows_host = true := by
  unfold url_host_disclosure DisplayableUrl.host_disclosure at h
  split_ifs at h with hshows
  unfold DisplayableUrl.of
  rw [hparsed]
  exact hshows

theorem parse_gated_url_ok {url : Str} (h : @parse_gated_url Kind H url = .ok parsed) :
    parse H url = .ok parsed := by
  unfold parse_gated_url parse_gated_url_within at h
  cases hparse : parse H url with
  | error e =>
    rw [hparse] at h
    cases h
  | ok url =>
    rw [hparse] at h
    dsimp only at h
    split_ifs at h
    cases h
    rfl

theorem parse_gated_url_names {e : UrlRefusal Kind} (h : parse_gated_url H raw = .error e) : ¬ e.Names := by
  unfold parse_gated_url parse_gated_url_within at h
  cases hparse : parse H raw with
  | error e =>
    rw [hparse] at h
    cases h
    exact id
  | ok url =>
    rw [hparse] at h
    dsimp only at h
    split_ifs at h
    cases h
    exact id

/-- A vetted URL that is refused is named only where it shows its host. -/
theorem vet_url_with_names {policy : DialPolicy} {resolver : HostResolver Kind} {deadline : ℕ}
    {e : UrlRefusal Kind} (h : vet_url_with H t policy resolver raw deadline = .error e) (hnames : e.Names) :
    (DisplayableUrl.of H raw).shows_host = true := by
  unfold vet_url_with at h
  cases hmisplaced : @refuse_misplaced_userinfo Kind H raw with
  | error e' =>
    rw [hmisplaced] at h
    cases h
    unfold refuse_misplaced_userinfo at hmisplaced
    dsimp only at hmisplaced
    split_ifs at hmisplaced
    cases hmisplaced
    exact absurd hnames id
  | ok _ =>
    rw [hmisplaced] at h
    cases policy with
    | AllowAll => cases h
    | DenyPrivate =>
      dsimp only at h
      cases hgated : @parse_gated_url Kind H raw with
      | error e' =>
        rw [hgated] at h
        cases h
        exact absurd hnames (parse_gated_url_names hgated)
      | ok parsed =>
        rw [hgated] at h
        dsimp only at h
        cases hhost : parsed.host with
        | none =>
          rw [hhost] at h
          cases h
          exact absurd hnames id
        | some host =>
          rw [hhost] at h
          dsimp only at h
          split at h
          · rename_i e' hvet
            cases h
            exact shows_host_of_named (parse_gated_url_ok hgated) (vet_host_with_names hvet hnames)
          · cases h

theorem ssrf_check_url_nonblocking_names {e : UrlRefusal Kind}
    (h : ssrf_check_url_nonblocking H t raw = .error e) (hnames : e.Names) :
    (DisplayableUrl.of H raw).shows_host = true := by
  unfold ssrf_check_url_nonblocking at h
  cases hgated : @parse_gated_url Kind H raw with
  | error e' =>
    rw [hgated] at h
    cases h
    exact absurd hnames (parse_gated_url_names hgated)
  | ok parsed =>
    rw [hgated] at h
    dsimp only at h
    cases hhost : parsed.host with
    | none =>
      rw [hhost] at h
      cases h
      exact absurd hnames id
    | some host =>
      rw [hhost] at h
      dsimp only at h
      cases hip : t.parse_ip (strip_ipv6_brackets host) with
      | none =>
        rw [hip] at h
        cases h
      | some ip =>
        rw [hip] at h
        dsimp only at h
        split at h
        · rename_i e' hblocked
          cases h
          exact shows_host_of_named (parse_gated_url_ok hgated) (refuse_blocked_names hblocked hnames)
        · cases h

end Url

/-! ### What a URL shows -/

/-- The text shows nothing of a URL but a scheme that may be named. -/
def AtMostScheme (text : Str) : Prop :=
  text = WITHHELD_URL_TAIL ∨ ∃ scheme ∈ NAMEABLE_SCHEMES, text = scheme ++ ':' :: WITHHELD_URL_TAIL

theorem atMostScheme_display {url : DisplayableUrl} (h : url.shows_host = false) : AtMostScheme url.display := by
  obtain ⟨shown⟩ := url
  cases shown with
  | Origin scheme host port => cases h
  | SchemeOnly scheme =>
    cases scheme with
    | Known scheme => exact Or.inr ⟨scheme.val, scheme.property, rfl⟩
    | Withheld => exact Or.inl rfl

theorem userinfo_is_ambiguous_iff (raw : Str) (parsed : Url) :
    userinfo_is_ambiguous raw (some parsed) = true ↔ '\\' ∈ raw ∨ parsed.Mentions := by
  unfold userinfo_is_ambiguous userinfo_may_spill_past_the_query Url.Mentions
  simp only [Bool.or_eq_true, List.contains_iff_mem, Option.any_some, Option.any_eq_true, Option.mem_def]
  constructor
  · rintro ((hraw | hpath | hfragment) | hquery)
    · exact Or.inl hraw
    · exact Or.inr (Or.inl hpath)
    · exact Or.inr (Or.inr (Or.inr hfragment))
    · exact Or.inr (Or.inr (Or.inl hquery))
  · rintro (hraw | hpath | hquery | hfragment)
    · exact Or.inl (Or.inl hraw)
    · exact Or.inl (Or.inr (Or.inl hpath))
    · exact Or.inr hquery
    · exact Or.inl (Or.inr (Or.inr hfragment))

/-- What a URL shows that is split in this way, if its host is shown. -/
structure ShowsOrigin (H : HostReader) (raw : Str) (parsed : Url) : Prop where
  split : parse H raw = .ok parsed
  nameable : SchemeShown.of parsed.scheme ≠ .Withheld
  backslash : '\\' ∉ raw
  at_sign : ¬ parsed.Mentions
  host : parsed.host ≠ none

section Shown

variable {H : HostReader} {raw : Str} {parsed : Url}

theorem showsOrigin_of_shows_host (h : (DisplayableUrl.of H raw).shows_host = true) :
    ∃ parsed, ShowsOrigin H raw parsed := by
  unfold DisplayableUrl.of at h
  cases hparse : parse H raw with
  | error e =>
    rw [hparse] at h
    cases h
  | ok parsed =>
    rw [hparse] at h
    change (DisplayableUrl.of_parsed raw (some parsed)).shows_host = true at h
    unfold DisplayableUrl.of_parsed at h
    dsimp only at h
    cases hscheme : SchemeShown.of parsed.scheme with
    | Withheld =>
      rw [hscheme] at h
      cases h
    | Known known =>
      rw [hscheme] at h
      dsimp only at h
      by_cases hambiguous : userinfo_is_ambiguous raw (some parsed) = true
      · rw [if_pos hambiguous] at h
        cases h
      · rw [if_neg hambiguous] at h
        rw [userinfo_is_ambiguous_iff, not_or] at hambiguous
        refine ⟨parsed, hparse, ?_, hambiguous.1, hambiguous.2, ?_⟩
        · rw [hscheme]
          rintro ⟨⟩
        · intro hhost
          rw [hhost] at h
          cases h

/-- The text of a URL that shows its origin is not read but for its split. -/
theorem ShowsOrigin.of_eq (h : ShowsOrigin H raw parsed) :
    ∃ known host, SchemeShown.of parsed.scheme = .Known known ∧ parsed.host = some host ∧
      DisplayableUrl.of H raw = ⟨.Origin known host parsed.port⟩ := by
  have hambiguous : ¬ userinfo_is_ambiguous raw (some parsed) = true := by
    rw [userinfo_is_ambiguous_iff, not_or]
    exact ⟨h.backslash, h.at_sign⟩
  cases hscheme : SchemeShown.of parsed.scheme with
  | Withheld => exact absurd hscheme h.nameable
  | Known known =>
    cases hhost : parsed.host with
    | none => exact absurd hhost h.host
    | some host =>
      refine ⟨known, host, rfl, rfl, ?_⟩
      unfold DisplayableUrl.of
      rw [h.split]
      show DisplayableUrl.of_parsed raw (some parsed) = _
      unfold DisplayableUrl.of_parsed
      dsimp only
      rw [hscheme]
      dsimp only
      rw [if_neg hambiguous, hhost]

end Shown

/-! ### Credentials -/

/-- Of a URL whose host is withheld, nothing is shown but the scheme, and no refusal names a host or an
address. -/
structure Guarded (H : HostReader) (t : Std Kind) (raw : Str) : Prop where
  display : (DisplayableUrl.of H raw).shows_host = false → AtMostScheme (DisplayableUrl.of H raw).display
  vet : ∀ policy resolver deadline e, vet_url_with H t policy resolver raw deadline = .error e → e.Names →
    (DisplayableUrl.of H raw).shows_host = true
  check : ∀ e, ssrf_check_url_nonblocking H t raw = .error e → e.Names → (DisplayableUrl.of H raw).shows_host = true

theorem guarded (H : HostReader) (t : Std Kind) (raw : Str) : Guarded H t raw where
  display := atMostScheme_display
  vet := fun _ _ _ _ h hnames => vet_url_with_names h hnames
  check := fun _ h hnames => ssrf_check_url_nonblocking_names h hnames

/-- What is shown of two URLs that differ in their credentials does not depend on them. -/
structure Independent (H : HostReader) (t : Std Kind) (scheme : Scheme) (c1 c2 rest : Str) : Prop where
  same : (DisplayableUrl.of H (scheme.url c1 rest)).shows_host = true →
    (DisplayableUrl.of H (scheme.url c2 rest)).shows_host = true →
      (DisplayableUrl.of H (scheme.url c1 rest)).display = (DisplayableUrl.of H (scheme.url c2 rest)).display
  first : Guarded H t (scheme.url c1 rest)
  second : Guarded H t (scheme.url c2 rest)

/-- The remainder removes an `@` before it, so that the URL shows what is read of the credentials as its host:
the dot segments of its path climb over the segment that it begins in, and it holds no `@` and no backslash
that would be seen. -/
structure Exposed (scheme : Scheme) (rest : Str) : Prop where
  nameable : SchemeShown.of scheme.name ≠ .Withheld
  backslash : '\\' ∉ rest
  lost : AtLost (isSpecial scheme.name) (keptEnd rest)

section Credentials

variable {H : HostReader} {scheme : Scheme} {c1 c2 rest : Str} {parsed : Url}

theorem backslash_not_mem_text (scheme : Scheme) : '\\' ∉ scheme.text := by
  intro h
  exact absurd (scheme.isSchemeChar _ h) (by decide)

/-- Credentials that end the authority are shown only where the remainder exposes them. -/
theorem exposed_of_spills (h : ShowsOrigin H (scheme.url c1 rest) parsed) (hspills : Spills scheme c1) :
    Exposed scheme rest where
  nameable := by
    rw [← scheme_of_parse h.split]
    exact h.nameable
  backslash := by
    intro hmem
    refine h.backslash ?_
    unfold Scheme.url
    exact List.mem_append_right _ (List.mem_cons_of_mem _ hmem)
  lost := atLost_of_spills hspills h.split h.host h.at_sign

/-- Credentials that do not end the authority are not read. -/
theorem display_eq_of_not_spills (h1 : ¬ Spills scheme c1) (h2 : ¬ Spills scheme c2)
    (hshows1 : (DisplayableUrl.of H (scheme.url c1 rest)).shows_host = true)
    (hshows2 : (DisplayableUrl.of H (scheme.url c2 rest)).shows_host = true) :
    (DisplayableUrl.of H (scheme.url c1 rest)).display = (DisplayableUrl.of H (scheme.url c2 rest)).display := by
  obtain ⟨url1, hurl1⟩ := showsOrigin_of_shows_host hshows1
  obtain ⟨url2, hurl2⟩ := showsOrigin_of_shows_host hshows2
  obtain rfl := parse_eq_of_not_spills h1 h2 hurl1.split hurl2.split
  obtain ⟨known1, host1, hscheme1, hhost1, heq1⟩ := hurl1.of_eq
  obtain ⟨known2, host2, hscheme2, hhost2, heq2⟩ := hurl2.of_eq
  rw [hscheme1] at hscheme2
  cases hscheme2
  rw [hhost1] at hhost2
  cases hhost2
  rw [heq1, heq2]

/-- An exposed remainder shows a letter that stands before a slash as the host. -/
theorem of_letter (h : Exposed scheme rest) {c : Char} (hc : c.isLower = true) :
    ∃ known, DisplayableUrl.of H (scheme.url [c, '/'] rest) = ⟨.Origin known [c] none⟩ ∧
      SchemeShown.of scheme.name = .Known known := by
  have hshows : ShowsOrigin H (scheme.url [c, '/'] rest)
      ((readTail (isSpecial scheme.name) (isFile scheme.name) ('/' :: '@' :: keptEnd rest)).url scheme.name
        (some [c]) none) := by
    refine ⟨parse_letter hc, h.nameable, ?_, ?_, by rintro ⟨⟩⟩
    · have hne : '\\' ≠ c := by
        rintro rfl
        exact absurd hc (by decide)
      have htext : '\\' ∉ scheme.text ++ "://".toList ++ [c, '/'] := by
        simp [backslash_not_mem_text, hne]
      unfold Scheme.url
      rw [List.mem_append, List.mem_cons, not_or, not_or]
      exact ⟨htext, by decide, h.backslash⟩
    · rw [mentions_at_iff, not_not]
      exact h.lost
  obtain ⟨known, host, hscheme, hhost, heq⟩ := hshows.of_eq
  cases hhost
  exact ⟨known, heq, hscheme⟩

/-- For a scheme and a remainder, credentials that do not end the authority are never shown, and none are
exactly where the remainder does not remove the `@` before it. -/
theorem displays_independent_iff (H : HostReader) (t : Std Kind) (scheme : Scheme) (rest : Str) :
    (∀ c1 c2, ¬ Spills scheme c1 → ¬ Spills scheme c2 → Independent H t scheme c1 c2 rest) ∧
      ((∀ c1 c2, Independent H t scheme c1 c2 rest) ↔ ¬ Exposed scheme rest) := by
  have hindependent : ∀ c1 c2, (Spills scheme c1 ∨ Spills scheme c2 → ¬ Exposed scheme rest) →
      Independent H t scheme c1 c2 rest := by
    intro c1 c2 hspills
    refine ⟨?_, guarded H t _, guarded H t _⟩
    intro hshows1 hshows2
    refine display_eq_of_not_spills ?_ ?_ hshows1 hshows2
    · intro h
      obtain ⟨url, hurl⟩ := showsOrigin_of_shows_host hshows1
      exact hspills (Or.inl h) (exposed_of_spills hurl h)
    · intro h
      obtain ⟨url, hurl⟩ := showsOrigin_of_shows_host hshows2
      exact hspills (Or.inr h) (exposed_of_spills hurl h)
  refine ⟨fun c1 c2 h1 h2 => hindependent c1 c2 fun h => (h.elim h1 h2).elim, ?_, ?_⟩
  · intro hall hexposed
    obtain ⟨known, ha, hknown⟩ := of_letter (H := H) hexposed (c := 'a') (by decide)
    obtain ⟨known', hb, hknown'⟩ := of_letter (H := H) hexposed (c := 'b') (by decide)
    rw [hknown] at hknown'
    cases hknown'
    have hsame := (hall ['a', '/'] ['b', '/']).same
    rw [ha, hb] at hsame
    have heq := hsame rfl rfl
    change known.val ++ "://".toList ++ ['a'] = known.val ++ "://".toList ++ ['b'] at heq
    exact absurd (List.append_cancel_left heq) (by decide)
  · intro hexposed c1 c2
    exact hindependent c1 c2 fun _ => hexposed

end Credentials

/-! ### A path that removes what it begins with -/

/-- The reader of hosts on names of ASCII. -/
def asciiHosts : HostReader where
  parse := fun _ s =>
    if s.all fun c => c.isAlphanum || c == '.' || c == '-' then .ok (s.map Char.toLower)
    else .error .InvalidDomainCharacter
  no_at := by
    intro _ s host h hat
    split_ifs at h with hall
    exact absurd (List.all_eq_true.1 hall '@' hat) (by decide)
  letter := by
    intro _ c hc
    have hlower : c.toLower = c := by
      unfold Char.isLower at hc
      simp only [Bool.and_eq_true, decide_eq_true_eq, ge_iff_le, UInt32.le_iff_toNat_le] at hc
      have ha : 'a'.val.toNat = 97 := rfl
      have hZ : 'Z'.val.toNat = 90 := rfl
      unfold Char.toLower
      rw [dif_neg]
      simp only [ge_iff_le, UInt32.le_iff_toNat_le]
      omega
    have halnum : c.isAlphanum = true := by
      unfold Char.isAlphanum Char.isAlpha
      simp [hc]
    rw [List.all_cons, List.all_nil, halnum, List.map_singleton, hlower]
    rfl

/-- Texts of the standard library, for a system without lookups. -/
def plainTexts : Std Unit where
  parse_ip := fun _ => none
  ip := fun _ => []
  quoted := fun s => '"' :: s ++ ['"']
  kind := fun _ => "other error".toList

def http : Scheme := ⟨'h', "ttp".toList, by decide, List.all_eq_true.1 (by decide)⟩

/-- The credentials `secret/pw` before `host/..` are shown as the host `secret`. -/
theorem dot_segment_shows_credentials :
    ¬ Independent asciiHosts plainTexts http "secret/pw".toList "admin".toList "host/..".toList := by
  intro h
  have hsame := h.same (by decide) (by decide)
  exact absurd hsame (by decide)

theorem displays_independent_iff_path :
    Independent asciiHosts plainTexts http "secret/pw".toList "admin".toList "host/feed".toList := by
  refine (displays_independent_iff asciiHosts plainTexts http "host/feed".toList).2.2 ?_ _ _
  intro h
  exact h.lost.1 (by decide)

end IpeLang.Runtime.Ssrf
