import IpeLang.Lib.Percent
import Mathlib.Data.List.DropRight
import Mathlib.Data.List.Infix

/-!
# Splitting URLs

How a URL without a base is split: the scheme, the authority with the host and the port, the path
with its dot segments, the query and the fragment. The reader of hosts is a parameter.

* `parse`: the split, and `Url` what comes of it;
* `parseAuthority_credentials`: what stands before the last `@` of an authority is not read;
* `AtLost`: whether an `@` that a path holds before a text is lost with the dot segments of the text,
  and `atLost_of_spill`, `mentions_at_iff`: when a tail is left without an `@`.
-/

namespace IpeLang.Lib.Whatwg

open Percent (utf8 encode)

/-! ### Characters -/

/-- Controls of ASCII and spaces, which are dropped at both ends. -/
def isTrimmed (c : Char) : Bool := c.val ≤ 0x20

/-- Tabs and ends of lines, which are dropped anywhere. -/
def isRemoved (c : Char) : Bool := c == '\t' || c == '\n' || c == '\r'

def isSchemeChar (c : Char) : Bool := c.isAlphanum || c == '+' || c == '-' || c == '.'

def isSlash (special : Bool) (c : Char) : Bool := c == '/' || (special && c == '\\')

/-- What ends a path. -/
def endsPath (c : Char) : Bool := c == '?' || c == '#'

/-- What ends an authority. -/
def isDelimiter (special : Bool) (c : Char) : Bool := isSlash special c || endsPath c

/-- The bytes of a path that are not escaped. -/
def pathPlain (b : UInt8) : Bool :=
  0x20 < b && b < 0x7F && b != 34 && b != 35 && b != 60 && b != 62 && b != 63 && b != 94 && b != 96 &&
    b != 123 && b != 125

/-- The bytes of a query that are not escaped. -/
def queryPlain (special : Bool) (b : UInt8) : Bool :=
  0x20 < b && b < 0x7F && b != 34 && b != 35 && b != 60 && b != 62 && !(special && b == 39)

/-- The bytes of a fragment that are not escaped. -/
def fragmentPlain (b : UInt8) : Bool :=
  0x20 < b && b < 0x7F && b != 34 && b != 60 && b != 62 && b != 96

/-- The bytes of a path without segments that are not escaped. -/
def textPlain (b : UInt8) : Bool := 0x20 ≤ b && b < 0x7F

/-! ### Schemes -/

/-- The port of a scheme with an authority of its own kind, if it has one. -/
def defaultPort (scheme : Str) : Option ℕ :=
  if scheme = "http".toList ∨ scheme = "ws".toList then some 80
  else if scheme = "https".toList ∨ scheme = "wss".toList then some 443
  else if scheme = "ftp".toList then some 21
  else none

def isFile (scheme : Str) : Bool := scheme = "file".toList

def isSpecial (scheme : Str) : Bool := (defaultPort scheme).isSome || isFile scheme

/-- Without what is dropped at the ends and anywhere. -/
def clean (s : Str) : Str :=
  ((s.dropWhile isTrimmed).rdropWhile isTrimmed).filter fun c => !isRemoved c

/-- The scheme, and what follows its colon. -/
def readScheme : Str → Option (Str × Str)
  | [] => none
  | c :: s =>
    if c.isAlpha then
      match (c :: s).dropWhile isSchemeChar with
      | ':' :: rest => some (((c :: s).takeWhile isSchemeChar).map Char.toLower, rest)
      | _ => none
    else none

/-! ### Hosts and ports -/

inductive ParseError
  | EmptyHost
  | IdnaError
  | InvalidPort
  | InvalidIpv4Address
  | InvalidIpv6Address
  | InvalidDomainCharacter
  | RelativeUrlWithoutBase
  deriving DecidableEq

/-- A reader of hosts, of URLs with a special scheme or without. -/
structure HostReader where
  parse : Bool → Str → Except ParseError Str
  /-- An `@` does not stand in a host. -/
  no_at : ∀ special s host, parse special s = .ok host → '@' ∉ s
  /-- A lowercase letter is a host, as it is written. -/
  letter : ∀ special c, c.isLower = true → parse special [c] = .ok [c]

/-- What follows the last `@` of an authority. -/
def hostText (authority : Str) : Str := authority.rtakeWhile (· ≠ '@')

/-- Cut at the first colon that no bracket encloses. -/
def splitPort (bracketed : Bool) : Str → Str × Option Str
  | [] => ([], none)
  | c :: s =>
    if c = ':' ∧ bracketed = false then ([], some s)
    else
      let (host, port) := splitPort (if c = '[' then true else if c = ']' then false else bracketed) s
      (c :: host, port)

/-- A port, which is none where it is that of the scheme. -/
def readPort (scheme digits : Str) : Except ParseError (Option ℕ) :=
  if digits.all Char.isDigit then
    if digits = [] then .ok none
    else
      let port := Nat.ofDigits 10 (digits.reverse.map fun c => c.toNat - 48)
      if 65535 < port then .error .InvalidPort
      else .ok (if defaultPort scheme = some port then none else some port)
  else .error .InvalidPort

/-- An empty host is none. -/
def nonempty (host : Str) : Option Str := if host = [] then none else some host

/-- The host and the port of an authority. -/
def readAuthority (H : HostReader) (scheme : Str) (special : Bool) (authority : Str) :
    Except ParseError (Option Str × Option ℕ) :=
  let text := hostText authority
  let (host, port) := splitPort false text
  if host = [] ∧ (special = true ∨ port.isSome = true ∨ '@' ∈ authority) then .error .EmptyHost
  else if host = [] then .ok (none, none)
  else do
    let host ← H.parse special host
    let port ← readPort scheme (port.getD [])
    return (nonempty host, port)

/-! ### Paths -/

/-- A dot, escaped or not. -/
def isSingleDot (seg : Str) : Bool :=
  let seg := seg.map Char.toLower
  seg = ".".toList || seg = "%2e".toList

/-- Two dots, escaped or not. -/
def isDoubleDot (seg : Str) : Bool :=
  let seg := seg.map Char.toLower
  seg = "..".toList || seg = ".%2e".toList || seg = "%2e.".toList || seg = "%2e%2e".toList

def isDriveLetter : Str → Bool
  | [c, d] => c.isAlpha && (d == ':' || d == '|')
  | _ => false

/-- A drive letter in its normal form. -/
def normalDrive : Str → Str
  | [c, _] => [c, ':']
  | s => s

/-- Without the last segment, unless it is the drive letter that a path of a file begins with. The last
segment is the first of the list. -/
def shorten (file : Bool) : List Str → List Str
  | [] => []
  | [seg] => if file && isDriveLetter seg && normalDrive seg = seg then [seg] else []
  | _ :: seg :: path => seg :: path

/-- One more segment, which may be the last one. -/
def place (file : Bool) (path : List Str) (seg : Str) (last : Bool) : List Str :=
  if isDoubleDot seg then (if last then [] :: shorten file path else shorten file path)
  else if isSingleDot seg then (if last then [] :: path else path)
  else (if file && path.isEmpty && isDriveLetter seg then normalDrive seg else seg) :: path

def resolve (file : Bool) : List Str → List Str → List Str
  | path, [] => path
  | path, [seg] => place file path seg true
  | path, seg :: seg' :: segs => resolve file (place file path seg false) (seg' :: segs)

/-- The segments of the text of a path, escaped. -/
def segments (special : Bool) (s : Str) : List Str :=
  (s.splitOnP (isSlash special)).map fun seg => encode pathPlain (utf8 seg)

/-! ### URLs -/

/-- What follows an authority. -/
structure Tail where
  path : List Str
  query : Option Str
  fragment : Option Str

/-- What a URL consists of, but for its user name and its password. -/
structure Url where
  scheme : Str
  host : Option Str
  port : Option ℕ
  path : Str
  query : Option Str
  fragment : Option Str

/-- The text of a path of segments. -/
def pathText (path : List Str) : Str := path.flatMap fun seg => '/' :: seg

/-- The text of a path, without the slash it begins with. -/
def afterSlash (special : Bool) : Str → Str
  | [] => []
  | c :: s => if isSlash special c then s else c :: s

def readQuery (special : Bool) : Str → Option Str
  | '?' :: s => some (encode (queryPlain special) (utf8 (s.takeWhile (· ≠ '#'))))
  | _ => none

def readFragment (s : Str) : Option Str :=
  match s.dropWhile (· ≠ '#') with
  | [] => none
  | _ :: s => some (encode fragmentPlain (utf8 s))

def readTail (special file : Bool) (s : Str) : Tail :=
  let path := s.takeWhile fun c => !endsPath c
  let rest := s.dropWhile fun c => !endsPath c
  { path :=
      if special = false ∧ path = [] then []
      else (resolve file [] (segments special (afterSlash special path))).reverse
    query := readQuery special rest
    fragment := readFragment rest }

def Tail.url (tail : Tail) (scheme : Str) (host : Option Str) (port : Option ℕ) : Url :=
  { scheme, host, port, path := pathText tail.path, query := tail.query, fragment := tail.fragment }

def parseAuthority (H : HostReader) (scheme : Str) (special : Bool) (s : Str) : Except ParseError Url := do
  let (host, port) ← readAuthority H scheme special (s.takeWhile fun c => !isDelimiter special c)
  return (readTail special false (s.dropWhile fun c => !isDelimiter special c)).url scheme host port

/-- A URL of a file whose host, or drive letter, stands at the beginning of the text. -/
def parseFileHost (H : HostReader) (s : Str) : Except ParseError Url :=
  let text := s.takeWhile fun c => !isDelimiter true c
  let rest := s.dropWhile fun c => !isDelimiter true c
  if isDriveLetter text then .ok ((readTail true true s).url "file".toList none none)
  else if text = [] then .ok ((readTail true true rest).url "file".toList none none)
  else do
    let host ← H.parse true text
    return (readTail true true rest).url "file".toList (if host = "localhost".toList then none else nonempty host) none

def parseFile (H : HostReader) : Str → Except ParseError Url
  | c :: d :: s =>
    if isSlash true c && isSlash true d then parseFileHost H s
    else .ok ((readTail true true (c :: d :: s)).url "file".toList none none)
  | s => .ok ((readTail true true s).url "file".toList none none)

/-- A URL of a scheme that is not special. -/
def parsePlain (H : HostReader) (scheme : Str) : Str → Except ParseError Url
  | '/' :: '/' :: s => parseAuthority H scheme false s
  | '/' :: s => .ok ((readTail false false ('/' :: s)).url scheme none none)
  | s =>
    let rest := s.dropWhile fun c => !endsPath c
    .ok
      { scheme
        host := none
        port := none
        path := encode textPlain (utf8 (s.takeWhile fun c => !endsPath c))
        query := readQuery false rest
        fragment := readFragment rest }

def parse (H : HostReader) (raw : Str) : Except ParseError Url :=
  match readScheme (clean raw) with
  | none => .error .RelativeUrlWithoutBase
  | some (scheme, rest) =>
    if isFile scheme then parseFile H rest
    else if isSpecial scheme then parseAuthority H scheme true (rest.dropWhile (isSlash true))
    else parsePlain H scheme rest

/-! ### Where an at sign stands -/

theorem at_mem_encodeChar {plain : UInt8 → Bool} (h : plain 64 = true) (c : Char) :
    '@' ∈ encode plain (String.utf8EncodeChar c) ↔ '@' = c := by
  constructor
  · intro hmem
    obtain ⟨b, hb, hc⟩ := List.mem_flatMap.1 hmem
    have hlt : b.toNat < 256 := b.toNat_lt
    unfold Percent.encodeByte at hc
    split_ifs at hc with hplain
    · have hat := List.mem_singleton.1 hc
      have hnat : b.toNat = 64 := by
        have hofNat : (Char.ofNat b.toNat).toNat = b.toNat := by
          rw [Char.ofNat, dif_pos (Or.inl (by omega))]
          rfl
        rw [← hofNat, ← hat]
        rfl
      rw [hat, Percent.eq_of_mem_utf8EncodeChar hb (by omega)]
    · exfalso
      simp only [List.mem_cons, List.not_mem_nil, or_false] at hc
      have hdigit : ∀ n < 16, '@' ≠ Percent.hexDigit n := by
        intro n hn
        interval_cases n <;> decide
      rcases hc with hc | hc | hc
      · exact absurd hc (by decide)
      · exact hdigit _ (by omega) hc
      · exact hdigit _ (by omega) hc
  · rintro rfl
    have hbytes : String.utf8EncodeChar '@' = [64] := by decide
    rw [hbytes, encode, List.flatMap_singleton, Percent.encodeByte, if_pos h]
    decide

/-- Where an `@` is not escaped, it stands where it stood. -/
theorem at_mem_encode {plain : UInt8 → Bool} (h : plain 64 = true) (s : Str) :
    '@' ∈ encode plain (utf8 s) ↔ '@' ∈ s := by
  induction s with
  | nil => simp [encode]
  | cons c s ih =>
    have hcons : encode plain (utf8 (c :: s)) = encode plain (String.utf8EncodeChar c) ++ encode plain (utf8 s) := by
      unfold encode
      rw [← List.flatMap_append]
      rfl
    rw [hcons, List.mem_append, List.mem_cons, ih, at_mem_encodeChar h]

/-- There is an `@` in the path, the query or the fragment. -/
def Url.Mentions (url : Url) : Prop :=
  '@' ∈ url.path ∨ (∃ query ∈ url.query, '@' ∈ query) ∨ ∃ fragment ∈ url.fragment, '@' ∈ fragment

theorem at_mem_pathText (path : List Str) : '@' ∈ pathText path ↔ ∃ seg ∈ path, '@' ∈ seg := by
  unfold pathText
  rw [List.mem_flatMap]
  constructor
  · rintro ⟨seg, hseg, hmem⟩
    exact ⟨seg, hseg, (List.mem_cons.1 hmem).resolve_left (by decide)⟩
  · rintro ⟨seg, hseg, hmem⟩
    exact ⟨seg, hseg, List.mem_cons_of_mem _ hmem⟩

/-- What is not kept by `takeWhile` begins with a character that ends it. -/
theorem dropWhile_eq {p : Char → Bool} (s : Str) :
    s.dropWhile p = [] ∨ ∃ c t, s.dropWhile p = c :: t ∧ p c = false := by
  cases h : s.dropWhile p with
  | nil => exact Or.inl rfl
  | cons c t =>
    refine Or.inr ⟨c, t, rfl, ?_⟩
    have := List.head?_dropWhile_not p s
    rw [h] at this
    simpa using this

theorem mem_fragment_iff (s : Str) :
    (∃ fragment ∈ readFragment s, '@' ∈ fragment) ↔ '@' ∈ s.dropWhile (· ≠ '#') := by
  unfold readFragment
  rcases dropWhile_eq (p := (· ≠ '#')) s with h | ⟨c, t, h, hc⟩
  · rw [h]
    simp
  · rw [h]
    have hne : '@' ≠ c := by
      rintro rfl
      exact absurd hc (by decide)
    simp only [Option.mem_def, Option.some.injEq, exists_eq_left']
    rw [at_mem_encode (by decide), List.mem_cons]
    tauto

/-- The query and the fragment hold the `@` of what follows the path. -/
theorem mem_rest_iff (special : Bool) (s : Str) :
    ((∃ query ∈ readQuery special (s.dropWhile fun c => !endsPath c), '@' ∈ query) ∨
        ∃ fragment ∈ readFragment (s.dropWhile fun c => !endsPath c), '@' ∈ fragment) ↔
      '@' ∈ s.dropWhile fun c => !endsPath c := by
  rw [mem_fragment_iff]
  rcases dropWhile_eq (p := fun c => !endsPath c) s with h | ⟨c, t, h, hc⟩
  · rw [h]
    simp [readQuery]
  · rw [h]
    have hc : c = '?' ∨ c = '#' := by
      unfold endsPath at hc
      simpa only [Bool.not_eq_false', Bool.or_eq_true, beq_iff_eq] using hc
    rcases hc with rfl | rfl
    · have hdrop : ('?' :: t).dropWhile (· ≠ '#') = t.dropWhile (· ≠ '#') := rfl
      rw [hdrop]
      unfold readQuery
      simp only [Option.mem_def, Option.some.injEq, exists_eq_left']
      rw [at_mem_encode (by cases special <;> decide), ← List.mem_append, List.takeWhile_append_dropWhile]
      simp
    · have hdrop : ('#' :: t).dropWhile (· ≠ '#') = '#' :: t := rfl
      rw [hdrop]
      simp [readQuery]

theorem mentions_readTail (special file : Bool) (s scheme : Str) (host : Option Str) (port : Option ℕ) :
    ((readTail special file s).url scheme host port).Mentions ↔
      (∃ seg ∈ (readTail special file s).path, '@' ∈ seg) ∨ '@' ∈ s.dropWhile fun c => !endsPath c := by
  unfold Url.Mentions Tail.url
  dsimp only
  rw [at_mem_pathText, ← mem_rest_iff special s]
  rfl

/-! ### Dot segments and at signs -/

/-- Whether the segments of a path hold an `@`, after one more segment. -/
def holds (flags : List Bool) (seg : Str) : List Bool :=
  if isDoubleDot seg then flags.tail else if isSingleDot seg then flags else decide ('@' ∈ seg) :: flags

/-- The dot segments of a text remove an `@` that stands in the segment they begin in, and leave none: no
`@` is left in its path, its query or its fragment. -/
def AtLost (special : Bool) (s : Str) : Prop :=
  true ∉ ((segments special (s.takeWhile fun c => !endsPath c)).tail.foldl holds [true]) ∧
    '@' ∉ s.dropWhile fun c => !endsPath c

/-- The segments at the end of a path have the flags, and what is below them has no `@` but of a kind. -/
def Tracks (Below : Str → Prop) (flags : List Bool) (path : List Str) : Prop :=
  ∃ top below, path = top ++ below ∧ flags = top.map (fun seg => decide ('@' ∈ seg)) ∧
    ∀ seg ∈ below, '@' ∈ seg → Below seg

theorem at_not_mem_of_isDriveLetter {seg : Str} (h : isDriveLetter seg = true) : '@' ∉ seg := by
  unfold isDriveLetter at h
  split at h
  · rename_i c d
    rw [Bool.and_eq_true, Bool.or_eq_true, beq_iff_eq, beq_iff_eq] at h
    simp only [List.mem_cons, List.not_mem_nil, or_false, not_or]
    constructor
    · rintro rfl
      exact absurd h.1 (by decide)
    · rintro rfl
      exact absurd h.2 (by decide)
  · cases h

theorem at_mem_normalDrive {seg : Str} (h : isDriveLetter seg = true) : '@' ∉ normalDrive seg := by
  have hat := at_not_mem_of_isDriveLetter h
  unfold normalDrive
  split
  · rename_i c d
    simp only [List.mem_cons, List.not_mem_nil, or_false, not_or] at hat ⊢
    exact ⟨hat.1, by decide⟩
  · exact hat

/-- The last segment goes, unless it is a drive letter that the path consists of. -/
theorem shorten_cons (file : Bool) (seg : Str) (path : List Str) :
    shorten file (seg :: path) = path ∨
      path = [] ∧ shorten file (seg :: path) = [seg] ∧ isDriveLetter seg = true := by
  cases path with
  | cons seg' path => exact Or.inl rfl
  | nil =>
    show (if file && isDriveLetter seg && normalDrive seg = seg then [seg] else []) = [] ∨ _ ∧
      (if file && isDriveLetter seg && normalDrive seg = seg then [seg] else []) = [seg] ∧ _
    split_ifs with h
    · rw [Bool.and_eq_true, Bool.and_eq_true] at h
      exact Or.inr ⟨rfl, rfl, h.1.2⟩
    · exact Or.inl rfl

section Tracks

variable {Below : Str → Prop} {flags : List Bool} {path : List Str}

theorem Tracks.shorten (h : Tracks Below flags path) (file : Bool) :
    Tracks Below flags.tail (shorten file path) := by
  obtain ⟨top, below, rfl, rfl, hbelow⟩ := h
  cases top with
  | cons seg top =>
    rcases shorten_cons file seg (top ++ below) with heq | ⟨hnil, heq, hdrive⟩
    · rw [List.cons_append, heq]
      exact ⟨top, below, rfl, rfl, hbelow⟩
    · obtain ⟨rfl, rfl⟩ := List.append_eq_nil_iff.1 hnil
      rw [List.cons_append, heq]
      refine ⟨[], [seg], rfl, rfl, ?_⟩
      intro seg' hseg hat
      rw [List.mem_singleton.1 hseg] at hat
      exact absurd hat (at_not_mem_of_isDriveLetter hdrive)
  | nil =>
    cases below with
    | nil => exact ⟨[], [], rfl, rfl, by simp⟩
    | cons seg below =>
      refine ⟨[], Whatwg.shorten file (seg :: below), rfl, rfl, ?_⟩
      intro seg' hseg hat
      refine hbelow seg' ?_ hat
      rcases shorten_cons file seg below with heq | ⟨rfl, heq, -⟩
      · rw [heq] at hseg
        exact List.mem_cons_of_mem _ hseg
      · rw [heq] at hseg
        exact hseg

/-- One more segment is tracked. -/
theorem Tracks.place (h : Tracks Below flags path) (file : Bool) (seg : Str) :
    Tracks Below (holds flags seg) (place file path seg false) := by
  unfold Whatwg.place holds
  by_cases hdouble : isDoubleDot seg = true
  · rw [if_pos hdouble, if_pos hdouble]
    exact h.shorten file
  by_cases hsingle : isSingleDot seg = true
  · rw [if_neg hdouble, if_neg hdouble, if_pos hsingle, if_pos hsingle]
    exact h
  rw [if_neg hdouble, if_neg hdouble, if_neg hsingle, if_neg hsingle]
  obtain ⟨top, below, rfl, rfl, hbelow⟩ := h
  split_ifs with hdrive
  · rw [Bool.and_eq_true] at hdrive
    refine ⟨normalDrive seg :: top, below, rfl, ?_, hbelow⟩
    rw [List.map_cons, decide_eq_false (at_mem_normalDrive hdrive.2),
      decide_eq_false (at_not_mem_of_isDriveLetter hdrive.2)]
  · exact ⟨seg :: top, below, rfl, rfl, hbelow⟩

/-- The last segment leaves the same ones with an `@`. -/
theorem at_mem_place_last (file : Bool) (path : List Str) (seg : Str) {seg' : Str} (h : '@' ∈ seg') :
    seg' ∈ place file path seg true ↔ seg' ∈ place file path seg false := by
  have hne : seg' ≠ [] := List.ne_nil_of_mem h
  unfold place
  split_ifs
  all_goals simp [hne]

/-- The segments of a text are tracked. -/
theorem Tracks.resolve (h : Tracks Below flags path) (file : Bool) (segs : List Str) :
    ∃ path', Tracks Below (segs.foldl holds flags) path' ∧
      ∀ seg, '@' ∈ seg → (seg ∈ resolve file path segs ↔ seg ∈ path') := by
  induction segs generalizing flags path with
  | nil => exact ⟨path, h, fun seg _ => Iff.rfl⟩
  | cons seg segs ih =>
    cases segs with
    | nil => exact ⟨_, h.place file seg, fun seg' hat => at_mem_place_last file path seg hat⟩
    | cons seg' segs => exact ih (h.place file seg)

/-- There is an `@` in the path where there is a flag. -/
theorem Tracks.of_mem (h : Tracks Below flags path) (hmem : true ∈ flags) : ∃ seg ∈ path, '@' ∈ seg := by
  obtain ⟨top, below, rfl, rfl, -⟩ := h
  obtain ⟨seg, hseg, hat⟩ := List.mem_map.1 hmem
  exact ⟨seg, List.mem_append_left _ hseg, of_decide_eq_true hat⟩

/-- Where nothing below holds an `@`, there is a flag for each one. -/
theorem Tracks.mem (h : Tracks (fun _ => False) flags path) {seg : Str} (hseg : seg ∈ path) (hat : '@' ∈ seg) :
    true ∈ flags := by
  obtain ⟨top, below, rfl, rfl, hbelow⟩ := h
  rcases List.mem_append.1 hseg with hseg | hseg
  · exact List.mem_map.2 ⟨seg, hseg, decide_eq_true hat⟩
  · exact absurd hat (hbelow seg hseg)

end Tracks

/-! ### What a tail keeps -/

/-- A text is cut like its end, but for the segment that the two share. -/
theorem splitOnP_at (special : Bool) (q s : Str) :
    ∃ before seg seg' after, s.splitOnP (isSlash special) = seg' :: after ∧
      (q ++ '@' :: s).splitOnP (isSlash special) = before ++ (seg ++ '@' :: seg') :: after := by
  induction q with
  | nil =>
    obtain ⟨seg', after, h⟩ := List.exists_cons_of_ne_nil (List.splitOnP_ne_nil (isSlash special) s)
    refine ⟨[], [], seg', after, h, ?_⟩
    rw [List.nil_append, List.splitOnP_cons_eq_if_modifyHead, if_neg (by cases special <;> decide), h]
    rfl
  | cons c q ih =>
    obtain ⟨before, seg, seg', after, h, hq⟩ := ih
    rw [List.cons_append, List.splitOnP_cons_eq_if_modifyHead, hq]
    split_ifs
    · exact ⟨[] :: before, seg, seg', after, h, rfl⟩
    · cases before with
      | nil => exact ⟨[], c :: seg, seg', after, h, rfl⟩
      | cons seg'' before => exact ⟨(c :: seg'') :: before, seg, seg', after, h, rfl⟩

theorem segments_at (special : Bool) (q s : Str) :
    ∃ before seg, segments special (q ++ '@' :: s) = before ++ seg :: (segments special s).tail ∧ '@' ∈ seg := by
  obtain ⟨before, seg, seg', after, h, hq⟩ := splitOnP_at special q s
  refine ⟨before.map fun seg => encode pathPlain (utf8 seg), encode pathPlain (utf8 (seg ++ '@' :: seg')), ?_, ?_⟩
  · unfold segments
    rw [h, hq, List.map_append, List.map_cons, List.map_cons, List.tail_cons]
  · rw [at_mem_encode (by decide)]
    simp

/-- The segments that nothing stands before begin the path. -/
theorem segments_at_nil (special : Bool) (s : Str) :
    ∃ seg, segments special ('@' :: s) = seg :: (segments special s).tail ∧ '@' ∈ seg := by
  obtain ⟨seg', after, h⟩ := List.exists_cons_of_ne_nil (List.splitOnP_ne_nil (isSlash special) s)
  refine ⟨encode pathPlain (utf8 ('@' :: seg')), ?_, ?_⟩
  · unfold segments
    rw [List.splitOnP_cons_eq_if_modifyHead, if_neg (by cases special <;> decide), h]
    rfl
  · rw [at_mem_encode (by decide)]
    simp

theorem holds_of_at {seg : Str} (h : '@' ∈ seg) (flags : List Bool) : holds flags seg = true :: flags := by
  have hmap : '@' ∈ seg.map Char.toLower := List.mem_map.2 ⟨'@', h, by decide⟩
  have hne : ∀ dots : Str, '@' ∉ dots → seg.map Char.toLower ≠ dots := by
    rintro dots hdots rfl
    exact hdots hmap
  have hdouble : ¬ isDoubleDot seg = true := by
    unfold isDoubleDot
    simp only [Bool.or_eq_true, decide_eq_true_eq, not_or]
    exact ⟨⟨⟨hne _ (by decide), hne _ (by decide)⟩, hne _ (by decide)⟩, hne _ (by decide)⟩
  have hsingle : ¬ isSingleDot seg = true := by
    unfold isSingleDot
    simp only [Bool.or_eq_true, decide_eq_true_eq, not_or]
    exact ⟨hne _ (by decide), hne _ (by decide)⟩
  unfold holds
  rw [if_neg hdouble, if_neg hsingle, decide_eq_true h]

theorem resolve_append (file : Bool) (path before : List Str) (seg : Str) (segs : List Str) :
    resolve file path (before ++ seg :: segs) =
      resolve file (before.foldl (fun path seg => place file path seg false) path) (seg :: segs) := by
  induction before generalizing path with
  | nil => rfl
  | cons seg' before ih =>
    cases before with
    | nil => rfl
    | cons seg'' before => exact ih (place file path seg' false)

/-- With something below, an `@` that is not lost is kept. -/
theorem exists_at_resolve {special file : Bool} {q s : Str} {path : List Str}
    (h : true ∈ (segments special s).tail.foldl holds [true]) :
    ∃ seg ∈ resolve file path (segments special (q ++ '@' :: s)), '@' ∈ seg := by
  obtain ⟨before, seg, hsegs, hat⟩ := segments_at special q s
  rw [hsegs, resolve_append]
  set below := before.foldl (fun path seg => place file path seg false) path
  have htracks : Tracks (fun _ => True) [] below := ⟨[], below, rfl, rfl, fun _ _ _ => trivial⟩
  obtain ⟨path', hpath, hmem⟩ := htracks.resolve file (seg :: (segments special s).tail)
  rw [List.foldl_cons, holds_of_at hat] at hpath
  obtain ⟨seg', hseg, hat'⟩ := hpath.of_mem h
  exact ⟨seg', (hmem seg' hat').2 hseg, hat'⟩

/-- With nothing below, an `@` is kept only if it is not lost. -/
theorem mem_of_at_resolve {special file : Bool} {s seg : Str}
    (hseg : seg ∈ resolve file [] (segments special ('@' :: s))) (hat : '@' ∈ seg) :
    true ∈ (segments special s).tail.foldl holds [true] := by
  obtain ⟨first, hsegs, hfirst⟩ := segments_at_nil special s
  have htracks : Tracks (fun _ => False) [] [] := ⟨[], [], rfl, rfl, by simp⟩
  obtain ⟨path', hpath, hmem⟩ := htracks.resolve file (first :: (segments special s).tail)
  rw [List.foldl_cons, holds_of_at hfirst] at hpath
  rw [hsegs] at hseg
  exact hpath.mem ((hmem seg hat).1 hseg) hat

section Tail

variable {special file : Bool} {s scheme : Str} {host : Option Str} {port : Option ℕ}

theorem isSlash_slash (special : Bool) : isSlash special '/' = true := by
  unfold isSlash
  simp

/-- A tail that begins with a delimiter and holds an `@` later is left without one only where the `@` is lost
with the dot segments that follow it. -/
theorem atLost_of_spill {d : Char} {q : Str} (hd : isDelimiter special d = true)
    (h : ¬ ((readTail special file (d :: (q ++ '@' :: s))).url scheme host port).Mentions) :
    AtLost special s := by
  rw [mentions_readTail, not_or] at h
  obtain ⟨hpath, hrest⟩ := h
  have hslash : isSlash special d = true ∧ endsPath d = false := by
    by_cases hends : endsPath d = true
    · rw [List.dropWhile_cons_of_neg (by simpa using hends)] at hrest
      exact absurd (by simp) hrest
    · unfold isDelimiter at hd
      simp only [Bool.not_eq_true] at hends
      rw [hends, Bool.or_false] at hd
      exact ⟨hd, hends⟩
  rw [List.dropWhile_cons_of_pos (by simpa using hslash.2)] at hrest
  have hq : ∀ c ∈ q, (!endsPath c) = true := by
    by_contra hne
    have hdrop : q.dropWhile (fun c => !endsPath c) ≠ [] := by
      rw [ne_eq, List.dropWhile_eq_nil_iff]
      exact hne
    rw [List.dropWhile_append, if_neg (by simpa using hdrop)] at hrest
    exact hrest (List.mem_append_right _ List.mem_cons_self)
  rw [List.dropWhile_append_of_pos hq, List.dropWhile_cons_of_pos (by decide)] at hrest
  refine ⟨?_, hrest⟩
  intro hmem
  obtain ⟨seg, hseg, hat⟩ := @exists_at_resolve special file q _ [] hmem
  refine hpath ⟨seg, ?_, hat⟩
  unfold readTail
  dsimp only
  rw [List.takeWhile_cons_of_pos (by simpa using hslash.2), if_neg (by simp), afterSlash, if_pos hslash.1,
    List.takeWhile_append_of_pos hq, List.takeWhile_cons_of_pos (by decide)]
  exact List.mem_reverse.2 hseg

/-- A tail that begins with a slash and an `@` keeps an `@` unless it is lost. -/
theorem mentions_at_iff :
    ((readTail special file ('/' :: '@' :: s)).url scheme host port).Mentions ↔ ¬ AtLost special s := by
  constructor
  · rintro h ⟨hlost, hrest⟩
    rw [mentions_readTail, List.dropWhile_cons_of_pos (by decide), List.dropWhile_cons_of_pos (by decide)] at h
    obtain ⟨seg, hseg, hat⟩ := h.resolve_right hrest
    unfold readTail at hseg
    dsimp only at hseg
    rw [List.takeWhile_cons_of_pos (by decide), if_neg (by simp), afterSlash, if_pos (isSlash_slash special),
      List.takeWhile_cons_of_pos (by decide)] at hseg
    exact hlost (mem_of_at_resolve (List.mem_reverse.1 hseg) hat)
  · intro h
    by_contra hno
    have hd : isDelimiter special '/' = true := by
      unfold isDelimiter
      rw [isSlash_slash, Bool.true_or]
    exact h (atLost_of_spill (q := []) hd hno)

end Tail

/-! ### URLs with credentials -/

/-- The name of a scheme, as it is written. -/
structure Scheme where
  head : Char
  rest : Str
  letter : head.isAlpha = true
  chars : ∀ c ∈ rest, isSchemeChar c = true

def Scheme.text (scheme : Scheme) : Str := scheme.head :: scheme.rest

/-- The name as it is read. -/
def Scheme.name (scheme : Scheme) : Str := scheme.text.map Char.toLower

/-- A URL with some credentials before its host. -/
def Scheme.url (scheme : Scheme) (credentials rest : Str) : Str :=
  scheme.text ++ "://".toList ++ credentials ++ '@' :: rest

/-- What is read of credentials. -/
def kept (s : Str) : Str := s.filter fun c => !isRemoved c

/-- What is read of the end of a URL. -/
def keptEnd (s : Str) : Str := kept (s.rdropWhile isTrimmed)

/-- Where the authority begins: a special scheme with an authority of its own kind takes any slashes before
it. -/
def authorityText (scheme : Scheme) (s : Str) : Str :=
  if !isFile scheme.name && isSpecial scheme.name then s.dropWhile (isSlash true) else s

/-- Credentials that end the authority. -/
def Spills (scheme : Scheme) (credentials : Str) : Prop :=
  ∃ c ∈ authorityText scheme (kept credentials), isDelimiter (isSpecial scheme.name) c = true

theorem rdropWhile_append_cons {p : Char → Bool} {c : Char} (h : p c = false) (s t : Str) :
    (s ++ c :: t).rdropWhile p = s ++ c :: t.rdropWhile p := by
  unfold List.rdropWhile
  rw [List.reverse_append, List.reverse_cons, List.append_assoc, List.dropWhile_append]
  split_ifs with hempty
  · rw [List.isEmpty_iff.1 hempty, List.singleton_append, List.dropWhile_cons_of_neg (by simp [h])]
    simp
  · simp

theorem rtakeWhile_append_cons {p : Char → Bool} {c : Char} (h : p c = false) (s t : Str) :
    (s ++ c :: t).rtakeWhile p = t.rtakeWhile p := by
  unfold List.rtakeWhile
  rw [List.reverse_append, List.reverse_cons, List.append_assoc, List.takeWhile_append, List.singleton_append,
    List.takeWhile_cons_of_neg (by simp [h])]
  split_ifs with hlength
  · rw [List.append_nil, (List.takeWhile_prefix p).eq_of_length hlength]
  · rfl

theorem clean_at {s t : Str} {c : Char} (h : isTrimmed c = false) :
    clean (c :: (s ++ '@' :: t)) = kept (c :: s) ++ '@' :: keptEnd t := by
  unfold clean keptEnd kept
  rw [List.dropWhile_cons_of_neg (by simp [h]), ← List.cons_append, rdropWhile_append_cons (by decide),
    List.filter_append, List.filter_cons (x := '@'), if_pos (by decide)]

theorem not_of_isSchemeChar {c : Char} (h : isSchemeChar c = true) : isTrimmed c = false ∧ isRemoved c = false := by
  unfold isSchemeChar Char.isAlphanum Char.isAlpha Char.isUpper Char.isLower Char.isDigit at h
  simp only [Bool.or_eq_true, Bool.and_eq_true, decide_eq_true_eq, beq_iff_eq, ge_iff_le,
    UInt32.le_iff_toNat_le] at h
  have hval : 0x20 < c.val.toNat := by
    have hA : 'A'.val.toNat = 65 := rfl
    have ha : 'a'.val.toNat = 97 := rfl
    have h0 : '0'.val.toNat = 48 := rfl
    rcases h with ((h | rfl) | rfl) | rfl
    · omega
    all_goals decide
  constructor
  · unfold isTrimmed
    rw [decide_eq_false_iff_not, UInt32.le_iff_toNat_le]
    exact not_le.2 hval
  · unfold isRemoved
    simp only [Bool.or_eq_false_iff, beq_eq_false_iff_ne]
    refine ⟨⟨?_, ?_⟩, ?_⟩ <;> (rintro rfl; exact absurd hval (by decide))

theorem Scheme.isSchemeChar (scheme : Scheme) : ∀ c ∈ scheme.text, Whatwg.isSchemeChar c = true := by
  intro c hc
  rcases List.mem_cons.1 hc with rfl | hc
  · unfold Whatwg.isSchemeChar Char.isAlphanum
    simp [scheme.letter]
  · exact scheme.chars c hc

theorem readScheme_text (scheme : Scheme) (s : Str) :
    readScheme (scheme.text ++ ':' :: s) = some (scheme.name, s) := by
  have hdrop : (scheme.text ++ ':' :: s).dropWhile Whatwg.isSchemeChar = ':' :: s := by
    rw [List.dropWhile_append_of_pos scheme.isSchemeChar, List.dropWhile_cons_of_neg (by decide)]
  have htake : (scheme.text ++ ':' :: s).takeWhile Whatwg.isSchemeChar = scheme.text := by
    rw [List.takeWhile_append_of_pos scheme.isSchemeChar, List.takeWhile_cons_of_neg (by decide), List.append_nil]
  unfold Scheme.text at hdrop htake ⊢
  rw [List.cons_append] at hdrop htake ⊢
  rw [readScheme, if_pos scheme.letter, hdrop, htake]
  rfl

theorem readScheme_url (scheme : Scheme) (credentials rest : Str) :
    readScheme (clean (scheme.url credentials rest)) =
      some (scheme.name, '/' :: '/' :: (kept credentials ++ '@' :: keptEnd rest)) := by
  have hhead := not_of_isSchemeChar (scheme.isSchemeChar scheme.head List.mem_cons_self)
  have htext : kept scheme.text = scheme.text := by
    unfold kept
    rw [List.filter_eq_self]
    intro c hc
    simp [(not_of_isSchemeChar (scheme.isSchemeChar c hc)).2]
  have hurl : scheme.url credentials rest =
      scheme.head :: ((scheme.rest ++ "://".toList ++ credentials) ++ '@' :: rest) := by
    unfold Scheme.url Scheme.text
    simp
  have hkept : kept (scheme.head :: (scheme.rest ++ "://".toList ++ credentials)) =
      scheme.text ++ ':' :: '/' :: '/' :: kept credentials := by
    rw [← List.cons_append, ← List.cons_append]
    show List.filter _ (scheme.text ++ _ ++ _) = _
    rw [List.filter_append, List.filter_append]
    change kept scheme.text ++ _ ++ _ = _
    rw [htext, List.append_assoc]
    rfl
  rw [hurl, clean_at hhead.1, hkept, List.append_assoc, List.cons_append]
  exact readScheme_text scheme _

/-! ### Reading them -/

variable {H : HostReader} {scheme : Scheme} {credentials rest : Str}

/-- What stands before the last `@` of an authority is not read. -/
theorem parseAuthority_credentials (name : Str) {special : Bool} {s : Str}
    (h : ∀ c ∈ s, isDelimiter special c = false) (t : Str) :
    parseAuthority H name special (s ++ '@' :: t) = parseAuthority H name special ('@' :: t) := by
  have hs : ∀ c ∈ s, (!isDelimiter special c) = true := by
    intro c hc
    rw [h c hc]
    rfl
  have hat : (!isDelimiter special '@') = true := by cases special <;> decide
  have hread : ∀ u : Str, readAuthority H name special (s ++ '@' :: u) = readAuthority H name special ('@' :: u) := by
    intro u
    unfold readAuthority hostText
    rw [rtakeWhile_append_cons (by decide), ← List.nil_append ('@' :: u), rtakeWhile_append_cons (by decide)]
    simp
  unfold parseAuthority
  rw [List.takeWhile_append_of_pos hs, List.dropWhile_append_of_pos hs,
    List.takeWhile_cons_of_pos (p := fun c => !isDelimiter special c) hat,
    List.dropWhile_cons_of_pos (p := fun c => !isDelimiter special c) hat, hread]

/-- The reader of a text after its scheme and two slashes. -/
def parseRest (H : HostReader) (scheme : Scheme) (s : Str) : Except ParseError Url :=
  if isFile scheme.name then parseFileHost H s
  else parseAuthority H scheme.name (isSpecial scheme.name) s

theorem parse_url :
    parse H (scheme.url credentials rest) =
      parseRest H scheme (authorityText scheme (kept credentials) ++ '@' :: keptEnd rest) := by
  unfold parse parseRest authorityText
  rw [readScheme_url]
  dsimp only
  by_cases hfile : isFile scheme.name = true
  · rw [if_pos hfile, if_pos hfile, hfile]
    rfl
  · rw [if_neg hfile, if_neg hfile]
    rw [Bool.not_eq_true] at hfile
    rw [hfile]
    by_cases hspecial : isSpecial scheme.name = true
    · have hdrop : ∀ s t : Str, (s ++ '@' :: t).dropWhile (isSlash true) = s.dropWhile (isSlash true) ++ '@' :: t := by
        intro s t
        rw [List.dropWhile_append]
        split_ifs with hempty
        · rw [List.isEmpty_iff.1 hempty]
          rfl
        · rfl
      rw [if_pos hspecial, hspecial, if_pos (by decide), ← hdrop]
      rfl
    · rw [if_neg hspecial]
      rw [Bool.not_eq_true] at hspecial
      rw [hspecial]
      rfl

theorem isSpecial_of_isFile {name : Str} (h : isFile name = true) : isSpecial name = true := by
  unfold isSpecial
  rw [h, Bool.or_true]

/-- Without a host in front of it, an `@` does not stand in the URL of a file. -/
theorem parseFileHost_credentials {s : Str} (h : ∀ c ∈ s, isDelimiter true c = false) (t : Str) (url : Url) :
    parseFileHost H (s ++ '@' :: t) ≠ .ok url := by
  have hs : ∀ c ∈ s, (!isDelimiter true c) = true := by
    intro c hc
    rw [h c hc]
    rfl
  unfold parseFileHost
  dsimp only
  rw [List.takeWhile_append_of_pos hs, List.takeWhile_cons_of_pos (p := fun c => !isDelimiter true c) (by decide)]
  set text := s ++ '@' :: t.takeWhile fun c => !isDelimiter true c with htext
  have hat : '@' ∈ text := by simp [htext]
  rw [if_neg fun hdrive => at_not_mem_of_isDriveLetter hdrive hat, if_neg (List.ne_nil_of_mem hat)]
  intro hok
  cases hhost : H.parse true text with
  | error e =>
    rw [hhost] at hok
    cases hok
  | ok host => exact H.no_at true text host hhost hat

theorem scheme_of_parse {url : Url} (h : parse H (scheme.url credentials rest) = .ok url) :
    url.scheme = scheme.name := by
  rw [parse_url] at h
  unfold parseRest at h
  by_cases hfile : isFile scheme.name = true
  · rw [if_pos hfile] at h
    have hname : "file".toList = scheme.name := by
      unfold isFile at hfile
      exact (of_decide_eq_true hfile).symm
    unfold parseFileHost at h
    dsimp only at h
    split_ifs at h
    · cases h
      exact hname
    · cases h
      exact hname
    · generalize H.parse true _ = host at h
      cases host with
      | error e => cases h
      | ok host =>
        cases h
        exact hname
  · rw [if_neg hfile] at h
    unfold parseAuthority at h
    generalize readAuthority H _ _ _ = authority at h
    cases authority with
    | error e => cases h
    | ok authority =>
      cases h
      rfl

/-- Credentials that do not end the authority are not read. -/
theorem parse_eq_of_not_spills {credentials' : Str} {url url' : Url} (h : ¬ Spills scheme credentials)
    (h' : ¬ Spills scheme credentials') (hurl : parse H (scheme.url credentials rest) = .ok url)
    (hurl' : parse H (scheme.url credentials' rest) = .ok url') : url = url' := by
  have hdelim : ∀ {s}, ¬ Spills scheme s →
      ∀ c ∈ authorityText scheme (kept s), isDelimiter (isSpecial scheme.name) c = false := by
    intro s hs c hc
    by_contra hne
    exact hs ⟨c, hc, by simpa using hne⟩
  have h := hdelim h
  have h' := hdelim h'
  rw [parse_url] at hurl hurl'
  unfold parseRest at hurl hurl'
  by_cases hfile : isFile scheme.name = true
  · rw [if_pos hfile] at hurl
    rw [isSpecial_of_isFile hfile] at h
    exact absurd hurl (parseFileHost_credentials h _ url)
  · rw [if_neg hfile, parseAuthority_credentials _ h] at hurl
    rw [if_neg hfile, parseAuthority_credentials _ h', hurl] at hurl'
    cases hurl'
    rfl

/-- Credentials that end the authority leave a URL with a host and without an `@` only where the `@` is lost. -/
theorem atLost_of_spills {url : Url} (h : Spills scheme credentials)
    (hurl : parse H (scheme.url credentials rest) = .ok url) (hhost : url.host ≠ none)
    (hno : ¬ url.Mentions) : AtLost (isSpecial scheme.name) (keptEnd rest) := by
  obtain ⟨c, hc, hdelim⟩ := h
  rw [parse_url] at hurl
  have hdrop : ∃ d q, (authorityText scheme (kept credentials) ++ '@' :: keptEnd rest).dropWhile
        (fun c => !isDelimiter (isSpecial scheme.name) c) = d :: (q ++ '@' :: keptEnd rest) ∧
      isDelimiter (isSpecial scheme.name) d = true := by
    rcases dropWhile_eq (p := fun c => !isDelimiter (isSpecial scheme.name) c)
      (authorityText scheme (kept credentials)) with hnil | ⟨d, q, hcons, hd⟩
    · rw [List.dropWhile_eq_nil_iff] at hnil
      have := hnil c hc
      rw [hdelim] at this
      cases this
    · refine ⟨d, q, ?_, by simpa using hd⟩
      rw [List.dropWhile_append, hcons]
      rfl
  obtain ⟨d, q, hdrop, hd⟩ := hdrop
  unfold parseRest at hurl
  by_cases hfile : isFile scheme.name = true
  · rw [if_pos hfile] at hurl
    rw [isSpecial_of_isFile hfile] at hd hdrop ⊢
    unfold parseFileHost at hurl
    dsimp only at hurl
    rw [hdrop] at hurl
    split_ifs at hurl with hdrive hempty
    · cases hurl
      exact absurd rfl hhost
    · cases hurl
      exact absurd rfl hhost
    · generalize H.parse true _ = host at hurl
      cases host with
      | error e => cases hurl
      | ok host =>
        cases hurl
        exact atLost_of_spill hd hno
  · rw [if_neg hfile] at hurl
    unfold parseAuthority at hurl
    rw [hdrop] at hurl
    generalize readAuthority H _ _ _ = authority at hurl
    cases authority with
    | error e => cases hurl
    | ok authority =>
      cases hurl
      exact atLost_of_spill hd hno

/-- A letter before a slash is a host. -/
theorem parse_letter {c : Char} (h : c.isLower = true) :
    parse H (scheme.url [c, '/'] rest) =
      .ok ((readTail (isSpecial scheme.name) (isFile scheme.name) ('/' :: '@' :: keptEnd rest)).url scheme.name
        (some [c]) none) := by
  have hne : ∀ d : Char, d.isLower = false → c ≠ d := by
    rintro d hd rfl
    rw [hd] at h
    cases h
  have hslash : ∀ special, isSlash special c = false := by
    intro special
    unfold isSlash
    simp [hne '/' (by decide), hne '\\' (by decide)]
  have hdelim : ∀ special, isDelimiter special c = false := by
    intro special
    unfold isDelimiter endsPath
    simp [hslash, hne '?' (by decide), hne '#' (by decide)]
  have hslash' : ∀ special, isDelimiter special '/' = true := by
    intro special
    unfold isDelimiter
    rw [isSlash_slash, Bool.true_or]
  have hkept : kept [c, '/'] = [c, '/'] := by
    unfold kept isRemoved
    simp [hne '\t' (by decide), hne '\n' (by decide), hne '\r' (by decide)]
  have hauthority : authorityText scheme [c, '/'] = [c, '/'] := by
    unfold authorityText
    rw [List.dropWhile_cons_of_neg (by simp [hslash]), ite_self]
  have htake : ∀ special, ([c, '/'] ++ '@' :: keptEnd rest).takeWhile (fun c => !isDelimiter special c) = [c] := by
    intro special
    simp [hdelim, hslash']
  have hdrop : ∀ special, ([c, '/'] ++ '@' :: keptEnd rest).dropWhile (fun c => !isDelimiter special c) =
      '/' :: '@' :: keptEnd rest := by
    intro special
    simp [hdelim, hslash']
  rw [parse_url, hkept, hauthority]
  unfold parseRest
  -- A file has a host without a port, every other scheme an authority.
  by_cases hfile : isFile scheme.name = true
  · have hname : scheme.name = "file".toList := by
      unfold isFile at hfile
      exact of_decide_eq_true hfile
    rw [if_pos hfile, isSpecial_of_isFile hfile, hfile]
    unfold parseFileHost
    dsimp only
    rw [htake, hdrop, if_neg (by simp [isDriveLetter]), if_neg (List.cons_ne_nil _ _), H.letter true c h, hname]
    show Except.ok (Tail.url _ _ (if [c] = "localhost".toList then none else nonempty [c]) none) = _
    rw [if_neg (by simp)]
    rfl
  · have hread : readAuthority H scheme.name (isSpecial scheme.name) [c] = .ok (some [c], none) := by
      unfold readAuthority
      have hhost : hostText [c] = [c] := by
        unfold hostText
        rw [List.rtakeWhile_eq_self_iff]
        simp [hne '@' (by decide)]
      have hsplit : splitPort false [c] = ([c], none) := by
        unfold splitPort
        rw [if_neg (by simp [hne ':' (by decide)])]
        rfl
      dsimp only
      rw [hhost, hsplit]
      dsimp only
      rw [if_neg (by simp), if_neg (by simp), H.letter _ c h]
      rfl
    rw [if_neg hfile]
    rw [Bool.not_eq_true] at hfile
    unfold parseAuthority
    rw [htake, hdrop, hread, hfile]
    rfl

end IpeLang.Lib.Whatwg
