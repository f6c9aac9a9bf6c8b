import IpeLang.Lib.SemverLibrary

/-!
# The fields of the package index

The types that a package name, a version, a source, a revision, a hash and a publisher are parsed
into, from `package_name.rs`, `published_version.rs`, `index.rs`, `publisher.rs` and `signing.rs`
of `ipe-cli`, and the capabilities of `kernels/src/capability.rs`.

Each type holds a text together with the proof that its check accepts it, so that the only values
are those that its `parse` can give (`parse_raw` says that it gives them all). The texts of errors
are not modelled: an error is a constructor with the data that its message shows.
-/

namespace IpeLang.Package

open IpeLang.Lib Semver

/-- The number of bytes of a text. -/
def utf8Len (s : Str) : ℕ := (s.map Char.utf8Size).sum

/-- Whether a text occurs in another one. -/
def contains (s pattern : Str) : Bool := s.tails.any pattern.isPrefixOf

def startsWith (s pattern : Str) : Bool := pattern.isPrefixOf s

def endsWith (s pattern : Str) : Bool := pattern.isSuffixOf s

def isAsciiLowercase (c : Char) : Bool := 'a' ≤ c && c ≤ 'z'

/-- The digits of a lowercase hexadecimal number. -/
def isLowerHex (c : Char) : Bool := c.isDigit || ('a' ≤ c && c ≤ 'f')

/-- The value, or an error if there is none. -/
def orError {α ε : Type} (e : ε) : Option α → Except ε α
  | some a => .ok a
  | none => .error e

theorem orError_eq_ok {α ε : Type} {e : ε} {o : Option α} {a : α} :
    orError e o = .ok a ↔ o = some a := by
  cases o <;> simp [orError]

theorem except_bind_eq_ok {α β ε : Type} {x : Except ε α} {f : α → Except ε β} {b : β} :
    (x >>= f) = .ok b ↔ ∃ a, x = .ok a ∧ f a = .ok b := by
  cases x <;> simp [bind, Except.bind]

theorem mapError_eq_ok {α ε ε' : Type} {x : Except ε α} {f : ε → ε'} {a : α} :
    x.mapError f = .ok a ↔ x = .ok a := by
  cases x <;> simp [Except.mapError]

theorem exists_of_mem_mapM {α β ε : Type} {f : α → Except ε β} {xs : List α} {ys : List β}
    (h : xs.mapM f = .ok ys) {y : β} (hy : y ∈ ys) : ∃ x ∈ xs, f x = .ok y := by
  induction xs generalizing ys with
  | nil =>
    cases h
    cases hy
  | cons x xs ih =>
    rw [List.mapM_cons, except_bind_eq_ok] at h
    obtain ⟨y', hy', h⟩ := h
    obtain ⟨ys', hys, h⟩ := except_bind_eq_ok.1 h
    cases h
    rcases List.mem_cons.1 hy with rfl | hy
    · exact ⟨x, List.mem_cons_self, hy'⟩
    · obtain ⟨x', hx', hfx⟩ := ih hys hy
      exact ⟨x', List.mem_cons_of_mem x hx', hfx⟩

/-! ### Package names -/

/-- The longest package name, in bytes. -/
def MAX_LEN : ℕ := 64

inductive NameRefusal
  | empty
  | tooLong
  | badStart
  | doubledDash
  | badChar
  | trailingDash
  deriving DecidableEq, Repr

namespace PackageName

/-- The characters after the first one: `prevDash` tells whether the last one was a dash. -/
def checkRest (prevDash : Bool) : Str → Except NameRefusal Unit
  | [] => .ok ()
  | c :: cs =>
    if c = '-' then if prevDash then .error .doubledDash else checkRest true cs
    else if !isAsciiLowercase c && !c.isDigit then .error .badChar
    else checkRest false cs

/-- The shape of a package name. -/
def check (raw : Str) : Except NameRefusal Unit :=
  match raw with
  | [] => .error .empty
  | first :: rest =>
    if MAX_LEN < utf8Len raw then .error .tooLong
    else if !(isAsciiLowercase first || first.isDigit) then .error .badStart
    else do
      checkRest false rest
      if endsWith raw ['-'] then .error .trailingDash else .ok ()

end PackageName

/-- A text that is a single component of a path. -/
structure PackageName where
  raw : Str
  valid : PackageName.check raw = .ok ()
  deriving DecidableEq

def PackageName.parse (raw : Str) : Except NameRefusal PackageName :=
  match h : PackageName.check raw with
  | .ok () => .ok ⟨raw, h⟩
  | .error e => .error e

@[simp] theorem PackageName.parse_raw (n : PackageName) : PackageName.parse n.raw = .ok n := by
  unfold PackageName.parse
  split
  · rfl
  · next e h => exact absurd (n.valid.symm.trans h) (by simp)

theorem PackageName.raw_of_parse {raw : Str} {n : PackageName} (h : PackageName.parse raw = .ok n) :
    n.raw = raw := by
  unfold PackageName.parse at h
  split at h <;> cases h
  rfl

theorem PackageName.raw_injective : Function.Injective PackageName.raw := by
  rintro ⟨a, ha⟩ ⟨b, hb⟩ rfl
  rfl

instance : LinearOrder PackageName := LinearOrder.lift' _ PackageName.raw_injective

/-! ### Publishers -/

/-- The longest login, in bytes. -/
def MAX_LOGIN_LEN : ℕ := 39

/-- What ends the login of an app. -/
def BOT_SUFFIX : Str := "[bot]".toList

inductive LoginRefusal
  | empty
  | tooLong
  | forbiddenByte
  | edgeHyphen
  | doubleHyphen
  deriving DecidableEq, Repr

/-- Check a text against the shape of a login. -/
def checkLoginShape (raw : Str) : Except LoginRefusal Unit :=
  let handle := (raw.dropSuffix? BOT_SUFFIX).getD raw
  if handle.isEmpty then .error .empty
  else if MAX_LOGIN_LEN < utf8Len handle then .error .tooLong
  else if !handle.all isIdentChar then .error .forbiddenByte
  else if startsWith handle ['-'] || endsWith handle ['-'] then .error .edgeHyphen
  else if contains handle ['-', '-'] then .error .doubleHyphen
  else .ok ()

/-- The publisher that an entry claims. -/
structure SelfDeclaredPublisher where
  raw : Str
  valid : checkLoginShape raw = .ok ()
  deriving DecidableEq

/-- The author of a submission, as the admission workflow attests. -/
structure AttestedActor where
  raw : Str
  valid : checkLoginShape raw = .ok ()
  deriving DecidableEq

def SelfDeclaredPublisher.parse (claimed : Str) : Except LoginRefusal SelfDeclaredPublisher :=
  match h : checkLoginShape claimed with
  | .ok () => .ok ⟨claimed, h⟩
  | .error e => .error e

@[simp] theorem SelfDeclaredPublisher.parse_raw (p : SelfDeclaredPublisher) :
    SelfDeclaredPublisher.parse p.raw = .ok p := by
  unfold SelfDeclaredPublisher.parse
  split
  · rfl
  · next e h => exact absurd (p.valid.symm.trans h) (by simp)

/-- The account that may own reserved packages (`kernels/src/reserved_namespace.rs`). -/
def BLESSED_PUBLISHER : Str := "arthurmaciel".toList

inductive BlessingRefusal
  | noProvenIdentity
  | identityMismatch (proven claimed : Str)
  | notBlessed (proven : Str)
  deriving DecidableEq, Repr

/-- Proof that a claimed publisher is the blessed one. -/
structure BlessedPublisher where
  login : Str
  deriving DecidableEq

namespace BlessedPublisher

def fromProven (proven : Option Str) (claimed : SelfDeclaredPublisher) :
    Except BlessingRefusal BlessedPublisher :=
  match proven with
  | none => .error .noProvenIdentity
  | some proven =>
    if proven ≠ claimed.raw then .error (.identityMismatch proven claimed.raw)
    else if proven ≠ BLESSED_PUBLISHER then .error (.notBlessed proven)
    else .ok ⟨BLESSED_PUBLISHER⟩

def fromAttested (attested : Option AttestedActor) (claimed : SelfDeclaredPublisher) :
    Except BlessingRefusal BlessedPublisher :=
  fromProven (attested.map AttestedActor.raw) claimed

def vouchesFor (b : BlessedPublisher) (claimed : SelfDeclaredPublisher) : Bool :=
  claimed.raw == b.login

end BlessedPublisher

/-- The package namespaces of the blessed publisher (`kernels/src/reserved_namespace.rs`). -/
def RESERVED_PACKAGE_PREFIXES : List Str := ["ipe-registry-smoke".toList]

/-- The reserved prefix that a package name claims. -/
def reservedPackagePrefixOf (packageName : Str) : Option Str :=
  RESERVED_PACKAGE_PREFIXES.find? fun pre =>
    packageName == pre || (packageName.dropPrefix? pre).any fun rest => startsWith rest ['-']

/-! ### Versions -/

/-- A version without build metadata. -/
abbrev PublishedVersion := Version

inductive VersionRefusal
  | malformed (raw : Str)
  | buildMetadata (version : Version) (build : Str)
  | notAboveGreatest (candidate greatest : PublishedVersion)
  deriving DecidableEq

def PublishedVersion.parse [Library] (raw : Str) : Except VersionRefusal PublishedVersion :=
  match Semver.parse raw with
  | none => .error (.malformed raw)
  | some (version, build) =>
    if build.isEmpty then .ok version else .error (.buildMetadata version build)

/-- Require that a version is above all published ones. -/
def requireSuccessor [Library] (published : List PublishedVersion) (candidate : PublishedVersion) :
    Except VersionRefusal Unit :=
  match published.max? with
  | some greatest =>
    if candidate ≤ greatest then .error (.notAboveGreatest candidate greatest) else .ok ()
  | none => .ok ()

/-! ### Sources, revisions and hashes -/

/-- The transports that a source may use. -/
inductive Transport
  | https
  | ssh
  | file
  deriving DecidableEq, Repr

/-- The transport that the start of a text names. -/
def Transport.ofUrl (raw : Str) : Option Transport :=
  if startsWith raw "https://".toList then some .https
  else if startsWith raw "ssh://".toList then some .ssh
  else if startsWith raw "file://".toList || startsWith raw ['/'] then some .file
  else none

inductive SourceRefusal
  | plaintext
  | invalid
  deriving DecidableEq, Repr

/-- Whether a text cannot stand in a quoted line. -/
def breaksOut (raw : Str) : Bool := raw.any fun c => isControl c || c == '"'

/-- The transport of an acceptable source. -/
def SourceUrl.check (raw : Str) : Except SourceRefusal Transport :=
  if startsWith raw "git://".toList then .error .plaintext
  else
    match (Transport.ofUrl raw).filter fun _ =>
        !startsWith raw ['-'] && !contains raw [':', ':'] && !breaksOut raw with
    | some transport => .ok transport
    | none => .error .invalid

/-- The repository that a package comes from. -/
structure SourceUrl where
  raw : Str
  transport : Transport
  valid : SourceUrl.check raw = .ok transport
  deriving DecidableEq

def SourceUrl.parse (raw : Str) : Except SourceRefusal SourceUrl :=
  match h : SourceUrl.check raw with
  | .ok transport => .ok ⟨raw, transport, h⟩
  | .error e => .error e

@[simp] theorem SourceUrl.parse_raw (u : SourceUrl) : SourceUrl.parse u.raw = .ok u := by
  obtain ⟨raw, transport, valid⟩ := u
  unfold SourceUrl.parse
  split
  · next t h =>
    obtain rfl : t = transport := by simpa using h.symm.trans valid
    rfl
  · next e h => exact absurd (valid.symm.trans h) (by simp)

/-- Whether a text is a number of `n` lowercase hexadecimal digits. -/
def isHex (n : ℕ) (raw : Str) : Bool := utf8Len raw == n && raw.all isLowerHex

/-- A full commit hash. -/
structure PinnedRev where
  raw : Str
  valid : isHex 40 raw = true
  deriving DecidableEq

def PinnedRev.parseSha (raw : Str) : Option PinnedRev :=
  if h : isHex 40 raw = true then some ⟨raw, h⟩ else none

@[simp] theorem PinnedRev.parseSha_raw (r : PinnedRev) : PinnedRev.parseSha r.raw = some r := by
  rw [PinnedRev.parseSha, dif_pos r.valid]

/-- A SHA-256 digest in hexadecimal. -/
structure Sha256Hex where
  raw : Str
  valid : isHex 64 raw = true
  deriving DecidableEq

def Sha256Hex.parse (raw : Str) : Option Sha256Hex :=
  if h : isHex 64 raw = true then some ⟨raw, h⟩ else none

@[simp] theorem Sha256Hex.parse_raw (d : Sha256Hex) : Sha256Hex.parse d.raw = some d := by
  rw [Sha256Hex.parse, dif_pos d.valid]

/-! ### The characters of the fields -/

/-- A line break is no part of a source. -/
theorem SourceUrl.not_mem_raw (u : SourceUrl) : '\n' ∉ u.raw := by
  intro hmem
  have hbreak : breaksOut u.raw = true := List.any_eq_true.2 ⟨_, hmem, rfl⟩
  have hvalid := u.valid
  unfold SourceUrl.check at hvalid
  rw [hbreak] at hvalid
  have hnone : (Transport.ofUrl u.raw).filter (fun _ =>
      !startsWith u.raw ['-'] && !contains u.raw [':', ':'] && !true) = none := by
    cases Transport.ofUrl u.raw <;> simp
  rw [hnone] at hvalid
  split_ifs at hvalid

theorem not_mem_of_isHex {n : ℕ} {raw : Str} (h : isHex n raw = true) : '\n' ∉ raw := by
  intro hmem
  have hall := List.all_eq_true.1 ((Bool.and_eq_true _ _).mp h).2 _ hmem
  cases hall

theorem not_mem_of_checkLoginShape {raw : Str} (h : checkLoginShape raw = .ok ()) :
    '\n' ∉ raw := by
  intro hmem
  have hhandle : '\n' ∈ (raw.dropSuffix? BOT_SUFFIX).getD raw := by
    cases hs : raw.dropSuffix? BOT_SUFFIX with
    | none => exact hmem
    | some t =>
      obtain ⟨q, rfl, hq⟩ := List.dropSuffix?_eq_some_iff.1 hs
      obtain rfl : q = BOT_SUFFIX := by simpa using hq
      rcases List.mem_append.1 hmem with hmem | hmem
      · exact hmem
      · exact absurd hmem (by decide)
  unfold checkLoginShape at h
  dsimp only at h
  split_ifs at h with h₁ h₂ h₃
  have hall := List.all_eq_true.1 (by simpa using h₃) _ hhandle
  cases hall

/-- A character of a package name. -/
def isNameByte (c : Char) : Bool := isAsciiLowercase c || c.isDigit || c == '-'

theorem PackageName.isNameByte_of_checkRest {prevDash : Bool} {raw : Str}
    (h : PackageName.checkRest prevDash raw = .ok ()) : ∀ c ∈ raw, isNameByte c = true := by
  induction raw generalizing prevDash with
  | nil => exact fun c hc => absurd hc List.not_mem_nil
  | cons c cs ih =>
    unfold PackageName.checkRest at h
    rw [List.forall_mem_cons]
    split_ifs at h with h₁ h₂ h₃
    · exact ⟨by rw [h₁]; rfl, ih h⟩
    · refine ⟨?_, ih h⟩
      unfold isNameByte
      revert h₃
      cases isAsciiLowercase c <;> cases c.isDigit <;> simp

/-- A package name starts with a letter or a digit, and letters, digits and dashes follow. -/
theorem PackageName.exists_raw (n : PackageName) : ∃ first rest, n.raw = first :: rest ∧
    (isAsciiLowercase first || first.isDigit) = true ∧ ∀ c ∈ rest, isNameByte c = true := by
  obtain ⟨raw, valid⟩ := n
  cases raw with
  | nil => cases valid
  | cons first rest =>
    have hvalid := valid
    unfold PackageName.check at hvalid
    dsimp only at hvalid
    cases hr : PackageName.checkRest false rest with
    | error e =>
      rw [hr] at hvalid
      split_ifs at hvalid <;> cases hvalid
    | ok _ =>
      refine ⟨first, rest, rfl, ?_, PackageName.isNameByte_of_checkRest hr⟩
      by_contra hfirst
      rw [Bool.not_eq_true] at hfirst
      split_ifs at hvalid with h₁ h₂ <;> exact h₂ (by rw [hfirst]; rfl)

theorem PackageName.isNameByte_of_mem_raw (n : PackageName) {c : Char} (h : c ∈ n.raw) :
    isNameByte c = true := by
  obtain ⟨first, rest, hraw, hfirst, hrest⟩ := n.exists_raw
  rw [hraw] at h
  rcases List.mem_cons.1 h with rfl | h
  · simp [isNameByte, hfirst]
  · exact hrest c h

theorem PackageName.not_mem_raw (n : PackageName) : '\n' ∉ n.raw := by
  intro hmem
  cases n.isNameByte_of_mem_raw hmem

/-! ### Signatures -/

/-- The largest signature bundle, in bytes. -/
def MAX_BUNDLE_BYTES : ℕ := 512 * 1024

/-- A signature bundle, as its text. -/
structure SignatureBundle where
  raw : Str
  deriving DecidableEq

inductive SignatureRefusal
  | empty
  | tooLarge
  | notJson (error : Str)
  | notObject
  deriving DecidableEq

/-- Read a signature bundle. `json` is the JSON parser: it tells whether a text is an object. -/
def SignatureBundle.parse (json : Str → Except Str Bool) (raw : Str) :
    Except SignatureRefusal SignatureBundle :=
  let trimmed := trim raw
  if trimmed.isEmpty then .error .empty
  else if MAX_BUNDLE_BYTES < utf8Len trimmed then .error .tooLarge
  else
    match json trimmed with
    | .error e => .error (.notJson e)
    | .ok isObject => if !isObject then .error .notObject else .ok ⟨trimmed⟩

section Bundle

variable {json : Str → Except Str Bool} {raw : Str} {b : SignatureBundle}

theorem SignatureBundle.raw_of_parse (h : SignatureBundle.parse json raw = .ok b) :
    b.raw = trim raw := by
  unfold SignatureBundle.parse at h
  dsimp only at h
  split_ifs at h
  cases hj : json (trim raw) with
  | error e => simp [hj] at h
  | ok isObject =>
    cases isObject <;> simp only [hj, Bool.not_true, Bool.not_false, if_true, if_false,
      Bool.false_eq_true, reduceCtorEq, Except.ok.injEq] at h
    rw [← h]

/-- The text of a bundle is read back as that bundle. -/
theorem SignatureBundle.parse_raw (h : SignatureBundle.parse json raw = .ok b) :
    SignatureBundle.parse json b.raw = .ok b := by
  rw [SignatureBundle.raw_of_parse h]
  unfold SignatureBundle.parse at h ⊢
  rwa [trim_trim]

end Bundle

end IpeLang.Package
