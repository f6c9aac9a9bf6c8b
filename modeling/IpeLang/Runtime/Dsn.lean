import IpeLang.Lib.SemverText
import IpeLang.Runtime.Encoding

/-!
# Descriptors of database connections

A descriptor is read from the text of a URL or built from parts. It is dialled by a URL that is put
together of its parts, which the driver reads on its own.

* `dsn_parse`, `dsn_build`: the two ways to a descriptor;
* `Dsn.connection_url`: what is dialled;
* `UrlCrate`, `Whatwg`: the reader of URLs, and what is relied on of it;
* `SqliteDriver`, `Opens`: the driver of SQLite, and what is relied on of it;
* `dsn_faithful_iff`: which descriptors are dialled as they are.
-/

namespace IpeLang.Runtime.Db

open Lib (Str isControl isWhiteSpace splitOnce)
open Lib.Percent (utf8 ofUtf8 encode percent_decode utf8_percent_encode)
open Lib.Semver (decimal)
open Encoding (UrlGrammar decode_component byteLen)

/-! ### URLs -/

/-- What the reader of URLs makes of a text. -/
structure Url where
  scheme : Str
  username : Str
  password : Option Str
  host : Option Str
  port : Option UInt16
  path : Str
  query : Option Str
  fragment : Option Str

/-- The reader of URLs, of queries and of hosts, which writes a host in its own form. -/
structure UrlCrate where
  parse : Str → Option Url
  query_pairs : Str → List (Str × Str)
  host : Str → Option Str

/-! ### Errors -/

inductive DsnDriver
  | Postgres
  | Sqlite
  deriving DecidableEq

inductive TlsMode
  | Require
  | Prefer
  | Disable
  deriving DecidableEq

inductive DsnReject
  | Unparseable
  | UnknownDriver
  | MissingHost
  | InvalidPort
  | TlsDisabled
  | UnknownSslMode
  | ConflictingParameter
  | InvalidComponent
  | AmbiguousUserinfo
  | PasswordWithoutUser
  | TooLong
  deriving DecidableEq

def DsnReject.message : DsnReject → Str
  | .Unparseable => "Ipe.Db.Dsn: cannot parse DSN".toList
  | .UnknownDriver => "Ipe.Db.Dsn: unknown driver".toList
  | .MissingHost => "Ipe.Db.Dsn: missing host".toList
  | .InvalidPort => "Ipe.Db.Dsn: invalid port".toList
  | .TlsDisabled => "Ipe.Db.Dsn: TLS disabled is not permitted".toList
  | .UnknownSslMode => "Ipe.Db.Dsn: unknown sslmode".toList
  | .ConflictingParameter => "Ipe.Db.Dsn: conflicting or misplaced parameter".toList
  | .InvalidComponent => "Ipe.Db.Dsn: invalid DSN component".toList
  | .PasswordWithoutUser => "Ipe.Db.Dsn: a password needs a user name".toList
  | .TooLong => "Ipe.Db.Dsn: DSN exceeds the length limit".toList
  | .AmbiguousUserinfo =>
    ("Ipe.Db.Dsn: the user name or password may run past the URL's authority: " ++
      "percent-encode `/`, `?`, `#`, `@` and `\\` in them, and write `@` " ++
      "elsewhere as `%40`").toList

/-! ### Components -/

def MAX_COMPONENT_LEN : ℕ := 512

def MAX_DSN_LEN : ℕ := 4096

/-- A component, taken literally: bounded, not empty, without control characters and white space. -/
def text_ok (s : Str) : Bool :=
  !s.isEmpty && byteLen s ≤ MAX_COMPONENT_LEN && !s.any fun c => isControl c || isWhiteSpace c

/-- A component of a URL, judged by what it decodes to. -/
def component_ok (s : Str) : Bool :=
  byteLen s ≤ MAX_COMPONENT_LEN &&
    match decode_component s .Path with
    | .ok decoded => text_ok decoded
    | .error _ => false

def driver_is_postgres (scheme : Str) : Bool := scheme = "postgres".toList || scheme = "postgresql".toList

def driver_is_sqlite (scheme : Str) : Bool := scheme = "sqlite".toList || scheme = "file".toList

def parse_sslmode (token : Str) : Except DsnReject TlsMode :=
  if token = "require".toList then .ok .Require
  else if token = "prefer".toList then .ok .Prefer
  else if token = "disable".toList then .error .TlsDisabled
  else .error .UnknownSslMode

/-- A user name or the name of a database of PostgreSQL, decoded. -/
structure DsnPart where
  text : Str
  ok : text_ok text = true
  deriving DecidableEq

def DsnPart.of_text (text : Str) : Option DsnPart :=
  if h : text_ok text = true then some ⟨text, h⟩ else none

def DsnPart.of_encoded (encoded : Str) : Option DsnPart :=
  match decode_component encoded .Path with
  | .ok text => DsnPart.of_text text
  | .error _ => none

/-- Letters and digits of ASCII. -/
def isAlphanumeric (b : UInt8) : Bool :=
  (48 ≤ b && b ≤ 57) || (65 ≤ b && b ≤ 90) || (97 ≤ b && b ≤ 122)

def percent_encode [Lib.Percent.Library] (text : Str) : Str := utf8_percent_encode isAlphanumeric text

/-- The bytes of the name of a file that stand for themselves in its connection URL: letters, digits
and `/`, `.`, `-`, `_`, `~`. -/
def SQLITE_PATH (b : UInt8) : Bool :=
  isAlphanumeric b || b == 47 || b == 46 || b == 45 || b == 95 || b == 126

def SQLITE_MEMORY : Str := ":memory:".toList

/-- The database of SQLite that is opened. The name of a file does not ask for another one. -/
inductive SqliteDb
  | Memory
  | File (name : Str) (ok : text_ok name = true ∧ ¬"file:".toList <+: name ∧ name ≠ SQLITE_MEMORY)
  deriving DecidableEq

def SqliteDb.of_name (name : Str) : Option SqliteDb :=
  if h : text_ok name = true ∧ ¬"file:".toList <+: name then
    if hmemory : name = SQLITE_MEMORY then some .Memory else some (.File name ⟨h.1, h.2, hmemory⟩)
  else none

/-- A pair of a query that only repeats the mode in which files are opened. -/
def isPinnedPair (pair : Str) : Bool :=
  let (key, value) := (splitOnce '=' pair).getD (pair, [])
  match decode_component key .Form, decode_component value .Form with
  | .ok key, .ok value => key = "mode".toList && value = "rwc".toList
  | _, _ => false

/-- The database that the text after the scheme names. -/
def SqliteDb.of_dsn_rest (rest : Str) : Except DsnReject SqliteDb :=
  let rest := (rest.dropPrefix? "//".toList).getD rest
  let (path, query) := (splitOnce '?' rest).getD (rest, [])
  if !((query.splitOn '&').filter fun pair => !pair.isEmpty).all isPinnedPair then
    .error .ConflictingParameter
  else if MAX_COMPONENT_LEN < byteLen path then .error .InvalidComponent
  else
    match decode_component path .Path with
    | .error _ => .error .InvalidComponent
    | .ok name =>
      match SqliteDb.of_name name with
      | none => .error .InvalidComponent
      | some db => .ok db

def SqliteDb.name : SqliteDb → Str
  | .Memory => SQLITE_MEMORY
  | .File name _ => name

def SqliteDb.connection_url [Lib.Percent.Library] : SqliteDb → Str
  | .Memory => "sqlite:".toList ++ SQLITE_MEMORY
  | .File name _ => "sqlite://".toList ++ utf8_percent_encode SQLITE_PATH name ++ "?mode=rwc".toList

/-- A password is held beside the user name it belongs to. -/
structure Credentials where
  user : DsnPart
  password : Option Str
  ok : ∀ p ∈ password, p ≠ [] ∧ byteLen p ≤ MAX_COMPONENT_LEN

def Credentials.of_parts (user : Option DsnPart) (password : Str) : Except DsnReject (Option Credentials) :=
  if h : MAX_COMPONENT_LEN < byteLen password then .error .InvalidComponent
  else
    match user with
    | none => if password = [] then .ok none else .error .PasswordWithoutUser
    | some user =>
      if hempty : password = [] then .ok (some ⟨user, none, by simp⟩)
      else .ok (some ⟨user, some password, fun _ hp => by cases hp; exact ⟨hempty, not_lt.1 h⟩⟩)

/-- A host that is not part of the credentials. -/
structure DsnHost where
  text : Str
  deriving DecidableEq

def DsnHost.none : DsnHost := ⟨[]⟩

def DsnHost.of_url (url : Url) : Option DsnHost :=
  match url.host with
  | some host => if host.isEmpty then Option.none else some ⟨host⟩
  | Option.none => Option.none

/-- A host that is given as a part, in the form the reader of hosts writes it. -/
def DsnHost.of_part (u : UrlCrate) (host : Str) : Option DsnHost :=
  if host.any fun c => c ∈ ['@', '/', '?', '#', '\\', '%'] then Option.none
  else (u.host host).map .mk

inductive DsnTarget
  | Postgres (database : DsnPart)
  | Sqlite (db : SqliteDb)
  deriving DecidableEq

structure Dsn where
  target : DsnTarget
  host : DsnHost
  port : UInt16
  credentials : Option Credentials
  tls : TlsMode

/-! ### From a text -/

/-- The user name and the password may run past the authority of the URL. -/
def userinfo_is_ambiguous (raw : Str) (parsed : Url) : Bool :=
  '\\' ∈ raw || '@' ∈ parsed.path || parsed.fragment.any ('@' ∈ ·) || parsed.query.any ('@' ∈ ·)

/-- The mode of transport after one more pair of a query. -/
def tlsPair (chosen : Option TlsMode) (pair : Str × Str) : Except DsnReject (Option TlsMode) :=
  if pair.1 = "password".toList ∨ pair.1 = "user".toList ∨ pair.1 = "username".toList then
    .error .ConflictingParameter
  else if pair.1 = "sslmode".toList then
    match parse_sslmode pair.2 with
    | .error r => .error r
    | .ok mode =>
      match chosen with
      | some prev => if prev ≠ mode then .error .ConflictingParameter else .ok (some mode)
      | none => .ok (some mode)
  else .ok chosen

def tls_from_query (u : UrlCrate) (url : Url) : Except DsnReject TlsMode :=
  match (u.query_pairs (url.query.getD [])).foldlM tlsPair none with
  | .error r => .error r
  | .ok chosen => .ok (chosen.getD .Require)

/-- What a URL connects to: the host, the port, the target and the mode of transport. -/
def targetOfUrl (u : UrlCrate) (s : Str) (parsed : Url) :
    Except DsnReject (DsnHost × UInt16 × DsnTarget × TlsMode) :=
  if driver_is_postgres parsed.scheme then
    if userinfo_is_ambiguous s parsed then .error .AmbiguousUserinfo
    else
      match tls_from_query u parsed with
      | .error r => .error r
      | .ok tls =>
        match DsnHost.of_url parsed with
        | none => .error .MissingHost
        | some host =>
          if !component_ok host.text then .error .InvalidComponent
          else
            match DsnPart.of_encoded (parsed.path.dropWhile (· == '/')) with
            | none => .error .InvalidComponent
            | some database => .ok (host, parsed.port.getD 5432, .Postgres database, tls)
  else if driver_is_sqlite parsed.scheme then
    if !parsed.username.isEmpty || parsed.password.isSome then .error .ConflictingParameter
    else
      match SqliteDb.of_dsn_rest (((splitOnce ':' s).map Prod.snd).getD []) with
      | .error r => .error r
      | .ok db => .ok (.none, 0, .Sqlite db, .Require)
  else .error .UnknownDriver

/-- The user name of a URL, if it has one. -/
def userOfUrl (parsed : Url) : Except DsnReject (Option DsnPart) :=
  if parsed.username.isEmpty then .ok none
  else
    match DsnPart.of_encoded parsed.username with
    | none => .error .InvalidComponent
    | some user => .ok (some user)

/-- The credentials of a URL, decoded. -/
def credentialsOfUrl (parsed : Url) : Except DsnReject (Option Credentials) :=
  match userOfUrl parsed with
  | .error r => .error r
  | .ok user =>
    match decode_component (parsed.password.getD []) .Path with
    | .error _ => .error .InvalidComponent
    | .ok password => Credentials.of_parts user password

def parseDsn (u : UrlCrate) (s : Str) : Except DsnReject Dsn :=
  if MAX_DSN_LEN < byteLen s then .error .TooLong
  else
    match u.parse s with
    | none => .error .Unparseable
    | some parsed =>
      match targetOfUrl u s parsed with
      | .error r => .error r
      | .ok (host, port, target, tls) =>
        match credentialsOfUrl parsed with
        | .error r => .error r
        | .ok credentials => .ok ⟨target, host, port, credentials, tls⟩

def dsn_parse (u : UrlCrate) (s : Str) : Except Str Dsn := (parseDsn u s).mapError DsnReject.message

/-! ### From parts -/

def DsnDriver.of_tag (driver_tag : ℤ) : Option DsnDriver :=
  if driver_tag = 0 then some .Postgres else if driver_tag = 1 then some .Sqlite else none

def TlsMode.of_tag (tls_tag : ℤ) : Option TlsMode :=
  if tls_tag = 0 then some .Require
  else if tls_tag = 1 then some .Prefer
  else if tls_tag = 2 then some .Disable
  else none

/-- The port of a descriptor: none for SQLite, and one of 16 bits that is not 0 for PostgreSQL. -/
def portOfParts (driver : DsnDriver) (port : ℤ) : Except DsnReject UInt16 :=
  match driver with
  | .Sqlite => .ok 0
  | .Postgres => if 1 ≤ port ∧ port < 2 ^ 16 then .ok (UInt16.ofNat port.toNat) else .error .InvalidPort

def hostOfParts (u : UrlCrate) (driver : DsnDriver) (host : Str) : Except DsnReject DsnHost :=
  match driver with
  | .Postgres =>
    if !component_ok host then .error .InvalidComponent
    else
      match DsnHost.of_part u host with
      | none => .error .InvalidComponent
      | some host => .ok host
  | .Sqlite => if !host.isEmpty then .error .InvalidComponent else .ok .none

def targetOfParts (driver : DsnDriver) (database : Str) : Option DsnTarget :=
  match driver with
  | .Postgres => (DsnPart.of_text database).map .Postgres
  | .Sqlite => (SqliteDb.of_name database).map .Sqlite

def userOfParts (user : Str) : Except DsnReject (Option DsnPart) :=
  if user.isEmpty then .ok none
  else
    match DsnPart.of_text user with
    | none => .error .InvalidComponent
    | some user => .ok (some user)

/-- The credentials of the parts, which SQLite has none of. -/
def credentialsOfParts (driver : DsnDriver) (user password : Str) : Except DsnReject (Option Credentials) :=
  match userOfParts user with
  | .error r => .error r
  | .ok user =>
    match Credentials.of_parts user password with
    | .error r => .error r
    | .ok credentials =>
      if driver = .Sqlite ∧ credentials.isSome then .error .InvalidComponent else .ok credentials

def buildDsn (u : UrlCrate) (driver_tag : ℤ) (host : Str) (port : ℤ) (database user password : Str)
    (tls_tag : ℤ) : Except DsnReject Dsn :=
  match DsnDriver.of_tag driver_tag with
  | none => .error .UnknownDriver
  | some driver =>
    match TlsMode.of_tag tls_tag with
    | none => .error .UnknownSslMode
    | some tls =>
      if tls = .Disable then .error .TlsDisabled
      else
        match portOfParts driver port with
        | .error r => .error r
        | .ok port =>
          match hostOfParts u driver host with
          | .error r => .error r
          | .ok host =>
            match targetOfParts driver database with
            | none => .error .InvalidComponent
            | some target =>
              match credentialsOfParts driver user password with
              | .error r => .error r
              | .ok credentials => .ok ⟨target, host, port, credentials, tls⟩

def dsn_build (u : UrlCrate) (driver_tag : ℤ) (host : Str) (port : ℤ) (database user password : Str)
    (tls_tag : ℤ) : Except Str Dsn :=
  (buildDsn u driver_tag host port database user password tls_tag).mapError DsnReject.message

/-! ### Parts -/

namespace Dsn

def driver (d : Dsn) : DsnDriver :=
  match d.target with
  | .Postgres _ => .Postgres
  | .Sqlite _ => .Sqlite

def dsn_driver (d : Dsn) : ℤ :=
  match d.driver with
  | .Postgres => 0
  | .Sqlite => 1

def dsn_host (d : Dsn) : Str := d.host.text

def dsn_port (d : Dsn) : ℤ := d.port.toNat

def dsn_database (d : Dsn) : Str :=
  match d.target with
  | .Postgres database => database.text
  | .Sqlite db => db.name

def dsn_user (d : Dsn) : Str :=
  match d.credentials with
  | none => []
  | some credentials => credentials.user.text

/-- The password, revealed. -/
def password (d : Dsn) : Str := (d.credentials.bind Credentials.password).getD []

def dsn_tls (d : Dsn) : ℤ :=
  match d.tls with
  | .Require => 0
  | .Prefer => 1
  | .Disable => 2

/-! ### The URL that is dialled -/

def sslmode (d : Dsn) : Str :=
  match d.tls with
  | .Require => "require".toList
  | .Prefer => "prefer".toList
  | .Disable => "require".toList

end Dsn

/-- A user name and a password, as they stand before a host. -/
def userinfoText : Option (Str × Option Str) → Str
  | none => []
  | some (user, none) => user ++ ['@']
  | some (user, some password) => user ++ ':' :: password ++ ['@']

/-- The credentials, encoded. -/
def Credentials.encoded [Lib.Percent.Library] (c : Credentials) : Str × Option Str :=
  (percent_encode c.user.text, c.password.map percent_encode)

def Dsn.connection_url [Lib.Percent.Library] (d : Dsn) : Str :=
  match d.target with
  | .Sqlite db => db.connection_url
  | .Postgres database =>
    "postgres://".toList ++ userinfoText (d.credentials.map Credentials.encoded) ++ d.host.text ++
      ':' :: decimal d.port.toNat ++ '/' :: percent_encode database.text ++
      '?' :: ("sslmode=".toList ++ d.sslmode)

/-! ### What is relied on of the reader of URLs and of the driver -/

/-- The characters of a component that is encoded with its letters and digits only. -/
def isEscapedChar (c : Char) : Bool := c.isAlphanum || c == '%'

def Escaped (s : Str) : Prop := s ≠ [] ∧ ∀ c ∈ s, isEscapedChar c = true

/-- A segment of one or two dots, each as it is or encoded: it stands for the path or for the one above. -/
def isDotSegment (s : Str) : Bool := percent_decode (utf8 s) ∈ [[46], [46, 46]]

/-- How URLs are read. -/
structure Whatwg (u : UrlCrate) : Prop where
  /-- The components stand between their delimiters, and a dot segment is removed. -/
  postgres : ∀ (userinfo : Option (Str × Option Str)) (host : Str) (port : UInt16) (path query : Str),
    (∀ p ∈ userinfo, Escaped p.1 ∧ ∀ password ∈ p.2, Escaped password) → u.host host = some host →
      Escaped path → (∀ c ∈ query, c.isAlphanum = true ∨ c = '=') →
        u.parse ("postgres://".toList ++ userinfoText userinfo ++ host ++ ':' :: decimal port.toNat ++
            '/' :: path ++ '?' :: query) =
          some
            { scheme := "postgres".toList
              username := (userinfo.map Prod.fst).getD []
              password := userinfo.bind Prod.snd
              host := some host
              port := some port
              path := if isDotSegment path then ['/'] else '/' :: path
              query := some query
              fragment := none }
  /-- Without an `@` there are no credentials. -/
  sqlite : ∀ path : Str, (∀ c ∈ path, isEscapedChar c = true ∨ c ∈ ['/', '.', '-', '_', '~']) →
    ∃ url, u.parse ("sqlite://".toList ++ path ++ "?mode=rwc".toList) = some url ∧
      url.scheme = "sqlite".toList ∧ url.username = [] ∧ url.password = none
  memory : ∃ url, u.parse "sqlite::memory:".toList = some url ∧
    url.scheme = "sqlite".toList ∧ url.username = [] ∧ url.password = none
  query_pairs : ∀ value : Str, (∀ c ∈ value, c.isAlphanum = true) →
    u.query_pairs ("sslmode=".toList ++ value) = [("sslmode".toList, value)]

/-- What is opened for a connection URL of SQLite. -/
inductive Opened
  | InMemory
  | Named (name : Str)
  deriving DecidableEq

/-- The driver of SQLite, which reads a connection URL on its own. -/
structure SqliteDriver where
  opened : Str → Option Opened

def SqliteDb.opened : SqliteDb → Opened
  | .Memory => .InMemory
  | .File name _ => .Named name

/-- What the driver reads: the path up to the query, decoded. -/
structure Opens (drv : SqliteDriver) : Prop where
  memory : drv.opened "sqlite::memory:".toList = some .InMemory
  file : ∀ path name : Str, (∀ c ∈ path, isEscapedChar c = true ∨ c ∈ ['/', '.', '-', '_', '~']) →
    ofUtf8 (percent_decode (utf8 path)) = some name →
      drv.opened ("sqlite://".toList ++ path ++ "?mode=rwc".toList) = some (.Named name)

/-! ### Encoded components -/

theorem plain_isAlphanumeric : Lib.Percent.Plain isAlphanumeric where
  lt := by
    intro b hb
    unfold isAlphanumeric at hb
    simp only [Bool.or_eq_true, Bool.and_eq_true, decide_eq_true_eq, UInt8.le_iff_toNat_le] at hb
    simp at hb
    omega
  percent := by decide
  plus := by decide

theorem plain_SQLITE_PATH : Lib.Percent.Plain SQLITE_PATH where
  lt := by
    intro b hb
    unfold SQLITE_PATH at hb
    simp only [Bool.or_eq_true, beq_iff_eq] at hb
    rcases hb with ((((hb | rfl) | rfl) | rfl) | rfl) | rfl
    · exact plain_isAlphanumeric.lt b hb
    all_goals decide
  percent := by decide
  plus := by decide

theorem percent_encode_eq [Lib.Percent.Library] (text : Str) :
    percent_encode text = encode isAlphanumeric (utf8 text) :=
  Lib.Percent.utf8_percent_encode_eq plain_isAlphanumeric text

theorem SqliteDb.connection_url_file [Lib.Percent.Library] {name : Str}
    (ok : text_ok name = true ∧ ¬"file:".toList <+: name ∧ name ≠ SQLITE_MEMORY) :
    (SqliteDb.File name ok).connection_url =
      "sqlite://".toList ++ encode SQLITE_PATH (utf8 name) ++ "?mode=rwc".toList :=
  congrArg (fun path => "sqlite://".toList ++ path ++ "?mode=rwc".toList)
    (Lib.Percent.utf8_percent_encode_eq plain_SQLITE_PATH name)

theorem isAlphanum_hexDigit {n : ℕ} (h : n < 16) : (Lib.Percent.hexDigit n).isAlphanum = true := by
  interval_cases n <;> decide

theorem isAlphanum_plain :
    ∀ n : Fin 128, isAlphanumeric (UInt8.ofNat n) = true → (Char.ofNat n).isAlphanum = true := by decide

/-- What an encoded byte is written with: letters, digits and `%`, or a byte that stands for itself. -/
theorem mem_encodeByte {plain : UInt8 → Bool} (hplain : Lib.Percent.Plain plain) {b : UInt8} {c : Char}
    (h : c ∈ Lib.Percent.encodeByte plain b) :
    isEscapedChar c = true ∨ plain b = true ∧ isAlphanumeric b = false ∧ c = Char.ofNat b.toNat := by
  have hb : b.toNat < 256 := b.toNat_lt
  unfold Lib.Percent.encodeByte at h
  unfold isEscapedChar
  split_ifs at h with hp
  · obtain rfl := List.mem_singleton.1 h
    cases halnum : isAlphanumeric b with
    | true =>
      have hlt := hplain.lt b hp
      left
      rw [isAlphanum_plain ⟨b.toNat, hlt⟩ (by rwa [UInt8.ofNat_toNat]), Bool.true_or]
    | false => exact .inr ⟨hp, rfl, rfl⟩
  · left
    simp only [List.mem_cons, List.not_mem_nil, or_false] at h
    rcases h with rfl | rfl | rfl
    · decide
    · rw [isAlphanum_hexDigit (by omega), Bool.true_or]
    · rw [isAlphanum_hexDigit (by omega), Bool.true_or]

theorem escaped_percent_encode [Lib.Percent.Library] {text : Str} (h : text ≠ []) :
    Escaped (percent_encode text) := by
  rw [percent_encode_eq]
  refine ⟨Lib.Percent.encode_ne_nil h, fun c hc => ?_⟩
  obtain ⟨b, -, hb⟩ := List.mem_flatMap.1 hc
  rcases mem_encodeByte plain_isAlphanumeric hb with hescaped | ⟨hplain, hnot, -⟩
  · exact hescaped
  · rw [hplain] at hnot
    cases hnot

theorem mem_encode_SQLITE_PATH {text : Str} {c : Char} (h : c ∈ encode SQLITE_PATH (utf8 text)) :
    isEscapedChar c = true ∨ c ∈ ['/', '.', '-', '_', '~'] := by
  obtain ⟨b, -, hb⟩ := List.mem_flatMap.1 h
  refine (mem_encodeByte plain_SQLITE_PATH hb).imp_right ?_
  rintro ⟨hplain, hnot, rfl⟩
  unfold SQLITE_PATH at hplain
  rw [hnot] at hplain
  simp only [Bool.false_or, Bool.or_eq_true, beq_iff_eq] at hplain
  rcases hplain with (((rfl | rfl) | rfl) | rfl) | rfl <;> decide

/-- What was encoded is read back. -/
theorem decode_component_encode {plain : UInt8 → Bool} (hplain : Lib.Percent.Plain plain) {text : Str}
    (hlen : byteLen (encode plain (utf8 text)) ≤ Encoding.MAX_URL_COMPONENT_LEN) (grammar : UrlGrammar) :
    decode_component (encode plain (utf8 text)) grammar = .ok text := by
  unfold decode_component Encoding.decode_component_within
  rw [if_neg (not_lt.2 hlen), Lib.Percent.decode_utf8_encode hplain]
  dsimp only
  rw [Lib.Percent.ofUtf8_utf8]

/-! ### Lengths -/

/-- The length of a text once it is encoded: three for a byte that does not stand for itself. -/
def encodedLen (plain : UInt8 → Bool) (text : Str) : ℕ :=
  ((utf8 text).map fun b => if plain b then 1 else 3).sum

theorem byteLen_append (s t : Str) : byteLen (s ++ t) = byteLen s + byteLen t := by
  unfold byteLen
  rw [Lib.Percent.utf8_append, List.length_append]

theorem byteLen_ascii {s : Str} (h : ∀ c ∈ s, c.val < 128) : byteLen s = s.length := by
  unfold byteLen
  rw [Lib.Percent.utf8_ascii h, List.length_map]

theorem byteLen_encode {plain : UInt8 → Bool} (hplain : Lib.Percent.Plain plain) (text : Str) :
    byteLen (encode plain (utf8 text)) = encodedLen plain text := by
  rw [byteLen_ascii (Lib.Percent.ascii_encode hplain _), encode, encodedLen, List.length_flatMap]
  congr 1
  refine List.map_congr_left fun b _ => ?_
  unfold Lib.Percent.encodeByte
  split_ifs <;> rfl

/-! ### The driver of SQLite -/

/-- The driver opens what is held. -/
theorem Opens.opened_connection_url [Lib.Percent.Library] {drv : SqliteDriver} (o : Opens drv) (db : SqliteDb) :
    drv.opened db.connection_url = some db.opened := by
  cases db with
  | Memory => exact o.memory
  | File name ok =>
    rw [SqliteDb.connection_url_file]
    refine o.file _ _ (fun c hc => mem_encode_SQLITE_PATH hc) ?_
    rw [Lib.Percent.percent_decode_of_decode (Lib.Percent.decode_utf8_encode plain_SQLITE_PATH false 0 _),
      Lib.Percent.ofUtf8_utf8]

/-! ### Reading a connection URL of SQLite -/

theorem SqliteDb.of_name_name (db : SqliteDb) : SqliteDb.of_name db.name = some db := by
  cases db with
  | Memory => rfl
  | File name ok =>
    unfold SqliteDb.of_name SqliteDb.name
    rw [dif_pos ⟨ok.1, ok.2.1⟩, dif_neg ok.2.2]

theorem byteLen_le_of_text_ok {s : Str} (h : text_ok s = true) : byteLen s ≤ MAX_COMPONENT_LEN := by
  unfold text_ok at h
  simp only [Bool.and_eq_true, decide_eq_true_eq] at h
  exact h.1.2

theorem ne_nil_of_text_ok {s : Str} (h : text_ok s = true) : s ≠ [] := by
  rintro rfl
  cases h

/-- A file is read back from its connection URL unless its encoded name is too long. -/
theorem of_dsn_rest_file (name : Str)
    (ok : text_ok name = true ∧ ¬"file:".toList <+: name ∧ name ≠ SQLITE_MEMORY) :
    SqliteDb.of_dsn_rest ("//".toList ++ encode SQLITE_PATH (utf8 name) ++ "?mode=rwc".toList) =
      if MAX_COMPONENT_LEN < encodedLen SQLITE_PATH name then .error .InvalidComponent else .ok (.File name ok) := by
  have hquestion : '?' ∉ encode SQLITE_PATH (utf8 name) := fun hmem =>
    absurd (mem_encode_SQLITE_PATH hmem) (by decide)
  have hdrop : (("//".toList ++ encode SQLITE_PATH (utf8 name) ++ "?mode=rwc".toList).dropPrefix?
      "//".toList).getD ("//".toList ++ encode SQLITE_PATH (utf8 name) ++ "?mode=rwc".toList) =
        encode SQLITE_PATH (utf8 name) ++ '?' :: "mode=rwc".toList := by
    rw [List.append_assoc, List.dropPrefix?_append_of_beq _ (by decide), Option.getD_some]
    rfl
  have hpinned : (!(("mode=rwc".toList.splitOn '&').filter fun pair => !pair.isEmpty).all isPinnedPair) = false := by
    decide +kernel
  unfold SqliteDb.of_dsn_rest
  dsimp only
  rw [hdrop, Lib.splitOnce_append hquestion, Option.getD_some]
  dsimp only
  rw [hpinned, if_neg Bool.false_ne_true, byteLen_encode plain_SQLITE_PATH]
  by_cases hlen : MAX_COMPONENT_LEN < encodedLen SQLITE_PATH name
  · rw [if_pos hlen, if_pos hlen]
  · have hbound : byteLen (encode SQLITE_PATH (utf8 name)) ≤ Encoding.MAX_URL_COMPONENT_LEN := by
      rw [byteLen_encode plain_SQLITE_PATH]
      exact (not_lt.1 hlen).trans (by decide)
    rw [if_neg hlen, if_neg hlen, decode_component_encode plain_SQLITE_PATH hbound]
    dsimp only
    rw [show SqliteDb.of_name name = some (.File name ok) from SqliteDb.of_name_name (.File name ok)]

variable {u : UrlCrate}

/-- The descriptor of a database of SQLite that was read from a text. -/
def Dsn.ofSqlite (db : SqliteDb) : Dsn := ⟨.Sqlite db, .none, 0, none, .Require⟩

theorem credentialsOfUrl_none {url : Url} (huser : url.username = []) (hpassword : url.password = none) :
    credentialsOfUrl url = .ok none := by
  have hdecode : decode_component [] .Path = .ok [] := by decide +kernel
  unfold credentialsOfUrl userOfUrl
  rw [huser, hpassword, if_pos (by rfl), Option.getD_none, hdecode]
  rfl

theorem parseDsn_sqlite {s : Str} {url : Url} (hlen : byteLen s ≤ MAX_DSN_LEN) (hparse : u.parse s = some url)
    (hscheme : url.scheme = "sqlite".toList) (huser : url.username = []) (hpassword : url.password = none) :
    parseDsn u s = (SqliteDb.of_dsn_rest (((splitOnce ':' s).map Prod.snd).getD [])).map Dsn.ofSqlite := by
  unfold parseDsn
  rw [if_neg (not_lt.2 hlen), hparse]
  dsimp only
  rw [credentialsOfUrl_none huser hpassword]
  unfold targetOfUrl
  rw [hscheme, huser, hpassword, if_neg (by decide), if_pos (by decide), if_neg (by decide)]
  cases SqliteDb.of_dsn_rest (((splitOnce ':' s).map Prod.snd).getD []) with
  | error r => rfl
  | ok db => rfl

theorem parseDsn_memory [Lib.Percent.Library] (w : Whatwg u) :
    parseDsn u SqliteDb.Memory.connection_url = .ok (.ofSqlite .Memory) := by
  obtain ⟨url, hparse, hscheme, huser, hpassword⟩ := w.memory
  have hurl : SqliteDb.Memory.connection_url = "sqlite::memory:".toList := rfl
  have hlen : byteLen "sqlite::memory:".toList ≤ MAX_DSN_LEN := by decide +kernel
  have hrest : SqliteDb.of_dsn_rest (((splitOnce ':' "sqlite::memory:".toList).map Prod.snd).getD []) =
      .ok .Memory := by
    decide +kernel
  rw [hurl, parseDsn_sqlite hlen hparse hscheme huser hpassword, hrest]
  rfl

theorem byteLen_file_url [Lib.Percent.Library] (name : Str)
    (ok : text_ok name = true ∧ ¬"file:".toList <+: name ∧ name ≠ SQLITE_MEMORY) :
    byteLen (SqliteDb.File name ok).connection_url = encodedLen SQLITE_PATH name + 18 := by
  have hscheme : byteLen "sqlite://".toList = 9 := by decide +kernel
  have hquery : byteLen "?mode=rwc".toList = 9 := by decide +kernel
  rw [SqliteDb.connection_url_file, byteLen_append, byteLen_append, byteLen_encode plain_SQLITE_PATH, hscheme,
    hquery]
  omega

theorem encodedLen_le (plain : UInt8 → Bool) (text : Str) : encodedLen plain text ≤ 3 * byteLen text := by
  unfold encodedLen byteLen
  induction utf8 text with
  | nil => exact le_rfl
  | cons b bytes ih =>
    rw [List.map_cons, List.sum_cons, List.length_cons]
    split_ifs <;> omega

/-- A file is read back from its connection URL unless its encoded name is too long. -/
theorem parseDsn_file [Lib.Percent.Library] (w : Whatwg u) (name : Str)
    (ok : text_ok name = true ∧ ¬"file:".toList <+: name ∧ name ≠ SQLITE_MEMORY) :
    parseDsn u (SqliteDb.File name ok).connection_url =
      if MAX_COMPONENT_LEN < encodedLen SQLITE_PATH name then .error .InvalidComponent
      else .ok (.ofSqlite (.File name ok)) := by
  obtain ⟨url, hparse, hscheme, huser, hpassword⟩ :=
    w.sqlite (encode SQLITE_PATH (utf8 name)) fun c hc => mem_encode_SQLITE_PATH hc
  have hlen : byteLen (SqliteDb.File name ok).connection_url ≤ MAX_DSN_LEN := by
    have hname := byteLen_le_of_text_ok ok.1
    have hle := encodedLen_le SQLITE_PATH name
    rw [byteLen_file_url]
    unfold MAX_COMPONENT_LEN at hname
    unfold MAX_DSN_LEN
    omega
  have hrest : ((splitOnce ':' (SqliteDb.File name ok).connection_url).map Prod.snd).getD [] =
      "//".toList ++ encode SQLITE_PATH (utf8 name) ++ "?mode=rwc".toList := by
    have hurl : (SqliteDb.File name ok).connection_url =
        "sqlite".toList ++ ':' :: ("//".toList ++ encode SQLITE_PATH (utf8 name) ++ "?mode=rwc".toList) :=
      SqliteDb.connection_url_file ok
    rw [hurl, Lib.splitOnce_append (by decide)]
    rfl
  rw [← SqliteDb.connection_url_file ok] at hparse
  rw [parseDsn_sqlite hlen hparse hscheme huser hpassword, hrest, of_dsn_rest_file]
  split_ifs <;> rfl

/-! ### What the seals leave out -/

/-- A descriptor does not give up the security of the transport, and one of SQLite has a database only. -/
structure Sealed (d : Dsn) : Prop where
  tls : d.tls ≠ .Disable
  sqlite : ∀ db, d.target = .Sqlite db → d.host = .none ∧ d.port = 0 ∧ d.credentials = none

theorem parse_sslmode_ne_disable {token : Str} {mode : TlsMode} (h : parse_sslmode token = .ok mode) :
    mode ≠ .Disable := by
  unfold parse_sslmode at h
  split_ifs at h <;> cases h <;> decide

theorem tlsPair_ne_disable {chosen chosen' : Option TlsMode} {pair : Str × Str}
    (hchosen : ∀ mode ∈ chosen, mode ≠ .Disable) (h : tlsPair chosen pair = .ok chosen') :
    ∀ mode ∈ chosen', mode ≠ .Disable := by
  unfold tlsPair at h
  split_ifs at h
  · split at h
    · cases h
    · rename_i mode hmode
      have hne := parse_sslmode_ne_disable hmode
      split at h
      · split_ifs at h
        cases h
        exact fun m hm => by cases hm; exact hne
      · cases h
        exact fun m hm => by cases hm; exact hne
  · cases h
    exact hchosen

theorem foldlM_tlsPair_ne_disable {pairs : List (Str × Str)} {chosen chosen' : Option TlsMode}
    (hchosen : ∀ mode ∈ chosen, mode ≠ .Disable) (h : pairs.foldlM tlsPair chosen = .ok chosen') :
    ∀ mode ∈ chosen', mode ≠ .Disable := by
  induction pairs generalizing chosen with
  | nil => cases h; exact hchosen
  | cons pair pairs ih =>
    rw [List.foldlM_cons] at h
    cases hpair : tlsPair chosen pair with
    | error r => rw [hpair] at h; cases h
    | ok next =>
      rw [hpair] at h
      exact ih (tlsPair_ne_disable hchosen hpair) h

theorem tls_from_query_ne_disable {url : Url} {tls : TlsMode} (h : tls_from_query u url = .ok tls) :
    tls ≠ .Disable := by
  unfold tls_from_query at h
  split at h
  · cases h
  · rename_i chosen hfold
    cases h
    cases chosen with
    | none => decide
    | some mode => exact foldlM_tlsPair_ne_disable (by simp) hfold mode rfl

theorem sealed_parseDsn {s : Str} {d : Dsn} (h : parseDsn u s = .ok d) : Sealed d := by
  unfold parseDsn at h
  split_ifs at h
  split at h
  · cases h
  · rename_i parsed hparse
    split at h
    · cases h
    · rename_i host port target tls htarget
      unfold targetOfUrl at htarget
      split at h
      · cases h
      · rename_i credentials hcredentials
        cases h
        split_ifs at htarget with hpostgres hambiguous hsqlite huserinfo
        · split at htarget
          · cases htarget
          · rename_i tls htls
            split at htarget
            · cases htarget
            · rename_i host hhost
              split_ifs at htarget
              split at htarget
              · cases htarget
              · cases htarget
                exact ⟨tls_from_query_ne_disable htls, fun db hdb => by cases hdb⟩
        · split at htarget
          · cases htarget
          · rename_i db hdb
            cases htarget
            simp only [Bool.or_eq_true, Bool.not_eq_true', Option.isSome_iff_ne_none, ne_eq, not_or,
              Bool.not_eq_false, List.isEmpty_iff, not_not] at huserinfo
            rw [credentialsOfUrl_none huserinfo.1 huserinfo.2] at hcredentials
            cases hcredentials
            exact ⟨fun htls => (by cases htls), fun _ _ => ⟨rfl, rfl, rfl⟩⟩

theorem sealed_buildDsn {driver_tag port tls_tag : ℤ} {host database user password : Str} {d : Dsn}
    (h : buildDsn u driver_tag host port database user password tls_tag = .ok d) : Sealed d := by
  unfold buildDsn at h
  split at h
  · cases h
  · rename_i driver hdriver
    split at h
    · cases h
    · rename_i tls htls
      split_ifs at h with hdisable
      split at h
      · cases h
      · rename_i port16 hport
        split at h
        · cases h
        · rename_i host' hhost
          split at h
          · cases h
          · rename_i target htarget
            split at h
            · cases h
            · rename_i credentials hcredentials
              cases h
              refine ⟨hdisable, fun db hdb => ?_⟩
              cases driver with
              | Postgres =>
                unfold targetOfParts at htarget
                obtain ⟨part, -, rfl⟩ := Option.map_eq_some_iff.1 htarget
                cases hdb
              | Sqlite =>
                refine ⟨?_, ?_, ?_⟩
                · change (if !host.isEmpty then Except.error DsnReject.InvalidComponent else Except.ok DsnHost.none) = _ at hhost
                  split_ifs at hhost
                  cases hhost
                  rfl
                · cases hport
                  rfl
                · unfold credentialsOfParts at hcredentials
                  split at hcredentials
                  · cases hcredentials
                  · split at hcredentials
                    · cases hcredentials
                    · split_ifs at hcredentials with hsome
                      cases hcredentials
                      exact Option.not_isSome_iff_eq_none.1 fun his => hsome ⟨rfl, his⟩

/-! ### Building a descriptor again -/

@[simp] theorem DsnPart.of_text_text (part : DsnPart) : DsnPart.of_text part.text = some part := dif_pos part.ok

@[simp] theorem TlsMode.of_tag_dsn_tls (d : Dsn) : TlsMode.of_tag d.dsn_tls = some d.tls := by
  unfold Dsn.dsn_tls
  cases d.tls <;> rfl

/-- The credentials that are held are admitted. -/
theorem of_parts_credentials (c : Credentials) :
    Credentials.of_parts (some c.user) (c.password.getD []) = .ok (some c) := by
  obtain ⟨user, password, ok⟩ := c
  cases password with
  | none => rfl
  | some password =>
    obtain ⟨hne, hlen⟩ := ok password rfl
    unfold Credentials.of_parts
    dsimp only
    rw [Option.getD_some, dif_neg (not_lt.2 hlen), dif_neg hne]

theorem credentialsOfParts_postgres (d : Dsn) :
    credentialsOfParts .Postgres d.dsn_user d.password = .ok d.credentials := by
  unfold credentialsOfParts Dsn.dsn_user Dsn.password
  cases d.credentials with
  | none => rfl
  | some c =>
    have huser : userOfParts c.user.text = .ok (some c.user) := by
      unfold userOfParts
      rw [if_neg fun hempty => ne_nil_of_text_ok c.user.ok (List.isEmpty_iff.1 hempty), DsnPart.of_text_text]
    dsimp only
    rw [huser, Option.bind_some]
    dsimp only
    rw [of_parts_credentials]
    rfl

theorem buildDsn_sqlite {d : Dsn} {db : SqliteDb} (hsealed : Sealed d) (htarget : d.target = .Sqlite db) :
    buildDsn u d.dsn_driver d.dsn_host d.dsn_port d.dsn_database d.dsn_user d.password d.dsn_tls = .ok d := by
  obtain ⟨hhost, hport, hcredentials⟩ := hsealed.sqlite db htarget
  have hdriver : d.dsn_driver = 1 := by
    unfold Dsn.dsn_driver Dsn.driver
    rw [htarget]
  have hname : d.dsn_database = db.name := by
    unfold Dsn.dsn_database
    rw [htarget]
  have hnone : credentialsOfParts .Sqlite d.dsn_user d.password = .ok none := by
    unfold Dsn.dsn_user Dsn.password
    rw [hcredentials]
    rfl
  have hempty : hostOfParts u .Sqlite d.dsn_host = .ok .none := by
    unfold Dsn.dsn_host
    rw [hhost]
    rfl
  unfold buildDsn
  rw [hdriver, show DsnDriver.of_tag 1 = some .Sqlite from rfl, TlsMode.of_tag_dsn_tls]
  dsimp only
  rw [if_neg hsealed.tls, show portOfParts .Sqlite d.dsn_port = .ok 0 from rfl, hempty, hname]
  unfold targetOfParts
  dsimp only
  rw [SqliteDb.of_name_name, hnone, ← hcredentials, ← hport, ← hhost]
  dsimp only [Option.map]
  rw [← htarget]

theorem portOfParts_dsn_port (d : Dsn) :
    portOfParts .Postgres d.dsn_port = if d.port = 0 then .error .InvalidPort else .ok d.port := by
  have hlt : d.port.toNat < 2 ^ 16 := d.port.toNat_lt
  unfold portOfParts Dsn.dsn_port
  dsimp only
  by_cases hzero : d.port = 0
  · rw [if_pos hzero, if_neg]
    rw [hzero]
    decide
  · have hpos : d.port.toNat ≠ 0 := fun h => hzero (UInt16.toNat_inj.1 h)
    rw [if_neg hzero, if_pos (by omega), Int.toNat_natCast, UInt16.ofNat_toNat]

/-- A descriptor of PostgreSQL is built again where its port and its host are admitted, and its host is
in the form that hosts are written in. -/
theorem buildDsn_postgres_iff {d : Dsn} {database : DsnPart} (hsealed : Sealed d)
    (htarget : d.target = .Postgres database) :
    buildDsn u d.dsn_driver d.dsn_host d.dsn_port d.dsn_database d.dsn_user d.password d.dsn_tls = .ok d ↔
      d.port ≠ 0 ∧ component_ok d.host.text = true ∧ DsnHost.of_part u d.host.text = some d.host := by
  have hdriver : d.dsn_driver = 0 := by
    unfold Dsn.dsn_driver Dsn.driver
    rw [htarget]
  have hname : d.dsn_database = database.text := by
    unfold Dsn.dsn_database
    rw [htarget]
  have hbuild : buildDsn u d.dsn_driver d.dsn_host d.dsn_port d.dsn_database d.dsn_user d.password d.dsn_tls =
      match portOfParts .Postgres d.dsn_port with
      | .error r => .error r
      | .ok port =>
        match hostOfParts u .Postgres d.host.text with
        | .error r => .error r
        | .ok host => .ok ⟨d.target, host, port, d.credentials, d.tls⟩ := by
    unfold buildDsn
    rw [hdriver, show DsnDriver.of_tag 0 = some .Postgres from rfl, TlsMode.of_tag_dsn_tls]
    dsimp only
    rw [if_neg hsealed.tls, hname, credentialsOfParts_postgres, htarget]
    unfold targetOfParts
    dsimp only
    rw [DsnPart.of_text_text]
    rfl
  rw [hbuild, portOfParts_dsn_port]
  unfold hostOfParts
  dsimp only
  by_cases hzero : d.port = 0
  · rw [if_pos hzero]
    exact ⟨fun h => (by cases h), fun h => absurd hzero h.1⟩
  · rw [if_neg hzero]
    dsimp only
    cases hok : component_ok d.host.text with
    | false => exact ⟨fun h => (by cases h), fun h => (by cases h.2.1)⟩
    | true =>
      cases hpart : DsnHost.of_part u d.host.text with
      | none => exact ⟨fun h => (by cases h), fun h => (by cases h.2.2)⟩
      | some host =>
        rw [if_neg (by decide)]
        dsimp only
        constructor
        · intro h
          refine ⟨hzero, rfl, ?_⟩
          rw [← Except.ok.inj h]
        · rintro ⟨-, -, h⟩
          rw [Option.some.inj h]

/-! ### Reading a connection URL of PostgreSQL -/

theorem byteLen_percent_encode_le [Lib.Percent.Library] {text : Str} (h : byteLen text ≤ MAX_COMPONENT_LEN) :
    byteLen (percent_encode text) ≤ Encoding.MAX_URL_COMPONENT_LEN := by
  have hle := encodedLen_le isAlphanumeric text
  rw [percent_encode_eq, byteLen_encode plain_isAlphanumeric]
  unfold MAX_COMPONENT_LEN at h
  unfold Encoding.MAX_URL_COMPONENT_LEN
  omega

theorem decode_percent_encode [Lib.Percent.Library] {text : Str} (h : byteLen text ≤ MAX_COMPONENT_LEN) :
    decode_component (percent_encode text) .Path = .ok text := by
  have hlen := byteLen_percent_encode_le h
  rw [percent_encode_eq] at hlen ⊢
  exact decode_component_encode plain_isAlphanumeric hlen .Path

theorem of_encoded_percent_encode [Lib.Percent.Library] (part : DsnPart) :
    DsnPart.of_encoded (percent_encode part.text) = some part := by
  unfold DsnPart.of_encoded
  rw [decode_percent_encode (byteLen_le_of_text_ok part.ok)]
  exact part.of_text_text

theorem isDotSegment_percent_encode [Lib.Percent.Library] (text : Str) :
    isDotSegment (percent_encode text) = true ↔ text = ".".toList ∨ text = "..".toList := by
  have hinj : ∀ t : Str, utf8 text = utf8 t ↔ text = t := by
    refine fun t => ⟨fun h => ?_, fun h => h ▸ rfl⟩
    have hof : ofUtf8 (utf8 text) = ofUtf8 (utf8 t) := congrArg ofUtf8 h
    rw [Lib.Percent.ofUtf8_utf8, Lib.Percent.ofUtf8_utf8] at hof
    exact Option.some.inj hof
  unfold isDotSegment
  rw [percent_encode_eq, Lib.Percent.percent_decode_of_decode (Lib.Percent.decode_utf8_encode plain_isAlphanumeric false 0 _),
    decide_eq_true_iff, List.mem_pair, ← hinj ".".toList, ← hinj "..".toList]
  exact Iff.rfl

/-- The credentials as they stand in a connection URL are read back. -/
theorem credentialsOfUrl_encoded [Lib.Percent.Library] {credentials : Option Credentials} {url : Url}
    (huser : url.username = ((credentials.map Credentials.encoded).map Prod.fst).getD [])
    (hpassword : url.password = (credentials.map Credentials.encoded).bind Prod.snd) :
    credentialsOfUrl url = .ok credentials := by
  cases credentials with
  | none => exact credentialsOfUrl_none huser hpassword
  | some c =>
    have hname : url.username = percent_encode c.user.text := huser
    have hencoded : url.password = c.password.map percent_encode := hpassword
    have hne := (escaped_percent_encode (ne_nil_of_text_ok c.user.ok)).1
    have hof : userOfUrl url = .ok (some c.user) := by
      unfold userOfUrl
      rw [hname, if_neg fun hempty => hne (List.isEmpty_iff.1 hempty), of_encoded_percent_encode]
    have hdecode : decode_component (url.password.getD []) .Path = .ok (c.password.getD []) := by
      rw [hencoded]
      cases hp : c.password with
      | none => exact show decode_component [] .Path = .ok [] by decide +kernel
      | some password => exact decode_percent_encode (c.ok password hp).2
    unfold credentialsOfUrl
    rw [hof, hdecode]
    exact of_parts_credentials c

theorem sslmode_alnum (d : Dsn) : ∀ c ∈ d.sslmode, c.isAlphanum = true := by
  have hall : d.sslmode.all Char.isAlphanum = true := by
    unfold Dsn.sslmode
    cases d.tls <;> decide
  exact List.all_eq_true.1 hall

theorem parse_sslmode_sslmode {d : Dsn} (h : d.tls ≠ .Disable) : parse_sslmode d.sslmode = .ok d.tls := by
  unfold Dsn.sslmode
  cases htls : d.tls with
  | Require => rfl
  | Prefer => rfl
  | Disable => exact absurd htls h

theorem escaped_encoded [Lib.Percent.Library] (c : Credentials) :
    Escaped c.encoded.1 ∧ ∀ password ∈ c.encoded.2, Escaped password := by
  refine ⟨escaped_percent_encode (ne_nil_of_text_ok c.user.ok), fun password hpassword => ?_⟩
  obtain ⟨p, hp, rfl⟩ := Option.map_eq_some_iff.1 hpassword
  exact escaped_percent_encode (c.ok p hp).1

/-- The reader of URLs takes a connection URL of PostgreSQL apart. -/
theorem parse_connection_url [Lib.Percent.Library] (w : Whatwg u) {d : Dsn} {database : DsnPart}
    (htarget : d.target = .Postgres database) (hhost : u.host d.host.text = some d.host.text) :
    u.parse d.connection_url =
      some
        { scheme := "postgres".toList
          username := ((d.credentials.map Credentials.encoded).map Prod.fst).getD []
          password := (d.credentials.map Credentials.encoded).bind Prod.snd
          host := some d.host.text
          port := some d.port
          path :=
            if isDotSegment (percent_encode database.text) then ['/'] else '/' :: percent_encode database.text
          query := some ("sslmode=".toList ++ d.sslmode)
          fragment := none } := by
  unfold Dsn.connection_url
  rw [htarget]
  refine w.postgres _ _ _ _ _ (fun p hp => ?_) hhost (escaped_percent_encode (ne_nil_of_text_ok database.ok))
    fun c hc => ?_
  · obtain ⟨c, -, rfl⟩ := Option.map_eq_some_iff.1 hp
    exact escaped_encoded c
  · have hkey : ("sslmode=".toList.all fun c => c.isAlphanum || c == '=') = true := by decide
    rcases List.mem_append.1 hc with hc | hc
    · have hor := List.all_eq_true.1 hkey c hc
      rwa [Bool.or_eq_true, beq_iff_eq] at hor
    · exact .inl (sslmode_alnum d c hc)

/-- No character of a connection URL of PostgreSQL ends its authority for another reader. -/
theorem backslash_not_mem_connection_url [Lib.Percent.Library] {d : Dsn} {database : DsnPart}
    (htarget : d.target = .Postgres database) (hhost : '\\' ∉ d.host.text) : '\\' ∉ d.connection_url := by
  have hescaped : ∀ s, Escaped s → '\\' ∉ s := fun s hs hmem => absurd (hs.2 _ hmem) (by decide)
  have huserinfo : '\\' ∉ userinfoText (d.credentials.map Credentials.encoded) := by
    cases d.credentials with
    | none => exact List.not_mem_nil
    | some c =>
      obtain ⟨huser, hpassword⟩ := escaped_encoded c
      have hu := hescaped _ huser
      simp only [Option.map_some]
      cases hp : c.encoded with
      | mk user password =>
        rw [hp] at hu hpassword
        cases password with
        | none =>
          simp only [userinfoText, List.mem_append, List.mem_singleton, not_or]
          exact ⟨hu, by decide⟩
        | some password =>
          simp only [userinfoText, List.mem_append, List.mem_cons, List.not_mem_nil, or_false, not_or]
          exact ⟨⟨hu, by decide, hescaped _ (hpassword password rfl)⟩, by decide⟩
  have hport : '\\' ∉ decimal d.port.toNat := fun hmem =>
    absurd (Lib.Semver.isDigit_of_mem_decimal hmem) (by decide)
  have hdatabase := hescaped _ (escaped_percent_encode (ne_nil_of_text_ok database.ok))
  have hmode : '\\' ∉ d.sslmode := fun hmem => absurd (sslmode_alnum d _ hmem) (by decide)
  unfold Dsn.connection_url
  rw [htarget]
  simp only [List.mem_append, List.mem_cons, not_or]
  exact ⟨⟨⟨⟨⟨by decide, huserinfo⟩, hhost⟩, by decide, hport⟩, by decide, hdatabase⟩, by decide, by decide, hmode⟩

/-- The length of the credentials before a host. -/
def userinfoLen : Option Credentials → ℕ
  | none => 0
  | some c =>
    encodedLen isAlphanumeric c.user.text + 1 +
      match c.password with
      | none => 0
      | some password => encodedLen isAlphanumeric password + 1

/-- The length of a connection URL of PostgreSQL. -/
def Dsn.postgresLen (d : Dsn) (database : DsnPart) : ℕ :=
  userinfoLen d.credentials + byteLen d.host.text + (decimal d.port.toNat).length +
    encodedLen isAlphanumeric database.text + d.sslmode.length + 22

theorem byteLen_percent_encode [Lib.Percent.Library] (text : Str) :
    byteLen (percent_encode text) = encodedLen isAlphanumeric text := by
  rw [percent_encode_eq, byteLen_encode plain_isAlphanumeric]

theorem byteLen_cons {c : Char} (h : c.val < 128) (s : Str) : byteLen (c :: s) = byteLen s + 1 := by
  have hc : byteLen [c] = 1 := byteLen_ascii (List.forall_mem_singleton.2 h)
  have happend := byteLen_append [c] s
  rw [List.singleton_append, hc] at happend
  omega

theorem val_lt_of_isAlphanum {c : Char} (h : c.isAlphanum = true) : c.val < 128 := by
  unfold Char.isAlphanum Char.isAlpha Char.isUpper Char.isLower Char.isDigit at h
  simp only [Bool.or_eq_true, Bool.and_eq_true, decide_eq_true_eq, ge_iff_le, UInt32.le_iff_toNat_le] at h
  rw [UInt32.lt_iff_toNat_lt]
  simp at h ⊢
  omega

theorem byteLen_userinfo [Lib.Percent.Library] (credentials : Option Credentials) :
    byteLen (userinfoText (credentials.map Credentials.encoded)) = userinfoLen credentials := by
  cases credentials with
  | none => rfl
  | some c =>
    obtain ⟨user, password, ok⟩ := c
    have hat : byteLen ['@'] = 1 := by decide +kernel
    cases password with
    | none =>
      change byteLen (percent_encode user.text ++ ['@']) = encodedLen isAlphanumeric user.text + 1 + 0
      rw [byteLen_append, byteLen_percent_encode, hat]
    | some password =>
      change byteLen (percent_encode user.text ++ ':' :: percent_encode password ++ ['@']) =
        encodedLen isAlphanumeric user.text + 1 + (encodedLen isAlphanumeric password + 1)
      rw [byteLen_append, byteLen_append, byteLen_cons (by decide), byteLen_percent_encode,
        byteLen_percent_encode, hat]
      omega

theorem byteLen_connection_url [Lib.Percent.Library] {d : Dsn} {database : DsnPart}
    (htarget : d.target = .Postgres database) : byteLen d.connection_url = d.postgresLen database := by
  have hscheme : byteLen "postgres://".toList = 11 := by decide +kernel
  have hkey : byteLen "sslmode=".toList = 8 := by decide +kernel
  have hport : byteLen (decimal d.port.toNat) = (decimal d.port.toNat).length :=
    byteLen_ascii fun c hc => val_lt_of_isAlphanum (by
      rw [Char.isAlphanum, Lib.Semver.isDigit_of_mem_decimal hc, Bool.or_true])
  have hmode : byteLen d.sslmode = d.sslmode.length :=
    byteLen_ascii fun c hc => val_lt_of_isAlphanum (sslmode_alnum d c hc)
  unfold Dsn.connection_url Dsn.postgresLen
  rw [htarget]
  dsimp only
  rw [byteLen_append, byteLen_append, byteLen_append, byteLen_append, byteLen_append, byteLen_cons (by decide),
    byteLen_cons (by decide), byteLen_cons (by decide), byteLen_append, byteLen_userinfo, byteLen_percent_encode,
    hscheme, hkey, hport, hmode]
  omega

/-- What a URL of PostgreSQL connects to. -/
theorem targetOfUrl_postgres {s : Str} {url : Url} {tls : TlsMode} {host : DsnHost}
    (hscheme : driver_is_postgres url.scheme = true) (hambiguous : userinfo_is_ambiguous s url = false)
    (htls : tls_from_query u url = .ok tls) (hhost : DsnHost.of_url url = some host)
    (hok : component_ok host.text = true) :
    targetOfUrl u s url =
      match DsnPart.of_encoded (url.path.dropWhile (· == '/')) with
      | none => .error .InvalidComponent
      | some database => .ok (host, url.port.getD 5432, .Postgres database, tls) := by
  unfold targetOfUrl
  rw [if_pos hscheme, hambiguous, if_neg Bool.false_ne_true, htls]
  dsimp only
  rw [hhost]
  dsimp only
  rw [hok]
  rfl

/-- The mode of transport is read back. -/
theorem tls_from_query_sslmode (w : Whatwg u) {d : Dsn} (htls : d.tls ≠ .Disable) {url : Url}
    (hquery : url.query = some ("sslmode=".toList ++ d.sslmode)) : tls_from_query u url = .ok d.tls := by
  have hpair : tlsPair none ("sslmode".toList, d.sslmode) = .ok (some d.tls) := by
    unfold tlsPair
    dsimp only
    rw [if_neg (by decide), if_pos rfl, parse_sslmode_sslmode htls]
  unfold tls_from_query
  rw [hquery, Option.getD_some, w.query_pairs d.sslmode (sslmode_alnum d), List.foldlM_cons, hpair]
  rfl

/-- The name of a database is read back from a path, unless it is a dot segment. -/
theorem of_encoded_path [Lib.Percent.Library] (database : DsnPart) :
    DsnPart.of_encoded ((if isDotSegment (percent_encode database.text) then ['/']
        else '/' :: percent_encode database.text).dropWhile (· == '/')) =
      if database.text = ".".toList ∨ database.text = "..".toList then none else some database := by
  have hescaped := escaped_percent_encode (ne_nil_of_text_ok database.ok)
  have hdrop : (percent_encode database.text).dropWhile (· == '/') = percent_encode database.text := by
    cases hencode : percent_encode database.text with
    | nil => rfl
    | cons c s =>
      refine List.dropWhile_cons_of_neg ?_
      rw [beq_iff_eq]
      rintro rfl
      exact absurd (hescaped.2 '/' (hencode ▸ List.mem_cons_self)) (by decide)
  have hslash : ∀ s : Str, ('/' :: s).dropWhile (· == '/') = s.dropWhile (· == '/') := fun s => rfl
  by_cases hdots : database.text = ".".toList ∨ database.text = "..".toList
  · rw [if_pos hdots, if_pos ((isDotSegment_percent_encode _).2 hdots), hslash]
    decide +kernel
  · rw [if_neg hdots, if_neg fun h => hdots ((isDotSegment_percent_encode _).1 h),
      hslash, hdrop, of_encoded_percent_encode]

/-- What a host that is in the form hosts are written in is. -/
theorem host_of_part {host : DsnHost} (h : DsnHost.of_part u host.text = some host) :
    u.host host.text = some host.text ∧ '\\' ∉ host.text := by
  unfold DsnHost.of_part at h
  split_ifs at h with hany
  obtain ⟨text, htext, heq⟩ := Option.map_eq_some_iff.1 h
  refine ⟨by rw [htext, ← heq], fun hmem => hany (List.any_eq_true.2 ⟨_, hmem, by decide⟩)⟩

theorem ne_nil_of_component_ok {s : Str} (h : component_ok s = true) : s ≠ [] := by
  rintro rfl
  revert h
  decide +kernel

/-- A descriptor of PostgreSQL is read back from its connection URL unless the URL is too long, or the
name of the database is a dot segment. -/
theorem parseDsn_postgres [Lib.Percent.Library] (w : Whatwg u) {d : Dsn} {database : DsnPart}
    (hsealed : Sealed d) (htarget : d.target = .Postgres database) (hok : component_ok d.host.text = true)
    (hpart : DsnHost.of_part u d.host.text = some d.host) :
    parseDsn u d.connection_url =
      if MAX_DSN_LEN < d.postgresLen database then .error .TooLong
      else if database.text = ".".toList ∨ database.text = "..".toList then .error .InvalidComponent
      else .ok d := by
  obtain ⟨hhost, hbackslash⟩ := host_of_part hpart
  obtain ⟨url, hparse, hscheme, huser, hpassword, hname, hport, hpath, hquery, hfragment⟩ :
      ∃ url, u.parse d.connection_url = some url ∧ url.scheme = "postgres".toList ∧
        url.username = ((d.credentials.map Credentials.encoded).map Prod.fst).getD [] ∧
        url.password = (d.credentials.map Credentials.encoded).bind Prod.snd ∧
        url.host = some d.host.text ∧ url.port = some d.port ∧
        (url.path = if isDotSegment (percent_encode database.text) then ['/']
          else '/' :: percent_encode database.text) ∧
        url.query = some ("sslmode=".toList ++ d.sslmode) ∧ url.fragment = none :=
    ⟨_, parse_connection_url w htarget hhost, rfl, rfl, rfl, rfl, rfl, rfl, rfl, rfl⟩
  have hambiguous : userinfo_is_ambiguous d.connection_url url = false := by
    have hescaped := escaped_percent_encode (ne_nil_of_text_ok database.ok)
    have hat : '@' ∉ url.path := by
      rw [hpath]
      split_ifs
      · decide
      · exact fun hmem => (List.mem_cons.1 hmem).elim (by decide) fun hmem =>
          absurd (hescaped.2 _ hmem) (by decide)
    have hmode : '@' ∉ "sslmode=".toList ++ d.sslmode := fun hmem =>
      (List.mem_append.1 hmem).elim (by decide) fun hmem => absurd (sslmode_alnum d _ hmem) (by decide)
    unfold userinfo_is_ambiguous
    rw [hfragment, hquery, decide_eq_false (backslash_not_mem_connection_url htarget hbackslash),
      decide_eq_false hat, Option.any_none, Option.any_some, decide_eq_false hmode]
    rfl
  have hof : DsnHost.of_url url = some d.host := by
    unfold DsnHost.of_url
    rw [hname]
    exact if_neg fun hempty => ne_nil_of_component_ok hok (List.isEmpty_iff.1 hempty)
  have htls := tls_from_query_sslmode w hsealed.tls hquery
  unfold parseDsn
  rw [byteLen_connection_url htarget]
  by_cases hlong : MAX_DSN_LEN < d.postgresLen database
  · rw [if_pos hlong, if_pos hlong]
  · rw [if_neg hlong, if_neg hlong, hparse]
    dsimp only
    rw [targetOfUrl_postgres (by rw [hscheme]; decide) hambiguous htls hof hok, hpath, of_encoded_path,
      credentialsOfUrl_encoded huser hpassword, hport]
    by_cases hdots : database.text = ".".toList ∨ database.text = "..".toList
    · rw [if_pos hdots, if_pos hdots]
    · rw [if_neg hdots, if_neg hdots]
      dsimp only
      rw [Option.getD_some, ← htarget]

/-! ### What is dialled -/

/-- A descriptor is one that a seal gave out. -/
def Obtained (u : UrlCrate) (d : Dsn) : Prop :=
  (∃ s, dsn_parse u s = .ok d) ∨
    ∃ driver_tag host port database user password tls_tag,
      dsn_build u driver_tag host port database user password tls_tag = .ok d

/-- A descriptor dials what it names, and both seals give it out. -/
structure Faithful [Lib.Percent.Library] (u : UrlCrate) (drv : SqliteDriver) (d : Dsn) : Prop where
  /-- The connection URL is read as the same descriptor. -/
  reread : dsn_parse u d.connection_url = .ok d
  /-- The driver of SQLite opens the file whose name is held. -/
  driver : ∀ db, d.target = .Sqlite db → drv.opened d.connection_url = some db.opened
  /-- It is built from its parts. -/
  rebuilt : dsn_build u d.dsn_driver d.dsn_host d.dsn_port d.dsn_database d.dsn_user d.password d.dsn_tls = .ok d
  port : d.driver = .Postgres → 1 ≤ d.dsn_port ∧ d.dsn_port ≤ 65535

/-- For PostgreSQL: the port is not 0, the host is one that the parts may hold, in the form hosts are
written in, the name of the database is not a dot segment, and the URL is not too long. For SQLite: the
mode of transport is the default one, and the name of a file is not too long once it is encoded. -/
def Dialable (u : UrlCrate) (d : Dsn) : Prop :=
  match d.target with
  | .Postgres database =>
    d.port ≠ 0 ∧ component_ok d.host.text = true ∧ DsnHost.of_part u d.host.text = some d.host ∧
      ¬(database.text = ".".toList ∨ database.text = "..".toList) ∧ d.postgresLen database ≤ MAX_DSN_LEN
  | .Sqlite .Memory => d.tls = .Require
  | .Sqlite (.File name _) =>
    d.tls = .Require ∧ encodedLen SQLITE_PATH name ≤ MAX_COMPONENT_LEN

theorem mapError_eq_ok {α ε ε' : Type} {f : ε → ε'} {x : Except ε α} {a : α} : x.mapError f = .ok a ↔ x = .ok a := by
  cases x with
  | error e => exact ⟨fun h => (by cases h), fun h => (by cases h)⟩
  | ok b => exact ⟨fun h => (by cases h; rfl), fun h => (by cases h; rfl)⟩

theorem Obtained.sealed {d : Dsn} (h : Obtained u d) : Sealed d := by
  rcases h with ⟨s, hparse⟩ | ⟨driver_tag, host, port, database, user, password, tls_tag, hbuild⟩
  · exact sealed_parseDsn (mapError_eq_ok.1 hparse)
  · exact sealed_buildDsn (mapError_eq_ok.1 hbuild)

/-- A descriptor of SQLite with the default mode of transport is its database. -/
theorem Sealed.eq_ofSqlite {d : Dsn} (h : Sealed d) {db : SqliteDb} (htarget : d.target = .Sqlite db) :
    d.tls = .Require ↔ Dsn.ofSqlite db = d := by
  obtain ⟨hhost, hport, hcredentials⟩ := h.sqlite db htarget
  obtain ⟨target, host, port, credentials, tls⟩ := d
  dsimp only at htarget hhost hport hcredentials
  subst htarget hhost hport hcredentials
  refine ⟨fun htls => by subst htls; rfl, fun heq => ?_⟩
  rw [← heq]
  rfl

theorem faithful_postgres_iff [Lib.Percent.Library] (w : Whatwg u) {drv : SqliteDriver} {d : Dsn}
    {database : DsnPart} (hsealed : Sealed d) (htarget : d.target = .Postgres database) :
    Faithful u drv d ↔ Dialable u d := by
  have hbuild := buildDsn_postgres_iff (u := u) hsealed htarget
  unfold Dialable
  rw [htarget]
  dsimp only
  constructor
  · intro h
    obtain ⟨hport, hok, hpart⟩ := hbuild.1 (mapError_eq_ok.1 h.rebuilt)
    have hreread := mapError_eq_ok.1 h.reread
    rw [parseDsn_postgres w hsealed htarget hok hpart] at hreread
    split_ifs at hreread with hlong hdots
    exact ⟨hport, hok, hpart, hdots, not_lt.1 hlong⟩
  · rintro ⟨hport, hok, hpart, hdots, hlen⟩
    refine ⟨mapError_eq_ok.2 ?_, fun db hdb => ?_, mapError_eq_ok.2 (hbuild.2 ⟨hport, hok, hpart⟩), fun _ => ?_⟩
    · rw [parseDsn_postgres w hsealed htarget hok hpart, if_neg (not_lt.2 hlen), if_neg hdots]
    · rw [htarget] at hdb
      cases hdb
    · have hlt : d.port.toNat < 2 ^ 16 := d.port.toNat_lt
      have hpos : d.port.toNat ≠ 0 := fun h => hport (UInt16.toNat_inj.1 h)
      unfold Dsn.dsn_port
      omega

theorem faithful_sqlite_iff [Lib.Percent.Library] (w : Whatwg u) {drv : SqliteDriver} (o : Opens drv) {d : Dsn}
    {db : SqliteDb} (hsealed : Sealed d) (htarget : d.target = .Sqlite db) : Faithful u drv d ↔ Dialable u d := by
  have hurl : d.connection_url = db.connection_url := by
    unfold Dsn.connection_url
    rw [htarget]
  have hfaithful : Faithful u drv d ↔ parseDsn u db.connection_url = .ok d := by
    constructor
    · intro h
      rw [← hurl]
      exact mapError_eq_ok.1 h.reread
    · intro hreread
      rw [← hurl] at hreread
      refine ⟨mapError_eq_ok.2 hreread, fun db' hdb => ?_, mapError_eq_ok.2 (buildDsn_sqlite hsealed htarget),
        fun hpostgres => ?_⟩
      · rw [htarget] at hdb
        cases hdb
        rw [hurl]
        exact o.opened_connection_url db
      · unfold Dsn.driver at hpostgres
        rw [htarget] at hpostgres
        cases hpostgres
  have htls := hsealed.eq_ofSqlite htarget
  rw [hfaithful]
  unfold Dialable
  rw [htarget]
  cases db with
  | Memory =>
    dsimp only
    rw [parseDsn_memory w, htls, Except.ok.injEq]
  | File name ok =>
    dsimp only
    rw [parseDsn_file w, htls]
    by_cases hlong : MAX_COMPONENT_LEN < encodedLen SQLITE_PATH name
    · rw [if_pos hlong]
      exact ⟨fun h => (by cases h), fun h => absurd h.2 (not_le.2 hlong)⟩
    · rw [if_neg hlong, Except.ok.injEq]
      exact ⟨fun h => ⟨h, not_lt.1 hlong⟩, And.left⟩

/-- Which of the descriptors that the seals give out dial what they name. -/
theorem dsn_faithful_iff [Lib.Percent.Library] (w : Whatwg u) {drv : SqliteDriver} (o : Opens drv) (d : Dsn)
    (h : Obtained u d) : Faithful u drv d ↔ Dialable u d := by
  cases htarget : d.target with
  | Postgres database => exact faithful_postgres_iff w h.sealed htarget
  | Sqlite db => exact faithful_sqlite_iff w o h.sealed htarget

/-! ### A reader of plain URLs, and a driver

The reader takes hosts of small letters and dots, one segment of a path, and one pair of a query. -/

namespace Plain

def host (s : Str) : Option Str :=
  if !s.isEmpty && s.all fun c => c.isLower || c == '.' then some s else none

def userinfo (s : Str) : Str × Option Str :=
  match splitOnce ':' s with
  | some (user, password) => (user, some password)
  | none => (s, none)

/-- The user name, the password, and the host with its port. -/
def authority (s : Str) : Str × Option Str × Str :=
  match splitOnce '@' s with
  | some (user, hostport) => ((userinfo user).1, (userinfo user).2, hostport)
  | none => ([], none, s)

def postgres (s : Str) : Option Url :=
  (splitOnce '/' s).bind fun (auth, tail) =>
    (splitOnce '?' tail).bind fun (path, query) =>
      (splitOnce ':' (authority auth).2.2).map fun (host, port) =>
        { scheme := "postgres".toList
          username := (authority auth).1
          password := (authority auth).2.1
          host := some host
          port := some (UInt16.ofNat (Lib.Semver.ofDecimal port))
          path := if isDotSegment path then ['/'] else '/' :: path
          query := some query
          fragment := none }

def sqlite (s : Str) : Option Url :=
  if '@' ∈ s then none else some ⟨"sqlite".toList, [], none, none, none, s, none, none⟩

def urls : UrlCrate where
  parse s :=
    match s.dropPrefix? "postgres://".toList with
    | some rest => postgres rest
    | none => (s.dropPrefix? "sqlite:".toList).bind sqlite
  query_pairs query := (splitOnce '=' query).toList
  host := host

theorem parse_sqlite {s : Str} (h : '@' ∉ s) :
    ∃ url, urls.parse ("sqlite:".toList ++ s) = some url ∧
      url.scheme = "sqlite".toList ∧ url.username = [] ∧ url.password = none := by
  have hparse : urls.parse ("sqlite:".toList ++ s) = sqlite s := by
    have hnot : ("sqlite:".toList ++ s).dropPrefix? "postgres://".toList = none := by
      simp [List.dropPrefix?]
    have hprefix : ("sqlite:".toList ++ s).dropPrefix? "sqlite:".toList = some s :=
      List.dropPrefix?_append_of_beq _ (by decide)
    unfold urls
    dsimp only
    rw [hnot, hprefix]
    rfl
  refine ⟨⟨"sqlite".toList, [], none, none, none, s, none, none⟩, ?_, rfl, rfl, rfl⟩
  rw [hparse]
  exact if_neg h

theorem not_mem_of_escaped {s : Str} (h : Escaped s) {c : Char} (hc : isEscapedChar c = false) : c ∉ s := by
  intro hmem
  rw [h.2 c hmem] at hc
  cases hc

theorem authority_eq {p : Option (Str × Option Str)} {s : Str} (hs : '@' ∉ s)
    (hp : ∀ q ∈ p, Escaped q.1 ∧ ∀ password ∈ q.2, Escaped password) :
    authority (userinfoText p ++ s) = ((p.map Prod.fst).getD [], p.bind Prod.snd, s) := by
  have hsplit : ∀ k : Str, '@' ∉ k → splitOnce '@' (k ++ ['@'] ++ s) = some (k, s) := by
    intro k hk
    rw [List.append_assoc, List.singleton_append, Lib.splitOnce_append hk]
  have hnone : ∀ c : Char, ∀ k : Str, c ∉ k → splitOnce c k = none := by
    intro c k hk
    induction k with
    | nil => rfl
    | cons d k ih =>
      obtain ⟨hd, hk⟩ := not_or.1 (mt List.mem_cons.2 hk)
      rw [splitOnce, if_neg (Ne.symm hd), ih hk]
      rfl
  unfold authority
  rcases p with _ | ⟨user, _ | password⟩
  · rw [show userinfoText none ++ s = s from rfl, hnone '@' s hs]
    rfl
  · have huser := (hp _ rfl).1
    rw [userinfoText, hsplit user (not_mem_of_escaped huser (by decide))]
    unfold userinfo
    dsimp only
    rw [hnone ':' user (not_mem_of_escaped huser (by decide))]
    rfl
  · obtain ⟨huser, hpassword⟩ := hp _ rfl
    have hat : '@' ∉ user ++ ':' :: password := by
      simp only [List.mem_append, List.mem_cons, not_or]
      exact ⟨not_mem_of_escaped huser (by decide), by decide,
        not_mem_of_escaped (hpassword password rfl) (by decide)⟩
    rw [userinfoText, hsplit _ hat]
    unfold userinfo
    dsimp only
    rw [Lib.splitOnce_append (not_mem_of_escaped huser (by decide))]
    rfl

theorem whatwg : Whatwg urls where
  postgres p host port path query hp hhost hpath hquery := by
    have hhostchars : ∀ c : Char, c.isLower = false → c ≠ '.' → c ∉ host := by
      intro c hlower hdot hmem
      change Plain.host host = some host at hhost
      unfold Plain.host at hhost
      split_ifs at hhost with hok
      have hor := List.all_eq_true.1 (Bool.and_eq_true_iff.1 hok).2 c hmem
      rw [hlower, Bool.false_or, beq_iff_eq] at hor
      exact hdot hor
    have hdigits : ∀ c : Char, c.isDigit = false → c ∉ decimal port.toNat := by
      intro c hc hmem
      rw [Lib.Semver.isDigit_of_mem_decimal hmem] at hc
      cases hc
    have hauth : '/' ∉ userinfoText p ++ (host ++ ':' :: decimal port.toNat) := by
      simp only [List.mem_append, List.mem_cons, not_or]
      refine ⟨?_, hhostchars _ (by decide) (by decide), by decide, hdigits _ (by decide)⟩
      rcases p with _ | ⟨user, _ | password⟩
      · exact List.not_mem_nil
      · simp only [userinfoText, List.mem_append, List.mem_singleton, not_or]
        exact ⟨not_mem_of_escaped (hp _ rfl).1 (by decide), by decide⟩
      · simp only [userinfoText, List.mem_append, List.mem_cons, List.not_mem_nil, or_false, not_or]
        exact ⟨⟨not_mem_of_escaped (hp _ rfl).1 (by decide), by decide,
          not_mem_of_escaped ((hp _ rfl).2 password rfl) (by decide)⟩, by decide⟩
    have hat : '@' ∉ host ++ ':' :: decimal port.toNat := by
      simp only [List.mem_append, List.mem_cons, not_or]
      exact ⟨hhostchars _ (by decide) (by decide), by decide, hdigits _ (by decide)⟩
    have hurl : "postgres://".toList ++ userinfoText p ++ host ++ ':' :: decimal port.toNat ++ '/' :: path ++
        '?' :: query = "postgres://".toList ++ (userinfoText p ++ (host ++ ':' :: decimal port.toNat) ++
          '/' :: (path ++ '?' :: query)) := by
      simp only [List.append_assoc, List.cons_append]
    have hparse : urls.parse ("postgres://".toList ++ (userinfoText p ++ (host ++ ':' :: decimal port.toNat) ++
        '/' :: (path ++ '?' :: query))) = postgres (userinfoText p ++ (host ++ ':' :: decimal port.toNat) ++
          '/' :: (path ++ '?' :: query)) := by
      unfold urls
      dsimp only
      rw [List.dropPrefix?_append_of_beq _ (by decide)]
    rw [hurl, hparse]
    unfold postgres
    rw [Lib.splitOnce_append hauth, Option.bind_some]
    dsimp only
    rw [Lib.splitOnce_append (not_mem_of_escaped hpath (by decide)), Option.bind_some]
    dsimp only
    rw [authority_eq hat hp]
    dsimp only
    rw [Lib.splitOnce_append (hhostchars _ (by decide) (by decide)), Option.map_some, Lib.Semver.ofDecimal_decimal,
      UInt16.ofNat_toNat]
  sqlite path hpath := by
    have hat : '@' ∉ "//".toList ++ (path ++ "?mode=rwc".toList) := by
      simp only [List.mem_append, not_or]
      exact ⟨by decide, fun hmem => absurd (hpath _ hmem) (by decide), by decide⟩
    have hurl : "sqlite://".toList ++ path ++ "?mode=rwc".toList =
        "sqlite:".toList ++ ("//".toList ++ (path ++ "?mode=rwc".toList)) := by
      rw [List.append_assoc]
      rfl
    rw [hurl]
    exact parse_sqlite hat
  memory := parse_sqlite (show '@' ∉ ":memory:".toList by decide)
  query_pairs value _ := by
    change (splitOnce '=' ("sslmode".toList ++ '=' :: value)).toList = _
    rw [Lib.splitOnce_append (by decide)]
    rfl

/-- The driver strips the scheme and the separators before the path, and cuts the path at the query. -/
def driver : SqliteDriver where
  opened url :=
    let rest := (url.dropPrefix? "sqlite:".toList).getD url
    if rest = ":memory:".toList then some .InMemory
    else
      let path := ((rest.dropPrefix? "//".toList).getD rest).takeWhile (· != '?')
      (ofUtf8 (percent_decode (utf8 path))).map .Named

theorem opens : Opens driver where
  memory := rfl
  file path name hpath hname := by
    have hurl : "sqlite://".toList ++ path ++ "?mode=rwc".toList =
        "sqlite:".toList ++ ("//".toList ++ (path ++ "?mode=rwc".toList)) := by
      rw [List.append_assoc]
      rfl
    have hfile : "//".toList ++ (path ++ "?mode=rwc".toList) ≠ ":memory:".toList := fun h =>
      absurd (List.cons.inj h).1 (by decide)
    have hcut : (path ++ "?mode=rwc".toList).takeWhile (· != '?') = path := by
      rw [List.takeWhile_append_of_pos, show "?mode=rwc".toList.takeWhile (· != '?') = [] from rfl, List.append_nil]
      intro c hc
      rw [bne_iff_ne]
      rintro rfl
      exact absurd (hpath _ hc) (by decide)
    unfold driver
    dsimp only
    rw [hurl, List.dropPrefix?_append_of_beq _ (by decide), Option.getD_some, if_neg hfile,
      List.dropPrefix?_append_of_beq _ (by decide), Option.getD_some, hcut, hname]
    rfl

end Plain

/-- A database on a host, with a user name and a password. -/
def appDsn : Dsn :=
  ⟨.Postgres ⟨"app".toList, by decide +kernel⟩, ⟨"db.example".toList⟩, 5432,
    some ⟨⟨"reader".toList, by decide +kernel⟩, some "s3cr@t".toList, by rintro p ⟨⟩; decide +kernel⟩, .Require⟩

/-- A database that is named by two dots. -/
def dottedDsn : Dsn :=
  ⟨.Postgres ⟨"..".toList, by decide +kernel⟩, ⟨"db.example".toList⟩, 5432, none, .Require⟩

/-- A file whose name starts with two separators. -/
def slashedDsn : Dsn := Dsn.ofSqlite (.File "//srv/app#1.db".toList (by decide +kernel))

theorem sealed_appDsn : Sealed appDsn := ⟨fun h => TlsMode.noConfusion h, fun _ h => DsnTarget.noConfusion h⟩

theorem sealed_dottedDsn : Sealed dottedDsn := ⟨fun h => TlsMode.noConfusion h, fun _ h => DsnTarget.noConfusion h⟩

theorem sealed_slashedDsn : Sealed slashedDsn :=
  ⟨fun h => TlsMode.noConfusion h, fun _ _ => ⟨rfl, rfl, rfl⟩⟩

theorem component_ok_example :
    component_ok "db.example".toList = true ∧
      DsnHost.of_part Plain.urls "db.example".toList = some ⟨"db.example".toList⟩ := by
  decide +kernel

theorem build_appDsn :
    dsn_build Plain.urls appDsn.dsn_driver appDsn.dsn_host appDsn.dsn_port appDsn.dsn_database appDsn.dsn_user
      appDsn.password appDsn.dsn_tls = .ok appDsn :=
  mapError_eq_ok.2 ((buildDsn_postgres_iff sealed_appDsn rfl).2 ⟨by decide, component_ok_example⟩)

theorem build_dottedDsn :
    dsn_build Plain.urls dottedDsn.dsn_driver dottedDsn.dsn_host dottedDsn.dsn_port dottedDsn.dsn_database
      dottedDsn.dsn_user dottedDsn.password dottedDsn.dsn_tls = .ok dottedDsn :=
  mapError_eq_ok.2 ((buildDsn_postgres_iff sealed_dottedDsn rfl).2 ⟨by decide, component_ok_example⟩)

theorem build_slashedDsn :
    dsn_build Plain.urls slashedDsn.dsn_driver slashedDsn.dsn_host slashedDsn.dsn_port slashedDsn.dsn_database
      slashedDsn.dsn_user slashedDsn.password slashedDsn.dsn_tls = .ok slashedDsn :=
  mapError_eq_ok.2 (buildDsn_sqlite sealed_slashedDsn rfl)

theorem dsn_faithful_iff_app :
    Faithful Plain.urls Plain.driver appDsn ∧ Faithful Plain.urls Plain.driver slashedDsn :=
  ⟨(dsn_faithful_iff Plain.whatwg Plain.opens appDsn (.inr ⟨_, _, _, _, _, _, _, build_appDsn⟩)).2
      ⟨by decide, component_ok_example.1, component_ok_example.2, by decide, by decide +kernel⟩,
    (dsn_faithful_iff Plain.whatwg Plain.opens slashedDsn (.inr ⟨_, _, _, _, _, _, _, build_slashedDsn⟩)).2
      ⟨rfl, by decide +kernel⟩⟩

theorem dots_not_reread :
    Whatwg Plain.urls ∧ Opens Plain.driver ∧
      dsn_build Plain.urls 0 "db.example".toList 5432 "..".toList [] [] 0 = .ok dottedDsn ∧
      ¬Faithful Plain.urls Plain.driver dottedDsn := by
  have hbuild := build_dottedDsn
  rw [show dottedDsn.dsn_driver = 0 from rfl, show dottedDsn.dsn_port = 5432 by decide,
    show dottedDsn.dsn_tls = 0 from rfl] at hbuild
  refine ⟨Plain.whatwg, Plain.opens, hbuild, fun h => ?_⟩
  exact ((faithful_postgres_iff Plain.whatwg sealed_dottedDsn rfl).1 h).2.2.2.1 (.inr rfl)

end IpeLang.Runtime.Db
