import IpeLang.Lib.Text
import Mathlib

/-!
# Tokens against forged requests

Every page of an app sets a cookie with a token, and a request that changes something has to repeat the
token. The apps of one host share the jar of the browser, and each has a name of its own for the cookie.

* `csrf_cookie_name_for`, `csrf_set_cookie`, `cookie_value`: writing and reading the cookie;
* `Jar`, `Run`: the cookies of a host, over the loads of pages;
* `csrf_isolated_iff`: for which apps each reads the token that it set.
-/

namespace IpeLang.Runtime.Csrf

open Lib (Str trim splitOnce)

/-! ### Apps -/

/-- The base path: without white space and separators at its end, with one separator before it. -/
def normalise_base_path (raw : Str) : Str :=
  let t := (trim raw).rdropWhile (· == '/')
  if t.isEmpty then [] else if t.head? = some '/' then t else '/' :: t

/-- Cookies are for encrypted transport only, unless the process is for development. -/
def cookies_secure_with (dev framed : Bool) : Bool := !dev || framed

/-- A process that serves an app: where it is mounted, whether it is for development, and whether its
pages may stand in frames of other sites. -/
structure App where
  raw_base : Str
  dev : Bool
  framed : Bool
  deriving DecidableEq

def App.base (app : App) : Str := normalise_base_path app.raw_base

def App.secure (app : App) : Bool := cookies_secure_with app.dev app.framed

def csrf_cookie_name_for (secure : Bool) (base : Str) : Str :=
  let pre := if secure then "__Host-ipe_csrf".toList else "__ipe_csrf".toList
  if base.isEmpty then pre else pre ++ base.map fun c => if c.isAlphanum then c else '_'

def App.cookieName (app : App) : Str := csrf_cookie_name_for app.secure app.base

/-! ### Tokens -/

def isHexDigit (c : Char) : Bool := c.isDigit || ('a' ≤ c && c ≤ 'f') || ('A' ≤ c && c ≤ 'F')

/-- A token of 64 hexadecimal digits. -/
def csrf_token_well_formed (t : Str) : Bool := t.length == 64 && t.all isHexDigit

def csrf_pair_valid (cookie_tok header_tok : Str) : Bool :=
  csrf_token_well_formed cookie_tok && csrf_token_well_formed header_tok && cookie_tok == header_tok

def csrf_set_cookie (app : App) (token : Str) : Str :=
  if app.framed then app.cookieName ++ '=' :: token ++ "; Path=/; HttpOnly; SameSite=None; Secure".toList
  else if app.secure then
    app.cookieName ++ '=' :: token ++ "; Path=/; HttpOnly; SameSite=Strict; Secure".toList
  else app.cookieName ++ '=' :: token ++ "; Path=/; HttpOnly; SameSite=Strict".toList

/-- The text of a header, of visible characters, spaces and tabs only. -/
def to_str (raw : Str) : Option Str :=
  if raw.all fun c => (32 ≤ c.toNat && c.toNat < 127) || c == '\t' then some raw else none

/-- The value of a cookie, if a part of the header is of that name. -/
def cookiePart (name part : Str) : Option Str :=
  match splitOnce '=' (trim part) with
  | some (k, v) => if trim k = name then some v else none
  | none => none

def cookie_value (cookie : Option Str) (name : Str) : Option Str :=
  (cookie.bind to_str).bind fun raw => (raw.splitOn ';').findSome? (cookiePart name)

/-- The token of a page: that of the cookie, if it is well formed, or a new one. -/
def pageToken (cookie : Option Str) (name minted : Str) : Str :=
  match cookie_value cookie name with
  | some t => if csrf_token_well_formed t then t else minted
  | none => minted

/-! ### The jar of a browser -/

/-- The cookies of a host, by their names. -/
abbrev Jar := List (Str × Str)

namespace Jar

def drop (jar : Jar) (name : Str) : Jar := jar.filter fun cookie => cookie.1 ≠ name

def set (jar : Jar) (name value : Str) : Jar := (name, value) :: jar.drop name

/-- Take a `Set-Cookie`: the name and the value before its attributes. -/
def receive (jar : Jar) (set_cookie : Str) : Jar :=
  match splitOnce '=' (set_cookie.takeWhile (· != ';')) with
  | some (name, value) => jar.set (trim name) (trim value)
  | none => jar

end Jar

/-- The `Cookie` header that carries some cookies. -/
def cookieHeader (cookies : List (Str × Str)) : Option Str :=
  if cookies.isEmpty then none else some ("; ".toList.intercalate (cookies.map fun c => c.1 ++ '=' :: c.2))

/-- A visible character of ASCII that ends no cookie. -/
def isCookieChar (c : Char) : Bool := 33 ≤ c.toNat && c.toNat < 127 && c != ';'

/-- A cookie as browsers hold it. -/
structure WellFormed (cookie : Str × Str) : Prop where
  name : ∀ c ∈ cookie.1, isCookieChar c = true ∧ c ≠ '='
  value : ∀ c ∈ cookie.2, isCookieChar c = true

/-- What a browser goes through: pages of the apps, the last one first, each with the token it set, and
other cookies that come and go. -/
inductive Run (apps : List App) : List (App × Str) → Jar → Prop
  | start : Run apps [] []
  | load {loads : List (App × Str)} {jar : Jar} {app : App} {cookies : List (Str × Str)} {minted : Str}
      (h : Run apps loads jar) (happ : app ∈ apps) (hcookies : cookies.Perm jar)
      (hminted : csrf_token_well_formed minted = true) :
      Run apps ((app, pageToken (cookieHeader cookies) app.cookieName minted) :: loads)
        (jar.receive (csrf_set_cookie app (pageToken (cookieHeader cookies) app.cookieName minted)))
  | other {loads : List (App × Str)} {jar : Jar} {cookie : Str × Str} (h : Run apps loads jar)
      (hformed : WellFormed cookie) (hname : ∀ app ∈ apps, app.cookieName ≠ cookie.1) :
      Run apps loads (jar.set cookie.1 cookie.2)
  | expire {loads : List (App × Str)} {jar : Jar} {name : Str} (h : Run apps loads jar)
      (hname : ∀ app ∈ apps, app.cookieName ≠ name) : Run apps loads (jar.drop name)

/-- The last token that the app at a base path set. -/
def lastToken (base : Str) (loads : List (App × Str)) : Option Str :=
  (loads.find? fun l => l.1.base = base).map Prod.snd

/-- Every app reads the token that it set. -/
structure Isolated (apps : List App) : Prop where
  reads : ∀ loads jar, Run apps loads jar → ∀ app ∈ apps, ∀ cookies : List (Str × Str), cookies.Perm jar →
    cookie_value (cookieHeader cookies) app.cookieName = lastToken app.base loads
  accepts : ∀ loads jar, Run apps loads jar → ∀ app ∈ apps, ∀ cookies : List (Str × Str), cookies.Perm jar →
    ∀ header_tok,
      csrf_pair_valid ((cookie_value (cookieHeader cookies) app.cookieName).getD []) header_tok = true ↔
        lastToken app.base loads = some header_tok
  /-- The page of another app leaves the token as it is. -/
  kept : ∀ loads token jar before, Run apps loads before → ∀ other ∈ apps, Run apps ((other, token) :: loads) jar →
    ∀ app ∈ apps, app.base ≠ other.base → ∀ cookies cookies' : List (Str × Str),
      cookies.Perm before → cookies'.Perm jar →
        cookie_value (cookieHeader cookies') app.cookieName = cookie_value (cookieHeader cookies) app.cookieName

/-! ### Reading a header -/

theorem isWhiteSpace_of_isCookieChar {c : Char} (h : isCookieChar c = true) : Lib.isWhiteSpace c = false := by
  have hval : c.toNat = c.val.toNat := rfl
  simp only [isCookieChar, Bool.and_eq_true, decide_eq_true_eq] at h
  simp only [Lib.isWhiteSpace, Bool.or_eq_false_iff, Bool.and_eq_false_iff, decide_eq_false_iff_not,
    beq_eq_false_iff_ne, UInt32.le_iff_toNat_le, ne_eq, ← UInt32.toNat_inj, UInt32.reduceToNat]
  omega

theorem trimmed_of_isCookieChar {s : Str} (h : ∀ c ∈ s, isCookieChar c = true) : Lib.Trimmed s where
  head c hc := isWhiteSpace_of_isCookieChar (h c (List.mem_of_mem_head? hc))
  last c hc := isWhiteSpace_of_isCookieChar (h c (List.mem_of_getLast? hc))

/-- A cookie as it stands in a header. -/
def cookieText (cookie : Str × Str) : Str := cookie.1 ++ '=' :: cookie.2

theorem WellFormed.chars {cookie : Str × Str} (h : WellFormed cookie) :
    ∀ c ∈ cookieText cookie, isCookieChar c = true := by
  intro c hc
  rcases List.mem_append.1 hc with hc | hc
  · exact (h.name c hc).1
  · rcases List.mem_cons.1 hc with rfl | hc
    · decide
    · exact h.value c hc

theorem WellFormed.no_semicolon {cookie : Str × Str} (h : WellFormed cookie) : ';' ∉ cookieText cookie := by
  intro hmem
  have := h.chars _ hmem
  revert this
  decide

theorem WellFormed.splitOnce {cookie : Str × Str} (h : WellFormed cookie) :
    splitOnce '=' (cookieText cookie) = some cookie :=
  Lib.splitOnce_append (fun hmem => (h.name _ hmem).2 rfl) cookie.2

theorem WellFormed.cookiePart {cookie : Str × Str} (h : WellFormed cookie) (name : Str) :
    cookiePart name (cookieText cookie) = (if cookie.1 = name then some cookie.2 else none) ∧
      cookiePart name (' ' :: cookieText cookie) = (if cookie.1 = name then some cookie.2 else none) := by
  have htrim := trimmed_of_isCookieChar h.chars
  have hname := trimmed_of_isCookieChar fun c hc => (h.name c hc).1
  constructor
  · unfold Csrf.cookiePart
    rw [htrim.trim_eq, h.splitOnce]
    dsimp only
    rw [hname.trim_eq]
  · unfold Csrf.cookiePart
    rw [Lib.trim_value htrim, h.splitOnce]
    dsimp only
    rw [hname.trim_eq]

/-- The parts of a header are its cookies, each but the first one after a space. -/
theorem splitOn_intercalate {l : Str} {ls : List Str} (hl : ';' ∉ l) (hls : ∀ l ∈ ls, ';' ∉ l) :
    ("; ".toList.intercalate (l :: ls)).splitOn ';' = l :: ls.map (' ' :: ·) := by
  induction ls generalizing l with
  | nil => rw [List.intercalate_singleton, List.splitOn_eq_singleton hl]; rfl
  | cons t ls ih =>
    have hls := List.forall_mem_cons.1 hls
    have hrest : "; ".toList.intercalate (l :: t :: ls) =
        l ++ ';' :: "; ".toList.intercalate ((' ' :: t) :: ls) := by
      rw [List.intercalate_cons_cons]
      cases ls with
      | nil =>
        rw [List.intercalate_singleton, List.intercalate_singleton, List.append_assoc]
        rfl
      | cons u ls =>
        rw [List.intercalate_cons_cons, List.intercalate_cons_cons]
        simp only [List.append_assoc]
        rfl
    have ht : ';' ∉ ' ' :: t := by
      rw [List.mem_cons, not_or]
      exact ⟨by decide, hls.1⟩
    rw [hrest, List.splitOn_append_cons_self, ih ht hls.2, List.splitOn_eq_singleton hl]
    rfl

/-! ### The cookies of a jar -/

namespace Jar

/-- The value of a cookie. -/
def value (jar : Jar) (name : Str) : Option Str :=
  jar.findSome? fun cookie => if cookie.1 = name then some cookie.2 else none

/-- A name occurs once, and all cookies are well formed. -/
structure Held (jar : Jar) : Prop where
  names : (jar.map Prod.fst).Nodup
  wellFormed : ∀ cookie ∈ jar, WellFormed cookie

theorem value_eq_some_iff {jar : Jar} (h : (jar.map Prod.fst).Nodup) {name v : Str} :
    jar.value name = some v ↔ (name, v) ∈ jar := by
  induction jar with
  | nil => simp [value]
  | cons cookie jar ih =>
    rw [List.map_cons, List.nodup_cons] at h
    obtain ⟨n, w⟩ := cookie
    by_cases hn : n = name
    · subst hn
      have hself : value ((n, w) :: jar) n = some w := by simp [value]
      have hrest : (n, v) ∉ jar := fun hmem => h.1 (List.mem_map.2 ⟨_, hmem, rfl⟩)
      rw [hself, List.mem_cons]
      constructor
      · rintro hv
        cases hv
        exact Or.inl rfl
      · rintro (hv | hv)
        · cases hv
          rfl
        · exact absurd hv hrest
    · have hrest : value ((n, w) :: jar) name = value jar name := by simp [value, hn]
      rw [hrest, ih h.2, List.mem_cons]
      constructor
      · exact Or.inr
      · rintro (hv | hv)
        · cases hv
          exact absurd rfl hn
        · exact hv

theorem value_perm {jar jar' : Jar} (h : jar'.Perm jar) (hheld : Held jar) (name : Str) :
    jar'.value name = jar.value name := by
  have hnames := (h.map Prod.fst).nodup_iff.2 hheld.names
  refine Option.ext fun v => ?_
  rw [value_eq_some_iff hnames, value_eq_some_iff hheld.names, h.mem_iff]

theorem Held.perm {jar jar' : Jar} (hheld : Held jar) (h : jar'.Perm jar) : Held jar' where
  names := (h.map Prod.fst).nodup_iff.2 hheld.names
  wellFormed cookie hmem := hheld.wellFormed cookie (h.mem_iff.1 hmem)

theorem Held.drop {jar : Jar} (h : Held jar) (name : Str) : Held (jar.drop name) where
  names := h.names.sublist (List.filter_sublist.map _)
  wellFormed cookie hmem := h.wellFormed cookie (List.mem_filter.1 hmem).1

theorem Held.set {jar : Jar} (h : Held jar) {cookie : Str × Str} (hcookie : WellFormed cookie) :
    Held (jar.set cookie.1 cookie.2) where
  names := by
    refine List.nodup_cons.2 ⟨?_, (h.drop cookie.1).names⟩
    intro hmem
    obtain ⟨c, hc, hname⟩ := List.mem_map.1 hmem
    exact of_decide_eq_true (List.mem_filter.1 hc).2 hname
  wellFormed c hc := by
    rcases List.mem_cons.1 hc with rfl | hc
    · exact hcookie
    · exact (h.drop cookie.1).wellFormed c hc

theorem value_set_self (jar : Jar) (name v : Str) : (jar.set name v).value name = some v := by
  simp [set, value]

theorem value_drop_of_ne {name name' : Str} (h : name' ≠ name) (jar : Jar) :
    (jar.drop name).value name' = jar.value name' := by
  unfold drop value
  induction jar with
  | nil => rfl
  | cons cookie jar ih =>
    by_cases hn : cookie.1 = name
    · have hne : cookie.1 ≠ name' := fun heq => h (heq.symm.trans hn)
      rw [List.filter_cons_of_neg (by simpa using hn), ih, List.findSome?_cons, if_neg hne]
    · rw [List.filter_cons_of_pos (by simpa using hn), List.findSome?_cons, List.findSome?_cons, ih]

theorem value_set_of_ne {name name' : Str} (h : name' ≠ name) (jar : Jar) (v : Str) :
    (jar.set name v).value name' = jar.value name' := by
  have hcons : (jar.set name v).value name' = (jar.drop name).value name' := by
    unfold set value
    rw [List.findSome?_cons, if_neg (Ne.symm h)]
  rw [hcons, value_drop_of_ne h]

end Jar

theorem findSome?_congr {α β : Type} {l : List α} {f g : α → Option β} (h : ∀ a ∈ l, f a = g a) :
    l.findSome? f = l.findSome? g := by
  induction l with
  | nil => rfl
  | cons a l ih =>
    have h := List.forall_mem_cons.1 h
    rw [List.findSome?_cons, List.findSome?_cons, h.1, ih h.2]

/-- A header is read as the cookies that it carries. -/
theorem cookie_value_cookieHeader {cookies : Jar} (h : cookies.Held) (name : Str) :
    cookie_value (cookieHeader cookies) name = cookies.value name := by
  cases cookies with
  | nil => rfl
  | cons cookie cookies =>
    have hformed := List.forall_mem_cons.1 h.wellFormed
    have htexts : ∀ l ∈ cookies.map cookieText, ';' ∉ l := by
      rintro _ hl
      obtain ⟨c, hc, rfl⟩ := List.mem_map.1 hl
      exact (hformed.2 c hc).no_semicolon
    have hraw : cookieHeader (cookie :: cookies) =
        some ("; ".toList.intercalate (cookieText cookie :: cookies.map cookieText)) := rfl
    have hstr : to_str ("; ".toList.intercalate (cookieText cookie :: cookies.map cookieText)) =
        some ("; ".toList.intercalate (cookieText cookie :: cookies.map cookieText)) := by
      refine if_pos (List.all_eq_true.2 fun c hc => ?_)
      have hchar : c = ' ' ∨ c = ';' ∨ isCookieChar c = true := by
        rcases Lib.mem_of_mem_intercalate hc with hc | ⟨l, hl, hc⟩
        · have : c = ';' ∨ c = ' ' := by simpa using hc
          exact this.elim (fun h => Or.inr (Or.inl h)) Or.inl
        · rcases List.mem_cons.1 hl with rfl | hl
          · exact Or.inr (Or.inr (hformed.1.chars c hc))
          · obtain ⟨d, hd, rfl⟩ := List.mem_map.1 hl
            exact Or.inr (Or.inr ((hformed.2 d hd).chars c hc))
      rcases hchar with rfl | rfl | hchar
      · decide
      · decide
      · simp only [isCookieChar, Bool.and_eq_true, decide_eq_true_eq] at hchar
        rw [Bool.or_eq_true, Bool.and_eq_true, decide_eq_true_eq, decide_eq_true_eq]
        exact Or.inl ⟨by omega, hchar.1.2⟩
    unfold cookie_value Jar.value
    rw [hraw, Option.bind_some, hstr, Option.bind_some, splitOn_intercalate hformed.1.no_semicolon htexts,
      List.findSome?_cons, (hformed.1.cookiePart name).1, List.findSome?_cons]
    have hparts : ∀ c ∈ cookies, cookiePart name (' ' :: cookieText c) = if c.1 = name then some c.2 else none :=
      fun c hc => ((hformed.2 c hc).cookiePart name).2
    have hrest : cookies.findSome? (cookiePart name ∘ (' ' :: ·) ∘ cookieText) =
        cookies.findSome? fun c => if c.1 = name then some c.2 else none := findSome?_congr hparts
    rw [List.map_map, List.findSome?_map, hrest]

/-! ### Writing a cookie -/

theorem isCookieChar_of_isAlphanum {c : Char} (h : c.isAlphanum = true) : isCookieChar c = true ∧ c ≠ '=' := by
  have hval : c.toNat = c.val.toNat := rfl
  simp only [Char.isAlphanum, Char.isAlpha, Char.isUpper, Char.isLower, Char.isDigit, Bool.or_eq_true,
    Bool.and_eq_true, decide_eq_true_eq, ge_iff_le, UInt32.le_iff_toNat_le, Char.reduceVal, UInt32.reduceToNat] at h
  have hne : ∀ d : Char, d.toNat < 48 ∨ 57 < d.toNat ∧ d.toNat < 65 → c ≠ d := by
    rintro d hd rfl
    omega
  refine ⟨?_, hne '=' (by decide)⟩
  simp only [isCookieChar, Bool.and_eq_true, decide_eq_true_eq, bne_iff_ne]
  exact ⟨⟨by omega, by omega⟩, hne ';' (by decide)⟩

theorem isCookieChar_of_isHexDigit {c : Char} (h : isHexDigit c = true) : isCookieChar c = true := by
  have hval : c.toNat = c.val.toNat := rfl
  simp only [isHexDigit, Char.isDigit, Bool.or_eq_true, Bool.and_eq_true, decide_eq_true_eq, ge_iff_le,
    Char.le_def, UInt32.le_iff_toNat_le, Char.reduceVal, UInt32.reduceToNat] at h
  have hne : c ≠ ';' := by
    rintro rfl
    revert h
    decide
  simp only [isCookieChar, Bool.and_eq_true, decide_eq_true_eq, bne_iff_ne]
  exact ⟨⟨by omega, by omega⟩, hne⟩

/-- The suffix of a name: letters and digits stay. -/
def suffixChar (c : Char) : Char := if c.isAlphanum then c else '_'

def namePrefix (secure : Bool) : Str := if secure then "__Host-ipe_csrf".toList else "__ipe_csrf".toList

theorem csrf_cookie_name_for_eq (secure : Bool) (base : Str) :
    csrf_cookie_name_for secure base = namePrefix secure ++ base.map suffixChar := by
  cases base with
  | nil => exact (List.append_nil _).symm
  | cons c base => rfl

theorem csrf_cookie_name_for_chars (secure : Bool) (base : Str) :
    ∀ c ∈ csrf_cookie_name_for secure base, isCookieChar c = true ∧ c ≠ '=' := by
  have hprefix : (namePrefix secure).all (fun c => isCookieChar c && c != '=') = true := by
    cases secure <;> decide
  intro c hc
  rw [csrf_cookie_name_for_eq, List.mem_append] at hc
  rcases hc with hc | hc
  · have := List.all_eq_true.1 hprefix c hc
    rw [Bool.and_eq_true, bne_iff_ne] at this
    exact this
  · obtain ⟨d, -, rfl⟩ := List.mem_map.1 hc
    unfold suffixChar
    split
    · exact isCookieChar_of_isAlphanum ‹_›
    · decide

theorem App.set_cookie_eq (app : App) (token : Str) :
    ∃ attributes, csrf_set_cookie app token = cookieText (app.cookieName, token) ++ ';' :: attributes := by
  unfold csrf_set_cookie cookieText
  split
  · exact ⟨" Path=/; HttpOnly; SameSite=None; Secure".toList, rfl⟩
  · split
    · exact ⟨" Path=/; HttpOnly; SameSite=Strict; Secure".toList, rfl⟩
    · exact ⟨" Path=/; HttpOnly; SameSite=Strict".toList, rfl⟩

theorem wellFormed_csrf (app : App) {token : Str} (h : csrf_token_well_formed token = true) :
    WellFormed (app.cookieName, token) where
  name := csrf_cookie_name_for_chars app.secure app.base
  value c hc := isCookieChar_of_isHexDigit (List.all_eq_true.1 (Bool.and_eq_true_iff.1 h).2 c hc)

/-- A jar takes the token of an app under the name of the app. -/
theorem receive_csrf_set_cookie (jar : Jar) (app : App) {token : Str} (h : csrf_token_well_formed token = true) :
    jar.receive (csrf_set_cookie app token) = jar.set app.cookieName token := by
  have hformed := wellFormed_csrf app h
  obtain ⟨attributes, heq⟩ := app.set_cookie_eq token
  have hkeep : ∀ c ∈ cookieText (app.cookieName, token), (c != ';') = true := by
    rintro c hc
    rw [bne_iff_ne]
    rintro rfl
    exact hformed.no_semicolon hc
  have htake : (csrf_set_cookie app token).takeWhile (· != ';') = cookieText (app.cookieName, token) := by
    rw [heq, List.takeWhile_append_of_pos hkeep, List.takeWhile_cons_of_neg (by decide), List.append_nil]
  have hname := trimmed_of_isCookieChar fun c hc => (hformed.name c hc).1
  have hvalue := trimmed_of_isCookieChar hformed.value
  unfold Jar.receive
  rw [htake, hformed.splitOnce]
  dsimp only
  rw [hname.trim_eq, hvalue.trim_eq]

theorem wellFormed_pageToken {cookie : Option Str} {name minted : Str}
    (h : csrf_token_well_formed minted = true) : csrf_token_well_formed (pageToken cookie name minted) = true := by
  unfold pageToken
  split
  · split
    · assumption
    · exact h
  · exact h

/-! ### Runs -/

/-- The cookies of different apps have different names. -/
def Named (apps : List App) : Prop := ∀ A ∈ apps, ∀ B ∈ apps, A.base ≠ B.base → A.cookieName ≠ B.cookieName

/-- What holds of the jar after some loads. -/
structure Tracks (apps : List App) (loads : List (App × Str)) (jar : Jar) : Prop where
  held : jar.Held
  value : ∀ app ∈ apps, jar.value app.cookieName = lastToken app.base loads
  token : ∀ l ∈ loads, csrf_token_well_formed l.2 = true

theorem lastToken_cons_self {base : Str} {app : App} (h : app.base = base) (token : Str)
    (loads : List (App × Str)) : lastToken base ((app, token) :: loads) = some token := by
  simp [lastToken, h]

theorem lastToken_cons_of_ne {base : Str} {app : App} (h : app.base ≠ base) (token : Str)
    (loads : List (App × Str)) : lastToken base ((app, token) :: loads) = lastToken base loads := by
  simp [lastToken, h]

section Runs

variable {apps : List App} {loads : List (App × Str)} {jar : Jar}

/-- A page sets the token of its app, and keeps those of the others. -/
theorem Tracks.load (h : Tracks apps loads jar) (hnames : Named apps) (hbases : (apps.map App.base).Nodup)
    {app : App} (happ : app ∈ apps) {token : Str} (htoken : csrf_token_well_formed token = true) :
    Tracks apps ((app, token) :: loads) (jar.receive (csrf_set_cookie app token)) := by
  rw [receive_csrf_set_cookie jar app htoken]
  refine ⟨h.held.set (wellFormed_csrf app htoken), fun other hother => ?_, List.forall_mem_cons.2 ⟨htoken, h.token⟩⟩
  by_cases hbase : app.base = other.base
  · have : app = other := List.inj_on_of_nodup_map hbases happ hother hbase
    subst this
    rw [Jar.value_set_self, lastToken_cons_self rfl]
  · rw [Jar.value_set_of_ne (hnames other hother app happ (Ne.symm hbase)), lastToken_cons_of_ne hbase]
    exact h.value other hother

theorem Run.tracks (h : Run apps loads jar) (hnames : Named apps) (hbases : (apps.map App.base).Nodup) :
    Tracks apps loads jar := by
  induction h with
  | start =>
    refine ⟨⟨List.nodup_nil, fun c hc => absurd hc List.not_mem_nil⟩, fun app _ => rfl, fun l hl => ?_⟩
    exact absurd hl List.not_mem_nil
  | load h happ hcookies hminted ih => exact ih.load hnames hbases happ (wellFormed_pageToken hminted)
  | other h hformed hname ih =>
    refine ⟨ih.held.set hformed, fun app happ => ?_, ih.token⟩
    rw [Jar.value_set_of_ne (hname app happ)]
    exact ih.value app happ
  | expire h hname ih =>
    refine ⟨ih.held.drop _, fun app happ => ?_, ih.token⟩
    rw [Jar.value_drop_of_ne (hname app happ)]
    exact ih.value app happ

/-- What an app reads from a header with the cookies of the jar, in any order. -/
theorem Tracks.cookie_value_eq (h : Tracks apps loads jar) {app : App} (happ : app ∈ apps) {cookies : Jar}
    (hperm : cookies.Perm jar) :
    cookie_value (cookieHeader cookies) app.cookieName = lastToken app.base loads := by
  rw [cookie_value_cookieHeader (h.held.perm hperm), Jar.value_perm hperm h.held, h.value app happ]

theorem Tracks.lastToken_wellFormed (h : Tracks apps loads jar) {base token : Str}
    (hlast : lastToken base loads = some token) : csrf_token_well_formed token = true := by
  obtain ⟨l, hl, rfl⟩ := Option.map_eq_some_iff.1 hlast
  exact h.token l (List.mem_of_find?_eq_some hl)

/-- A request is let through if, and only if, it repeats the last token. -/
theorem Tracks.csrf_pair_valid_iff (h : Tracks apps loads jar) (base header_tok : Str) :
    csrf_pair_valid ((lastToken base loads).getD []) header_tok = true ↔ lastToken base loads = some header_tok := by
  unfold csrf_pair_valid
  rw [Bool.and_eq_true, Bool.and_eq_true, beq_iff_eq]
  cases hlast : lastToken base loads with
  | none =>
    constructor
    · rintro ⟨⟨hnil, -⟩, -⟩
      exact absurd hnil (by decide)
    · intro h
      cases h
  | some token =>
    have htoken := h.lastToken_wellFormed hlast
    constructor
    · rintro ⟨-, heq⟩
      exact congrArg some heq
    · rintro heq
      cases heq
      exact ⟨⟨htoken, htoken⟩, rfl⟩

theorem isolated_of_named (hnames : Named apps) (hbases : (apps.map App.base).Nodup) : Isolated apps where
  reads loads jar hrun app happ cookies hperm := (hrun.tracks hnames hbases).cookie_value_eq happ hperm
  accepts loads jar hrun app happ cookies hperm header_tok := by
    have h := hrun.tracks hnames hbases
    rw [h.cookie_value_eq happ hperm]
    exact h.csrf_pair_valid_iff app.base header_tok
  kept loads token jar before hbefore other hother hafter app happ hne cookies cookies' hperm hperm' := by
    rw [(hbefore.tracks hnames hbases).cookie_value_eq happ hperm,
      (hafter.tracks hnames hbases).cookie_value_eq happ hperm', lastToken_cons_of_ne (Ne.symm hne)]

end Runs

/-! ### Base paths that share a name -/

/-- Two base paths are the same but for characters that are no letters and no digits. -/
def Alike : Str → Str → Prop := List.Forall₂ fun c d => c = d ∨ c.isAlphanum = false ∧ d.isAlphanum = false

theorem suffixChar_eq_iff (c d : Char) :
    suffixChar c = suffixChar d ↔ c = d ∨ c.isAlphanum = false ∧ d.isAlphanum = false := by
  have hne : ∀ c : Char, c.isAlphanum = true → c ≠ '_' := by
    rintro c hc rfl
    revert hc
    decide
  unfold suffixChar
  by_cases hc : c.isAlphanum = true <;> by_cases hd : d.isAlphanum = true
  · simp [hc, hd]
  · rw [if_pos hc, if_neg hd]
    constructor
    · intro h
      exact absurd h (hne c hc)
    · rintro (rfl | h)
      · exact absurd hc hd
      · exact absurd hc (by simp [h.1])
  · rw [if_neg hc, if_pos hd]
    constructor
    · intro h
      exact absurd h.symm (hne d hd)
    · rintro (rfl | h)
      · exact absurd hd hc
      · exact absurd hd (by simp [h.2])
  · simp [hc, hd]

theorem map_suffixChar_eq_iff (s t : Str) : s.map suffixChar = t.map suffixChar ↔ Alike s t := by
  rw [← List.forall₂_eq_eq_eq, List.forall₂_map_left_iff, List.forall₂_map_right_iff]
  unfold Alike
  simp only [suffixChar_eq_iff]

theorem cookieName_eq_iff (A B : App) : A.cookieName = B.cookieName ↔ A.secure = B.secure ∧ Alike A.base B.base := by
  unfold App.cookieName
  rw [csrf_cookie_name_for_eq, csrf_cookie_name_for_eq, ← map_suffixChar_eq_iff]
  constructor
  · intro h
    have hsecure : A.secure = B.secure := by
      have hthird := congrArg (·[2]?) h
      revert hthird
      cases A.secure <;> cases B.secure <;> simp [namePrefix]
    rw [hsecure] at h
    exact ⟨hsecure, List.append_cancel_left h⟩
  · rintro ⟨hsecure, hmap⟩
    rw [hsecure, hmap]

/-- An app reads the token of another one with a base path alike. -/
theorem not_isolated_of_alike {apps : List App} {A B : App} (hA : A ∈ apps) (hB : B ∈ apps)
    (hbase : A.base ≠ B.base) (hsecure : A.secure = B.secure) (halike : Alike A.base B.base) : ¬ Isolated apps := by
  intro h
  set minted : Str := List.replicate 64 'a' with hminted
  have hformed : csrf_token_well_formed minted = true := by
    rw [hminted]
    decide
  have hrun : Run apps [(A, minted)] [(A.cookieName, minted)] := by
    have hload := Run.load Run.start hA (List.Perm.refl []) hformed
    have htoken : pageToken (cookieHeader []) A.cookieName minted = minted := rfl
    rw [htoken, receive_csrf_set_cookie _ _ hformed] at hload
    exact hload
  have hread := h.reads _ _ hrun B hB _ (List.Perm.refl _)
  have hheld : Jar.Held [(A.cookieName, minted)] := by
    refine ⟨List.nodup_singleton _, fun c hc => ?_⟩
    rw [List.mem_singleton.1 hc]
    exact wellFormed_csrf A hformed
  rw [cookie_value_cookieHeader hheld, ← (cookieName_eq_iff A B).2 ⟨hsecure, halike⟩,
    lastToken_cons_of_ne hbase] at hread
  have hself : Jar.value [(A.cookieName, minted)] A.cookieName = some minted := Jar.value_set_self [] _ _
  rw [hself] at hread
  cases hread

/-- Tokens do not cross apps if, and only if, no two base paths are the same but for characters that are
no letters and no digits, in apps with the same transport for their cookies. -/
theorem csrf_isolated_iff (apps : List App) (hbases : (apps.map App.base).Nodup) :
    Isolated apps ↔ ∀ A ∈ apps, ∀ B ∈ apps, A.base ≠ B.base → A.secure = B.secure → ¬ Alike A.base B.base := by
  constructor
  · intro h A hA B hB hbase hsecure halike
    exact not_isolated_of_alike hA hB hbase hsecure halike h
  · intro h
    refine isolated_of_named (fun A hA B hB hbase hname => ?_) hbases
    obtain ⟨hsecure, halike⟩ := (cookieName_eq_iff A B).1 hname
    exact h A hA B hB hbase hsecure halike

/-- Apps with base paths that are not alike. -/
def shopAndBlog : List App := [⟨"/shop".toList, false, false⟩, ⟨"blog/".toList, false, false⟩]

theorem csrf_isolated_iff_shop : (shopAndBlog.map App.base).Nodup ∧ (Isolated shopAndBlog ↔
    ∀ A ∈ shopAndBlog, ∀ B ∈ shopAndBlog, A.base ≠ B.base → A.secure = B.secure → ¬ Alike A.base B.base) :=
  ⟨by decide, csrf_isolated_iff shopAndBlog (by decide)⟩

/-- The apps at `/a-b` and `/a_b` share a cookie. -/
theorem tokens_cross : ∃ apps : List App, (apps.map App.base).Nodup ∧ ¬ Isolated apps := by
  refine ⟨[⟨"/a-b".toList, false, false⟩, ⟨"/a_b".toList, false, false⟩], by decide, ?_⟩
  refine not_isolated_of_alike (List.mem_cons_self) (List.mem_cons_of_mem _ List.mem_cons_self) (by decide) rfl ?_
  refine (map_suffixChar_eq_iff _ _).1 ?_
  decide

end IpeLang.Runtime.Csrf
