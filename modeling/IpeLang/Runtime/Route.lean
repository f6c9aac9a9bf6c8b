import IpeLang.Runtime.Encoding

/-!
# Routes of a web app

A route has a pattern, of literal segments and parameters, and a builder of a page from what the
parameters captured. A page is rendered through its route into a path, which is its canonical one, and a
request by another path of the page is redirected there.

* `RoutePattern.parse`, `match_route`, `first_built`: from a path to a page;
* `render_route`: from a page to its path;
* `resolve`, `canonical_redirect`: what becomes of a request;
* `routing_settles`: a redirect leads to a path that asks for none, of the same page.
-/

namespace IpeLang.Runtime.Routing

open Lib (Str isControl)
open Encoding (DecodedPath DecodeRefusal EncodeRefusal ParamNameRefusal ParamNames.admit
  raw_path_segments decode_path_segment encode_path_segment MAX_URL_COMPONENT_LEN byteLen
  QueryText.parse EncodedBase.encode Encodes pathOf slashed)

inductive PatternSeg
  | Literal (text : Str)
  | Param (name : Str)
  deriving DecidableEq

structure RoutePattern where
  segments : List PatternSeg
  deriving DecidableEq

inductive RouteSegmentRefusal
  | Decode (refusal : DecodeRefusal)
  | ParamName (refusal : ParamNameRefusal)
  deriving DecidableEq

/-- The segments of a pattern, after the parameters of those before them. -/
def parseSegments (names : List Str) : List Str → Except RouteSegmentRefusal (List PatternSeg)
  | [] => .ok []
  | (':' :: name) :: raws =>
    match ParamNames.admit names name with
    | .error refusal => .error (.ParamName refusal)
    | .ok name => (parseSegments (name :: names) raws).map (.Param name :: ·)
  | raw :: raws =>
    match decode_path_segment raw with
    | .error refusal => .error (.Decode refusal)
    | .ok text => (parseSegments names raws).map (.Literal text :: ·)

def RoutePattern.parse (pattern : Str) : Except RouteSegmentRefusal RoutePattern :=
  match raw_path_segments pattern with
  | .error refusal => .error (.Decode refusal)
  | .ok raws => (parseSegments [] raws).map .mk

structure RoutePatternRefusal where
  pattern : Str
  refusal : RouteSegmentRefusal
  deriving DecidableEq

variable {Page F : Type}

structure Route (Page : Type) where
  pattern : Except RoutePatternRefusal RoutePattern
  build : List Str → Option Page

/-- Register a pattern. One that does not parse is kept as its refusal. -/
def Route.new (pattern : Str) (build : List Str → Option Page) : Route Page :=
  ⟨(RoutePattern.parse pattern).mapError fun refusal => ⟨pattern, refusal⟩, build⟩

/-- Refuse a table with a malformed pattern. -/
def check_route_table : List (Route Page) → Except RoutePatternRefusal Unit
  | [] => .ok ()
  | rt :: routes =>
    match rt.pattern with
    | .error refusal => .error refusal
    | .ok _ => check_route_table routes

/-! ### Matching -/

/-- What the parameters of a pattern capture, segment by segment. -/
def capture : List PatternSeg → List Str → Option (List Str)
  | .Param _ :: pat, us :: segs => (capture pat segs).map (us :: ·)
  | .Literal lit :: pat, us :: segs => if lit = us then capture pat segs else none
  | _, _ => some []

def match_route (pattern : RoutePattern) (path : DecodedPath) : Option (List Str) :=
  if pattern.segments.length ≠ path.segments.length then none
  else capture pattern.segments path.segments

/-- The page that a route builds for a path. -/
def Route.built (rt : Route Page) (path : DecodedPath) : Option Page :=
  match rt.pattern with
  | .ok pattern => (match_route pattern path).bind rt.build
  | .error _ => none

/-- The first page that is built by the routes from position `i` on. -/
def firstFrom (path : DecodedPath) (i : ℕ) : List (Route Page) → Option (ℕ × Page)
  | [] => none
  | rt :: routes =>
    match rt.built path with
    | some page => some (i, page)
    | none => firstFrom path (i + 1) routes

def first_built (routes : List (Route Page)) (path : DecodedPath) : Option (ℕ × Page) :=
  firstFrom path 0 routes

/-! ### Rendering -/

/-- The floating-point numbers: which are finite, and their texts. -/
structure Floats (F : Type) where
  is_finite : F → Bool
  to_string : F → Str

inductive RenderArg (F : Type)
  | Int (n : ℤ)
  | Bool (b : Bool)
  | Float (x : F)
  | Text (s : Str)

/-- The text of a value as a parameter. -/
def RenderArg.text (floats : Floats F) : RenderArg F → Str
  | .Int n => (toString n).toList
  | .Bool b => if b then "true".toList else "false".toList
  | .Float x => floats.to_string x
  | .Text s => s

inductive RenderRefusal
  | Shadowed
  | EmptySegment
  | DotSegment
  | NonFinite
  | TooLong
  | NoRoute
  deriving DecidableEq

def RenderRefusal.ofEncode : EncodeRefusal → RenderRefusal
  | .Empty => .EmptySegment
  | .Dot => .DotSegment
  | .TooLong _ => .TooLong

/-- A path, and what it is read back as. -/
structure RoutePath where
  text : Str
  decoded : DecodedPath
  deriving DecidableEq

section Percent

variable [Lib.Percent.Library]

/-- The next segment of a path, and the values that are left. -/
def renderSeg (floats : Floats F) : PatternSeg → List (RenderArg F) →
    Except RenderRefusal (Str × List (RenderArg F))
  | .Literal lit, args => ((encode_path_segment lit).mapError .ofEncode).map (·, args)
  | .Param _, [] => .error .NoRoute
  | .Param _, .Float x :: args =>
    if !floats.is_finite x then .error .NonFinite
    else ((encode_path_segment (floats.to_string x)).mapError .ofEncode).map (·, args)
  | .Param _, arg :: args => ((encode_path_segment (arg.text floats)).mapError .ofEncode).map (·, args)

/-- Append the segments of a path to a text. -/
def renderSegs (floats : Floats F) (text : Str) : List PatternSeg → List (RenderArg F) →
    Except RenderRefusal Str
  | [], _ => .ok text
  | seg :: pat, args =>
    match renderSeg floats seg args with
    | .error refusal => .error refusal
    | .ok (encoded, args) =>
      let text := text ++ '/' :: encoded
      if MAX_URL_COMPONENT_LEN < byteLen text then .error .TooLong
      else renderSegs floats text pat args

def RoutePattern.param_names (pattern : RoutePattern) : List Str :=
  pattern.segments.filterMap fun
    | .Param name => some name
    | .Literal _ => none

def render_route (floats : Floats F) (routes : List (Route Page)) (index : ℕ) (args : List (RenderArg F)) :
    Except RenderRefusal RoutePath :=
  match routes[index]?.map Route.pattern with
  | some (.ok pattern) =>
    if pattern.param_names.length ≠ args.length then .error .NoRoute
    else
      match renderSegs floats [] pattern.segments args with
      | .error refusal => .error refusal
      | .ok text =>
        let text := if text.isEmpty then ['/'] else text
        match DecodedPath.parse text with
        | .error _ => .error .TooLong
        | .ok path =>
          match first_built routes path with
          | some (j, _) => if j = index then .ok ⟨text, path⟩ else .error .Shadowed
          | none => .error .Shadowed
  | _ => .error .NoRoute

end Percent

/-! ### Requests -/

inductive Matched (Page : Type)
  | Hit (page : Page) (canonical : RoutePath)
  | Miss
  deriving DecidableEq

def resolve (routes : List (Route Page)) (path : DecodedPath)
    (render : Page → Except RenderRefusal RoutePath) : Matched Page :=
  match first_built routes path with
  | some (_, page) =>
    match render page with
    | .ok canonical => .Hit page canonical
    | .error _ => .Miss
  | none => .Miss

inductive Redirect
  | Serve
  | To (location : Str)
  | BadQuery
  deriving DecidableEq

/-- A text as the value of a header: visible characters of ASCII, spaces and tabs. -/
def headerValue (s : Str) : Option Str :=
  if s.all fun c => (32 ≤ c.val && c.val < 127) || c == '\t' then some s else none

def canonical_redirect (base raw_path : Str) (raw_query : Option Str) (canonical : RoutePath) : Redirect :=
  if raw_path = canonical.text then .Serve
  else
    let location := base ++ canonical.text
    let location? : Option Str :=
      match raw_query with
      | none => some location
      | some raw =>
        match QueryText.parse raw with
        | .ok query => some (location ++ '?' :: query)
        | .error _ => none
    match location?.bind headerValue with
    | some location => .To location
    | none => .BadQuery

/-! ### The canonical path -/

variable {floats : Floats F}

/-- The texts of the segments that a pattern and some values are rendered to. -/
def renderTexts (floats : Floats F) : List PatternSeg → List (RenderArg F) → List Str
  | .Literal lit :: pat, args => lit :: renderTexts floats pat args
  | .Param _ :: pat, arg :: args => arg.text floats :: renderTexts floats pat args
  | _, _ => []

/-- The number of parameters. -/
def paramCount (pat : List PatternSeg) : ℕ := (RoutePattern.mk pat).param_names.length

@[simp] theorem paramCount_nil : paramCount [] = 0 := rfl

@[simp] theorem paramCount_literal (lit : Str) (pat : List PatternSeg) :
    paramCount (.Literal lit :: pat) = paramCount pat := rfl

@[simp] theorem paramCount_param (name : Str) (pat : List PatternSeg) :
    paramCount (.Param name :: pat) = paramCount pat + 1 := rfl

/-- A pattern captures the values it was rendered with. -/
theorem capture_renderTexts {pat : List PatternSeg} {args : List (RenderArg F)}
    (h : paramCount pat = args.length) :
    capture pat (renderTexts floats pat args) = some (args.map (RenderArg.text floats)) ∧
      (renderTexts floats pat args).length = pat.length := by
  induction pat generalizing args with
  | nil =>
    rw [paramCount_nil] at h
    rw [List.eq_nil_of_length_eq_zero h.symm]
    exact ⟨rfl, rfl⟩
  | cons seg pat ih =>
    cases seg with
    | Literal lit =>
      obtain ⟨hcapture, hlength⟩ := ih h
      refine ⟨?_, by rw [renderTexts, List.length_cons, hlength, List.length_cons]⟩
      rw [renderTexts, capture, if_pos rfl, hcapture]
    | Param name =>
      cases args with
      | nil => cases h
      | cons arg args =>
        obtain ⟨hcapture, hlength⟩ := ih (Nat.succ.inj h)
        refine ⟨?_, by rw [renderTexts, List.length_cons, hlength, List.length_cons]⟩
        rw [renderTexts, capture, hcapture]
        rfl

theorem firstFrom_eq_some {routes : List (Route Page)} {path : DecodedPath} {i j : ℕ} {page : Page}
    (h : firstFrom path i routes = some (j, page)) :
    ∃ rt k, j = i + k ∧ routes[k]? = some rt ∧ rt.built path = some page := by
  induction routes generalizing i with
  | nil => cases h
  | cons rt routes ih =>
    unfold firstFrom at h
    split at h
    · rename_i found hbuilt
      cases h
      exact ⟨rt, 0, rfl, rfl, hbuilt⟩
    · obtain ⟨found, k, rfl, hget, hbuilt⟩ := ih h
      exact ⟨found, k + 1, by omega, hget, hbuilt⟩

theorem first_built_eq_some {routes : List (Route Page)} {path : DecodedPath} {j : ℕ} {page : Page}
    (h : first_built routes path = some (j, page)) :
    ∃ rt, routes[j]? = some rt ∧ rt.built path = some page := by
  obtain ⟨rt, k, rfl, hget, hbuilt⟩ := firstFrom_eq_some h
  exact ⟨rt, by rwa [Nat.zero_add], hbuilt⟩

theorem resolve_eq_hit {routes : List (Route Page)} {path : DecodedPath}
    {render : Page → Except RenderRefusal RoutePath} {page : Page} {canonical : RoutePath}
    (h : resolve routes path render = .Hit page canonical) : render page = .ok canonical := by
  unfold resolve at h
  split at h
  · split at h
    · rename_i hrender
      cases h
      exact hrender
    · cases h
  · cases h

section Render

variable [Lib.Percent.Library]

theorem encode_of_mapError {text encoded : Str} {args args' : List (RenderArg F)}
    (h : ((encode_path_segment text).mapError RenderRefusal.ofEncode).map (·, args) = .ok (encoded, args')) :
    encode_path_segment text = .ok encoded ∧ args = args' := by
  cases hencode : encode_path_segment text with
  | error e => rw [hencode] at h; cases h
  | ok s => rw [hencode] at h; cases h; exact ⟨rfl, rfl⟩

/-- A segment is the encoding of the literal, or of the next value. -/
theorem renderSeg_eq_ok {seg : PatternSeg} {args args' : List (RenderArg F)} {encoded : Str}
    (h : renderSeg floats seg args = .ok (encoded, args')) :
    (∃ lit, seg = .Literal lit ∧ encode_path_segment lit = .ok encoded ∧ args = args') ∨
      ∃ name arg, seg = .Param name ∧ args = arg :: args' ∧
        encode_path_segment (arg.text floats) = .ok encoded := by
  cases seg with
  | Literal lit =>
    obtain ⟨hencode, hargs⟩ := encode_of_mapError h
    exact .inl ⟨lit, rfl, hencode, hargs⟩
  | Param name =>
    cases args with
    | nil => cases h
    | cons arg args =>
      refine .inr ⟨name, arg, rfl, ?_⟩
      cases arg with
      | Float x =>
        rw [renderSeg] at h
        split at h
        · cases h
        · obtain ⟨hencode, rfl⟩ := encode_of_mapError h
          exact ⟨rfl, hencode⟩
      | Int n | Bool b | Text s =>
        obtain ⟨hencode, rfl⟩ := encode_of_mapError h
        exact ⟨rfl, hencode⟩

theorem renderSegs_eq_ok {pat : List PatternSeg} {args : List (RenderArg F)} {text out : Str}
    (h : renderSegs floats text pat args = .ok out) :
    ∃ segs, Encodes (renderTexts floats pat args) segs ∧ out = text ++ slashed segs := by
  induction pat generalizing text args with
  | nil =>
    cases h
    exact ⟨[], by unfold renderTexts; exact .nil, (List.append_nil _).symm⟩
  | cons seg pat ih =>
    unfold renderSegs at h
    split at h
    · cases h
    · rename_i encoded args' hseg
      dsimp only at h
      split_ifs at h
      obtain ⟨segs, hsegs, rfl⟩ := ih h
      have hcons : slashed (encoded :: segs) = '/' :: encoded ++ slashed segs := List.flatMap_cons
      refine ⟨encoded :: segs, ?_, by rw [hcons, List.append_assoc]⟩
      rcases renderSeg_eq_ok hseg with ⟨lit, rfl, hencode, rfl⟩ | ⟨name, arg, rfl, rfl, hencode⟩
      · exact .cons hencode hsegs
      · exact .cons hencode hsegs

/-- What a path that was rendered is. -/
structure Rendered (floats : Floats F) (routes : List (Route Page)) (index : ℕ) (args : List (RenderArg F))
    (canonical : RoutePath) (pattern : RoutePattern) : Prop where
  found : routes[index]?.map Route.pattern = some (.ok pattern)
  count : paramCount pattern.segments = args.length
  text : ∃ segs, Encodes (renderTexts floats pattern.segments args) segs ∧ canonical.text = pathOf segs
  parse : DecodedPath.parse canonical.text = .ok canonical.decoded
  first : ∃ page, first_built routes canonical.decoded = some (index, page)

theorem render_route_eq_ok {routes : List (Route Page)} {index : ℕ} {args : List (RenderArg F)}
    {canonical : RoutePath} (h : render_route floats routes index args = .ok canonical) :
    ∃ pattern, Rendered floats routes index args canonical pattern := by
  unfold render_route at h
  split at h
  · rename_i pattern hpattern
    refine ⟨pattern, ?_⟩
    split_ifs at h with hcount
    split at h
    · cases h
    · rename_i text hsegs
      dsimp only at h
      split at h
      · cases h
      · rename_i path hparse
        split at h
        · rename_i j page hfirst
          by_cases hindex : j = index
          · rw [if_pos hindex] at h
            obtain rfl := Except.ok.inj h
            subst hindex
            obtain ⟨segs, hencodes, hout⟩ := renderSegs_eq_ok hsegs
            rw [List.nil_append] at hout
            subst hout
            refine ⟨hpattern, not_not.1 hcount, ⟨segs, hencodes, ?_⟩, hparse, page, hfirst⟩
            cases segs with
            | nil => rfl
            | cons s segs => rfl
          · rw [if_neg hindex] at h
            cases h
        · cases h
  · cases h

/-- The segments of a canonical path are the texts that were rendered. -/
theorem Rendered.segments {routes : List (Route Page)} {index : ℕ} {args : List (RenderArg F)}
    {canonical : RoutePath} {pattern : RoutePattern}
    (h : Rendered floats routes index args canonical pattern) :
    canonical.decoded.segments = renderTexts floats pattern.segments args := by
  obtain ⟨segs, hencodes, htext⟩ := h.text
  exact Encoding.segments_of_parse hencodes (htext ▸ h.parse)

theorem Rendered.match_route {routes : List (Route Page)} {index : ℕ} {args : List (RenderArg F)}
    {canonical : RoutePath} {pattern : RoutePattern}
    (h : Rendered floats routes index args canonical pattern) :
    match_route pattern canonical.decoded = some (args.map (RenderArg.text floats)) := by
  have hcount : paramCount pattern.segments = args.length := h.count
  obtain ⟨hcapture, hlength⟩ :
      capture pattern.segments (renderTexts floats pattern.segments args) =
          some (args.map (RenderArg.text floats)) ∧
        (renderTexts floats pattern.segments args).length = pattern.segments.length :=
    capture_renderTexts h.count
  unfold Routing.match_route
  rw [h.segments, hlength, if_neg (not_not.2 rfl), hcapture]

/-! ### Renderers of pages -/

/-- The renderer of the pages of a table: the route of each page, and the values its parameters are
rendered from. What it renders, the builder of that route reads back. -/
structure PageRenderer (floats : Floats F) (routes : List (Route Page)) where
  index : Page → ℕ
  args : Page → List (RenderArg F)
  inverts : ∀ page canonical, render_route floats routes (index page) (args page) = .ok canonical →
    ∀ rt, routes[index page]? = some rt →
      rt.build ((args page).map (RenderArg.text floats)) = some page

variable {routes : List (Route Page)}

def PageRenderer.render (r : PageRenderer floats routes) (page : Page) : Except RenderRefusal RoutePath :=
  render_route floats routes (r.index page) (r.args page)

/-- The route table builds, for the canonical path of a page, that page. -/
theorem PageRenderer.first_built (r : PageRenderer floats routes) {page : Page} {canonical : RoutePath}
    (h : r.render page = .ok canonical) :
    Routing.first_built routes canonical.decoded = some (r.index page, page) := by
  obtain ⟨pattern, hrendered⟩ := render_route_eq_ok h
  obtain ⟨built, hfirst⟩ := hrendered.first
  obtain ⟨rt, hget, hbuilt⟩ := first_built_eq_some hfirst
  have hpattern : rt.pattern = .ok pattern := by
    have hfound := hrendered.found
    rw [hget] at hfound
    exact Option.some.inj hfound
  unfold Route.built at hbuilt
  rw [hpattern] at hbuilt
  dsimp only at hbuilt
  rw [hrendered.match_route, Option.bind_some, r.inverts page canonical h rt hget] at hbuilt
  rw [hfirst, Option.some.inj hbuilt]

theorem PageRenderer.resolve_canonical (r : PageRenderer floats routes) {page : Page} {canonical : RoutePath}
    (h : r.render page = .ok canonical) :
    resolve routes canonical.decoded r.render = .Hit page canonical := by
  unfold resolve
  rw [r.first_built h]
  dsimp only
  rw [h]

/-! ### Locations -/

theorem append_eq_ok {text out : Str} {segments : List Str}
    (h : Encoding.EncodedBase.append text segments = .ok out) :
    ∃ segs, Encodes segments segs ∧ out = text ++ slashed segs := by
  induction segments generalizing text with
  | nil =>
    cases h
    exact ⟨[], .nil, (List.append_nil _).symm⟩
  | cons segment segments ih =>
    unfold Encoding.EncodedBase.append at h
    cases hencode : encode_path_segment segment with
    | error e => rw [hencode] at h; cases h
    | ok encoded =>
      rw [hencode] at h
      change (if MAX_URL_COMPONENT_LEN < byteLen (text ++ '/' :: encoded) then _ else
        Encoding.EncodedBase.append (text ++ '/' :: encoded) segments) = _ at h
      split_ifs at h
      obtain ⟨segs, hsegs, rfl⟩ := ih h
      refine ⟨encoded :: segs, .cons hencode hsegs, ?_⟩
      have hcons : slashed (encoded :: segs) = '/' :: encoded ++ slashed segs := List.flatMap_cons
      rw [hcons, List.append_assoc]

end Render

/-- A text that begins with one separator: a client reads it as a path, and not as an authority. -/
def OneSlash (s : Str) : Prop := ∃ rest, s = '/' :: rest ∧ ∀ c ∈ rest.head?, c ≠ '/' ∧ c ≠ '\\'

theorem oneSlash_slashed {seg : Str} {segs : List Str} {t : Str} (h : Encoding.IsSegment seg) :
    OneSlash (slashed (seg :: segs) ++ t) := by
  refine ⟨seg ++ slashed segs ++ t, by rw [slashed, List.flatMap_cons]; rfl, fun c hc => ?_⟩
  cases seg with
  | nil => exact absurd rfl h.ne_nil
  | cons d seg =>
    cases hc
    have hchar := h.chars c List.mem_cons_self
    refine ⟨?_, ?_⟩ <;> rintro rfl <;> exact absurd hchar (by decide)

/-- The base, the path of a page and its query. -/
def locationOf (base path : Str) : Option Str → Str
  | none => base ++ path
  | some query => base ++ path ++ '?' :: query

theorem oneSlash_locationOf {base segs : List Str} {query : Option Str}
    (hbase : ∀ s ∈ base, Encoding.IsSegment s) (hsegs : ∀ s ∈ segs, Encoding.IsSegment s) :
    OneSlash (locationOf (slashed base) (pathOf segs) query) := by
  have hquery : ∃ t, locationOf (slashed base) (pathOf segs) query = slashed base ++ (pathOf segs ++ t) ∧
      ∀ c ∈ t.head?, c = '?' := by
    cases query with
    | none => exact ⟨[], by rw [List.append_nil]; rfl, by simp⟩
    | some query => exact ⟨'?' :: query, List.append_assoc _ _ _, by simp⟩
  obtain ⟨t, ht, hhead⟩ := hquery
  rw [ht]
  cases base with
  | cons s base => exact oneSlash_slashed (List.forall_mem_cons.1 hbase).1
  | nil =>
    rw [slashed, List.flatMap_nil, List.nil_append]
    cases segs with
    | cons s segs => exact oneSlash_slashed (List.forall_mem_cons.1 hsegs).1
    | nil =>
      refine ⟨t, rfl, fun c hc => ?_⟩
      rw [hhead c hc]
      decide

/-- A printed character of ASCII. -/
def Visible (c : Char) : Prop := 0x21 ≤ c.val ∧ c.val ≤ 0x7E

theorem Visible.not_control {c : Char} (h : Visible c) : isControl c = false := by
  obtain ⟨hlow, hhigh⟩ := h
  rw [UInt32.le_iff_toNat_le] at hlow hhigh
  simp only [isControl, Bool.or_eq_false_iff, Bool.and_eq_false_iff, decide_eq_false_iff_not,
    UInt32.lt_iff_toNat_lt, UInt32.le_iff_toNat_le, not_lt, not_le]
  simp at hlow hhigh ⊢
  omega

theorem headerValue_of_visible {s : Str} (h : ∀ c ∈ s, Visible c) : headerValue s = some s := by
  refine if_pos (List.all_eq_true.2 fun c hc => ?_)
  obtain ⟨hlow, hhigh⟩ := h c hc
  rw [UInt32.le_iff_toNat_le] at hlow hhigh
  simp only [Bool.or_eq_true, Bool.and_eq_true, decide_eq_true_eq, UInt32.le_iff_toNat_le,
    UInt32.lt_iff_toNat_lt]
  refine Or.inl ?_
  simp at hlow hhigh ⊢
  omega

theorem visible_of_queryRefusal {i : ℕ} {bytes : List UInt8} (h : Encoding.queryRefusal i bytes = none) :
    ∀ b ∈ bytes, 0x21 ≤ b ∧ b ≤ 0x7E := by
  induction bytes generalizing i with
  | nil => simp
  | cons b bytes ih =>
    unfold Encoding.queryRefusal at h
    split_ifs at h with _ _ hb
    exact List.forall_mem_cons.2 ⟨hb, ih h⟩

theorem visible_of_utf8 {s : Str} (h : ∀ b ∈ Lib.Percent.utf8 s, 0x21 ≤ b ∧ b ≤ 0x7E) :
    ∀ c ∈ s, Visible c := by
  intro c hc
  have hbytes : ∀ b ∈ String.utf8EncodeChar c, 0x21 ≤ b ∧ b ≤ 0x7E :=
    fun b hb => h b (List.mem_flatMap.2 ⟨c, hc, hb⟩)
  have hascii : c.val.toNat < 128 := by
    by_contra hle
    obtain ⟨b, hb⟩ := List.exists_mem_of_ne_nil _ (String.utf8EncodeChar_ne_nil (c := c))
    have hlow := Lib.Percent.le_of_mem_utf8EncodeChar (not_lt.1 hle) b hb
    have hhigh := UInt8.le_iff_toNat_le.1 (hbytes b hb).2
    simp at hhigh
    omega
  rw [Lib.Percent.utf8EncodeChar_ascii (UInt32.lt_iff_toNat_lt.2 hascii)] at hbytes
  have hb := hbytes _ List.mem_cons_self
  rw [UInt8.le_iff_toNat_le, UInt8.le_iff_toNat_le, UInt32.toNat_toUInt8, Nat.mod_eq_of_lt (by omega)] at hb
  exact ⟨UInt32.le_iff_toNat_le.2 hb.1, UInt32.le_iff_toNat_le.2 hb.2⟩

theorem visible_of_parse {raw query : Str} (h : QueryText.parse raw = .ok query) :
    query = raw ∧ ∀ c ∈ raw, Visible c := by
  unfold QueryText.parse at h
  split_ifs at h
  split at h
  · cases h
  · rename_i hrefusal
    exact ⟨(Except.ok.inj h).symm, visible_of_utf8 (visible_of_queryRefusal hrefusal)⟩

theorem visible_segment {s : Str} (h : Encoding.IsSegment s) : ∀ c ∈ s, Visible c := by
  intro c hc
  have hchar := h.chars c hc
  simp only [Encoding.isSegmentChar, Bool.and_eq_true, decide_eq_true_eq] at hchar
  exact hchar.1.1

theorem visible_slashed {segs : List Str} (h : ∀ s ∈ segs, Encoding.IsSegment s) :
    ∀ c ∈ slashed segs, Visible c := by
  intro c hc
  obtain ⟨s, hs, hmem⟩ := List.mem_flatMap.1 hc
  rcases List.mem_cons.1 hmem with rfl | hmem
  · exact ⟨by decide, by decide⟩
  · exact visible_segment (h s hs) c hmem

theorem visible_pathOf {segs : List Str} (h : ∀ s ∈ segs, Encoding.IsSegment s) :
    ∀ c ∈ pathOf segs, Visible c := by
  unfold pathOf
  split_ifs
  · exact List.forall_mem_singleton.2 ⟨by decide, by decide⟩
  · exact visible_slashed h

/-- The query of a request can be sent back in a `Location`. -/
def carried (raw_query : Option Str) : Bool := raw_query.all fun raw => (QueryText.parse raw).isOk

theorem visible_locationOf {base path : Str} {raw_query : Option Str} (hbase : ∀ c ∈ base, Visible c)
    (hpath : ∀ c ∈ path, Visible c) (h : carried raw_query = true) :
    ∀ c ∈ locationOf base path raw_query, Visible c := by
  have hfront : ∀ c ∈ base ++ path, Visible c := List.forall_mem_append.2 ⟨hbase, hpath⟩
  cases raw_query with
  | none => exact hfront
  | some raw =>
    cases hparse : QueryText.parse raw with
    | error e =>
      rw [carried, Option.all_some, hparse] at h
      cases h
    | ok query =>
      have hmark : Visible '?' := ⟨by decide, by decide⟩
      exact List.forall_mem_append.2 ⟨hfront, List.forall_mem_cons.2 ⟨hmark, (visible_of_parse hparse).2⟩⟩

/-- A request by another path is redirected, where its query can be carried, and refused otherwise. -/
theorem canonical_redirect_eq {base raw_path : Str} {canonical : RoutePath} (raw_query : Option Str)
    (hbase : ∀ c ∈ base, Visible c) (hpath : ∀ c ∈ canonical.text, Visible c)
    (hne : raw_path ≠ canonical.text) :
    canonical_redirect base raw_path raw_query canonical =
      if carried raw_query then .To (locationOf base canonical.text raw_query) else .BadQuery := by
  have hheader (h : carried raw_query = true) := headerValue_of_visible (visible_locationOf hbase hpath h)
  rw [canonical_redirect, if_neg hne]
  cases raw_query with
  | none =>
    dsimp only
    rw [Option.bind_some, show headerValue (base ++ canonical.text) = _ from hheader rfl]
    rfl
  | some raw =>
    dsimp only
    cases hparse : QueryText.parse raw with
    | error e =>
      have hnot : carried (some raw) = false := by rw [carried, Option.all_some, hparse]; rfl
      rw [hnot]
      rfl
    | ok query =>
      obtain rfl := (visible_of_parse hparse).1
      have hcarried : carried (some query) = true := by rw [carried, Option.all_some, hparse]; rfl
      rw [Option.bind_some, show headerValue (base ++ canonical.text ++ '?' :: query) = _ from hheader hcarried,
        hcarried]
      rfl

/-! ### A request settles -/

section Settles

variable [Lib.Percent.Library] {routes : List (Route Page)}

/-- What holds of a page and its canonical path once a request was answered with them. -/
structure Settled (r : PageRenderer floats routes) (page : Page) (canonical : RoutePath) : Prop where
  /-- The canonical path is read back as the segments that were rendered. -/
  decodes : DecodedPath.parse canonical.text = .ok canonical.decoded ∧
    ∃ pattern, routes[r.index page]?.map Route.pattern = some (.ok pattern) ∧
      canonical.decoded.segments = renderTexts floats pattern.segments (r.args page)
  /-- It is a path of the same page, and its own canonical path. -/
  hit : resolve routes canonical.decoded r.render = .Hit page canonical
  serves : ∀ base raw_query, canonical_redirect base canonical.text raw_query canonical = .Serve
  /-- Any other path of the page is redirected, where its query can be carried. -/
  redirects : ∀ decoded base, EncodedBase.encode decoded = .ok base → ∀ raw_path, raw_path ≠ canonical.text →
    ∀ raw_query, canonical_redirect base raw_path raw_query canonical =
      if carried raw_query then .To (locationOf base canonical.text raw_query) else .BadQuery
  location : ∀ decoded base, EncodedBase.encode decoded = .ok base → ∀ raw_path raw_query location,
    canonical_redirect base raw_path raw_query canonical = .To location →
      location = locationOf base canonical.text raw_query ∧ OneSlash location ∧
        ∀ c ∈ location, isControl c = false

/-- A request that hits a page settles in one step. -/
theorem routing_settles (r : PageRenderer floats routes) (path : DecodedPath) (page : Page)
    (canonical : RoutePath) (h : resolve routes path r.render = .Hit page canonical) :
    Settled r page canonical := by
  have hrender := resolve_eq_hit h
  obtain ⟨pattern, hrendered⟩ := render_route_eq_ok hrender
  obtain ⟨segs, hencodes, htext⟩ := hrendered.text
  have hserves (base : Str) (raw_query : Option Str) :
      canonical_redirect base canonical.text raw_query canonical = .Serve := if_pos rfl
  have hpath : ∀ c ∈ canonical.text, Visible c := htext ▸ visible_pathOf hencodes.isSegment
  have hbase (decoded : DecodedPath) (base : Str) (h : EncodedBase.encode decoded = .ok base) :
      ∃ bases, base = slashed bases ∧ ∀ s ∈ bases, Encoding.IsSegment s := by
    obtain ⟨bases, hbases, heq⟩ := append_eq_ok h
    exact ⟨bases, heq, hbases.isSegment⟩
  refine ⟨⟨hrendered.parse, pattern, hrendered.found, hrendered.segments⟩, r.resolve_canonical hrender,
    hserves, fun decoded base hencode raw_path hne raw_query => ?_,
    fun decoded base hencode raw_path raw_query location hto => ?_⟩
  · obtain ⟨bases, rfl, hbases⟩ := hbase decoded base hencode
    exact canonical_redirect_eq raw_query (visible_slashed hbases) hpath hne
  · obtain ⟨bases, rfl, hbases⟩ := hbase decoded base hencode
    have hne : raw_path ≠ canonical.text := by
      rintro rfl
      rw [hserves] at hto
      cases hto
    rw [canonical_redirect_eq raw_query (visible_slashed hbases) hpath hne] at hto
    split_ifs at hto with hcarried
    cases hto
    refine ⟨rfl, htext ▸ oneSlash_locationOf hbases hencodes.isSegment, fun c hc => ?_⟩
    exact (visible_locationOf (visible_slashed hbases) hpath hcarried c hc).not_control

end Settles

/-- A table of a front page and of the pages of items, which are found by their names. -/
def shop : List (Route (Option Str)) :=
  [.new "/".toList fun _ => some none,
    .new "/item/:name".toList fun params => params.head?.map some]

def shopRenderer (floats : Floats Unit) : PageRenderer floats shop where
  index page := if page.isSome then 1 else 0
  args page := page.toList.map .Text
  inverts page canonical _ rt hget := by
    cases page with
    | none => cases hget; rfl
    | some name => cases hget; rfl

theorem routing_settles_shop :
    Settled (shopRenderer ⟨fun _ => true, fun _ => []⟩) (some "a b".toList)
        ⟨"/item/a%20b".toList, ⟨["item".toList, "a b".toList]⟩⟩ ∧
      canonical_redirect "/m".toList "/item/a%20b/".toList (some "x=1".toList)
          ⟨"/item/a%20b".toList, ⟨["item".toList, "a b".toList]⟩⟩ =
        .To "/m/item/a%20b?x=1".toList := by
  have hsettled := routing_settles (shopRenderer ⟨fun _ => true, fun _ => []⟩) ⟨["item".toList, "a b".toList]⟩
    (some "a b".toList) ⟨"/item/a%20b".toList, ⟨["item".toList, "a b".toList]⟩⟩ (by decide +kernel)
  refine ⟨hsettled, (hsettled.redirects ⟨["m".toList]⟩ "/m".toList (by decide +kernel)
    "/item/a%20b/".toList (by decide) (some "x=1".toList)).trans ?_⟩
  decide +kernel

end IpeLang.Runtime.Routing
