import IpeLang.Hot.Apply

/-!
# Scanning emitted code

The classifier of edits reads the data that the emitted code bakes from its text, and compares the rest
of two texts. Positions are those of characters, and a scanner that meets anything else than what the
emitter writes refuses the text.

* `parse_string_literal`, `parse_string_array`, `match_close_paren`: read at a position;
* `scan_channels`: all data of one text;
* `mask_spans`, `skeleton`: the text without its data.
-/

namespace IpeLang.Hot

open Lib (Str)

/-- The first position where a text occurs in another one. -/
def find (pat : Str) : Str → Option ℕ
  | [] => if pat = [] then some 0 else none
  | c :: s => if pat.isPrefixOf (c :: s) then some 0 else (find pat s).map (· + 1)

/-- The first position from `start` on where a text occurs in another one. -/
def findFrom (pat src : Str) (start : ℕ) : Option ℕ := (find pat (src.drop start)).map (start + ·)

def isAsciiWhitespace (c : Char) : Bool :=
  c == ' ' || c == '\t' || c == '\n' || c == '\x0c' || c == '\r'

/-- The first position from `pos` on without white space. -/
def skip_ws (src : Str) (pos : ℕ) : ℕ := pos + ((src.drop pos).takeWhile isAsciiWhitespace).length

/-! ### Literals -/

/-- The digits and the closing brace of an escape. At most six digits are read. -/
def unicodeDigits (code digits : ℕ) : Str → ℕ → Option (Char × ℕ)
  | [], _ => none
  | c :: s, i =>
    if c = '}' then
      if digits = 0 then none
      else if code.isValidChar then some (Char.ofNat code, i + 1)
      else none
    else do
      let d ← Lib.hexValue c
      if 6 < digits + 1 then none else unicodeDigits (code * 16 + d) (digits + 1) s (i + 1)

def parse_unicode_escape (src : Str) (pos : ℕ) : Option (Char × ℕ) :=
  if src[pos]? = some '{' then unicodeDigits 0 0 (src.drop (pos + 1)) (pos + 1) else none

/-- The escapes of one letter. -/
def shortEscape (esc : Char) : Option Char :=
  [('"', '"'), ('\\', '\\'), ('n', '\n'), ('r', '\r'), ('t', '\t'), ('0', '\x00')].lookup esc

/-- The value of a literal from a position inside it on, and the position after it. -/
def literalBody (src : Str) : ℕ → ℕ → Option (Str × ℕ)
  | 0, _ => none
  | fuel + 1, i => do
    let c ← src[i]?
    if c = '"' then some ([], i + 1)
    else
      let (ch, next) ←
        if c = '\\' then do
          let esc ← src[i + 1]?
          if esc = 'u' then parse_unicode_escape src (i + 2)
          else (shortEscape esc).map fun ch => (ch, i + 2)
        else some (c, i + 1)
      let (out, stop) ← literalBody src fuel next
      some (ch :: out, stop)

/-- The value of the literal at a position, and the position after it. -/
def parse_string_literal (src : Str) (pos : ℕ) : Option (Str × ℕ) :=
  if src[pos]? = some '"' then literalBody src src.length (pos + 1) else none

/-- The items of an array from a position on, and the position of its closing bracket. -/
def arrayItems (src : Str) : ℕ → ℕ → Option (List Str × ℕ)
  | 0, _ => none
  | fuel + 1, pos => do
    let pos := skip_ws src pos
    let c ← src[pos]?
    if c = ']' then some ([], pos)
    else if c = '"' then do
      let (s, next) ← parse_string_literal src pos
      let pos := skip_ws src next
      let c ← src[pos]?
      if c = ',' then do
        let (values, stop) ← arrayItems src fuel (pos + 1)
        some (s :: values, stop)
      else if c = ']' then some ([s], pos)
      else none
    else none

def parse_string_array (src : Str) (pos : ℕ) : Option (List Str × ℕ) :=
  arrayItems src (src.length + 1) pos

/-- The position of the parenthesis that closes `depth` open ones. Those in literals do not count. -/
def closeParen (src : Str) : ℕ → ℕ → ℕ → Option ℕ
  | 0, _, _ => none
  | fuel + 1, depth, pos => do
    let c ← src[pos]?
    if c = '"' then do
      let (_, next) ← parse_string_literal src pos
      closeParen src fuel depth next
    else if c = '(' then closeParen src fuel (depth + 1) (pos + 1)
    else if c = ')' then
      if depth = 1 then some pos else closeParen src fuel (depth - 1) (pos + 1)
    else closeParen src fuel depth (pos + 1)

def match_close_paren (src : Str) (pos : ℕ) : Option ℕ := closeParen src (src.length + 1) 1 pos

/-! ### Scanners -/

/-- Read what follows every occurrence of a text. The reader is given the position after it, and says
where the search goes on. -/
def scanAll {α : Type} (pat src : Str) (readAt : ℕ → Option (α × ℕ)) : ℕ → ℕ → Option (List α)
  | 0, _ => none
  | fuel + 1, start =>
    match findFrom pat src start with
    | none => some []
    | some at_ => do
      let (a, next) ← readAt (at_ + pat.length)
      let rest ← scanAll pat src readAt fuel next
      some (a :: rest)

/-- A part of a text. -/
structure MaskSpan where
  start : ℕ
  stop : ℕ
  deriving DecidableEq, Repr

/-- The array of default values of a view. -/
structure DefaultsArray where
  inner : MaskSpan
  values : List Str
  deriving DecidableEq

/-- A datum that is the first argument of a call. -/
structure TransitionData where
  inner : MaskSpan
  json : Str
  deriving DecidableEq

/-- A datum and the second argument of its call, which says the same. -/
structure InitData where
  json_inner : MaskSpan
  arg2 : MaskSpan
  json : Str
  deriving DecidableEq

def DEFAULTS_OPEN : Str := "from_defaults(&[".toList

def MSG_SET_OPEN : Str := "const IPE_WEB_MSG_SET: &str = ".toList

def TRANSITION_OPEN : Str := "apply_transition_hot(".toList

def SUB_OPEN : Str := "sub_every_hot(".toList

def INIT_OPEN : Str := "apply_init_hot(".toList

def WIRING_OPEN : Str := "select_cmd_hot(".toList

def HOISTED_READ_OPEN : Str := "__ipe_lit.get(".toList

def UNWRAP_OR_OPEN : Str := ".unwrap_or(".toList

def scan_defaults_arrays (src : Str) : Option (List DefaultsArray) :=
  scanAll DEFAULTS_OPEN src (fun inner_start => do
    let (values, inner_end) ← parse_string_array src inner_start
    some (⟨⟨inner_start, inner_end⟩, values⟩, inner_end)) (src.length + 1) 0

/-- The first argument of a call, which is a literal, and the position after it. -/
def readDatum (src : Str) (args : ℕ) : Option (TransitionData × ℕ) := do
  let arg_at := skip_ws src args
  let (json, next) ← parse_string_literal src arg_at
  some (⟨⟨arg_at + 1, next - 1⟩, json⟩, next)

/-- The data of all calls that start with a text. -/
def scanData (pat src : Str) : Option (List TransitionData) :=
  scanAll pat src (readDatum src) (src.length + 1) 0

def scan_transition_data (src : Str) : Option (List TransitionData) := scanData TRANSITION_OPEN src

def scan_sub_data (src : Str) : Option (List TransitionData) := scanData SUB_OPEN src

def scan_wiring_data (src : Str) : Option (List TransitionData) := scanData WIRING_OPEN src

def scan_init_data (src : Str) : Option (List InitData) :=
  scanAll INIT_OPEN src (fun call_open => do
    let (datum, after_str) ← readDatum src call_open
    let comma := skip_ws src after_str
    if src[comma]? ≠ some ',' then none
    else do
      let arg2_start := skip_ws src (comma + 1)
      let close ← match_close_paren src call_open
      if close < arg2_start then none
      else some (⟨datum.inner, ⟨arg2_start, close⟩, datum.json⟩, close)) (src.length + 1) 0

/-- The descriptor of the messages, if there is one. -/
def scan_msg_set_located (src : Str) : Option (Str × MaskSpan) := do
  let rel ← find MSG_SET_OPEN src
  let (datum, _) ← readDatum src (rel + MSG_SET_OPEN.length)
  some (datum.json, datum.inner)

def scan_msg_set (src : Str) : Option Str := (scan_msg_set_located src).map Prod.fst

/-- All data of one text. -/
structure Channels where
  arrays : List DefaultsArray
  trans : List TransitionData
  subs : List TransitionData
  inits : List InitData
  wire : List TransitionData
  msg_set : Option Str

def scan_channels (src : Str) : Option Channels := do
  some ⟨← scan_defaults_arrays src, ← scan_transition_data src, ← scan_sub_data src,
    ← scan_init_data src, ← scan_wiring_data src, scan_msg_set src⟩

def channels_counts_match (prev next : Channels) : Bool :=
  prev.arrays.length == next.arrays.length && prev.trans.length == next.trans.length &&
    prev.subs.length == next.subs.length && prev.inits.length == next.inits.length &&
    prev.wire.length == next.wire.length

/-! ### The rest of a text -/

/-- The fallbacks of the reads of a table, which repeat its default values. -/
def scanFallbacks (src : Str) : ℕ → ℕ → Option (List MaskSpan)
  | 0, _ => none
  | fuel + 1, start =>
    match findFrom HOISTED_READ_OPEN src start with
    | none => some []
    | some read_at => do
      let after_read := read_at + HOISTED_READ_OPEN.length
      let window_end := (findFrom HOISTED_READ_OPEN src after_read).getD src.length
      let spans ← match findFrom UNWRAP_OR_OPEN (src.take window_end) after_read with
        | none => some []
        | some u_at => do
          let arg_start := u_at + UNWRAP_OR_OPEN.length
          let arg_end ← match_close_paren src arg_start
          some [(⟨arg_start, arg_end⟩ : MaskSpan)]
      let rest ← scanFallbacks src fuel after_read
      some (spans ++ rest)

def scan_hoisted_read_fallbacks (src : Str) : Option (List MaskSpan) :=
  scanFallbacks src (src.length + 1) 0

/-- Add a span to spans that are ordered by their start, after those with the same start. -/
def insertSpan (span : MaskSpan) : List MaskSpan → List MaskSpan
  | [] => [span]
  | other :: spans =>
    if span.start < other.start then span :: other :: spans else other :: insertSpan span spans

/-- The parts of a text that hold its data, ordered by their start. -/
def mask_spans (src : Str) (ch : Channels) : Option (List MaskSpan) := do
  let fallbacks ← scan_hoisted_read_fallbacks src
  let spans := ch.arrays.map DefaultsArray.inner ++ ch.trans.map TransitionData.inner ++
    ch.subs.map TransitionData.inner ++ ch.inits.flatMap (fun t => [t.json_inner, t.arg2]) ++
    ch.wire.map TransitionData.inner ++ fallbacks ++
    ((scan_msg_set_located src).map Prod.snd).toList
  some (spans.foldl (fun sorted span => insertSpan span sorted) [])

/-- The text from `cursor` on with one character for every span. -/
def skeletonFrom (src : Str) (cursor : ℕ) : List MaskSpan → Str
  | [] => src.drop cursor
  | s :: spans =>
    if s.start < cursor then skeletonFrom src cursor spans
    else (src.take s.start).drop cursor ++ '\x00' :: skeletonFrom src s.stop spans

def skeleton (src : Str) (spans : List MaskSpan) : Str := skeletonFrom src 0 spans

end IpeLang.Hot
