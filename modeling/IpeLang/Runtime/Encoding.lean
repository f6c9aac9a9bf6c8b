import IpeLang.Lib.Percent

/-!
# Paths and queries of URLs

Every component of a URL is decoded by one strict decoder, and what the runtime puts into a URL is
encoded so that this decoder reads it back.

* `decode_component`, `raw_path_segments`, `DecodedPath.parse`: reading;
* `encode_path_segment`, `EncodedBase.encode`, `QueryText.parse`: writing;
* `segments_of_parse`: the segments of a path that was put together of encoded ones.
-/

namespace IpeLang.Runtime.Encoding

open Lib (Str)
open Lib.Percent (utf8 ofUtf8 hex_value encode decode encodeByte Plain utf8_percent_encode)

/-- The bytes that `urlEncode` leaves as they are: letters, digits and `-`, `_`, `.`, `~`. -/
def QUERY (b : UInt8) : Bool :=
  (48 ≤ b && b ≤ 57) || (65 ≤ b && b ≤ 90) || (97 ≤ b && b ≤ 122) ||
    b == 45 || b == 95 || b == 46 || b == 126

inductive UrlGrammar
  | Path
  | Form
  deriving DecidableEq

def MAX_URL_COMPONENT_LEN : ℕ := 32 * 1024 * 1024

inductive DecodeRefusal
  | MalformedEscape (at_ : ℕ)
  | InvalidUtf8 (at_ : ℕ)
  | TooLong (cap : ℕ)
  deriving DecidableEq

/-- The length of a text in bytes. -/
def byteLen (s : Str) : ℕ := (utf8 s).length

/-- How many of the bytes are valid. -/
def valid_up_to (bytes : List UInt8) : ℕ :=
  Nat.findGreatest (fun n => (ofUtf8 (bytes.take n)).isSome = true) bytes.length

/-- Where in the raw component a decoded byte comes from. -/
def raw_offset_of : List UInt8 → ℕ → ℕ
  | _, 0 => 0
  | [], _ => 0
  | c :: rest, n + 1 =>
    if c = 37 then
      match rest with
      | _ :: _ :: rest => 3 + raw_offset_of rest n
      | _ => 3
    else 1 + raw_offset_of rest n

def decode_component_within (raw : Str) (grammar : UrlGrammar) (cap : ℕ) : Except DecodeRefusal Str :=
  if cap < byteLen raw then .error (.TooLong cap)
  else
    match decode (grammar = .Form) 0 (utf8 raw) with
    | .error at_ => .error (.MalformedEscape at_)
    | .ok out =>
      match ofUtf8 out with
      | some s => .ok s
      | none => .error (.InvalidUtf8 (raw_offset_of (utf8 raw) (valid_up_to out)))

def decode_component (raw : Str) (grammar : UrlGrammar) : Except DecodeRefusal Str :=
  decode_component_within raw grammar MAX_URL_COMPONENT_LEN

/-- Without the separators at the two ends. -/
def trim_slashes (path : Str) : Str := (path.dropWhile (· == '/')).rdropWhile (· == '/')

/-- The segments of a path, not decoded. -/
def raw_path_segments (path : Str) : Except DecodeRefusal (List Str) :=
  if MAX_URL_COMPONENT_LEN < byteLen path then .error (.TooLong MAX_URL_COMPONENT_LEN)
  else if (trim_slashes path).isEmpty then .ok []
  else .ok ((trim_slashes path).splitOn '/')

def decode_path_segment (raw : Str) : Except DecodeRefusal Str := decode_component raw .Path

def decode_path_segments (path : Str) : Except DecodeRefusal (List Str) := do
  let raws ← raw_path_segments path
  raws.mapM decode_path_segment

inductive EncodeRefusal
  | Empty
  | Dot
  | TooLong (cap : ℕ)
  deriving DecidableEq

/-- A text as one segment of a path. -/
def encode_path_segment [Lib.Percent.Library] (text : Str) : Except EncodeRefusal Str :=
  if text = [] then .error .Empty
  else if text = ['.'] ∨ text = ['.', '.'] then .error .Dot
  else if MAX_URL_COMPONENT_LEN < byteLen text then .error (.TooLong MAX_URL_COMPONENT_LEN)
  else
    let encoded := utf8_percent_encode QUERY text
    if MAX_URL_COMPONENT_LEN < byteLen encoded then .error (.TooLong MAX_URL_COMPONENT_LEN)
    else .ok encoded

inductive QueryTextRefusal
  | Byte (at_ : ℕ)
  | MalformedEscape (at_ : ℕ)
  | TooLong (cap : ℕ)
  deriving DecidableEq

/-- The first byte from an offset on that cannot stand in a query, and why. -/
def queryRefusal : ℕ → List UInt8 → Option QueryTextRefusal
  | _, [] => none
  | i, b :: rest =>
    if b = 37 ∧ !((rest[0]?.bind hex_value).isSome && (rest[1]?.bind hex_value).isSome) then
      some (.MalformedEscape i)
    else if b = 35 then some (.Byte i)
    else if 0x21 ≤ b ∧ b ≤ 0x7E then queryRefusal (i + 1) rest
    else some (.Byte i)

/-- A query that can be copied into a `Location`. -/
def QueryText.parse (raw : Str) : Except QueryTextRefusal Str :=
  if MAX_URL_COMPONENT_LEN < byteLen raw then .error (.TooLong MAX_URL_COMPONENT_LEN)
  else
    match queryRefusal 0 (utf8 raw) with
    | some e => .error e
    | none => .ok raw

/-- A path, its segments decoded. -/
structure DecodedPath where
  segments : List Str
  deriving DecidableEq

def DecodedPath.parse (path : Str) : Except DecodeRefusal DecodedPath :=
  (decode_path_segments path).map .mk

/-- Append the segments of a base to a text. -/
def EncodedBase.append [Lib.Percent.Library] (text : Str) : List Str → Except EncodeRefusal Str
  | [] => .ok text
  | segment :: rest => do
    let encoded ← encode_path_segment segment
    let text := text ++ '/' :: encoded
    if MAX_URL_COMPONENT_LEN < byteLen text then .error (.TooLong MAX_URL_COMPONENT_LEN)
    else EncodedBase.append text rest

def EncodedBase.encode [Lib.Percent.Library] (base : DecodedPath) : Except EncodeRefusal Str :=
  EncodedBase.append [] base.segments

/-! ### Names of parameters -/

inductive ParamNameRefusal
  | Empty
  | NotIdentifier (at_ : ℕ)
  | Duplicate (name : Str)
  deriving DecidableEq

def isIdentByte (b : UInt8) : Bool :=
  (48 ≤ b && b ≤ 57) || (65 ≤ b && b ≤ 90) || (97 ≤ b && b ≤ 122) || b == 95

def ParamName.parse (raw : Str) : Except ParamNameRefusal Str :=
  match utf8 raw with
  | [] => .error .Empty
  | first :: rest =>
    if isIdentByte first && !(48 ≤ first && first ≤ 57) then
      match (first :: rest).findIdx? fun b => !isIdentByte b with
      | some at_ => .error (.NotIdentifier at_)
      | none => .ok raw
    else .error (.NotIdentifier 0)

/-- Admit the name of a parameter, after those of its route before it. -/
def ParamNames.admit (names : List Str) (raw : Str) : Except ParamNameRefusal Str := do
  let name ← ParamName.parse raw
  if name ∈ names then .error (.Duplicate name) else .ok name

/-! ### Encoded segments -/

theorem plain_QUERY : Plain QUERY where
  lt := by
    intro b hb
    unfold QUERY at hb
    simp only [Bool.or_eq_true, Bool.and_eq_true, decide_eq_true_eq, beq_iff_eq, UInt8.le_iff_toNat_le,
      ← UInt8.toNat_inj] at hb
    simp at hb
    omega
  percent := by decide
  plus := by decide

/-- The characters of an encoded segment: visible ones of ASCII, without a separator. -/
def isSegmentChar (c : Char) : Bool := 0x21 ≤ c.val && c.val ≤ 0x7E && c != '/' && c != '\\'

theorem isSegmentChar_plain :
    ∀ n : Fin 128, QUERY (UInt8.ofNat n) = true → isSegmentChar (Char.ofNat n) = true := by decide

theorem isSegmentChar_hexDigit {n : ℕ} (h : n < 16) : isSegmentChar (Lib.Percent.hexDigit n) = true := by
  interval_cases n <;> decide

theorem isSegmentChar_encodeByte (b : UInt8) : ∀ c ∈ encodeByte QUERY b, isSegmentChar c = true := by
  have hb : b.toNat < 256 := b.toNat_lt
  unfold encodeByte
  split_ifs with h
  · have hlt := plain_QUERY.lt b h
    refine List.forall_mem_singleton.2 (isSegmentChar_plain ⟨b.toNat, hlt⟩ ?_)
    rwa [UInt8.ofNat_toNat]
  · simp only [List.forall_mem_cons]
    exact ⟨by decide, isSegmentChar_hexDigit (by omega), isSegmentChar_hexDigit (by omega), by simp⟩

/-- An encoded segment is not empty, and has visible characters only. -/
structure IsSegment (s : Str) : Prop where
  ne_nil : s ≠ []
  chars : ∀ c ∈ s, isSegmentChar c = true

theorem IsSegment.no_slash {s : Str} (h : IsSegment s) : '/' ∉ s := fun hmem => by
  have := h.chars '/' hmem
  revert this
  decide

theorem encode_path_segment_eq_ok [Lib.Percent.Library] {text s : Str} (h : encode_path_segment text = .ok s) :
    s = encode QUERY (utf8 text) ∧ IsSegment s := by
  unfold encode_path_segment at h
  rw [Lib.Percent.utf8_percent_encode_eq plain_QUERY] at h
  split_ifs at h with hempty
  dsimp only at h
  split_ifs at h
  cases h
  refine ⟨rfl, Lib.Percent.encode_ne_nil hempty, fun c hc => ?_⟩
  obtain ⟨b, -, hb⟩ := List.mem_flatMap.1 hc
  exact isSegmentChar_encodeByte b c hb

/-- What was encoded as a segment is read back. -/
theorem decode_path_segment_encode [Lib.Percent.Library] {text s text' : Str}
    (h : encode_path_segment text = .ok s) (hdecode : decode_path_segment s = .ok text') : text' = text := by
  obtain ⟨rfl, -⟩ := encode_path_segment_eq_ok h
  unfold decode_path_segment decode_component decode_component_within at hdecode
  split_ifs at hdecode
  rw [Lib.Percent.decode_utf8_encode plain_QUERY] at hdecode
  dsimp only at hdecode
  rw [Lib.Percent.ofUtf8_utf8] at hdecode
  exact (Except.ok.inj hdecode).symm

/-! ### Paths of encoded segments -/

/-- Segments, each after a separator. -/
def slashed (segs : List Str) : Str := segs.flatMap ('/' :: ·)

theorem splitOn_append_slashed {s : Str} (h : '/' ∉ s) {segs : List Str} (hsegs : ∀ s ∈ segs, '/' ∉ s) :
    (s ++ slashed segs).splitOn '/' = s :: segs := by
  have hsplit : ∀ t : Str, '/' ∉ t → ∀ c ∈ t, (c == '/') = false := by
    rintro t ht c hc
    rw [beq_eq_false_iff_ne]
    rintro rfl
    exact ht hc
  induction segs generalizing s with
  | nil =>
    rw [slashed, List.flatMap_nil, List.append_nil, List.splitOn_eq_splitOnP,
      List.splitOnP_eq_singleton (hsplit s h)]
  | cons t segs ih =>
    have hsegs := List.forall_mem_cons.1 hsegs
    have hrest := ih hsegs.1 hsegs.2
    rw [List.splitOn_eq_splitOnP] at hrest ⊢
    have hcons : slashed (t :: segs) = '/' :: (t ++ slashed segs) := List.flatMap_cons
    rw [hcons, List.splitOnP_append_cons s (t ++ slashed segs) (by simp), hrest,
      List.splitOnP_eq_singleton (hsplit s h)]
    rfl

/-- The last character is one of the last segment. -/
theorem last_slashed {s : Str} {segs : List Str} (hs : IsSegment s) (hsegs : ∀ t ∈ segs, IsSegment t) :
    ∀ c ∈ (s ++ slashed segs).getLast?, (c == '/') = false := by
  induction segs generalizing s with
  | nil =>
    intro c hc
    rw [slashed, List.flatMap_nil, List.append_nil] at hc
    rw [beq_eq_false_iff_ne]
    rintro rfl
    exact hs.no_slash (List.mem_of_getLast? hc)
  | cons t segs ih =>
    have hsegs := List.forall_mem_cons.1 hsegs
    have hcons : slashed (t :: segs) = '/' :: (t ++ slashed segs) := List.flatMap_cons
    have hne : t ++ slashed segs ≠ [] := fun hnil => hsegs.1.ne_nil (List.append_eq_nil_iff.1 hnil).1
    have hlast : (s ++ slashed (t :: segs)).getLast? = (t ++ slashed segs).getLast? := by
      rw [hcons, List.getLast?_append_of_ne_nil _ (List.cons_ne_nil _ _), List.getLast?_cons_of_ne_nil hne]
    rw [hlast]
    exact ih hsegs.1 hsegs.2

theorem trim_slashes_slashed {s : Str} {segs : List Str} (hs : IsSegment s) (hsegs : ∀ t ∈ segs, IsSegment t) :
    trim_slashes (slashed (s :: segs)) = s ++ slashed segs := by
  have hcons : slashed (s :: segs) = '/' :: (s ++ slashed segs) := List.flatMap_cons
  have hdrop : (s ++ slashed segs).dropWhile (· == '/') = s ++ slashed segs := by
    cases hhead : s with
    | nil => exact absurd hhead hs.ne_nil
    | cons c rest =>
      have hc : (c == '/') = false := by
        rw [beq_eq_false_iff_ne]
        rintro rfl
        exact hs.no_slash (hhead ▸ List.mem_cons_self)
      exact List.dropWhile_cons_of_neg (by rw [hc]; exact Bool.false_ne_true)
  unfold trim_slashes
  rw [hcons, List.dropWhile_cons_of_pos (by rfl), hdrop]
  exact Lib.rdropWhile_eq_self (last_slashed hs hsegs)

theorem raw_path_segments_slashed {segs raws : List Str} (hsegs : ∀ s ∈ segs, IsSegment s)
    (h : raw_path_segments (slashed segs) = .ok raws) : raws = segs := by
  unfold raw_path_segments at h
  split_ifs at h with hlong hempty
  · cases segs with
    | nil => cases h; rfl
    | cons s segs =>
      have hsegs := List.forall_mem_cons.1 hsegs
      rw [trim_slashes_slashed hsegs.1 hsegs.2, List.isEmpty_iff] at hempty
      exact absurd (List.append_eq_nil_iff.1 hempty).1 hsegs.1.ne_nil
  · cases segs with
    | nil => exact absurd rfl hempty
    | cons s segs =>
      have hsegs := List.forall_mem_cons.1 hsegs
      rw [trim_slashes_slashed hsegs.1 hsegs.2,
        splitOn_append_slashed hsegs.1.no_slash fun t ht => (hsegs.2 t ht).no_slash] at h
      exact (Except.ok.inj h).symm

/-- Segments are the encodings of texts. -/
abbrev Encodes [Lib.Percent.Library] : List Str → List Str → Prop :=
  List.Forall₂ fun text s => encode_path_segment text = .ok s

theorem Encodes.isSegment [Lib.Percent.Library] {texts segs : List Str} (h : Encodes texts segs) :
    ∀ s ∈ segs, IsSegment s := by
  induction h with
  | nil => simp
  | cons hs _ ih => exact List.forall_mem_cons.2 ⟨(encode_path_segment_eq_ok hs).2, ih⟩

theorem Encodes.mapM_decode [Lib.Percent.Library] {texts segs texts' : List Str} (h : Encodes texts segs)
    (hdecode : segs.mapM decode_path_segment = .ok texts') : texts' = texts := by
  induction h generalizing texts' with
  | nil => cases hdecode; rfl
  | @cons text s texts segs hs _ ih =>
    rw [List.mapM_cons] at hdecode
    cases hhead : decode_path_segment s with
    | error e => rw [hhead] at hdecode; cases hdecode
    | ok t =>
      rw [hhead] at hdecode
      cases htail : segs.mapM decode_path_segment with
      | error e => rw [htail] at hdecode; cases hdecode
      | ok ts =>
        rw [htail] at hdecode
        cases hdecode
        rw [decode_path_segment_encode hs hhead, ih htail]

theorem decode_path_segments_eq {path : Str} {raws : List Str} (h : raw_path_segments path = .ok raws) :
    decode_path_segments path = raws.mapM decode_path_segment := by
  unfold decode_path_segments
  rw [h]
  rfl

/-- The path of some segments: a single separator where there are none. -/
def pathOf (segs : List Str) : Str := if segs = [] then ['/'] else slashed segs

/-- A path that was put together of encoded segments has the texts that were encoded. -/
theorem segments_of_parse [Lib.Percent.Library] {texts segs : List Str} {path : DecodedPath}
    (h : Encodes texts segs) (hparse : DecodedPath.parse (pathOf segs) = .ok path) :
    path.segments = texts := by
  unfold DecodedPath.parse at hparse
  cases hraw : raw_path_segments (pathOf segs) with
  | error e => unfold decode_path_segments at hparse; rw [hraw] at hparse; cases hparse
  | ok raws =>
    have hraws : raws = segs := by
      unfold pathOf at hraw
      split_ifs at hraw with hnil
      · unfold raw_path_segments at hraw
        split_ifs at hraw with hlong hempty
        · cases hraw
          exact hnil.symm
        · exact absurd rfl hempty
      · exact raw_path_segments_slashed h.isSegment hraw
    rw [decode_path_segments_eq hraw] at hparse
    subst hraws
    cases hdecode : raws.mapM decode_path_segment with
    | error e => rw [hdecode] at hparse; cases hparse
    | ok texts' =>
      rw [hdecode] at hparse
      cases hparse
      exact h.mapM_decode hdecode

end IpeLang.Runtime.Encoding
