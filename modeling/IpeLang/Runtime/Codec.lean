import IpeLang.Lib.Escapes
import IpeLang.Runtime.Encoding

/-!
# The strict codec

The encoders of a segment and of a form value, and what the one strict decoder accepts, gives and
reports.

* `url_encode`, `url_decode`, `path_decode`: the kernels of the language;
* `decode_component_within_ok_iff`, `decode_component_within_malformed_iff`,
  `decode_component_within_invalid_iff`: the decoder on any raw text, grammar and cap;
* `strict_codec`: these together with the two round trips.
-/

namespace IpeLang.Runtime.Encoding

open Lib (Str)
open Lib.Percent

/-! ### Kernels -/

/-- Every `%20` as a `+`. -/
def plusForSpace : Str → Str
  | '%' :: '2' :: '0' :: rest => '+' :: plusForSpace rest
  | c :: rest => c :: plusForSpace rest
  | [] => []

def url_encode [Library] (s : Str) : Str := plusForSpace (utf8_percent_encode QUERY s)

def DecodeRefusal.text : DecodeRefusal → Str
  | .MalformedEscape at_ =>
    "malformed percent-escape at byte ".toList ++ Nat.toDigits 10 at_ ++
      " (a '%' must be followed by two hex digits)".toList
  | .InvalidUtf8 at_ =>
    "decoded bytes are not valid UTF-8 (at byte ".toList ++ Nat.toDigits 10 at_ ++ ")".toList
  | .TooLong cap => "component longer than ".toList ++ Nat.toDigits 10 cap ++ " bytes".toList

section Kernels

variable {E : Type} (of : Str → E)

/-- Run the decoder for a kernel, with the text of a refusal as its error. -/
def decode_kernel (name s : Str) (grammar : UrlGrammar) : Except E Str :=
  match decode_component s grammar with
  | .ok text => .ok text
  | .error refusal => .error (of (name ++ ": ".toList ++ refusal.text))

def url_decode (s : Str) : Except E Str := decode_kernel of "urlDecode".toList s .Form

def path_decode (s : Str) : Except E Str := decode_kernel of "percentDecode".toList s .Path

theorem decode_kernel_of_ok (name : Str) {s text : Str} {grammar : UrlGrammar}
    (h : decode_component s grammar = .ok text) : decode_kernel of name s grammar = .ok text := by
  unfold decode_kernel
  rw [h]

end Kernels

/-! ### Encoders -/

/-- The byte as it is, as a `+`, or its escape. -/
def formByte (b : UInt8) : Str := if b = 32 then ['+'] else encodeByte QUERY b

theorem plusForSpace_cons_of_ne {c : Char} (h : c ≠ '%') (rest : Str) :
    plusForSpace (c :: rest) = c :: plusForSpace rest := by
  rw [plusForSpace]
  rintro _ rfl
  exact absurd rfl h

theorem plusForSpace_escape {a b : Char} (h : ¬ (a = '2' ∧ b = '0')) (ha : a ≠ '%') (hb : b ≠ '%')
    (rest : Str) : plusForSpace ('%' :: a :: b :: rest) = '%' :: a :: b :: plusForSpace rest := by
  rw [plusForSpace, plusForSpace_cons_of_ne ha, plusForSpace_cons_of_ne hb]
  rintro _ - hab
  have hab := List.cons.inj hab
  exact h ⟨hab.1, (List.cons.inj hab.2).1⟩

theorem hexDigit_ne_percent {n : ℕ} (h : n < 16) : hexDigit n ≠ '%' := by
  interval_cases n <;> decide

/-- Only the escape of a space has these digits. -/
theorem eq_space_of_hexDigit {m n : ℕ} (hm : m < 16) (hn : n < 16) (h : hexDigit m = '2' ∧ hexDigit n = '0') :
    m = 2 ∧ n = 0 := by
  obtain ⟨h2, h0⟩ := h
  constructor
  · interval_cases m <;> first | rfl | exact absurd h2 (by decide)
  · interval_cases n <;> first | rfl | exact absurd h0 (by decide)

theorem plusForSpace_encodeByte (b : UInt8) (rest : Str) :
    plusForSpace (encodeByte QUERY b ++ rest) = formByte b ++ plusForSpace rest := by
  have hlt : b.toNat < 256 := b.toNat_lt
  unfold formByte
  by_cases hspace : b = 32
  · subst hspace
    rw [if_pos rfl]
    rfl
  · rw [if_neg hspace]
    unfold encodeByte
    by_cases hplain : QUERY b = true
    · rw [if_pos hplain]
      refine plusForSpace_cons_of_ne (fun hc => ?_) rest
      have hb := plain_QUERY.lt b hplain
      have hval : (Char.ofNat b.toNat).val.toUInt8 = UInt8.ofNat b.toNat := (char_lt hb).2
      rw [hc, UInt8.ofNat_toNat] at hval
      rw [← hval] at hplain
      exact absurd hplain (by decide)
    · rw [if_neg hplain]
      have hhi : b.toNat / 16 < 16 := by omega
      have hlo : b.toNat % 16 < 16 := by omega
      refine plusForSpace_escape (fun h => ?_) (hexDigit_ne_percent hhi) (hexDigit_ne_percent hlo) rest
      have := eq_space_of_hexDigit hhi hlo h
      exact hspace (UInt8.toNat_inj.1 (show b.toNat = 32 by omega))

theorem plusForSpace_encode (bytes : List UInt8) :
    plusForSpace (encode QUERY bytes) = bytes.flatMap formByte := by
  induction bytes with
  | nil => rfl
  | cons b bytes ih =>
    have hcons : encode QUERY (b :: bytes) = encodeByte QUERY b ++ encode QUERY bytes := List.flatMap_cons
    rw [hcons, plusForSpace_encodeByte, ih, List.flatMap_cons]

/-- An encoded byte of a form is read back. -/
theorem decode_formByte (at_ : ℕ) (b : UInt8) (rest out : List UInt8)
    (hrest : ∀ at_, decode true at_ rest = .ok out) :
    decode true at_ (utf8 (formByte b) ++ rest) = .ok (b :: out) := by
  unfold formByte
  by_cases hspace : b = 32
  · subst hspace
    have hplus : utf8 ['+'] ++ rest = 43 :: rest := rfl
    rw [if_pos rfl, hplus, decode_cons_of_ne true at_ (by decide), hrest]
    rfl
  · rw [if_neg hspace]
    exact decode_encodeByte plain_QUERY true at_ b rest out hrest

theorem decode_utf8_url_encode [Library] (s : Str) (at_ : ℕ) : decode true at_ (utf8 (url_encode s)) = .ok (utf8 s) := by
  unfold url_encode
  rw [utf8_percent_encode_eq plain_QUERY, plusForSpace_encode]
  generalize utf8 s = bytes
  induction bytes generalizing at_ with
  | nil => rfl
  | cons b bytes ih =>
    rw [List.flatMap_cons, utf8_append]
    exact decode_formByte at_ b _ bytes ih

theorem length_le_encode (bytes : List UInt8) : bytes.length ≤ (utf8 (encode QUERY bytes)).length := by
  rw [utf8_ascii (ascii_encode plain_QUERY bytes), List.length_map]
  induction bytes with
  | nil => exact le_rfl
  | cons b bytes ih =>
    have hcons : encode QUERY (b :: bytes) = encodeByte QUERY b ++ encode QUERY bytes := List.flatMap_cons
    have hpos : 0 < (encodeByte QUERY b).length := by
      unfold encodeByte
      split_ifs <;> exact Nat.succ_pos _
    rw [hcons, List.length_append, List.length_cons]
    omega

/-- The texts that no segment can carry, and those that are too long as one, are refused. -/
theorem encode_path_segment_ok_iff [Library] {text : Str} :
    (∃ s, encode_path_segment text = .ok s) ↔
      text ≠ [] ∧ text ≠ ['.'] ∧ text ≠ ['.', '.'] ∧ byteLen (encode QUERY (utf8 text)) ≤ MAX_URL_COMPONENT_LEN := by
  unfold encode_path_segment
  rw [utf8_percent_encode_eq plain_QUERY]
  dsimp only
  constructor
  · rintro ⟨s, h⟩
    split_ifs at h with hempty hdot htext henc
    exact ⟨hempty, fun h => hdot (.inl h), fun h => hdot (.inr h), not_lt.1 henc⟩
  · rintro ⟨hempty, hdot, hdots, henc⟩
    have htext : byteLen text ≤ MAX_URL_COMPONENT_LEN := (length_le_encode (utf8 text)).trans henc
    rw [if_neg hempty, if_neg (not_or.2 ⟨hdot, hdots⟩), if_neg (not_lt.2 htext), if_neg (not_lt.2 henc)]
    exact ⟨_, rfl⟩

/-! ### The decoder -/

theorem decode_component_within_of_ok {raw s : Str} {grammar : UrlGrammar} {cap : ℕ} (hcap : byteLen raw ≤ cap)
    (h : decode (grammar = .Form) 0 (utf8 raw) = .ok (utf8 s)) : decode_component_within raw grammar cap = .ok s := by
  unfold decode_component_within
  rw [if_neg (not_lt.2 hcap), h]
  dsimp only
  rw [ofUtf8_utf8]

theorem decode_component_within_eq_ok_iff {raw s : Str} {grammar : UrlGrammar} {cap : ℕ} :
    decode_component_within raw grammar cap = .ok s ↔
      byteLen raw ≤ cap ∧ ∃ ps, rawOf ps = utf8 raw ∧ valuesOf (grammar = .Form) ps = utf8 s := by
  constructor
  · intro h
    unfold decode_component_within at h
    by_cases hcap : cap < byteLen raw
    · rw [if_pos hcap] at h
      cases h
    · rw [if_neg hcap] at h
      cases hdecode : decode (grammar = .Form) 0 (utf8 raw) with
      | error i => rw [hdecode] at h; cases h
      | ok out =>
        rw [hdecode] at h
        dsimp only at h
        cases hout : ofUtf8 out with
        | none => rw [hout] at h; cases h
        | some t =>
          rw [hout] at h
          cases h
          obtain ⟨ps, hraw, hvalues⟩ := decode_eq_ok_iff.1 hdecode
          exact ⟨not_lt.1 hcap, ps, hraw, hvalues.trans (ofUtf8_eq_some_iff.1 hout)⟩
  · rintro ⟨hcap, ps, hraw, hvalues⟩
    exact decode_component_within_of_ok hcap (decode_eq_ok_iff.2 ⟨ps, hraw, hvalues⟩)

theorem decode_component_within_eq_too_long_iff {raw : Str} {grammar : UrlGrammar} {cap : ℕ} :
    decode_component_within raw grammar cap = .error (.TooLong cap) ↔ cap < byteLen raw := by
  unfold decode_component_within
  by_cases hcap : cap < byteLen raw
  · rw [if_pos hcap]
    exact iff_of_true rfl hcap
  · rw [if_neg hcap]
    refine iff_of_false (fun h => ?_) hcap
    cases hdecode : decode (grammar = .Form) 0 (utf8 raw) with
    | error i => rw [hdecode] at h; cases h
    | ok out =>
      rw [hdecode] at h
      dsimp only at h
      cases hout : ofUtf8 out <;> rw [hout] at h <;> cases h

theorem decode_component_within_eq_malformed_iff {raw : Str} {grammar : UrlGrammar} {cap i : ℕ} :
    decode_component_within raw grammar cap = .error (.MalformedEscape i) ↔
      byteLen raw ≤ cap ∧ MalformedAt (utf8 raw) i ∧ ∀ j < i, ¬ MalformedAt (utf8 raw) j := by
  rw [← decode_eq_error_iff (grammar = .Form)]
  unfold decode_component_within
  by_cases hcap : cap < byteLen raw
  · rw [if_pos hcap]
    exact ⟨(fun h => by cases h), fun h => absurd h.1 (not_le.2 hcap)⟩
  · rw [if_neg hcap]
    cases hdecode : decode (grammar = .Form) 0 (utf8 raw) with
    | error j =>
      dsimp only
      exact ⟨fun h => ⟨not_lt.1 hcap, by cases h; rfl⟩, fun h => by cases h.2; rfl⟩
    | ok out =>
      dsimp only
      constructor
      · intro h
        cases hout : ofUtf8 out <;> rw [hout] at h <;> cases h
      · rintro ⟨-, ⟨⟩⟩

/-- The bytes of a text, up to where a text stops, are as many as are valid. -/
theorem valid_up_to_eq {bytes rest : List UInt8} {s : Str} (h : Stops bytes s rest) :
    valid_up_to bytes = (utf8 s).length := by
  unfold valid_up_to
  rw [Nat.findGreatest_eq_iff]
  have hlen := congrArg List.length h.eq
  rw [List.length_append] at hlen
  refine ⟨by omega, fun _ => ?_, fun n hlt hle hsome => ?_⟩
  · rw [h.eq, List.take_left, ofUtf8_utf8]
    rfl
  · obtain ⟨t, ht⟩ := Option.isSome_iff_exists.1 hsome
    have htake := ofUtf8_eq_some_iff.1 ht
    have heq : bytes = utf8 t ++ bytes.drop n := by rw [← htake, List.take_append_drop]
    have hle := h.not_text heq
    rw [← htake, List.length_take] at hle
    omega

/-- The walk over the raw bytes stops where the piece of a decoded byte starts. -/
theorem raw_offset_of_rawOf (ps : List Piece) (n : ℕ) :
    raw_offset_of (rawOf ps) n = (rawOf (ps.take n)).length := by
  induction ps generalizing n with
  | nil => cases n <;> rfl
  | cons p ps ih =>
    cases n with
    | zero => cases p <;> rfl
    | succ n =>
      rw [List.take_succ_cons, rawOf_cons, rawOf_cons, List.length_append, ← ih]
      cases p with
      | plain b hb =>
        show raw_offset_of (b :: rawOf ps) (n + 1) = 1 + raw_offset_of (rawOf ps) n
        rcases rawOf ps with _ | ⟨x, _ | ⟨y, rest⟩⟩ <;> simp only [raw_offset_of, if_neg hb]
      | escape hi lo h => rfl

/-- The piece of the first byte that is not of the text is the one reported. -/
theorem decode_component_within_eq_invalid_iff {raw : Str} {grammar : UrlGrammar} {cap i : ℕ} :
    decode_component_within raw grammar cap = .error (.InvalidUtf8 i) ↔
      byteLen raw ≤ cap ∧ ∃ ps s rest, rawOf ps = utf8 raw ∧ Stops (valuesOf (grammar = .Form) ps) s rest ∧
        i = (rawOf (ps.take (utf8 s).length)).length := by
  unfold decode_component_within
  by_cases hcap : cap < byteLen raw
  · rw [if_pos hcap]
    exact ⟨(fun h => by cases h), fun h => absurd h.1 (not_le.2 hcap)⟩
  · rw [if_neg hcap]
    constructor
    · intro h
      cases hdecode : decode (grammar = .Form) 0 (utf8 raw) with
      | error j => rw [hdecode] at h; cases h
      | ok out =>
        rw [hdecode] at h
        dsimp only at h
        cases hout : ofUtf8 out with
        | some t => rw [hout] at h; cases h
        | none =>
          rw [hout] at h
          cases h
          obtain ⟨ps, hraw, rfl⟩ := decode_eq_ok_iff.1 hdecode
          obtain ⟨s, rest, hstops⟩ := ofUtf8_eq_none_iff.1 hout
          refine ⟨not_lt.1 hcap, ps, s, rest, hraw, hstops, ?_⟩
          rw [valid_up_to_eq hstops, ← hraw, raw_offset_of_rawOf]
    · rintro ⟨-, ps, s, rest, hraw, hstops, rfl⟩
      have hnone : ofUtf8 (valuesOf (grammar = .Form) ps) = none := ofUtf8_eq_none_iff.2 ⟨s, rest, hstops⟩
      rw [decode_eq_ok_iff.2 ⟨ps, hraw, rfl⟩]
      dsimp only
      rw [hnone, valid_up_to_eq hstops, ← hraw, raw_offset_of_rawOf]

/-! ### The codec -/

/-- What is encoded is read back, a raw text is read if and only if it is made of bytes and escapes of
a text, and a refusal says where the first defect is. -/
theorem strict_codec [Library] {E : Type} (of : Str → E) :
    (∀ text : Str, (∃ s, encode_path_segment text = .ok s) ↔
      text ≠ [] ∧ text ≠ ['.'] ∧ text ≠ ['.', '.'] ∧ byteLen (encode QUERY (utf8 text)) ≤ MAX_URL_COMPONENT_LEN) ∧
    (∀ text s : Str, encode_path_segment text = .ok s → decode_path_segment s = .ok text) ∧
    (∀ text : Str, byteLen (url_encode text) ≤ MAX_URL_COMPONENT_LEN →
      url_decode of (url_encode text) = .ok text) ∧
    ∀ (raw : Str) (grammar : UrlGrammar) (cap : ℕ),
      (decode_component_within raw grammar cap = .error (.TooLong cap) ↔ cap < byteLen raw) ∧
      ((∃ text, decode_component_within raw grammar cap = .ok text) ↔
        byteLen raw ≤ cap ∧ (∀ i, ¬ MalformedAt (utf8 raw) i) ∧
          ∃ ps text, rawOf ps = utf8 raw ∧ valuesOf (grammar = .Form) ps = utf8 text) ∧
      (∀ text ps, decode_component_within raw grammar cap = .ok text → rawOf ps = utf8 raw →
        valuesOf (grammar = .Form) ps = utf8 text) ∧
      (∀ i, decode_component_within raw grammar cap = .error (.MalformedEscape i) ↔
        byteLen raw ≤ cap ∧ MalformedAt (utf8 raw) i ∧ ∀ j < i, ¬ MalformedAt (utf8 raw) j) ∧
      ∀ i, decode_component_within raw grammar cap = .error (.InvalidUtf8 i) ↔
        byteLen raw ≤ cap ∧ ∃ ps s rest, rawOf ps = utf8 raw ∧ Stops (valuesOf (grammar = .Form) ps) s rest ∧
          i = (rawOf (ps.take (utf8 s).length)).length := by
  refine ⟨fun text => encode_path_segment_ok_iff, fun text s hs => ?_, fun text htext => ?_,
    fun raw grammar cap => ⟨decode_component_within_eq_too_long_iff, ?_, fun text ps htext hps => ?_,
      fun i => decode_component_within_eq_malformed_iff, fun i => decode_component_within_eq_invalid_iff⟩⟩
  · have hlen := (encode_path_segment_ok_iff.1 ⟨s, hs⟩).2.2.2
    obtain ⟨rfl, -⟩ := encode_path_segment_eq_ok hs
    exact decode_component_within_of_ok hlen (decode_utf8_encode plain_QUERY _ 0 (utf8 text))
  · exact decode_kernel_of_ok of _ (decode_component_within_of_ok htext (decode_utf8_url_encode text 0))
  · constructor
    · rintro ⟨text, htext⟩
      obtain ⟨hcap, ps, hraw, hvalues⟩ := decode_component_within_eq_ok_iff.1 htext
      exact ⟨hcap, exists_rawOf_iff.1 ⟨ps, hraw⟩, ps, text, hraw, hvalues⟩
    · rintro ⟨hcap, -, ps, text, hraw, hvalues⟩
      exact ⟨text, decode_component_within_eq_ok_iff.2 ⟨hcap, ps, hraw, hvalues⟩⟩
  · obtain ⟨-, ps', hraw, hvalues⟩ := decode_component_within_eq_ok_iff.1 htext
    have hdecode : decode (grammar = .Form) 0 (utf8 raw) = .ok (valuesOf (grammar = .Form) ps) :=
      decode_eq_ok_iff.2 ⟨ps, hps, rfl⟩
    rw [decode_eq_ok_iff.2 ⟨ps', hraw, rfl⟩] at hdecode
    rw [← Except.ok.inj hdecode, hvalues]

theorem strict_codec_form :
    decode_path_segment "a%2Fb".toList = .ok "a/b".toList ∧
    url_decode id (url_encode "a+ b".toList) = .ok "a+ b".toList ∧
    decode_component_within "a%zz".toList .Path 9 = .error (.MalformedEscape 1) := by
  obtain ⟨-, hsegment, hform, hraw⟩ := strict_codec (id : Str → Str)
  refine ⟨hsegment "a/b".toList _ (by decide), hform _ (by decide), ?_⟩
  obtain ⟨-, -, -, hmalformed, -⟩ := hraw "a%zz".toList .Path 9
  refine (hmalformed 1).2 ⟨by decide, ⟨by decide, fun hdigits => absurd hdigits.1 (by decide)⟩, fun j hj => ?_⟩
  obtain rfl : j = 0 := Nat.lt_one_iff.1 hj
  exact fun h => absurd h.1 (by decide)

end IpeLang.Runtime.Encoding
