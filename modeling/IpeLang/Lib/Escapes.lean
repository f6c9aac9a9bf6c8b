import IpeLang.Lib.Percent

/-!
# Escapes and the bytes they stand for

An encoded text is a row of pieces: bytes that stand for themselves, and escapes of three bytes that
stand for one. Cutting a text into pieces fails at the first `%` without two digits, and the pieces
are all that a strict reader looks at: their values are the bytes it gives, and their lengths say
where in the text each of these comes from.

* `Piece`, `rawOf`, `valuesOf`: pieces, their text and their values;
* `decode_eq_ok_iff`, `decode_eq_error_iff`: the reader in terms of pieces and of positions;
* `Stops`, `ofUtf8_eq_none_iff`: where bytes stop being a text.
-/

namespace IpeLang.Lib.Percent

/-! ### Texts and their bytes -/

theorem ofUtf8_eq_some_iff {bytes : List UInt8} {s : Str} : ofUtf8 bytes = some s ↔ bytes = utf8 s := by
  refine ⟨fun h => ?_, fun h => h ▸ ofUtf8_utf8 s⟩
  have hsome : bytes.toByteArray.utf8Decode?.isSome := by
    unfold ofUtf8 from_utf8 at h
    rw [Option.map_eq_some_iff] at h
    obtain ⟨a, ha, -⟩ := h
    rw [ha]
    rfl
  obtain ⟨t, ht⟩ := ByteArray.isSome_utf8Decode?_iff.1 hsome
  obtain rfl : bytes = utf8 t := List.toByteArray_inj.1 ht
  rw [ofUtf8_utf8] at h
  rw [Option.some.inj h]

/-- The bytes of a character are not the first ones of another's. -/
theorem utf8EncodeChar_append_inj {c d : Char} {l l' : List UInt8}
    (h : String.utf8EncodeChar c ++ l = String.utf8EncodeChar d ++ l') : c = d ∧ l = l' := by
  have hdecode : ∀ (c : Char) (l : List UInt8),
      (String.utf8EncodeChar c ++ l).toByteArray.utf8DecodeChar? 0 = some c := by
    intro c l
    rw [List.toByteArray_append]
    exact ByteArray.utf8DecodeChar?_utf8EncodeChar_append
  have hc := hdecode c l
  rw [h, hdecode d l'] at hc
  obtain rfl := Option.some.inj hc
  exact ⟨rfl, List.append_cancel_left h⟩

@[simp] theorem utf8_cons (c : Char) (s : Str) : utf8 (c :: s) = String.utf8EncodeChar c ++ utf8 s :=
  List.flatMap_cons

/-- The bytes are a text up to some byte, and no character starts at that one. -/
structure Stops (bytes : List UInt8) (s : Str) (rest : List UInt8) : Prop where
  eq : bytes = utf8 s ++ rest
  ne_nil : rest ≠ []
  no_char : ∀ c : Char, ¬ String.utf8EncodeChar c <+: rest

/-- A longer stretch of the bytes is not a text. -/
theorem Stops.not_text {bytes : List UInt8} {s : Str} {rest : List UInt8} (h : Stops bytes s rest)
    {t : Str} {rest' : List UInt8} (ht : bytes = utf8 t ++ rest') : (utf8 t).length ≤ (utf8 s).length := by
  obtain ⟨rfl, -, hno⟩ := h
  induction s generalizing t with
  | nil =>
    cases t with
    | nil => exact le_rfl
    | cons c t =>
      rw [utf8_nil, List.nil_append, utf8_cons, List.append_assoc] at ht
      exact absurd ⟨_, ht.symm⟩ (hno c)
  | cons d s ih =>
    cases t with
    | nil => exact Nat.zero_le _
    | cons c t =>
      rw [utf8_cons, utf8_cons, List.append_assoc, List.append_assoc] at ht
      obtain ⟨rfl, htail⟩ := utf8EncodeChar_append_inj ht
      rw [utf8_cons, utf8_cons, List.length_append, List.length_append]
      have := ih htail
      omega

theorem exists_stops (bytes : List UInt8) : ∃ s rest, bytes = utf8 s ++ rest ∧ ∀ c : Char, ¬ String.utf8EncodeChar c <+: rest := by
  by_cases h : ∃ c : Char, String.utf8EncodeChar c <+: bytes
  · obtain ⟨c, tail, htail⟩ := h
    have hlt : tail.length < bytes.length := by
      have := List.length_pos_of_ne_nil (String.utf8EncodeChar_ne_nil (c := c))
      rw [← htail, List.length_append]
      omega
    obtain ⟨s, rest, hs, hno⟩ := exists_stops tail
    refine ⟨c :: s, rest, ?_, hno⟩
    rw [utf8_cons, List.append_assoc, ← hs, htail]
  · exact ⟨[], bytes, rfl, fun c hc => h ⟨c, hc⟩⟩
termination_by bytes.length

/-- Bytes that are no text stop being one somewhere. -/
theorem ofUtf8_eq_none_iff {bytes : List UInt8} : ofUtf8 bytes = none ↔ ∃ s rest, Stops bytes s rest := by
  constructor
  · intro h
    obtain ⟨s, rest, hs, hno⟩ := exists_stops bytes
    refine ⟨s, rest, hs, ?_, hno⟩
    rintro rfl
    rw [hs, List.append_nil, ofUtf8_utf8] at h
    cases h
  · rintro ⟨s, rest, hstops⟩
    cases h : ofUtf8 bytes with
    | none => rfl
    | some t =>
      have ht := ofUtf8_eq_some_iff.1 h
      have heq : bytes = utf8 t ++ [] := by rw [ht, List.append_nil]
      have hle := hstops.not_text heq
      have hlen := congrArg List.length hstops.eq
      rw [List.length_append, ht] at hlen
      exact absurd (List.eq_nil_of_length_eq_zero (by omega)) hstops.ne_nil

/-! ### Pieces -/

/-- A stretch of an encoded text that stands for one byte. -/
inductive Piece
  | plain (b : UInt8) (h : b ≠ 37)
  | escape (hi lo : UInt8) (h : (hex_value hi).isSome ∧ (hex_value lo).isSome)

def Piece.raw : Piece → List UInt8
  | .plain b _ => [b]
  | .escape hi lo _ => [37, hi, lo]

/-- The byte a piece stands for: a `+` is a space in a form. -/
def Piece.value (form : Bool) : Piece → UInt8
  | .plain b _ => if b = 43 ∧ form then 32 else b
  | .escape hi lo h => UInt8.ofNat (16 * (hex_value hi).get h.1 + (hex_value lo).get h.2)

def rawOf (ps : List Piece) : List UInt8 := ps.flatMap Piece.raw

def valuesOf (form : Bool) (ps : List Piece) : List UInt8 := ps.map (Piece.value form)

@[simp] theorem rawOf_nil : rawOf [] = [] := rfl

@[simp] theorem rawOf_cons (p : Piece) (ps : List Piece) : rawOf (p :: ps) = p.raw ++ rawOf ps :=
  List.flatMap_cons

/-- Two digits stand first. -/
def Digits (bytes : List UInt8) : Prop :=
  (bytes[0]?.bind hex_value).isSome = true ∧ (bytes[1]?.bind hex_value).isSome = true

/-- A `%` without two digits stands at a position. -/
def MalformedAt (bytes : List UInt8) (i : ℕ) : Prop := bytes[i]? = some 37 ∧ ¬ Digits (bytes.drop (i + 1))

theorem malformedAt_append (front bytes : List UInt8) (i : ℕ) :
    MalformedAt (front ++ bytes) (front.length + i) ↔ MalformedAt bytes i := by
  unfold MalformedAt
  rw [List.getElem?_append_right (Nat.le_add_right _ _), Nat.add_sub_cancel_left, Nat.add_assoc,
    List.drop_append, List.drop_eq_nil_of_le (Nat.le_add_right _ _), Nat.add_sub_cancel_left, List.nil_append]

theorem ne_percent_of_isSome {b : UInt8} (h : (hex_value b).isSome) : b ≠ 37 := by
  rintro rfl
  revert h
  decide

/-- No malformed escape starts within a piece. -/
theorem not_malformedAt_raw (p : Piece) (rest : List UInt8) {i : ℕ} (hi : i < p.raw.length) :
    ¬ MalformedAt (p.raw ++ rest) i := by
  rintro ⟨hget, hdigits⟩
  cases p with
  | plain b hb =>
    obtain rfl : i = 0 := Nat.lt_one_iff.1 hi
    exact hb (Option.some.inj hget)
  | escape hi' lo h =>
    have : i = 0 ∨ i = 1 ∨ i = 2 := by
      have : i < 3 := hi
      omega
    obtain rfl | rfl | rfl := this
    · exact hdigits h
    · exact ne_percent_of_isSome h.1 (Option.some.inj hget)
    · exact ne_percent_of_isSome h.2 (Option.some.inj hget)

theorem not_malformedAt_rawOf (ps : List Piece) (rest : List UInt8) {i : ℕ} (hi : i < (rawOf ps).length) :
    ¬ MalformedAt (rawOf ps ++ rest) i := by
  induction ps generalizing i with
  | nil => exact absurd hi (Nat.not_lt_zero i)
  | cons p ps ih =>
    rw [rawOf_cons, List.append_assoc]
    by_cases hlt : i < p.raw.length
    · exact not_malformedAt_raw p _ hlt
    · obtain ⟨j, rfl⟩ := Nat.exists_eq_add_of_le (not_lt.1 hlt)
      rw [malformedAt_append]
      rw [rawOf_cons, List.length_append] at hi
      exact ih (by omega)

/-- A text is cut into pieces, up to a malformed escape. -/
theorem exists_pieces (bytes : List UInt8) :
    ∃ ps rest, bytes = rawOf ps ++ rest ∧ (rest = [] ∨ MalformedAt rest 0) := by
  -- A piece has one byte or three, hence the induction on the number of bytes.
  induction h : bytes.length using Nat.strong_induction_on generalizing bytes with
  | _ n ih =>
    subst h
    rcases bytes with _ | ⟨c, rest⟩
    · exact ⟨[], [], rfl, .inl rfl⟩
    by_cases hc : c = 37
    · subst hc
      by_cases hdigits : Digits rest
      · rcases rest with _ | ⟨hi, _ | ⟨lo, tail⟩⟩
        · exact absurd hdigits.1 Bool.false_ne_true
        · exact absurd hdigits.2 Bool.false_ne_true
        · obtain ⟨ps, out, hps, hout⟩ := ih tail.length (by simp only [List.length_cons]; omega) tail rfl
          refine ⟨.escape hi lo hdigits :: ps, out, ?_, hout⟩
          rw [hps]
          rfl
      · exact ⟨[], 37 :: rest, rfl, .inr ⟨rfl, hdigits⟩⟩
    · obtain ⟨ps, out, hps, hout⟩ := ih rest.length (Nat.lt_succ_self _) rest rfl
      refine ⟨.plain c hc :: ps, out, ?_, hout⟩
      rw [hps]
      rfl

/-- Cut into pieces, a text has no malformed escape. -/
theorem exists_rawOf_iff {bytes : List UInt8} : (∃ ps, rawOf ps = bytes) ↔ ∀ i, ¬ MalformedAt bytes i := by
  constructor
  · rintro ⟨ps, rfl⟩ i hi
    have hlt : i < (rawOf ps).length := (List.getElem?_eq_some_iff.1 hi.1).1
    have := not_malformedAt_rawOf ps [] hlt
    rw [List.append_nil] at this
    exact this hi
  · intro h
    obtain ⟨ps, rest, rfl, rfl | hrest⟩ := exists_pieces bytes
    · exact ⟨ps, (List.append_nil _).symm⟩
    · exact absurd ((malformedAt_append _ _ 0).2 hrest) (h _)

/-! ### The strict reader -/

theorem decode_raw_append (form : Bool) (at_ : ℕ) (p : Piece) (rest : List UInt8) :
    decode form at_ (p.raw ++ rest) = (decode form (at_ + p.raw.length) rest).map (p.value form :: ·) := by
  cases p with
  | plain b hb => exact decode_cons_of_ne form at_ hb rest
  | escape hi lo h =>
    obtain ⟨hhi, hlo⟩ := h
    obtain ⟨a, ha⟩ := Option.isSome_iff_exists.1 hhi
    obtain ⟨b, hb⟩ := Option.isSome_iff_exists.1 hlo
    simp only [Piece.raw, Piece.value, List.cons_append, List.nil_append, decode, ha, hb, if_pos,
      Option.get_some, List.length_cons, List.length_nil]

theorem decode_rawOf_append (form : Bool) (at_ : ℕ) (ps : List Piece) (rest : List UInt8) :
    decode form at_ (rawOf ps ++ rest) =
      (decode form (at_ + (rawOf ps).length) rest).map (valuesOf form ps ++ ·) := by
  induction ps generalizing at_ with
  | nil =>
    show decode form at_ rest = (decode form at_ rest).map ([] ++ ·)
    cases decode form at_ rest <;> rfl
  | cons p ps ih =>
    rw [rawOf_cons, List.append_assoc, decode_raw_append, ih, List.length_append, Nat.add_assoc]
    cases decode form (at_ + (p.raw.length + (rawOf ps).length)) rest <;> rfl

theorem decode_of_malformedAt (form : Bool) (at_ : ℕ) {bytes : List UInt8} (h : MalformedAt bytes 0) :
    decode form at_ bytes = .error at_ := by
  obtain ⟨hget, hdigits⟩ := h
  rcases bytes with _ | ⟨c, rest⟩
  · cases hget
  obtain rfl : c = 37 := Option.some.inj hget
  rcases rest with _ | ⟨hi, _ | ⟨lo, rest⟩⟩
  · rfl
  · rfl
  rw [decode, if_pos rfl]
  cases hhi : hex_value hi with
  | none => rfl
  | some a =>
    cases hlo : hex_value lo with
    | none => rfl
    | some b => exact absurd ⟨Option.isSome_iff_exists.2 ⟨a, hhi⟩, Option.isSome_iff_exists.2 ⟨b, hlo⟩⟩ hdigits

/-- The reader gives the values of the pieces. -/
theorem decode_eq_ok_iff {form : Bool} {at_ : ℕ} {bytes out : List UInt8} :
    decode form at_ bytes = .ok out ↔ ∃ ps, rawOf ps = bytes ∧ valuesOf form ps = out := by
  constructor
  · intro h
    obtain ⟨ps, rest, rfl, hrest⟩ := exists_pieces bytes
    rw [decode_rawOf_append] at h
    obtain rfl | hrest := hrest
    · exact ⟨ps, (List.append_nil _).symm, by simpa [decode, Except.map] using h⟩
    · rw [decode_of_malformedAt form _ hrest] at h
      cases h
  · rintro ⟨ps, rfl, rfl⟩
    have := decode_rawOf_append form at_ ps []
    rw [List.append_nil] at this
    rw [this, decode]
    exact congrArg Except.ok (List.append_nil _)

/-- The reader stops at the first malformed escape. -/
theorem decode_eq_error_iff (form : Bool) {bytes : List UInt8} {i : ℕ} :
    decode form 0 bytes = .error i ↔ MalformedAt bytes i ∧ ∀ j < i, ¬ MalformedAt bytes j := by
  obtain ⟨ps, rest, rfl, hrest⟩ := exists_pieces bytes
  rw [decode_rawOf_append, Nat.zero_add]
  have hfront : ∀ j < (rawOf ps).length, ¬ MalformedAt (rawOf ps ++ rest) j := fun j =>
    not_malformedAt_rawOf ps rest
  obtain rfl | hrest := hrest
  · have hno := exists_rawOf_iff.1 ⟨ps, (List.append_nil (rawOf ps)).symm⟩
    exact ⟨fun h => absurd h (by simp [decode, Except.map]), fun h => absurd h.1 (hno i)⟩
  · rw [decode_of_malformedAt form _ hrest]
    have hat : MalformedAt (rawOf ps ++ rest) (rawOf ps).length := (malformedAt_append _ _ 0).2 hrest
    constructor
    · intro h
      obtain rfl : (rawOf ps).length = i := by simpa [Except.map] using h
      exact ⟨hat, hfront⟩
    · rintro ⟨hi, hleast⟩
      have hle : (rawOf ps).length ≤ i := not_lt.1 fun hlt => hfront i hlt hi
      have hge : i ≤ (rawOf ps).length := not_lt.1 fun hlt => hleast _ hlt hat
      rw [le_antisymm hge hle]
      rfl

end IpeLang.Lib.Percent
