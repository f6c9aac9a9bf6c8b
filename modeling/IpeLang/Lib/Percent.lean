import IpeLang.Lib.Text

/-!
# Percent encoding

A text is encoded byte by byte: some bytes stand for themselves, and every other one is a `%` with
its two hexadecimal digits. The reader refuses a `%` without them, and otherwise takes every byte as
it is, or a `+` as a space where the grammar is that of forms.

* `utf8`: the bytes of a text;
* `encode`, `decode`: the two directions;
* `decode_utf8_encode`: what was encoded is read back;
* `Library`: what is relied on of a library that encodes, and `documented`, which is made of `encode`.
-/

namespace IpeLang.Lib.Percent

/-! ### Bytes of a text -/

/-- The bytes of a text. -/
def utf8 (s : Str) : List UInt8 := s.flatMap String.utf8EncodeChar

/-- The text of some bytes, if they are one. -/
def ofUtf8 (bytes : List UInt8) : Option Str := from_utf8 bytes.toByteArray

theorem ofUtf8_utf8 (s : Str) : ofUtf8 (utf8 s) = some s := by
  have hbytes : (utf8 s).toByteArray = toBytes s := by
    unfold toBytes
    rw [String.toByteArray_ofList]
    rfl
  unfold ofUtf8
  rw [hbytes, from_utf8_toBytes]

@[simp] theorem utf8_nil : utf8 [] = [] := rfl

theorem utf8_append (s t : Str) : utf8 (s ++ t) = utf8 s ++ utf8 t := List.flatMap_append

/-- A character of ASCII is its own byte. -/
theorem utf8EncodeChar_ascii {c : Char} (h : c.val < 128) : String.utf8EncodeChar c = [c.val.toUInt8] := by
  refine String.utf8EncodeChar_eq_singleton ?_
  rw [Char.utf8Size, if_pos (UInt32.le_iff_toNat_le.2 ?_)]
  have := UInt32.lt_iff_toNat_lt.1 h
  exact Nat.le_of_lt_succ this

theorem utf8_ascii {s : Str} (h : ∀ c ∈ s, c.val < 128) : utf8 s = s.map fun c => c.val.toUInt8 := by
  induction s with
  | nil => rfl
  | cons c s ih =>
    have h := List.forall_mem_cons.1 h
    have hcons : utf8 (c :: s) = String.utf8EncodeChar c ++ utf8 s := List.flatMap_cons
    rw [hcons, utf8EncodeChar_ascii h.1, ih h.2, List.map_cons, List.singleton_append]

/-- The bytes of a character that is not of ASCII are not either. -/
theorem le_of_mem_utf8EncodeChar {c : Char} (h : 128 ≤ c.val.toNat) :
    ∀ b ∈ String.utf8EncodeChar c, 128 ≤ b.toNat := by
  unfold String.utf8EncodeChar
  dsimp only
  split_ifs with h1
  · exact absurd h1 (by omega)
  all_goals
    simp only [List.forall_mem_cons, List.not_mem_nil, false_imp_iff, implies_true, and_true, UInt8.toNat_ofNat']
    omega

/-- A byte of ASCII is a character of its own. -/
theorem eq_of_mem_utf8EncodeChar {c : Char} {b : UInt8} (hb : b ∈ String.utf8EncodeChar c)
    (hlt : b.toNat < 128) : c = Char.ofNat b.toNat := by
  have hc : c.val.toNat < 128 := by
    by_contra hle
    have := le_of_mem_utf8EncodeChar (not_lt.1 hle) b hb
    omega
  rw [utf8EncodeChar_ascii (UInt32.lt_iff_toNat_lt.2 hc)] at hb
  rw [List.mem_singleton.1 hb, UInt32.toNat_toUInt8, Nat.mod_eq_of_lt (by omega)]
  exact (Char.ofNat_toNat c).symm

/-! ### Digits -/

/-- The value of a hexadecimal digit. -/
def hex_value (b : UInt8) : Option ℕ :=
  if 48 ≤ b ∧ b ≤ 57 then some (b.toNat - 48)
  else if 97 ≤ b ∧ b ≤ 102 then some (b.toNat - 97 + 10)
  else if 65 ≤ b ∧ b ≤ 70 then some (b.toNat - 65 + 10)
  else none

/-- The digit of a value below 16. -/
def hexDigit (n : ℕ) : Char := if n < 10 then Char.ofNat (48 + n) else Char.ofNat (55 + n)

theorem hexDigit_lt {n : ℕ} (h : n < 16) : (hexDigit n).val < 128 := by
  interval_cases n <;> decide

theorem hex_value_hexDigit {n : ℕ} (h : n < 16) : hex_value (hexDigit n).val.toUInt8 = some n := by
  interval_cases n <;> decide

/-! ### The two directions -/

/-- The byte as it is, or its escape. -/
def encodeByte (plain : UInt8 → Bool) (b : UInt8) : Str :=
  if plain b then [Char.ofNat b.toNat] else ['%', hexDigit (b.toNat / 16), hexDigit (b.toNat % 16)]

def encode (plain : UInt8 → Bool) (bytes : List UInt8) : Str := bytes.flatMap (encodeByte plain)

theorem encode_ne_nil {plain : UInt8 → Bool} {text : Str} (h : text ≠ []) : encode plain (utf8 text) ≠ [] := by
  cases text with
  | nil => exact absurd rfl h
  | cons c text =>
    have hutf : utf8 (c :: text) = String.utf8EncodeChar c ++ utf8 text := List.flatMap_cons
    rw [hutf]
    cases hc : String.utf8EncodeChar c with
    | nil => exact absurd hc String.utf8EncodeChar_ne_nil
    | cons b rest =>
      rw [List.cons_append, encode, List.flatMap_cons, encodeByte]
      split_ifs <;> simp

/-- The bytes that are encoded, or where an escape is malformed. -/
def decode (form : Bool) (at_ : ℕ) : List UInt8 → Except ℕ (List UInt8)
  | [] => .ok []
  | c :: rest =>
    if c = 37 then
      match rest with
      | hi :: lo :: rest =>
        match hex_value hi, hex_value lo with
        | some hi, some lo => (decode form (at_ + 3) rest).map (UInt8.ofNat (16 * hi + lo) :: ·)
        | _, _ => .error at_
      | _ => .error at_
    else (decode form (at_ + 1) rest).map ((if c = 43 ∧ form then 32 else c) :: ·)

theorem decode_cons_of_ne (form : Bool) (at_ : ℕ) {c : UInt8} (h : c ≠ 37) (rest : List UInt8) :
    decode form at_ (c :: rest) =
      (decode form (at_ + 1) rest).map ((if c = 43 ∧ form then 32 else c) :: ·) := by
  rcases rest with _ | ⟨x, _ | ⟨y, rest⟩⟩ <;> simp only [decode, if_neg h]

/-- The bytes that are encoded, for a reader that takes a malformed escape as it is. -/
def percent_decode : List UInt8 → List UInt8
  | 37 :: hi :: lo :: rest =>
    match hex_value hi, hex_value lo with
    | some hi, some lo => UInt8.ofNat (16 * hi + lo) :: percent_decode rest
    | _, _ => 37 :: percent_decode (hi :: lo :: rest)
  | c :: rest => c :: percent_decode rest
  | [] => []

/-- The two readers agree where no escape is malformed. -/
theorem percent_decode_of_decode {at_ : ℕ} {bytes out : List UInt8} (h : decode false at_ bytes = .ok out) :
    percent_decode bytes = out := by
  fun_induction decode false at_ bytes generalizing out with
  | case1 at_ => cases h; rfl
  | case2 at_ hi lo rest a b hb ha ih =>
    cases hrest : decode false (at_ + 3) rest with
    | error e => rw [hrest] at h; cases h
    | ok tail =>
      rw [hrest] at h
      cases h
      rw [percent_decode, ha, hb]
      dsimp only
      rw [ih hrest]
  | case3 => cases h
  | case4 => cases h
  | case5 at_ c rest hc ih =>
    cases hrest : decode false (at_ + 1) rest with
    | error e => rw [hrest] at h; cases h
    | ok tail =>
      rw [hrest] at h
      cases h
      rw [percent_decode, ih hrest]
      · simp
      · rintro _ _ _ rfl
        exact absurd rfl hc

/-- The bytes that stand for themselves are of ASCII and are not read in another way. -/
structure Plain (plain : UInt8 → Bool) : Prop where
  lt : ∀ b, plain b = true → b.toNat < 128
  percent : plain 37 = false
  plus : plain 43 = false

variable {plain : UInt8 → Bool} (hplain : Plain plain)

theorem char_lt {n : ℕ} (h : n < 128) : (Char.ofNat n).val < 128 ∧ (Char.ofNat n).val.toUInt8 = UInt8.ofNat n := by
  interval_cases n <;> decide

include hplain

theorem ascii_encodeByte (b : UInt8) : ∀ c ∈ encodeByte plain b, c.val < 128 := by
  have hb : b.toNat < 256 := b.toNat_lt
  unfold encodeByte
  split_ifs with h
  · exact List.forall_mem_singleton.2 (char_lt (hplain.lt b h)).1
  · simp only [List.forall_mem_cons]
    exact ⟨by decide, hexDigit_lt (by omega), hexDigit_lt (by omega), by simp⟩

theorem ascii_encode (bytes : List UInt8) : ∀ c ∈ encode plain bytes, c.val < 128 := by
  intro c hc
  obtain ⟨b, -, hb⟩ := List.mem_flatMap.1 hc
  exact ascii_encodeByte hplain b c hb

/-- An encoded byte is read back. -/
theorem decode_encodeByte (form : Bool) (at_ : ℕ) (b : UInt8) (rest out : List UInt8)
    (hrest : ∀ at_, decode form at_ rest = .ok out) :
    decode form at_ (utf8 (encodeByte plain b) ++ rest) = .ok (b :: out) := by
  have hb : b.toNat < 256 := b.toNat_lt
  rw [utf8_ascii (ascii_encodeByte hplain b)]
  unfold encodeByte
  split_ifs with h
  · have hne : b ≠ 37 := by
      rintro rfl
      rw [hplain.percent] at h
      cases h
    have hplus : b ≠ 43 := by
      rintro rfl
      rw [hplain.plus] at h
      cases h
    rw [List.map_singleton, (char_lt (hplain.lt b h)).2, UInt8.ofNat_toNat, List.singleton_append,
      decode_cons_of_ne form at_ hne, hrest, if_neg fun hand => hplus hand.1]
    rfl
  · simp only [List.map_cons, List.map_nil, List.cons_append, List.nil_append]
    rw [decode, if_pos (by decide)]
    simp only [hex_value_hexDigit (show b.toNat / 16 < 16 by omega),
      hex_value_hexDigit (show b.toNat % 16 < 16 by omega), hrest]
    rw [Nat.div_add_mod, UInt8.ofNat_toNat]
    rfl

/-- What was encoded is read back. -/
theorem decode_utf8_encode (form : Bool) (at_ : ℕ) (bytes : List UInt8) :
    decode form at_ (utf8 (encode plain bytes)) = .ok bytes := by
  induction bytes generalizing at_ with
  | nil => rfl
  | cons b bytes ih =>
    unfold encode at ih ⊢
    rw [List.flatMap_cons, utf8_append]
    exact decode_encodeByte hplain form at_ b _ bytes ih

omit hplain

/-! ### Libraries -/

/-- A library that encodes texts, which is told the bytes that stand for themselves. -/
class Library where
  utf8_percent_encode : (UInt8 → Bool) → Str → Str
  /-- Bytes that are not of ASCII are always escaped. -/
  encode_eq {plain : UInt8 → Bool} (h : ∀ b, plain b = true → b.toNat < 128) (text : Str) :
    utf8_percent_encode plain text = encode plain (utf8 text)

export Library (utf8_percent_encode)

/-- The documented behaviour. -/
instance documented : Library where
  utf8_percent_encode plain text := encode plain (utf8 text)
  encode_eq _ _ := rfl

theorem utf8_percent_encode_eq [Library] {plain : UInt8 → Bool} (hplain : Plain plain) (text : Str) :
    utf8_percent_encode plain text = encode plain (utf8 text) := Library.encode_eq hplain.lt text

end IpeLang.Lib.Percent
