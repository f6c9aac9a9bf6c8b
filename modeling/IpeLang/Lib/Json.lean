import IpeLang.Lib.SemverText

/-!
# JSON

Values, their compact text, and a reader.

* `Spells`: the ways in which a string may spell a character;
* `Json.print esc`: the compact text of a value, where `esc` spells the characters of strings;
* `Json.read`: read a text; `Json.read_print` says that it reads what was printed;
* `Json.Library`: what is relied on of a library of JSON, and `Json.documented`, which is made of these;
* `Json.int`, `Json.asInt`: numbers without fraction or exponent.

A number is kept as its text, and an object as the list of its fields.
-/

namespace IpeLang.Lib

open Semver (decimal ofDecimal)

/-! ### Numbers -/

/-- The rest of a number from its exponent on. -/
def isExponent : Str → Bool
  | [] => true
  | c :: s =>
    (c == 'e' || c == 'E') &&
      let digits := match s with
        | '+' :: s => s
        | '-' :: s => s
        | s => s
      !digits.isEmpty && digits.all Char.isDigit

/-- The rest of a number from its fraction on. -/
def isFraction : Str → Bool
  | '.' :: s => !(s.takeWhile Char.isDigit).isEmpty && isExponent (s.dropWhile Char.isDigit)
  | s => isExponent s

/-- A number without its sign. -/
def isUnsigned (s : Str) : Bool :=
  let digits := s.takeWhile Char.isDigit
  !digits.isEmpty && (digits == ['0'] || digits.head? != some '0') &&
    isFraction (s.dropWhile Char.isDigit)

/-- The text of a number. -/
def isNumber : Str → Bool
  | '-' :: s => isUnsigned s
  | s => isUnsigned s

/-- The characters of numbers. -/
def isNumberChar (c : Char) : Bool := c.isDigit || "+-.eE".toList.contains c

/-- A number, as its text. -/
abbrev Number := { s : Str // isNumber s = true ∧ s.all isNumberChar = true }

/-! ### Values -/

inductive Json
  | null
  | bool (b : Bool)
  | num (n : Number)
  | str (s : Str)
  | arr (items : List Json)
  | obj (fields : List (Str × Json))

namespace Json

/-- The value of a field that is there once. -/
def uniqueField (fields : List (Str × Json)) (name : Str) : Option Json :=
  match fields.filter fun f => f.1 == name with
  | [(_, j)] => some j
  | _ => none

/-- The values of the fields of a record, which is an object, or an array of just them. Other fields
of an object are skipped. -/
def record (names : List Str) : Json → Option (List Json)
  | .obj fields => names.mapM (uniqueField fields)
  | .arr items => if items.length = names.length then some items else none
  | _ => none

theorem uniqueField_eq {fields : List (Str × Json)} (h : (fields.map Prod.fst).Nodup)
    {f : Str × Json} (hf : f ∈ fields) : uniqueField fields f.1 = some f.2 := by
  have hfilter : fields.filter (fun g => g.1 == f.1) = [f] := by
    induction fields with
    | nil => cases hf
    | cons g fields ih =>
      rw [List.map_cons, List.nodup_cons] at h
      have hrest : ∀ g' ∈ fields, g'.1 ≠ g.1 := fun g' hg' heq =>
        h.1 (heq ▸ List.mem_map_of_mem (f := Prod.fst) hg')
      rcases List.mem_cons.1 hf with rfl | hf
      · simpa using hrest
      · rw [List.filter_cons_of_neg (by simpa using (hrest f hf).symm), ih h.2 hf]
  unfold uniqueField
  rw [hfilter]

/-- The values of all fields of an object. -/
theorem record_obj {fields : List (Str × Json)} (h : (fields.map Prod.fst).Nodup) :
    (Json.obj fields).record (fields.map Prod.fst) = some (fields.map Prod.snd) := by
  have hmap : ∀ l : List (Str × Json), (∀ f ∈ l, f ∈ fields) →
      (l.map Prod.fst).mapM (uniqueField fields) = some (l.map Prod.snd) := by
    intro l
    induction l with
    | nil => intro _; rfl
    | cons f l ih =>
      intro hl
      obtain ⟨hf, hl⟩ := List.forall_mem_cons.1 hl
      simp [uniqueField_eq h hf, ih hl]
  exact hmap fields fun _ hf => hf

/-- The text of a string. -/
def asStr : Json → Option Str
  | .str s => some s
  | _ => none

/-- The items of an array, each decoded. -/
def asList {α : Type} (decode : Json → Option α) : Json → Option (List α)
  | .arr items => items.mapM decode
  | _ => none

theorem asList_map {α : Type} {encode : α → Json} {decode : Json → Option α}
    (h : ∀ a, decode (encode a) = some a) (as : List α) :
    asList decode (.arr (as.map encode)) = some as := by
  change (as.map encode).mapM decode = some as
  induction as with
  | nil => rfl
  | cons a as ih => simp [h, ih]

end Json

/-! ### Characters in strings -/

/-- Four hexadecimal digits. -/
def hex4 (n : ℕ) : Str :=
  [Nat.digitChar (n / 4096 % 16), Nat.digitChar (n / 256 % 16), Nat.digitChar (n / 16 % 16),
    Nat.digitChar (n % 16)]

/-- The escapes of one letter. -/
def SHORT_ESCAPES : List (Char × Char) :=
  [('"', '"'), ('\\', '\\'), ('/', '/'), ('b', '\x08'), ('f', '\x0c'), ('n', '\n'), ('r', '\r'),
    ('t', '\t')]

/-- The characters that stand for themselves. -/
def isPlain (c : Char) : Bool := decide (0x20 ≤ c.toNat) && c != '"' && c != '\\'

/-- The escape of a unit of 16 bits. -/
def unitEscape (n : ℕ) : Str := '\\' :: 'u' :: hex4 n

/-- The units of a character beyond 16 bits. -/
def highUnit (c : Char) : ℕ := 0xD800 + (c.toNat - 0x10000) / 1024

def lowUnit (c : Char) : ℕ := 0xDC00 + (c.toNat - 0x10000) % 1024

/-- The ways to spell a character. -/
inductive Spells : Char → Str → Prop
  | plain {c : Char} (h : isPlain c = true) : Spells c [c]
  | short {c e : Char} (h : (e, c) ∈ SHORT_ESCAPES) : Spells c ['\\', e]
  | unit {c : Char} (h : c.toNat < 0x10000) : Spells c (unitEscape c.toNat)
  | pair {c : Char} (h : 0x10000 ≤ c.toNat) :
      Spells c (unitEscape (highUnit c) ++ unitEscape (lowUnit c))

/-! ### Printing -/

section Print

variable (esc : Char → Str)

def printString (s : Str) : Str := '"' :: s.flatMap esc ++ ['"']

mutual

/-- The compact text of a value. -/
def Json.print : Json → Str
  | .null => "null".toList
  | .bool true => "true".toList
  | .bool false => "false".toList
  | .num n => n.1
  | .str s => printString esc s
  | .arr items => '[' :: printItems items ++ [']']
  | .obj fields => '{' :: printFields fields ++ ['}']

def printItems : List Json → Str
  | [] => []
  | [j] => j.print
  | j :: js => j.print ++ ',' :: printItems js

def printFields : List (Str × Json) → Str
  | [] => []
  | [(k, j)] => printString esc k ++ ':' :: j.print
  | (k, j) :: fs => printString esc k ++ ':' :: j.print ++ ',' :: printFields fs

end

end Print

/-! ### Reading -/

/-- The white space between tokens. -/
def isJsonSpace (c : Char) : Bool := c == ' ' || c == '\n' || c == '\r' || c == '\t'

def skipSpace (s : Str) : Str := s.dropWhile isJsonSpace

def hexValue (c : Char) : Option ℕ :=
  if c.isDigit then some (c.toNat - '0'.toNat)
  else if 'a' ≤ c ∧ c ≤ 'f' then some (c.toNat - 'a'.toNat + 10)
  else if 'A' ≤ c ∧ c ≤ 'F' then some (c.toNat - 'A'.toNat + 10)
  else none

/-- Read four hexadecimal digits. -/
def readHex4 : Str → Option (ℕ × Str)
  | a :: b :: c :: d :: s => do
    let a ← hexValue a
    let b ← hexValue b
    let c ← hexValue c
    let d ← hexValue d
    some (a * 4096 + b * 256 + c * 16 + d, s)
  | _ => none

/-- Read the second unit of a character beyond 16 bits. -/
def readLow (high : ℕ) (s : Str) : Option (Char × Str) := do
  let s ← s.dropPrefix? ['\\', 'u']
  let (low, s) ← readHex4 s
  if 0xDC00 ≤ low ∧ low < 0xE000 then
    some (Char.ofNat (0x10000 + (high - 0xD800) * 1024 + (low - 0xDC00)), s)
  else none

/-- Read a character, however it is spelled. -/
def readChar : Str → Option (Char × Str)
  | [] => none
  | c :: s =>
    if c = '\\' then
      match s with
      | [] => none
      | e :: s =>
        if e = 'u' then do
          let (unit, s) ← readHex4 s
          if 0xD800 ≤ unit ∧ unit < 0xDC00 then readLow unit s
          else if 0xDC00 ≤ unit ∧ unit < 0xE000 then none
          else some (Char.ofNat unit, s)
        else (SHORT_ESCAPES.lookup e).map fun c => (c, s)
    else if isPlain c then some (c, s) else none

/-- Read the characters of a string and its closing quote. -/
def readString : ℕ → Str → Option (Str × Str)
  | 0, _ => none
  | fuel + 1, s =>
    if s.head? = some '"' then some ([], s.tail)
    else do
      let (c, s) ← readChar s
      let (cs, s) ← readString fuel s
      some (c :: cs, s)

def readNumber (s : Str) : Option (Json × Str) :=
  let token := s.takeWhile isNumberChar
  if h : isNumber token = true then
    some (.num ⟨token, h, List.all_eq_true.2 fun _ hc => List.mem_takeWhile_imp hc⟩,
      s.dropWhile isNumberChar)
  else none

/-- Read what follows the first letter of a word. -/
def readWord (value : Json) (word s : Str) : Option (Json × Str) :=
  (s.dropPrefix? word).map fun s => (value, s)

mutual

/-- Read a value off the front of a text. -/
def readValue : ℕ → Str → Option (Json × Str)
  | 0, _ => none
  | fuel + 1, s =>
    match skipSpace s with
    | [] => none
    | c :: s =>
      if c = 'n' then readWord .null "ull".toList s
      else if c = 't' then readWord (.bool true) "rue".toList s
      else if c = 'f' then readWord (.bool false) "alse".toList s
      else if c = '"' then (readString (s.length + 1) s).map fun p => (.str p.1, p.2)
      else if c = '[' then
        if (skipSpace s).head? = some ']' then some (.arr [], (skipSpace s).tail)
        else (readItems fuel s).map fun p => (.arr p.1, p.2)
      else if c = '{' then
        if (skipSpace s).head? = some '}' then some (.obj [], (skipSpace s).tail)
        else (readFields fuel s).map fun p => (.obj p.1, p.2)
      else readNumber (c :: s)

/-- Read the items of an array and its closing bracket. -/
def readItems : ℕ → Str → Option (List Json × Str)
  | 0, _ => none
  | fuel + 1, s => do
    let (j, s) ← readValue fuel s
    match skipSpace s with
    | [] => none
    | c :: s =>
      if c = ']' then some ([j], s)
      else if c = ',' then do
        let (js, s) ← readItems fuel s
        some (j :: js, s)
      else none

/-- Read the fields of an object and its closing brace. -/
def readFields : ℕ → Str → Option (List (Str × Json) × Str)
  | 0, _ => none
  | fuel + 1, s => do
    let s ← (skipSpace s).dropPrefix? ['"']
    let (k, s) ← readString (s.length + 1) s
    let s ← (skipSpace s).dropPrefix? [':']
    let (j, s) ← readValue fuel s
    match skipSpace s with
    | [] => none
    | c :: s =>
      if c = '\x7d' then some ([(k, j)], s)
      else if c = ',' then do
        let (fs, s) ← readFields fuel s
        some ((k, j) :: fs, s)
      else none

end

/-- Read a text that is one value. -/
def Json.read (s : Str) : Option Json := do
  let (j, s) ← readValue (s.length + 1) s
  if (skipSpace s).isEmpty then some j else none

/-! ### What is printed is read -/

theorem hexValue_digitChar {d : ℕ} (h : d < 16) : hexValue (Nat.digitChar d) = some d := by
  interval_cases d <;> rfl

theorem readHex4_hex4 {n : ℕ} (h : n < 0x10000) (s : Str) : readHex4 (hex4 n ++ s) = some (n, s) := by
  have hdigit : ∀ m : ℕ, hexValue (Nat.digitChar (m % 16)) = some (m % 16) := fun m =>
    hexValue_digitChar (Nat.mod_lt m (by decide))
  have hsum : n / 4096 % 16 * 4096 + n / 256 % 16 * 256 + n / 16 % 16 * 16 + n % 16 = n := by omega
  simp [hex4, readHex4, hdigit, hsum]

theorem readChar_unit {n : ℕ} (h : n < 0x10000) (s : Str) :
    readChar (unitEscape n ++ s) =
      if 0xD800 ≤ n ∧ n < 0xDC00 then readLow n s
      else if 0xDC00 ≤ n ∧ n < 0xE000 then none
      else some (Char.ofNat n, s) := by
  simp only [unitEscape, List.cons_append, readChar, if_true, readHex4_hex4 h, Option.bind_eq_bind,
    Option.bind_some]

theorem readLow_unit {high n : ℕ} (h : 0xDC00 ≤ n ∧ n < 0xE000) (s : Str) :
    readLow high (unitEscape n ++ s) =
      some (Char.ofNat (0x10000 + (high - 0xD800) * 1024 + (n - 0xDC00)), s) := by
  have hpre : (unitEscape n ++ s).dropPrefix? ['\\', 'u'] = some (hex4 n ++ s) := by
    simp [unitEscape, List.dropPrefix?]
  unfold readLow
  rw [hpre, Option.bind_eq_bind, Option.bind_some, readHex4_hex4 (by omega), Option.bind_eq_bind,
    Option.bind_some]
  exact if_pos h

theorem Spells.readChar {c : Char} {t : Str} (h : Spells c t) (s : Str) :
    readChar (t ++ s) = some (c, s) := by
  cases h with
  | plain h =>
    have hne : c ≠ '\\' := by
      rintro rfl
      cases h
    simp [Lib.readChar, hne, h]
  | @short e h =>
    have hall : (SHORT_ESCAPES.all fun p =>
        p.1 != 'u' && SHORT_ESCAPES.lookup p.1 == some p.2) = true := by decide
    have := List.all_eq_true.1 hall _ h
    obtain ⟨hu, hlookup⟩ : e ≠ 'u' ∧ SHORT_ESCAPES.lookup e = some c := by simpa using this
    simp only [List.cons_append, List.nil_append, Lib.readChar, if_true, if_neg hu, hlookup,
      Option.map_some]
  | unit h =>
    have hvalid : c.toNat < 0xD800 ∨ 0xDFFF < c.toNat ∧ c.toNat < 0x110000 := c.valid
    rw [readChar_unit h, if_neg (by omega), if_neg (by omega), Char.ofNat_toNat]
  | pair h =>
    have hvalid : c.toNat < 0xD800 ∨ 0xDFFF < c.toNat ∧ c.toNat < 0x110000 := c.valid
    have hhigh : 0xD800 ≤ highUnit c ∧ highUnit c < 0xDC00 := by
      unfold highUnit
      omega
    have hlow : 0xDC00 ≤ lowUnit c ∧ lowUnit c < 0xE000 := by
      unfold lowUnit
      omega
    have hsum : 0x10000 + (highUnit c - 0xD800) * 1024 + (lowUnit c - 0xDC00) = c.toNat := by
      unfold highUnit lowUnit
      omega
    rw [List.append_assoc, readChar_unit (by omega), if_pos hhigh, readLow_unit hlow, hsum,
      Char.ofNat_toNat]

theorem Spells.head {c : Char} {t : Str} (h : Spells c t) :
    ∃ d s, t = d :: s ∧ d ≠ '"' := by
  cases h with
  | plain h =>
    refine ⟨c, [], rfl, ?_⟩
    rintro rfl
    cases h
  | short => exact ⟨'\\', _, rfl, by decide⟩
  | unit => exact ⟨'\\', _, rfl, by decide⟩
  | pair => exact ⟨'\\', _, rfl, by decide⟩

section Reads

variable {esc : Char → Str}

theorem length_le_flatMap (hesc : ∀ c, Spells c (esc c)) (s : Str) :
    s.length ≤ (s.flatMap esc).length := by
  induction s with
  | nil => simp
  | cons c s ih =>
    obtain ⟨d, t, ht, -⟩ := (hesc c).head
    rw [List.flatMap_cons, List.length_append, ht, List.length_cons, List.length_cons]
    omega

theorem readString_print (hesc : ∀ c, Spells c (esc c)) (s rest : Str) {fuel : ℕ}
    (hfuel : s.length < fuel) :
    readString fuel (s.flatMap esc ++ '"' :: rest) = some (s, rest) := by
  induction s generalizing fuel with
  | nil =>
    obtain ⟨fuel, rfl⟩ := Nat.exists_eq_add_of_lt hfuel
    simp [readString]
  | cons c s ih =>
    obtain ⟨fuel, rfl⟩ := Nat.exists_eq_add_of_lt hfuel
    obtain ⟨d, t, ht, hd⟩ := (hesc c).head
    have hhead : ¬ ((c :: s).flatMap esc ++ '"' :: rest).head? = some '"' := by
      simp [ht, hd]
    rw [readString, if_neg hhead, List.flatMap_cons, List.append_assoc, (hesc c).readChar,
      Option.bind_eq_bind, Option.bind_some]
    have hrest : s.length < (c :: s).length + fuel := by
      rw [List.length_cons]
      omega
    simp only [ih hrest, Option.bind_eq_bind, Option.bind_some]

/-- A text that does not go on with a number. -/
def Stops (rest : Str) : Prop := ∀ c ∈ rest.head?, isNumberChar c = false

theorem stops_cons {c : Char} (h : isNumberChar c = false) (rest : Str) : Stops (c :: rest) := by
  rintro d hd
  cases hd
  exact h

theorem readNumber_print (n : Number) {rest : Str} (hrest : Stops rest) :
    readNumber (n.1 ++ rest) = some (.num n, rest) := by
  have hall : ∀ c ∈ n.1, isNumberChar c = true := List.all_eq_true.1 n.2.2
  have htake : (n.1 ++ rest).takeWhile isNumberChar = n.1 := by
    rw [List.takeWhile_append_of_pos hall]
    cases rest with
    | nil => simp
    | cons c rest => simp [hrest c rfl]
  have hdrop : (n.1 ++ rest).dropWhile isNumberChar = rest := by
    rw [List.dropWhile_append_of_pos hall]
    cases rest with
    | nil => simp
    | cons c rest => simp [hrest c rfl]
  unfold readNumber
  simp only [htake, hdrop]
  rw [dif_pos n.2.1]

theorem number_head (n : Number) : ∃ c s, n.1 = c :: s ∧ isNumberChar c = true := by
  obtain ⟨s, hs, hall⟩ := n
  cases s with
  | nil => cases hs
  | cons c s => exact ⟨c, s, rfl, List.all_eq_true.1 hall c List.mem_cons_self⟩

theorem print_head (j : Json) : ∃ c s, j.print esc = c :: s ∧ isJsonSpace c = false ∧ c ≠ ']' := by
  cases j with
  | null => exact ⟨'n', _, rfl, rfl, by decide⟩
  | bool b => cases b <;> exact ⟨_, _, rfl, rfl, by decide⟩
  | num n =>
    obtain ⟨c, s, hc, hnum⟩ := number_head n
    refine ⟨c, s, hc, ?_, ?_⟩
    · by_contra hspace
      simp only [isJsonSpace, Bool.not_eq_false, Bool.or_eq_true, beq_iff_eq] at hspace
      rcases hspace with ((rfl | rfl) | rfl) | rfl <;> cases hnum
    · rintro rfl
      cases hnum
  | str s => exact ⟨'"', _, rfl, rfl, by decide⟩
  | arr items => exact ⟨'[', _, rfl, rfl, by decide⟩
  | obj fields => exact ⟨'{', _, rfl, rfl, by decide⟩

theorem skipSpace_print (j : Json) (rest : Str) :
    skipSpace (j.print esc ++ rest) = j.print esc ++ rest := by
  obtain ⟨c, s, hc, hspace, -⟩ : ∃ c s, j.print esc = c :: s ∧ isJsonSpace c = false ∧ c ≠ ']' :=
    print_head j
  simp [skipSpace, hc, hspace]

theorem skipSpace_cons {c : Char} (h : isJsonSpace c = false) (s : Str) :
    skipSpace (c :: s) = c :: s := by
  simp [skipSpace, h]

/-- With this fuel every value, every list of items and every list of fields that it covers is read
back. -/
structure ReadsBack (esc : Char → Str) (fuel : ℕ) : Prop where
  value : ∀ (j : Json) (rest : Str), (j.print esc).length < fuel → Stops rest →
    readValue fuel (j.print esc ++ rest) = some (j, rest)
  items : ∀ (js : List Json) (rest : Str), js ≠ [] → (printItems esc js).length + 1 < fuel →
    readItems fuel (printItems esc js ++ ']' :: rest) = some (js, rest)
  fields : ∀ (fs : List (Str × Json)) (rest : Str), fs ≠ [] →
    (printFields esc fs).length + 1 < fuel →
    readFields fuel (printFields esc fs ++ '}' :: rest) = some (fs, rest)

section Step

variable {fuel : ℕ} (ih : ReadsBack esc fuel)
include ih

theorem readItems_print {js : List Json} (rest : Str) (hne : js ≠ [])
    (hlen : (printItems esc js).length + 1 < fuel + 1) :
    readItems (fuel + 1) (printItems esc js ++ ']' :: rest) = some (js, rest) := by
  obtain ⟨j, js, rfl⟩ := List.exists_cons_of_ne_nil hne
  cases js with
  | nil =>
    have hj := ih.value j (']' :: rest) (by simpa [printItems] using hlen) (stops_cons rfl rest)
    simp only [readItems, printItems, hj, Option.bind_eq_bind, Option.bind_some,
      skipSpace_cons (c := ']') rfl, if_true]
  | cons j' js =>
    simp only [printItems, List.length_append, List.length_cons] at hlen
    have hj := ih.value j (',' :: (printItems esc (j' :: js) ++ ']' :: rest)) (by omega)
      (stops_cons rfl _)
    have hjs := ih.items (j' :: js) rest (List.cons_ne_nil _ _) (by omega)
    simp only [readItems, printItems, List.append_assoc, List.cons_append, hj, Option.bind_eq_bind,
      Option.bind_some, skipSpace_cons (c := ',') rfl, hjs, if_true]
    rfl

theorem readFields_print (hesc : ∀ c, Spells c (esc c)) {fs : List (Str × Json)} (rest : Str)
    (hne : fs ≠ []) (hlen : (printFields esc fs).length + 1 < fuel + 1) :
    readFields (fuel + 1) (printFields esc fs ++ '}' :: rest) = some (fs, rest) := by
  obtain ⟨⟨k, j⟩, fs, rfl⟩ := List.exists_cons_of_ne_nil hne
  have hkey : ∀ s, readString ((k.flatMap esc ++ '"' :: s).length + 1) (k.flatMap esc ++ '"' :: s) =
      some (k, s) := fun s => by
    refine readString_print hesc k s ?_
    have := length_le_flatMap hesc k
    rw [List.length_append]
    omega
  cases fs with
  | nil =>
    have hj := ih.value j ('}' :: rest)
      (by simp only [printFields, printString, List.length_append, List.length_cons] at hlen; omega)
      (stops_cons rfl rest)
    simp only [readFields, printFields, printString, List.append_assoc, List.cons_append,
      List.nil_append, skipSpace_cons (c := '"') rfl, List.dropPrefix?, beq_self_eq_true, if_true,
      Option.bind_eq_bind, Option.bind_some, hkey, skipSpace_cons (c := ':') rfl, hj,
      skipSpace_cons (c := '}') rfl]
  | cons f fs =>
    simp only [printFields, printString, List.length_append, List.length_cons] at hlen
    have hj := ih.value j (',' :: (printFields esc (f :: fs) ++ '}' :: rest)) (by omega)
      (stops_cons rfl _)
    have hfs := ih.fields (f :: fs) rest (List.cons_ne_nil _ _) (by omega)
    simp only [readFields, printFields, printString, List.append_assoc, List.cons_append,
      List.nil_append, skipSpace_cons (c := '"') rfl, List.dropPrefix?, beq_self_eq_true, if_true,
      Option.bind_eq_bind, Option.bind_some, hkey, skipSpace_cons (c := ':') rfl, hj,
      skipSpace_cons (c := ',') rfl, hfs]
    rfl

theorem readValue_print (hesc : ∀ c, Spells c (esc c)) {j : Json} {rest : Str}
    (hlen : (j.print esc).length < fuel + 1) (hrest : Stops rest) :
    readValue (fuel + 1) (j.print esc ++ rest) = some (j, rest) := by
  rw [readValue, skipSpace_print]
  cases j with
  | null => simp [Json.print, readWord, List.dropPrefix?]
  | bool b => cases b <;> simp [Json.print, readWord, List.dropPrefix?]
  | num n =>
    obtain ⟨c, s, hc, hnum⟩ := number_head n
    have hne : ∀ d, isNumberChar d = false → c ≠ d := by
      rintro d hd rfl
      cases hnum.symm.trans hd
    have hread := readNumber_print n hrest
    simp only [Json.print, hc, List.cons_append] at hread ⊢
    rw [if_neg (hne 'n' rfl), if_neg (hne 't' rfl), if_neg (hne 'f' rfl), if_neg (hne '"' rfl),
      if_neg (hne '[' rfl), if_neg (hne '{' rfl), hread]
  | str s =>
    have hread : readString ((s.flatMap esc ++ '"' :: rest).length + 1)
        (s.flatMap esc ++ '"' :: rest) = some (s, rest) := by
      refine readString_print hesc s rest ?_
      have := length_le_flatMap hesc s
      rw [List.length_append]
      omega
    have hprint : (Json.str s).print esc ++ rest = '"' :: (s.flatMap esc ++ '"' :: rest) := by
      simp [Json.print, printString]
    rw [hprint]
    simp [-List.length_append, hread]
  | arr items =>
    cases items with
    | nil => simp [Json.print, printItems, skipSpace_cons (c := ']') rfl]
    | cons j js =>
      simp only [Json.print, List.length_append, List.length_cons, List.length_nil] at hlen
      have hitems := ih.items (j :: js) rest (List.cons_ne_nil _ _) (by omega)
      obtain ⟨c, s, hc, hspace, hbracket⟩ :
          ∃ c s, j.print esc = c :: s ∧ isJsonSpace c = false ∧ c ≠ ']' := print_head j
      obtain ⟨t, ht⟩ : ∃ t, printItems esc (j :: js) = c :: t := by
        cases js with
        | nil => exact ⟨s, hc⟩
        | cons j' js => exact ⟨_, by rw [printItems, hc, List.cons_append]; exact List.cons_ne_nil _ _⟩
      simp only [Json.print, ht, List.append_assoc, List.cons_append, List.nil_append] at hitems ⊢
      rw [if_neg (by decide), if_neg (by decide), if_neg (by decide), if_neg (by decide), if_pos trivial,
        skipSpace_cons hspace, if_neg (by simpa using hbracket), hitems]
      rfl
  | obj fields =>
    cases fields with
    | nil => simp [Json.print, printFields, skipSpace_cons (c := '}') rfl]
    | cons f fs =>
      simp only [Json.print, List.length_append, List.length_cons, List.length_nil] at hlen
      have hfields := ih.fields (f :: fs) rest (List.cons_ne_nil _ _) (by omega)
      obtain ⟨t, ht⟩ : ∃ t, printFields esc (f :: fs) = '"' :: t := by
        obtain ⟨k, j⟩ := f
        cases fs <;> exact ⟨_, rfl⟩
      simp only [Json.print, ht, List.append_assoc, List.cons_append, List.nil_append] at hfields ⊢
      rw [if_neg (by decide), if_neg (by decide), if_neg (by decide), if_neg (by decide),
        if_neg (by decide), if_pos trivial, skipSpace_cons rfl, if_neg (by simp), hfields]
      rfl

end Step

theorem readsBack (hesc : ∀ c, Spells c (esc c)) (fuel : ℕ) : ReadsBack esc fuel := by
  induction fuel with
  | zero => exact ⟨by simp, by simp, by simp⟩
  | succ fuel ih =>
    constructor
    · exact fun j rest hlen hrest => readValue_print ih hesc hlen hrest
    · exact fun js rest hne hlen => readItems_print ih rest hne hlen
    · exact fun fs rest hne hlen => readFields_print ih hesc rest hne hlen

/-- What is printed is read, whichever spellings the strings are printed with. -/
theorem Json.read_print (hesc : ∀ c, Spells c (esc c)) (j : Json) :
    Json.read (j.print esc) = some j := by
  have hread := (readsBack hesc ((j.print esc).length + 1)).value j [] (Nat.lt_succ_self _)
    (by rintro c ⟨⟩)
  rw [List.append_nil] at hread
  unfold Json.read
  rw [hread, Option.bind_eq_bind, Option.bind_some]
  rfl

end Reads

/-! ### Libraries -/

/-- A library of JSON, which is told how to spell the characters of strings and keeps numbers as their texts. -/
class Json.Library where
  write : (Char → Str) → Json → Str
  parse : Str → Option Json
  /-- A value is written as its compact text. -/
  write_eq (esc : Char → Str) (j : Json) : write esc j = j.print esc
  /-- The compact text is read back, whichever spellings it has. -/
  parse_print {esc : Char → Str} (hesc : ∀ c, Spells c (esc c)) (j : Json) : parse (j.print esc) = some j

/-- The documented behaviour. -/
instance Json.documented : Json.Library where
  write := Json.print
  parse := Json.read
  write_eq _ _ := rfl
  parse_print := Json.read_print

section Library

variable [Json.Library]

abbrev Json.write (esc : Char → Str) (j : Json) : Str := Json.Library.write esc j

abbrev Json.parse (s : Str) : Option Json := Json.Library.parse s

/-- What is written is read. -/
theorem Json.parse_write {esc : Char → Str} (hesc : ∀ c, Spells c (esc c)) (j : Json) :
    Json.parse (j.write esc) = some j := by
  rw [Json.write, Json.Library.write_eq]
  exact Json.Library.parse_print hesc j

end Library

/-! ### Integers -/

theorem takeWhile_decimal (n : ℕ) : (decimal n).takeWhile Char.isDigit = decimal n :=
  List.takeWhile_eq_self_iff.2 fun _ h => Semver.isDigit_of_mem_decimal h

theorem isUnsigned_decimal (n : ℕ) : isUnsigned (decimal n) = true := by
  have hdrop : (decimal n).dropWhile Char.isDigit = [] :=
    List.dropWhile_eq_nil_iff.2 fun _ h => Semver.isDigit_of_mem_decimal h
  have hzero := Semver.not_hasLeadingZero_decimal n
  have hne := Semver.decimal_ne_nil n
  unfold isUnsigned
  rw [takeWhile_decimal, hdrop]
  unfold Semver.hasLeadingZero at hzero
  rcases hdec : decimal n with _ | ⟨c, _ | ⟨d, s⟩⟩
  · exact absurd hdec hne
  · by_cases hc : c = '0'
    · subst hc
      rfl
    · simp [hc, isFraction, isExponent]
  · rw [hdec] at hzero
    simp_all [isFraction, isExponent]

theorem decimal_head_ne {n : ℕ} {s : Str} : decimal n ≠ '-' :: s := fun h => by
  have hd : '-'.isDigit = true :=
    Semver.isDigit_of_mem_decimal (n := n) (h ▸ List.mem_cons_self)
  cases hd

theorem isNumber_decimal (n : ℕ) : isNumber (decimal n) = true := by
  have := isUnsigned_decimal n
  unfold isNumber
  split
  · next s h => exact absurd h decimal_head_ne
  · exact this

theorem all_decimal (n : ℕ) : (decimal n).all isNumberChar = true :=
  List.all_eq_true.2 fun _ h => by simp [isNumberChar, Semver.isDigit_of_mem_decimal h]

/-- The decimal text of an integer. -/
def intText : ℤ → Str
  | .ofNat n => decimal n
  | .negSucc n => '-' :: decimal (n + 1)

theorem isNumber_intText (z : ℤ) : isNumber (intText z) = true := by
  cases z with
  | ofNat n => exact isNumber_decimal n
  | negSucc n => exact isUnsigned_decimal (n + 1)

theorem all_intText (z : ℤ) : (intText z).all isNumberChar = true := by
  cases z with
  | ofNat n => exact all_decimal n
  | negSucc n => exact Bool.and_eq_true_iff.2 ⟨rfl, all_decimal (n + 1)⟩

/-- The number of an integer. -/
def Json.int (z : ℤ) : Json := .num ⟨intText z, isNumber_intText z, all_intText z⟩

/-- The integer that a text without fraction or exponent stands for; `-0` is not one. -/
def intOf : Str → Option ℤ
  | '-' :: digits =>
    if digits.all Char.isDigit && digits != ['0'] then some (-(ofDecimal digits : ℤ)) else none
  | digits => if digits.all Char.isDigit then some (ofDecimal digits : ℤ) else none

/-- The integer of a number without fraction or exponent. -/
def Json.asInt : Json → Option ℤ
  | .num n => intOf n.1
  | _ => none

theorem all_isDigit_decimal (n : ℕ) : (decimal n).all Char.isDigit = true :=
  List.all_eq_true.2 fun _ h => Semver.isDigit_of_mem_decimal h

theorem intOf_intText (z : ℤ) : intOf (intText z) = some z := by
  cases z with
  | ofNat n =>
    change intOf (decimal n) = some (n : ℤ)
    unfold intOf
    split
    · next s h => exact absurd h decimal_head_ne
    · rw [if_pos (all_isDigit_decimal n), Semver.ofDecimal_decimal]
  | negSucc n =>
    have hne : decimal (n + 1) ≠ ['0'] := fun h => by
      have := Semver.ofDecimal_decimal (n + 1)
      rw [h] at this
      cases this
    simp [intText, intOf, all_isDigit_decimal, hne, Semver.ofDecimal_decimal, Int.negSucc_eq]

@[simp] theorem Json.asInt_int (z : ℤ) : (Json.int z).asInt = some z := intOf_intText z

end IpeLang.Lib
