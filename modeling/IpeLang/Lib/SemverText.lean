import IpeLang.Lib.Semver
import Mathlib.Data.Nat.Digits.Lemmas

/-!
# The text of a version

`Version.display` writes a version and `Version.parse` reads one, with the grammar of semantic versions:
no number with a leading zero or beyond 64 bits, no empty identifier. `Version.parse_display` says that
what is written is read back. Build metadata is given separately.
-/

namespace IpeLang.Lib.Semver

/-! ### Numbers -/

/-- The decimal digits of a number. -/
def decimal (n : ℕ) : Str :=
  if n = 0 then ['0'] else ((Nat.digits 10 n).map Nat.digitChar).reverse

/-- The number that a text of digits stands for. -/
def ofDecimal (s : Str) : ℕ := s.foldl (fun n c => 10 * n + (c.toNat - '0'.toNat)) 0

/-- A text that starts with a zero but is longer. -/
def hasLeadingZero (s : Str) : Bool := s.head? == some '0' && s.length != 1

theorem digitChar_toNat {d : ℕ} (h : d < 10) : (Nat.digitChar d).toNat - '0'.toNat = d := by
  interval_cases d <;> rfl

theorem digitChar_isDigit {d : ℕ} (h : d < 10) : (Nat.digitChar d).isDigit = true := by
  interval_cases d <;> rfl

theorem isDigit_of_mem_decimal {n : ℕ} {c : Char} (h : c ∈ decimal n) : c.isDigit = true := by
  unfold decimal at h
  split_ifs at h
  · rw [List.mem_singleton.1 h]
    rfl
  · obtain ⟨d, hd, rfl⟩ := List.mem_map.1 (List.mem_reverse.1 h)
    exact digitChar_isDigit (Nat.digits_lt_base (by decide) hd)

theorem decimal_ne_nil (n : ℕ) : decimal n ≠ [] := by
  unfold decimal
  split_ifs with h
  · simp
  · simpa using Nat.digits_ne_nil_iff_ne_zero.2 h

theorem ofDecimal_decimal (n : ℕ) : ofDecimal (decimal n) = n := by
  unfold decimal
  split_ifs with h
  · rw [h]
    rfl
  · have key : ∀ ds : List ℕ, (∀ d ∈ ds, d < 10) →
        ofDecimal ((ds.map Nat.digitChar).reverse) = Nat.ofDigits 10 ds := by
      intro ds
      induction ds with
      | nil => intro _; rfl
      | cons d ds ih =>
        intro hds
        obtain ⟨hd, hds⟩ := List.forall_mem_cons.1 hds
        have := ih hds
        unfold ofDecimal at this ⊢
        rw [List.map_cons, List.reverse_cons, List.foldl_append, this, List.foldl_cons,
          List.foldl_nil, digitChar_toNat hd, Nat.ofDigits_cons]
        exact Nat.add_comm _ _
    rw [key _ fun d hd => Nat.digits_lt_base (by decide) hd, Nat.ofDigits_digits]

theorem not_hasLeadingZero_decimal (n : ℕ) : hasLeadingZero (decimal n) = false := by
  unfold hasLeadingZero decimal
  split_ifs with h
  · rfl
  · have hne : Nat.digits 10 n ≠ [] := Nat.digits_ne_nil_iff_ne_zero.2 h
    have hlast := Nat.getLast_digit_ne_zero 10 h
    have hlt : (Nat.digits 10 n).getLast hne < 10 :=
      Nat.digits_lt_base (by decide) (List.getLast_mem hne)
    have hhead : ((Nat.digits 10 n).map Nat.digitChar).reverse.head? =
        some (Nat.digitChar ((Nat.digits 10 n).getLast hne)) := by
      rw [List.head?_reverse, List.getLast?_map, List.getLast?_eq_some_getLast hne]
      rfl
    rw [hhead]
    have : Nat.digitChar ((Nat.digits 10 n).getLast hne) ≠ '0' := by
      generalize (Nat.digits 10 n).getLast hne = d at hlast hlt
      interval_cases d
      · exact absurd rfl hlast
      all_goals decide
    simp [this]

/-- Read a number off the front of a text. -/
def numericIdentifier (s : Str) : Option (U64 × Str) :=
  let digits := s.takeWhile Char.isDigit
  if digits.isEmpty || hasLeadingZero digits then none
  else if h : ofDecimal digits < 2 ^ 64 then some (⟨_, h⟩, s.dropWhile Char.isDigit)
  else none

theorem takeWhile_append_of_all {α : Type} {p : α → Bool} {l s : List α}
    (hl : ∀ c ∈ l, p c = true) (hs : ∀ c ∈ s.head?, p c = false) :
    (l ++ s).takeWhile p = l ∧ (l ++ s).dropWhile p = s := by
  induction l with
  | nil =>
    cases s with
    | nil => simp
    | cons c s => simp [hs c rfl]
  | cons c l ih =>
    obtain ⟨hc, hl⟩ := List.forall_mem_cons.1 hl
    simp [hc, ih hl]

theorem numericIdentifier_decimal (n : U64) {s : Str} (hs : ∀ c ∈ s.head?, c.isDigit = false) :
    numericIdentifier (decimal n ++ s) = some (n, s) := by
  obtain ⟨ht, hd⟩ := takeWhile_append_of_all (p := Char.isDigit) (l := decimal n)
    (fun c hc => isDigit_of_mem_decimal hc) hs
  unfold numericIdentifier
  rw [ht, hd]
  simp [decimal_ne_nil, ofDecimal_decimal, not_hasLeadingZero_decimal]

/-! ### Identifiers -/

/-- Read an identifier of a prerelease. -/
def Identifier.parse (s : Str) : Option Identifier :=
  if s.isEmpty then none
  else if s.all Char.isDigit then if hasLeadingZero s then none else some (.numeric (ofDecimal s))
  else if h : isAlphanumeric s = true then some (.alphanumeric ⟨s, h⟩) else none

def Identifier.display : Identifier → Str
  | .numeric n => decimal n
  | .alphanumeric s => s.1

theorem isIdentChar_of_isDigit {c : Char} (h : c.isDigit = true) : isIdentChar c = true := by
  simp [isIdentChar, Char.isAlphanum, h]

theorem Identifier.parse_display (i : Identifier) : Identifier.parse i.display = some i := by
  cases i with
  | numeric n =>
    have hall : (decimal n).all Char.isDigit = true :=
      List.all_eq_true.2 fun c hc => isDigit_of_mem_decimal hc
    simp [parse, display, hall, decimal_ne_nil, not_hasLeadingZero_decimal, ofDecimal_decimal]
  | alphanumeric s =>
    obtain ⟨s, hs⟩ := s
    have hany := (Bool.and_eq_true _ _).mp hs
    have hnot : s.all Char.isDigit = false := by
      obtain ⟨c, hc, hd⟩ := List.any_eq_true.1 hany.2
      rw [List.all_eq_false]
      exact ⟨c, hc, by simpa using hd⟩
    have hne : s ≠ [] := by
      rintro rfl
      cases hany.2
    simp [parse, display, hnot, hne, hs]

theorem isIdentChar_of_mem_display {i : Identifier} {c : Char} (h : c ∈ i.display) :
    isIdentChar c = true := by
  cases i with
  | numeric n => exact isIdentChar_of_isDigit (isDigit_of_mem_decimal h)
  | alphanumeric s => exact List.all_eq_true.1 ((Bool.and_eq_true _ _).mp s.2).1 c h

/-- The characters of a list of identifiers. -/
def isIdentsChar (c : Char) : Bool := isIdentChar c || c == '.'

/-- Read the identifiers of a prerelease off the front of a text. -/
def prereleaseIdentifiers (s : Str) : Option (List Identifier × Str) := do
  let ids ← ((s.takeWhile isIdentsChar).splitOn '.').mapM Identifier.parse
  some (ids, s.dropWhile isIdentsChar)

/-- Read build metadata off the front of a text. -/
def buildMetadata (s : Str) : Option (Str × Str) :=
  let build := s.takeWhile isIdentsChar
  if (build.splitOn '.').any List.isEmpty then none else some (build, s.dropWhile isIdentsChar)

/-- The identifiers of a prerelease, with dots in between. -/
def displayPre (pre : List Identifier) : Str := ['.'].intercalate (pre.map Identifier.display)

/-! ### Versions -/

def Version.display (v : Version) : Str :=
  decimal v.major ++ '.' :: decimal v.minor ++ '.' :: decimal v.patch ++
    if v.pre.isEmpty then [] else '-' :: displayPre v.pre

/-- Read a dot off the front of a text. -/
def dot : Str → Option Str
  | '.' :: s => some s
  | _ => none

/-- Read a version and its build metadata. -/
def Version.parse (s : Str) : Option (Version × Str) := do
  let (major, s) ← numericIdentifier s
  let s ← dot s
  let (minor, s) ← numericIdentifier s
  let s ← dot s
  let (patch, s) ← numericIdentifier s
  let (pre, s) ← match s with
    | '-' :: s => prereleaseIdentifiers s
    | _ => some ([], s)
  let (build, s) ← match s with
    | '+' :: s => buildMetadata s
    | _ => some ([], s)
  if s.isEmpty then some (⟨major, minor, patch, pre⟩, build) else none

theorem mapM_parse_display (pre : List Identifier) :
    (pre.map Identifier.display).mapM Identifier.parse = some pre := by
  induction pre with
  | nil => rfl
  | cons i pre ih => simp [List.mapM_cons, Identifier.parse_display, ih]

theorem prereleaseIdentifiers_displayPre {pre : List Identifier} (h : pre ≠ []) :
    prereleaseIdentifiers (displayPre pre) = some (pre, []) := by
  have hchars : ∀ c ∈ displayPre pre, isIdentsChar c = true := by
    intro c hc
    rcases mem_of_mem_intercalate hc with hc | ⟨l, hl, hc⟩
    · rw [List.mem_singleton.1 hc]
      rfl
    · obtain ⟨i, -, rfl⟩ := List.mem_map.1 hl
      simp [isIdentsChar, isIdentChar_of_mem_display hc]
  have hsplit : (displayPre pre).splitOn '.' = pre.map Identifier.display := by
    refine List.splitOn_intercalate '.' ?_ (by simpa using h)
    intro l hl hdot
    obtain ⟨i, -, rfl⟩ := List.mem_map.1 hl
    cases isIdentChar_of_mem_display hdot
  obtain ⟨ht, hd⟩ := takeWhile_append_of_all (s := []) hchars (by simp)
  rw [List.append_nil] at ht hd
  unfold prereleaseIdentifiers
  rw [ht, hd, hsplit, mapM_parse_display]
  rfl

/-- The characters of a version. -/
theorem Version.isIdentsChar_of_mem_display {v : Version} {c : Char} (h : c ∈ v.display) :
    isIdentsChar c = true := by
  have hdigit : ∀ n : ℕ, c ∈ decimal n → isIdentsChar c = true := fun n hc => by
    simp [isIdentsChar, isIdentChar_of_isDigit (isDigit_of_mem_decimal hc)]
  have hpre : c ∈ displayPre v.pre → isIdentsChar c = true := by
    intro hc
    rcases mem_of_mem_intercalate hc with hc | ⟨l, hl, hc⟩
    · rw [List.mem_singleton.1 hc]
      rfl
    · obtain ⟨i, -, rfl⟩ := List.mem_map.1 hl
      simp [isIdentsChar, isIdentChar_of_mem_display hc]
  unfold Version.display at h
  simp only [List.mem_append, List.mem_cons] at h
  rcases h with ((h | rfl | h) | rfl | h) | h
  · exact hdigit _ h
  · rfl
  · exact hdigit _ h
  · rfl
  · exact hdigit _ h
  · split_ifs at h
    · cases h
    · rcases List.mem_cons.1 h with rfl | h
      · rfl
      · exact hpre h

/-- The major number comes first. -/
theorem Version.display_major (v : Version) : ∃ rest, v.display = decimal v.major ++ '.' :: rest :=
  ⟨decimal v.minor ++ '.' :: decimal v.patch ++ if v.pre.isEmpty then [] else '-' :: displayPre v.pre, by
    simp [Version.display]⟩

/-- What is written of a version is read back. -/
theorem Version.parse_display (v : Version) : Version.parse v.display = some (v, []) := by
  obtain ⟨major, minor, patch, pre⟩ := v
  have hdot : ∀ s : Str, ∀ c ∈ ('.' :: s).head?, c.isDigit = false := by
    rintro s c hc
    cases hc
    rfl
  have hmajor : ∀ s, numericIdentifier (decimal major ++ '.' :: s) = some (major, '.' :: s) :=
    fun s => numericIdentifier_decimal major (hdot s)
  have hminor : ∀ s, numericIdentifier (decimal minor ++ '.' :: s) = some (minor, '.' :: s) :=
    fun s => numericIdentifier_decimal minor (hdot s)
  by_cases hpre : pre = []
  · subst hpre
    have hpatch : numericIdentifier (decimal patch ++ []) = some (patch, []) :=
      numericIdentifier_decimal patch (by simp)
    have htext : Version.display ⟨major, minor, patch, []⟩ =
        decimal major ++ '.' :: (decimal minor ++ '.' :: (decimal patch ++ [])) := by
      simp [Version.display]
    unfold Version.parse
    simp only [htext, hmajor, hminor, hpatch, dot, Option.bind_eq_bind, Option.bind_some]
    rfl
  · have hpatch : numericIdentifier (decimal patch ++ '-' :: displayPre pre) =
        some (patch, '-' :: displayPre pre) := by
      refine numericIdentifier_decimal patch ?_
      rintro c hc
      cases hc
      rfl
    have htext : Version.display ⟨major, minor, patch, pre⟩ =
        decimal major ++ '.' :: (decimal minor ++ '.' :: (decimal patch ++ '-' :: displayPre pre)) := by
      simp [Version.display, hpre]
    unfold Version.parse
    simp only [htext, hmajor, hminor, hpatch, dot, prereleaseIdentifiers_displayPre hpre,
      Option.bind_eq_bind, Option.bind_some]
    rfl

end IpeLang.Lib.Semver
