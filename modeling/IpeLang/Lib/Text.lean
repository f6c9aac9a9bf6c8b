import Mathlib.Tactic
import Mathlib.Data.List.DropRight

/-!
# Lines of text

A text is a list of characters, and the operations are those of a string library on it: lines,
trimming, cutting at the first occurrence of a character, one layer of quotes. They are what a
reader of a line-oriented format of `key = "value"` lines does, and `lines_field`,
`splitOnce_field` and `unquote_quote` say that such a reader finds what a writer of these lines
wrote.
-/

namespace IpeLang.Lib

/-- A text. -/
abbrev Str := List Char

/-! ### Bytes -/

/-- The bytes of a text. -/
def toBytes (s : Str) : ByteArray := (String.ofList s).toByteArray

/-- The text of some bytes, if they are one. -/
def from_utf8 (bytes : ByteArray) : Option Str := bytes.utf8Decode?.map Array.toList

theorem from_utf8_toBytes (s : Str) : from_utf8 (toBytes s) = some s := by
  unfold from_utf8 toBytes
  rw [String.toByteArray_ofList, List.utf8Decode?_utf8Encode]
  rfl

/-! ### Characters -/

/-- The characters with the property `White_Space`. -/
def isWhiteSpace (c : Char) : Bool :=
  (9 ≤ c.val && c.val ≤ 13) || c.val == 0x20 || c.val == 0x85 || c.val == 0xA0 ||
    c.val == 0x1680 || (0x2000 ≤ c.val && c.val ≤ 0x200A) || c.val == 0x2028 ||
    c.val == 0x2029 || c.val == 0x202F || c.val == 0x205F || c.val == 0x3000

/-- The characters of the category of controls. -/
def isControl (c : Char) : Bool := c.val < 0x20 || (0x7F ≤ c.val && c.val < 0xA0)

/-! ### Trimming -/

/-- Without the white space at its two ends. -/
def trim (s : Str) : Str := (s.dropWhile isWhiteSpace).rdropWhile isWhiteSpace

/-- Neither end is white space. -/
structure Trimmed (s : Str) : Prop where
  head : ∀ c ∈ s.head?, isWhiteSpace c = false
  last : ∀ c ∈ s.getLast?, isWhiteSpace c = false

theorem rdropWhile_eq_self {α : Type} {p : α → Bool} {s : List α}
    (h : ∀ c ∈ s.getLast?, p c = false) : s.rdropWhile p = s := by
  rcases List.eq_nil_or_concat' s with rfl | ⟨l, c, rfl⟩
  · rfl
  · exact List.rdropWhile_concat_neg p l c (by simp [h c (by simp)])

theorem Trimmed.trim_eq {s : Str} (h : Trimmed s) : trim s = s := by
  have hdrop : s.dropWhile isWhiteSpace = s := by
    cases s with
    | nil => rfl
    | cons c s => simp [h.head c rfl]
  unfold trim
  rw [hdrop, rdropWhile_eq_self h.last]

theorem trimmed_trim (s : Str) : Trimmed (trim s) := by
  unfold trim
  set t := s.dropWhile isWhiteSpace with ht
  have hhead : ∀ c ∈ t.head?, isWhiteSpace c = false := by
    intro c hc
    have := List.head?_dropWhile_not isWhiteSpace s
    rw [← ht, Option.mem_def.1 hc] at this
    simpa using this
  constructor
  · intro c hc
    obtain ⟨r, hr⟩ := t.rdropWhile_prefix isWhiteSpace
    refine hhead c ?_
    rw [← hr]
    cases hd : t.rdropWhile isWhiteSpace with
    | nil => simp [hd] at hc
    | cons a l => simpa [hd] using hc
  · intro c hc
    have hne : t.rdropWhile isWhiteSpace ≠ [] := by
      intro hd
      simp [hd] at hc
    have := List.rdropWhile_last_not isWhiteSpace t hne
    rw [List.getLast?_eq_some_getLast hne] at hc
    cases hc
    simpa using this

theorem trim_trim (s : Str) : trim (trim s) = trim s := (trimmed_trim s).trim_eq

/-! ### Lines -/

/-- A line without the carriage return before its end. -/
def chomp (s : Str) : Str := if s.getLast? = some '\r' then s.dropLast else s

/-- The lines of a text, of which `acc` is the current one so far. A last line may be without an
end. -/
def linesFrom (acc : Str) : Str → List Str
  | [] => if acc.isEmpty then [] else [acc]
  | c :: s => if c = '\n' then chomp acc :: linesFrom [] s else linesFrom (acc ++ [c]) s

def lines (s : Str) : List Str := linesFrom [] s

theorem linesFrom_line (acc : Str) {l : Str} (h : '\n' ∉ l) (s : Str) :
    linesFrom acc (l ++ '\n' :: s) = chomp (acc ++ l) :: lines s := by
  induction l generalizing acc with
  | nil => simp [linesFrom, lines]
  | cons c l ih =>
    obtain ⟨hc, hl⟩ := not_or.1 (mt List.mem_cons.2 h)
    rw [List.cons_append, linesFrom, if_neg (Ne.symm hc), ih _ hl]
    simp

/-- The first line is read off. -/
theorem lines_line {l : Str} (h : '\n' ∉ l) (hr : ∀ c ∈ l.getLast?, c ≠ '\r') (s : Str) :
    lines (l ++ '\n' :: s) = l :: lines s := by
  have hne : ¬ l.getLast? = some '\r' := fun hl => hr '\r' hl rfl
  rw [lines, linesFrom_line [] h, List.nil_append, chomp, if_neg hne]

/-- A text of whole lines. -/
def unlines (ls : List Str) : Str := ls.flatMap (· ++ ['\n'])

/-- A line that is read back as it was written. -/
structure IsLine (l : Str) : Prop where
  not_mem : '\n' ∉ l
  last : ∀ c ∈ l.getLast?, c ≠ '\r'

theorem isLine_iff {l : Str} : ('\n' ∉ l ∧ l.getLast? ≠ some '\r') ↔ IsLine l := by
  constructor
  · rintro ⟨h₁, h₂⟩
    refine ⟨h₁, fun c hc => ?_⟩
    rintro rfl
    exact h₂ hc
  · rintro ⟨h₁, h₂⟩
    exact ⟨h₁, fun h => h₂ '\r' h rfl⟩

instance : DecidablePred IsLine := fun _ => decidable_of_iff _ isLine_iff

theorem lines_unlines {ls : List Str} (h : ∀ l ∈ ls, IsLine l) : lines (unlines ls) = ls := by
  induction ls with
  | nil => rfl
  | cons l ls ih =>
    obtain ⟨hl, hls⟩ := List.forall_mem_cons.1 h
    have : unlines (l :: ls) = l ++ '\n' :: unlines ls := by simp [unlines]
    rw [this, lines_line hl.not_mem hl.last, ih hls]

theorem unlines_append (ls ls' : List Str) : unlines (ls ++ ls') = unlines ls ++ unlines ls' := by
  simp [unlines]

theorem mem_of_mem_intercalate {sep : Str} {ls : List Str} {c : Char}
    (h : c ∈ sep.intercalate ls) : c ∈ sep ∨ ∃ l ∈ ls, c ∈ l := by
  induction ls with
  | nil => simp at h
  | cons l ls ih =>
    cases ls with
    | nil => exact Or.inr ⟨l, List.mem_cons_self, by simpa using h⟩
    | cons l' ls =>
      rw [List.intercalate_cons_cons, List.mem_append, List.mem_append] at h
      rcases h with (h | h) | h
      · exact Or.inr ⟨l, List.mem_cons_self, h⟩
      · exact Or.inl h
      · exact (ih h).imp_right fun h => ⟨h.choose, List.mem_cons_of_mem l h.choose_spec.1,
          h.choose_spec.2⟩

/-! ### Fields -/

/-- Cut a text at the first occurrence of a character. -/
def splitOnce (sep : Char) : Str → Option (Str × Str)
  | [] => none
  | c :: s => if c = sep then some ([], s) else (splitOnce sep s).map fun p => (c :: p.1, p.2)

theorem splitOnce_append {sep : Char} {k : Str} (h : sep ∉ k) (s : Str) :
    splitOnce sep (k ++ sep :: s) = some (k, s) := by
  induction k with
  | nil => simp [splitOnce]
  | cons c k ih =>
    obtain ⟨hc, hk⟩ := not_or.1 (mt List.mem_cons.2 h)
    rw [List.cons_append, splitOnce, if_neg (Ne.symm hc), ih hk]
    rfl

theorem splitOnce_eq_some {sep : Char} {s a b : Str} (h : splitOnce sep s = some (a, b)) :
    s = a ++ sep :: b ∧ sep ∉ a := by
  induction s generalizing a with
  | nil => cases h
  | cons c s ih =>
    unfold splitOnce at h
    split at h
    · rename_i hc
      cases h
      exact ⟨congrArg (· :: b) hc, List.not_mem_nil⟩
    · rename_i hc
      obtain ⟨⟨a', b'⟩, hrest, heq⟩ := Option.map_eq_some_iff.1 h
      cases heq
      obtain ⟨rfl, hmem⟩ := ih hrest
      exact ⟨rfl, fun hsep => (List.mem_cons.1 hsep).elim (fun h => hc h.symm) hmem⟩

/-- Strip one layer of double quotes. -/
def unquote (s : Str) : Str := ((s.dropPrefix? ['"']).bind fun v => v.dropSuffix? ['"']).getD s

/-- Add one layer of double quotes. -/
def quote (s : Str) : Str := '"' :: s ++ ['"']

@[simp] theorem unquote_quote (s : Str) : unquote (quote s) = s := by
  have hp : (quote s).dropPrefix? ['"'] = some (s ++ ['"']) := by
    simp [quote, List.dropPrefix?]
  have hs : (s ++ ['"']).dropSuffix? ['"'] = some s :=
    List.dropSuffix?_eq_some_iff.2 ⟨['"'], rfl, by simp⟩
  unfold unquote
  rw [hp, Option.bind_some, hs, Option.getD_some]

/-- The line that gives a field its value. -/
def fieldLine (key value : Str) : Str := key ++ ' ' :: '=' :: ' ' :: value

/-- A key of a field: a word without what the reader looks for. -/
structure IsKey (key : Str) : Prop where
  ne_nil : key ≠ []
  no_space : ∀ c ∈ key, isWhiteSpace c = false
  no_eq : '=' ∉ key
  head : ∀ c ∈ key.head?, c ≠ '#' ∧ c ≠ '['

/-- Whether a text is a key. -/
def isKey (key : Str) : Bool :=
  !key.isEmpty && key.all (fun c => !isWhiteSpace c) && !key.contains '=' &&
    key.head?.all fun c => c != '#' && c != '['

theorem isKey_iff {key : Str} : isKey key = true ↔ IsKey key := by
  simp only [isKey, Bool.and_eq_true, Bool.not_eq_true', List.isEmpty_eq_false_iff, List.all_eq_true,
    List.contains_eq_mem, decide_eq_false_iff_not, Option.all_eq_true, bne_iff_ne, and_assoc]
  constructor
  · rintro ⟨h₁, h₂, h₃, h₄⟩
    exact ⟨h₁, h₂, h₃, h₄⟩
  · rintro ⟨h₁, h₂, h₃, h₄⟩
    exact ⟨h₁, h₂, h₃, h₄⟩

instance : DecidablePred IsKey := fun _ => decidable_of_iff _ isKey_iff

section Field

variable {key value : Str}

theorem IsKey.no_newline (h : IsKey key) : '\n' ∉ key := fun hmem => by
  have := h.no_space _ hmem
  cases this

theorem getLast?_fieldLine (hv : value ≠ []) :
    (fieldLine key value).getLast? = value.getLast? := by
  have : fieldLine key value = (key ++ [' ', '=', ' ']) ++ value := by simp [fieldLine]
  rw [this, List.getLast?_append_of_ne_nil _ hv]

theorem trimmed_fieldLine (hk : IsKey key) (hv : value ≠ []) (ht : Trimmed value) :
    Trimmed (fieldLine key value) := by
  obtain ⟨c, key', rfl⟩ := List.exists_cons_of_ne_nil hk.ne_nil
  constructor
  · rintro d hd
    cases hd
    exact hk.no_space c List.mem_cons_self
  · rw [getLast?_fieldLine hv]
    exact ht.last

theorem trim_key (hk : IsKey key) : trim (key ++ [' ']) = key := by
  have hdrop : (key ++ [' ']).dropWhile isWhiteSpace = key ++ [' '] := by
    obtain ⟨c, key', rfl⟩ := List.exists_cons_of_ne_nil hk.ne_nil
    simp [hk.no_space c List.mem_cons_self]
  unfold trim
  rw [hdrop, List.rdropWhile_concat_pos _ _ _ (by decide)]
  exact rdropWhile_eq_self fun c hc => hk.no_space c (List.mem_of_getLast? hc)

theorem trim_value (ht : Trimmed value) : trim (' ' :: value) = value := by
  have : trim (' ' :: value) = trim value := by
    unfold trim
    rw [List.dropWhile_cons_of_pos (by decide)]
  rw [this, ht.trim_eq]

/-- A reader that cuts a field line at its first `=` finds the key and the value. -/
theorem splitOnce_field (hk : IsKey key) :
    splitOnce '=' (fieldLine key value) = some (key ++ [' '], ' ' :: value) := by
  have : fieldLine key value = (key ++ [' ']) ++ '=' :: ' ' :: value := by simp [fieldLine]
  rw [this, splitOnce_append]
  simp [hk.no_eq]

theorem trimmed_quote (s : Str) : Trimmed (quote s) := by
  constructor
  · rintro c hc
    cases hc
    rfl
  · intro c hc
    have hlast : (quote s).getLast? = some '"' := List.getLast?_concat
    cases hlast.symm.trans hc
    rfl

theorem isLine_fieldLine (hk : IsKey key) (hv : '\n' ∉ value) (ht : Trimmed value) :
    IsLine (fieldLine key value) := by
  refine ⟨?_, fun c hc => ?_⟩
  · simp [fieldLine, hk.no_newline, hv]
  · rintro rfl
    by_cases hn : value = []
    · subst hn
      simp [fieldLine] at hc
    · rw [getLast?_fieldLine hn] at hc
      cases ht.last '\r' hc

end Field

end IpeLang.Lib
