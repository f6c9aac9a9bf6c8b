import IpeLang.Lib.Text

/-!
# Files of tables

The lines of a file that lists tables of `key = value` fields under a header such as `[[version]]`.
Blank lines, comments and lines without a `=` are skipped, and any other header ends a table.

* `TableLine.read`, `tableLines`: what the lines of a text are;
* `tableLines_unlines`, `read_field`: the lines of a writer are read back;
* `not_mem_of_field`: no value that is read has a line break.
-/

namespace IpeLang.Lib

/-- What a line of a file of tables is. -/
inductive TableLine
  | skip
  | table
  | other
  | field (key value : Str)
  deriving DecidableEq

namespace TableLine

/-- What a line is, when tables start with this header. -/
def read (header line : Str) : TableLine :=
  let line := trim line
  if line.isEmpty || ['#'].isPrefixOf line then .skip
  else if line = header then .table
  else if ['['].isPrefixOf line then .other
  else
    match splitOnce '=' line with
    | none => .skip
    | some (key, value) => .field (trim key) (trim value)

end TableLine

/-- What the lines of a text are. -/
def tableLines (header text : Str) : List TableLine := (lines text).map (TableLine.read header)

/-! ### What a writer has written -/

section Read

variable {header key value : Str}

@[simp] theorem read_nil : TableLine.read header [] = .skip := rfl

/-- The field of a line is read back. -/
theorem read_field (hk : IsKey key) (hne : value ≠ []) (hv : Trimmed value)
    (hh : header.head? = some '[') :
    TableLine.read header (fieldLine key value) = .field key value := by
  obtain ⟨c, key', rfl⟩ := List.exists_cons_of_ne_nil hk.ne_nil
  obtain ⟨hhash, hbracket⟩ := hk.head c rfl
  have hheader : fieldLine (c :: key') value ≠ header := by
    rintro rfl
    exact hbracket (Option.some.inj hh)
  unfold TableLine.read
  rw [(trimmed_fieldLine hk hne hv).trim_eq]
  dsimp only
  rw [splitOnce_field hk]
  dsimp only
  rw [trim_key hk, trim_value hv, if_neg, if_neg hheader, if_neg]
  · simpa [fieldLine] using Ne.symm hbracket
  · simpa [fieldLine] using Ne.symm hhash

/-- The quoted value of a line is read back. -/
theorem read_quote (hh : header.head? = some '[') (hk : IsKey key) :
    TableLine.read header (fieldLine key (quote value)) = .field key (quote value) :=
  read_field hk (by simp [quote]) (trimmed_quote value) hh

theorem isLine_quote (hk : IsKey key) (hv : '\n' ∉ value) : IsLine (fieldLine key (quote value)) :=
  isLine_fieldLine hk (by simpa [quote] using hv) (trimmed_quote value)

theorem tableLines_unlines {ls : List Str} (h : ∀ l ∈ ls, IsLine l) :
    tableLines header (unlines ls) = ls.map (TableLine.read header) := by
  rw [tableLines, lines_unlines h]

end Read

/-! ### What a reader can find -/

theorem trim_subset (s : Str) : trim s ⊆ s := fun _ h =>
  List.dropWhile_subset _ ((List.rdropWhile_prefix _ _).subset h)

theorem splitOnce_subset {sep : Char} {s a b : Str} (h : splitOnce sep s = some (a, b)) :
    a ⊆ s ∧ b ⊆ s := by
  induction s generalizing a with
  | nil => cases h
  | cons c s ih =>
    rw [splitOnce] at h
    split_ifs at h
    · cases h
      exact ⟨List.nil_subset _, List.subset_cons_self _ _⟩
    · obtain ⟨p, hp, heq⟩ := Option.map_eq_some_iff.1 h
      cases heq
      obtain ⟨ha, hb⟩ := ih hp
      exact ⟨List.cons_subset_cons c ha, List.Subset.trans hb (List.subset_cons_self _ _)⟩

theorem unquote_subset (s : Str) : unquote s ⊆ s := by
  unfold unquote
  cases hp : s.dropPrefix? ['"'] with
  | none => simp
  | some t =>
    rw [Option.bind_some]
    obtain ⟨p, rfl, -⟩ := List.dropPrefix?_eq_some_iff.1 hp
    cases hs : t.dropSuffix? ['"'] with
    | none => simp
    | some u =>
      obtain ⟨q, rfl, -⟩ := List.dropSuffix?_eq_some_iff.1 hs
      rw [Option.getD_some]
      intro c hc
      simp [hc]

theorem not_mem_of_mem_linesFrom {s acc l : Str} (hacc : '\n' ∉ acc) (h : l ∈ linesFrom acc s) :
    '\n' ∉ l := by
  induction s generalizing acc with
  | nil =>
    unfold linesFrom at h
    split_ifs at h
    · cases h
    · rwa [List.mem_singleton.1 h]
  | cons c s ih =>
    unfold linesFrom at h
    split_ifs at h with hc
    · rcases List.mem_cons.1 h with rfl | h
      · unfold chomp
        split_ifs
        · exact fun h => hacc (List.dropLast_subset acc h)
        · exact hacc
      · exact ih List.not_mem_nil h
    · exact ih (by simp [hacc, Ne.symm hc]) h

theorem not_mem_of_mem_lines {s l : Str} (h : l ∈ lines s) : '\n' ∉ l :=
  not_mem_of_mem_linesFrom List.not_mem_nil h

/-- No value that is read has a line break. -/
theorem not_mem_of_field {header text key value : Str}
    (h : TableLine.field key value ∈ tableLines header text) : '\n' ∉ value := by
  obtain ⟨l, hl, hread⟩ := List.mem_map.1 h
  have hline := not_mem_of_mem_lines hl
  unfold TableLine.read at hread
  dsimp only at hread
  split_ifs at hread
  cases hs : splitOnce '=' (trim l) with
  | none => simp [hs] at hread
  | some p =>
    obtain ⟨a, b⟩ := p
    simp only [hs, TableLine.field.injEq] at hread
    intro hmem
    rw [← hread.2] at hmem
    exact hline (trim_subset l ((splitOnce_subset hs).2 (trim_subset b hmem)))

end IpeLang.Lib
