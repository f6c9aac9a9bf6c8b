import IpeLang.Hot.Scan

/-!
# What the scanners read

* `Between`: the text between two positions;
* `StrBody`, `ArrayBody`, `Closes`: the texts of a string, of an array of strings and of the arguments of a
  call, as they are written in the emitted language;
* `parse_string_literal_sound`, `parse_string_array_sound`, `match_close_paren_sound`: a reader that
  succeeds has read such a text.
-/

namespace IpeLang.Hot

open Lib (Str)

/-! ### Positions -/

/-- The text from one position of `src` to another one. -/
def Between (src : Str) (i : ℕ) (mid : Str) (j : ℕ) : Prop :=
  src.drop i = mid ++ src.drop j ∧ j = i + mid.length

namespace Between

variable {src : Str} {i j k : ℕ} {a b m : Str}

theorem refl (src : Str) (i : ℕ) : Between src i [] i := ⟨rfl, rfl⟩

theorem trans (hij : Between src i a j) (hjk : Between src j b k) : Between src i (a ++ b) k := by
  obtain ⟨hdrop, rfl⟩ := hij
  obtain ⟨hdrop', rfl⟩ := hjk
  refine ⟨by rw [hdrop, hdrop', List.append_assoc], ?_⟩
  rw [List.length_append, Nat.add_assoc]

theorem le (h : Between src i a j) : i ≤ j := by
  rw [h.2]
  exact Nat.le_add_right ..

theorem char {c : Char} (h : src[i]? = some c) : Between src i [c] (i + 1) := by
  obtain ⟨hi, rfl⟩ := List.getElem?_eq_some_iff.1 h
  exact ⟨List.drop_eq_getElem_cons hi, rfl⟩

theorem of_prefix {pat : Str} (h : pat <+: src.drop i) : Between src i pat (i + pat.length) := by
  obtain ⟨rest, hrest⟩ := h
  refine ⟨?_, rfl⟩
  rw [← List.drop_drop, ← hrest, List.drop_left]

/-- The shorter of two texts from a position is a part of the longer one. -/
theorem split (hij : Between src i a j) (hik : Between src i m k) (hle : j ≤ k) :
    ∃ r, m = a ++ r ∧ Between src j r k := by
  obtain ⟨hdrop, rfl⟩ := hij
  obtain ⟨hdrop', rfl⟩ := hik
  have hlen : a.length ≤ m.length := by omega
  rw [hdrop] at hdrop'
  rcases List.append_eq_append_iff.1 hdrop' with ⟨r, rfl, hr⟩ | ⟨r, rfl, hr⟩
  · refine ⟨r, rfl, hr, ?_⟩
    rw [List.length_append, Nat.add_assoc]
  · obtain rfl : r = [] := by
      rw [List.length_append] at hlen
      exact List.length_eq_zero_iff.1 (by omega)
    exact ⟨[], by simp, hr.symm, by simp⟩

/-- The text between two positions, cut out of the whole one. -/
theorem eq_slice (h : Between src i m j) : m = (src.take j).drop i := by
  obtain ⟨hdrop, rfl⟩ := h
  rw [List.drop_take, hdrop]
  simp

theorem take_eq (h : Between src i m j) : src.take j = src.take i ++ m := by
  obtain ⟨hdrop, rfl⟩ := h
  rw [List.take_add, hdrop, List.take_left]

end Between

def IsSpace (ws : Str) : Prop := ws.all isAsciiWhitespace = true

/-- White space ends at one place only. -/
theorem IsSpace.unique {ws ws' r r' : Str} {c c' : Char} (h : IsSpace ws) (h' : IsSpace ws')
    (hc : isAsciiWhitespace c = false) (hc' : isAsciiWhitespace c' = false) (heq : ws ++ c :: r = ws' ++ c' :: r') :
    ws = ws' ∧ c = c' ∧ r = r' := by
  have htake : ∀ {ws r : Str} {c : Char}, IsSpace ws → isAsciiWhitespace c = false →
      (ws ++ c :: r).takeWhile isAsciiWhitespace = ws := by
    intro ws r c hws hc
    rw [List.takeWhile_append_of_pos (List.all_eq_true.1 hws), List.takeWhile_cons_of_neg (by simp [hc]),
      List.append_nil]
  obtain rfl : ws = ws' := by rw [← htake h hc, heq, htake h' hc']
  exact ⟨rfl, List.cons.inj (List.append_cancel_left heq)⟩

/-- No white space follows what was skipped. -/
theorem isAsciiWhitespace_skip_ws (src : Str) (pos : ℕ) {c : Char} (h : src[skip_ws src pos]? = some c) :
    isAsciiWhitespace c = false := by
  have hrest : ((src.drop pos).dropWhile isAsciiWhitespace)[0]? = some c := by
    rw [skip_ws, ← List.getElem?_drop, ← @List.takeWhile_append_dropWhile _ isAsciiWhitespace (src.drop pos),
      List.getElem?_append_right (by simp)] at h
    simpa using h
  have hnot := List.head?_dropWhile_not isAsciiWhitespace (src.drop pos)
  rw [List.head?_eq_getElem?, hrest] at hnot
  simpa using hnot

theorem between_skip_ws (src : Str) (pos : ℕ) :
    ∃ ws, IsSpace ws ∧ Between src pos ws (skip_ws src pos) :=
  ⟨_, List.all_takeWhile, Between.of_prefix (List.takeWhile_prefix _)⟩

/-! ### Strings -/

/-- What stands between the quotes of a string: a quote or a backslash follows a backslash. -/
inductive StrBody : Str → Prop
  | nil : StrBody []
  | plain {c : Char} {body : Str} : c ≠ '"' → c ≠ '\\' → StrBody body → StrBody (c :: body)
  | escape (c : Char) {body : Str} : StrBody body → StrBody ('\\' :: c :: body)

theorem StrBody.plain_append {mid body : Str} (hmid : ∀ c ∈ mid, c ≠ '"' ∧ c ≠ '\\') (hbody : StrBody body) :
    StrBody (mid ++ body) := by
  induction mid with
  | nil => exact hbody
  | cons c mid ih =>
    obtain ⟨⟨hquote, hslash⟩, hmid⟩ := List.forall_mem_cons.1 hmid
    exact .plain hquote hslash (ih hmid)

/-- A string ends at one place only. -/
theorem StrBody.unique {body body' t t' : Str} (h : StrBody body) (h' : StrBody body')
    (heq : body ++ '"' :: t = body' ++ '"' :: t') : body = body' ∧ t = t' := by
  induction h generalizing body' with
  | nil =>
    cases h' with
    | nil => exact ⟨rfl, (List.cons.inj heq).2⟩
    | plain hquote => exact absurd (List.cons.inj heq).1.symm hquote
    | escape => exact absurd (List.cons.inj heq).1 (by decide)
  | plain hquote hslash _ ih =>
    cases h' with
    | nil => exact absurd (List.cons.inj heq).1 hquote
    | plain _ _ hbody' =>
      obtain ⟨rfl, htail⟩ := List.cons.inj heq
      obtain ⟨rfl, rfl⟩ := ih hbody' htail
      exact ⟨rfl, rfl⟩
    | escape => exact absurd (List.cons.inj heq).1 hslash
  | escape c _ ih =>
    cases h' with
    | nil => exact absurd (List.cons.inj heq).1 (by decide)
    | plain _ hslash' => exact absurd (List.cons.inj heq).1.symm hslash'
    | escape c' hbody' =>
      obtain ⟨rfl, htail⟩ := List.cons.inj (List.cons.inj heq).2
      obtain ⟨rfl, rfl⟩ := ih hbody' htail
      exact ⟨rfl, rfl⟩

theorem unicodeDigits_sound {src : Str} {code digits i stop : ℕ} {ch : Char}
    (h : unicodeDigits code digits (src.drop i) i = some (ch, stop)) :
    ∃ mid, (∀ c ∈ mid, c ≠ '"' ∧ c ≠ '\\') ∧ Between src i mid stop := by
  generalize hs : src.drop i = s at h
  induction s generalizing code digits i with
  | nil => cases h
  | cons c s ih =>
    have hi : i < src.length := by
      by_contra hlen
      rw [List.drop_eq_nil_of_le (Nat.le_of_not_lt hlen)] at hs
      cases hs
    rw [List.drop_eq_getElem_cons hi] at hs
    obtain ⟨hc, hs⟩ := List.cons.inj hs
    have hchar : Between src i [c] (i + 1) := Between.char (by rw [List.getElem?_eq_getElem hi, hc])
    unfold unicodeDigits at h
    split_ifs at h with hbrace hdigits hvalid hmany
    · cases h
      refine ⟨['}'], by simp, ?_⟩
      rw [← hbrace]
      exact hchar
    · simp at h
    · simp only [Option.bind_eq_bind, Option.bind_eq_some_iff] at h
      obtain ⟨d, hd, h⟩ := h
      obtain ⟨mid, hmid, hbetween⟩ := ih hs h
      refine ⟨c :: mid, List.forall_mem_cons.2 ⟨⟨?_, ?_⟩, hmid⟩, hchar.trans hbetween⟩
      · rintro rfl
        cases hd
      · rintro rfl
        cases hd

theorem literalBody_sound {src out : Str} {fuel i stop : ℕ} (h : literalBody src fuel i = some (out, stop)) :
    ∃ body, StrBody body ∧ Between src i (body ++ ['"']) stop := by
  induction fuel generalizing i out with
  | zero => cases h
  | succ fuel ih =>
    unfold literalBody at h
    simp only [Option.bind_eq_bind, Option.bind_eq_some_iff] at h
    obtain ⟨c, hc, h⟩ := h
    split_ifs at h with hquote hslash
    · cases h
      exact ⟨[], .nil, Between.char (hquote ▸ hc)⟩
    · simp only [Option.bind_eq_some_iff] at h
      obtain ⟨esc, hesc, h⟩ := h
      have hhead : Between src i ['\\', esc] (i + 1 + 1) :=
        (Between.char (hslash ▸ hc)).trans (Between.char hesc)
      split_ifs at h with hu
      · -- an escape of a code point
        simp only [Option.bind_eq_some_iff] at h
        obtain ⟨⟨ch, next⟩, hnext, ⟨out', stop'⟩, hrest, hout⟩ := h
        obtain ⟨-, rfl⟩ := Prod.mk.inj (Option.some.inj hout)
        obtain ⟨body, hbody, hbetween⟩ := ih hrest
        unfold parse_unicode_escape at hnext
        split_ifs at hnext with hopen
        obtain ⟨mid, hmid, hdigits⟩ := unicodeDigits_sound hnext
        refine ⟨'\\' :: esc :: '{' :: mid ++ body, ?_, ?_⟩
        · exact .escape esc (.plain (by decide) (by decide) (.plain_append hmid hbody))
        · have hescape := (hhead.trans (Between.char hopen)).trans (hdigits.trans hbetween)
          simpa using hescape
      · simp only [Option.bind_eq_some_iff] at h
        obtain ⟨⟨ch, next⟩, hnext, ⟨out', stop'⟩, hrest, hout⟩ := h
        obtain ⟨-, rfl⟩ := Prod.mk.inj (Option.some.inj hout)
        obtain ⟨ch', -, heq⟩ := Option.map_eq_some_iff.1 hnext
        obtain ⟨-, rfl⟩ := Prod.mk.inj heq
        obtain ⟨body, hbody, hbetween⟩ := ih hrest
        exact ⟨'\\' :: esc :: body, .escape esc hbody, hhead.trans hbetween⟩
    · simp only [Option.bind_some, Option.bind_eq_some_iff] at h
      obtain ⟨⟨out', stop'⟩, hrest, hout⟩ := h
      obtain ⟨-, rfl⟩ := Prod.mk.inj (Option.some.inj hout)
      obtain ⟨body, hbody, hbetween⟩ := ih hrest
      exact ⟨c :: body, .plain hquote hslash hbody, (Between.char hc).trans hbetween⟩

theorem parse_string_literal_sound {src out : Str} {pos next : ℕ}
    (h : parse_string_literal src pos = some (out, next)) :
    ∃ body, StrBody body ∧ src[pos]? = some '"' ∧ Between src (pos + 1) (body ++ ['"']) next := by
  unfold parse_string_literal at h
  split_ifs at h with hquote
  obtain ⟨body, hbody, hbetween⟩ := literalBody_sound h
  exact ⟨body, hbody, hquote, hbetween⟩

/-- The string of a literal, with its quotes. -/
theorem between_literal {src out : Str} {pos next : ℕ} (h : parse_string_literal src pos = some (out, next)) :
    ∃ body, StrBody body ∧ Between src pos ('"' :: body ++ ['"']) next := by
  obtain ⟨body, hbody, hquote, hbetween⟩ := parse_string_literal_sound h
  exact ⟨body, hbody, (Between.char hquote).trans hbetween⟩

/-! ### Arrays -/

/-- What stands between the brackets of an array of as many strings. -/
inductive ArrayBody : ℕ → Str → Prop
  | nil {ws : Str} : IsSpace ws → ArrayBody 0 ws
  | last {ws body ws' : Str} :
    IsSpace ws → StrBody body → IsSpace ws' → ArrayBody 1 (ws ++ ('"' :: body ++ ['"']) ++ ws')
  | cons {ws body ws' rest : Str} {n : ℕ} :
    IsSpace ws → StrBody body → IsSpace ws' → ArrayBody n rest →
      ArrayBody (n + 1) (ws ++ ('"' :: body ++ ['"']) ++ ws' ++ ',' :: rest)

/-- An array ends at one place only, and has so many strings. -/
theorem ArrayBody.unique {n n' : ℕ} {mid mid' r r' : Str} (h : ArrayBody n mid) (h' : ArrayBody n' mid')
    (heq : mid ++ ']' :: r = mid' ++ ']' :: r') : mid = mid' ∧ n = n' := by
  have hquote : isAsciiWhitespace '"' = false := by decide
  have hcomma : isAsciiWhitespace ',' = false := by decide
  have hclose : isAsciiWhitespace ']' = false := by decide
  -- The two readings agree on every token, so that they come to the same closing bracket.
  induction h generalizing n' mid' with
  | nil hws =>
    cases h' with
    | nil hws' => exact ⟨(hws.unique hws' hclose hclose heq).1, rfl⟩
    | last hws' =>
      simp only [List.append_assoc, List.cons_append] at heq
      exact absurd (hws.unique hws' hclose hquote heq).2.1 (by decide)
    | cons hws' =>
      simp only [List.append_assoc, List.cons_append] at heq
      exact absurd (hws.unique hws' hclose hquote heq).2.1 (by decide)
  | last hws hbody hend =>
    simp only [List.append_assoc, List.cons_append, List.nil_append] at heq
    cases h' with
    | nil hws' => exact absurd (hws.unique hws' hquote hclose heq).2.1 (by decide)
    | last hws' hbody' hend' =>
      simp only [List.append_assoc, List.cons_append, List.nil_append] at heq
      obtain ⟨rfl, -, htail⟩ := hws.unique hws' hquote hquote heq
      obtain ⟨rfl, hafter⟩ := hbody.unique hbody' htail
      obtain ⟨rfl, -, -⟩ := hend.unique hend' hclose hclose hafter
      exact ⟨rfl, rfl⟩
    | cons hws' hbody' hend' =>
      simp only [List.append_assoc, List.cons_append, List.nil_append] at heq
      obtain ⟨rfl, -, htail⟩ := hws.unique hws' hquote hquote heq
      obtain ⟨rfl, hafter⟩ := hbody.unique hbody' htail
      exact absurd (hend.unique hend' hclose hcomma hafter).2.1 (by decide)
  | cons hws hbody hend _ ih =>
    simp only [List.append_assoc, List.cons_append, List.nil_append] at heq
    cases h' with
    | nil hws' => exact absurd (hws.unique hws' hquote hclose heq).2.1 (by decide)
    | last hws' hbody' hend' =>
      simp only [List.append_assoc, List.cons_append, List.nil_append] at heq
      obtain ⟨rfl, -, htail⟩ := hws.unique hws' hquote hquote heq
      obtain ⟨rfl, hafter⟩ := hbody.unique hbody' htail
      exact absurd (hend.unique hend' hcomma hclose hafter).2.1 (by decide)
    | cons hws' hbody' hend' hrest' =>
      simp only [List.append_assoc, List.cons_append, List.nil_append] at heq
      obtain ⟨rfl, -, htail⟩ := hws.unique hws' hquote hquote heq
      obtain ⟨rfl, hafter⟩ := hbody.unique hbody' htail
      obtain ⟨rfl, -, hitems⟩ := hend.unique hend' hcomma hcomma hafter
      obtain ⟨rfl, rfl⟩ := ih hrest' hitems
      exact ⟨rfl, rfl⟩

theorem arrayItems_sound {src : Str} {fuel pos stop : ℕ} {values : List Str}
    (h : arrayItems src fuel pos = some (values, stop)) :
    ∃ mid, ArrayBody values.length mid ∧ Between src pos mid stop ∧ src[stop]? = some ']' := by
  induction fuel generalizing pos values with
  | zero => cases h
  | succ fuel ih =>
    obtain ⟨ws, hws, hspace⟩ := between_skip_ws src pos
    unfold arrayItems at h
    simp only [Option.bind_eq_bind, Option.bind_eq_some_iff] at h
    obtain ⟨c, hc, h⟩ := h
    split_ifs at h with hclose hquote
    · cases h
      exact ⟨ws, .nil hws, hspace, hclose ▸ hc⟩
    · simp only [Option.bind_eq_some_iff] at h
      obtain ⟨⟨s, next⟩, hs, c', hc', h⟩ := h
      obtain ⟨body, hbody, hlit⟩ := between_literal hs
      obtain ⟨ws', hws', hspace'⟩ := between_skip_ws src next
      split_ifs at h with hcomma hclose'
      · simp only [Option.bind_eq_some_iff] at h
        obtain ⟨⟨values', stop'⟩, hrest, hvalues⟩ := h
        obtain ⟨rfl, rfl⟩ := Prod.mk.inj (Option.some.inj hvalues)
        obtain ⟨rest, hbodyRest, hbetween, hstop⟩ := ih hrest
        refine ⟨_, .cons hws hbody hws' hbodyRest, ?_, hstop⟩
        exact ((hspace.trans hlit).trans hspace').trans ((Between.char (hcomma ▸ hc')).trans hbetween)
      · cases h
        exact ⟨_, .last hws hbody hws', (hspace.trans hlit).trans hspace', hclose' ▸ hc'⟩

theorem parse_string_array_sound {src : Str} {pos stop : ℕ} {values : List Str}
    (h : parse_string_array src pos = some (values, stop)) :
    ∃ mid, ArrayBody values.length mid ∧ Between src pos mid stop ∧ src[stop]? = some ']' :=
  arrayItems_sound h

/-! ### Arguments -/

/-- A text that closes as many parentheses more than it opens, and no more than that before its end. Those
in strings do not count. -/
inductive Closes : ℕ → Str → Prop
  | nil : Closes 0 []
  | literal {n : ℕ} {body t : Str} : StrBody body → Closes n t → Closes n ('"' :: body ++ ['"'] ++ t)
  | opening {n : ℕ} {t : Str} : Closes (n + 1) t → Closes n ('(' :: t)
  | closing {n : ℕ} {t : Str} : Closes n t → Closes (n + 1) (')' :: t)
  | plain {n : ℕ} {c : Char} {t : Str} : c ≠ '"' → c ≠ '(' → c ≠ ')' → Closes n t → Closes n (c :: t)

theorem closeParen_sound {src : Str} {fuel depth pos stop : ℕ}
    (h : closeParen src fuel (depth + 1) pos = some stop) :
    ∃ mid, Closes depth mid ∧ Between src pos mid stop ∧ src[stop]? = some ')' := by
  induction fuel generalizing depth pos with
  | zero => cases h
  | succ fuel ih =>
    unfold closeParen at h
    simp only [Option.bind_eq_bind, Option.bind_eq_some_iff] at h
    obtain ⟨c, hc, h⟩ := h
    split_ifs at h with hquote hopen hclose hlast
    · simp only [Option.bind_eq_some_iff] at h
      obtain ⟨⟨s, next⟩, hs, h⟩ := h
      obtain ⟨body, hbody, hlit⟩ := between_literal hs
      obtain ⟨mid, hmid, hbetween, hstop⟩ := ih h
      exact ⟨_, .literal hbody hmid, hlit.trans hbetween, hstop⟩
    · obtain ⟨mid, hmid, hbetween, hstop⟩ := ih h
      exact ⟨_, .opening hmid, (Between.char (hopen ▸ hc)).trans hbetween, hstop⟩
    · cases h
      obtain rfl : depth = 0 := by omega
      exact ⟨[], .nil, .refl .., hclose ▸ hc⟩
    · obtain ⟨depth, rfl⟩ : ∃ d, depth = d + 1 := ⟨depth - 1, by omega⟩
      obtain ⟨mid, hmid, hbetween, hstop⟩ := ih h
      exact ⟨_, .closing hmid, (Between.char (hclose ▸ hc)).trans hbetween, hstop⟩
    · obtain ⟨mid, hmid, hbetween, hstop⟩ := ih h
      exact ⟨_, .plain hquote hopen hclose hmid, (Between.char hc).trans hbetween, hstop⟩

theorem match_close_paren_sound {src : Str} {pos stop : ℕ} (h : match_close_paren src pos = some stop) :
    ∃ mid, Closes 0 mid ∧ Between src pos mid stop ∧ src[stop]? = some ')' :=
  closeParen_sound h

namespace Closes

variable {n : ℕ} {t : Str}

theorem of_plain {c : Char} (hquote : c ≠ '"') (hopen : c ≠ '(') (hclose : c ≠ ')')
    (h : Closes n (c :: t)) : Closes n t := by
  generalize hs : c :: t = s at h
  cases h with
  | nil => cases hs
  | literal => exact absurd (List.cons.inj hs).1 hquote
  | opening => exact absurd (List.cons.inj hs).1 hopen
  | closing => exact absurd (List.cons.inj hs).1 hclose
  | plain _ _ _ h =>
    obtain ⟨-, rfl⟩ := List.cons.inj hs
    exact h

theorem of_space {ws : Str} (hws : IsSpace ws) (h : Closes n (ws ++ t)) : Closes n t := by
  induction ws with
  | nil => exact h
  | cons c ws ih =>
    obtain ⟨hc, hws⟩ := Bool.and_eq_true_iff.1 hws
    refine ih hws (of_plain ?_ ?_ ?_ h)
    all_goals
      rintro rfl
      exact absurd hc (by decide)

theorem of_literal {body : Str} (hbody : StrBody body) (h : Closes n ('"' :: body ++ ['"'] ++ t)) :
    Closes n t := by
  generalize hs : '"' :: body ++ ['"'] ++ t = s at h
  cases h with
  | nil => cases hs
  | literal hbody' h =>
    have htail := (List.cons.inj hs).2
    simp only [List.append_assoc, List.singleton_append, List.append_eq] at htail
    obtain ⟨-, rfl⟩ := hbody.unique hbody' htail
    exact h
  | opening => exact absurd (List.cons.inj hs).1 (by decide)
  | closing => exact absurd (List.cons.inj hs).1 (by decide)
  | plain hquote => exact absurd (List.cons.inj hs).1.symm hquote

/-- Arguments end at one place only. -/
theorem unique {t' r r' : Str} (h : Closes n t) (h' : Closes n t') (heq : t ++ ')' :: r = t' ++ ')' :: r') :
    t = t' := by
  induction h generalizing t' with
  | nil =>
    cases h' with
    | nil => rfl
    | literal => exact absurd (List.cons.inj heq).1 (by decide)
    | opening => exact absurd (List.cons.inj heq).1 (by decide)
    | plain _ _ hclose => exact absurd (List.cons.inj heq).1.symm hclose
  | literal hbody _ ih =>
    cases h' with
    | nil => exact absurd (List.cons.inj heq).1 (by decide)
    | literal hbody' h' =>
      simp only [List.append_assoc, List.cons_append, List.nil_append, List.cons.injEq, true_and] at heq
      obtain ⟨rfl, hrest⟩ := hbody.unique hbody' heq
      rw [ih h' hrest]
    | opening => exact absurd (List.cons.inj heq).1 (by decide)
    | closing => exact absurd (List.cons.inj heq).1 (by decide)
    | plain hquote => exact absurd (List.cons.inj heq).1.symm hquote
  | opening _ ih =>
    cases h' with
    | nil => exact absurd (List.cons.inj heq).1 (by decide)
    | literal => exact absurd (List.cons.inj heq).1 (by decide)
    | opening h' => rw [ih h' (List.cons.inj heq).2]
    | closing => exact absurd (List.cons.inj heq).1 (by decide)
    | plain _ hopen => exact absurd (List.cons.inj heq).1.symm hopen
  | closing _ ih =>
    cases h' with
    | literal => exact absurd (List.cons.inj heq).1 (by decide)
    | opening => exact absurd (List.cons.inj heq).1 (by decide)
    | closing h' => rw [ih h' (List.cons.inj heq).2]
    | plain _ _ hclose => exact absurd (List.cons.inj heq).1.symm hclose
  | plain hquote hopen hclose _ ih =>
    cases h' with
    | nil => exact absurd (List.cons.inj heq).1 hclose
    | literal => exact absurd (List.cons.inj heq).1 hquote
    | opening => exact absurd (List.cons.inj heq).1 hopen
    | closing => exact absurd (List.cons.inj heq).1 hclose
    | plain _ _ _ h' =>
      obtain ⟨rfl, hrest⟩ := List.cons.inj heq
      rw [ih h' hrest]

end Closes

end IpeLang.Hot
