import IpeLang.Lib.RawText
import IpeLang.Runtime.Diff

/-!
# The bodies of styles and scripts

Where a browser ends a `<style>` and a `<script>` whose body went through `strip_style_close` and
`neutralise_script_close` of `css_safety.rs`.

* `leavesDoubleEscape_neutralise`: to neutralise a body neither opens nor ends a double escape;
* `contained_iff`: when a body stays in its element.
-/

namespace IpeLang.Runtime.Dom

open Lib (Str)
open Lib.RawText

/-! ### The text of a neutralised body -/

/-- What stands for the start of an end tag in a neutralised body. -/
def ESCAPED_CLOSE : Str := "<\\/script".toList

theorem escaped_close_eq : ESCAPED_CLOSE = '<' :: "\\/script".toList := rfl

/-- An end tag of a script starts here. -/
def StartsClose (s : Str) : Prop := Element.script.close <+: lower s

theorem startsNoCase_iff {s : Str} :
    startsWithNoCase "</script".toList s = true ↔ StartsClose s := List.isPrefixOf_iff_prefix

theorem neutralise_of_not {c : Char} {s : Str} (h : ¬ StartsClose (c :: s)) :
    neutralise_script_close (c :: s) = c :: neutralise_script_close s := by
  rw [neutralise_script_close, if_neg (mt startsNoCase_iff.1 h)]

theorem neutralise_of_starts {c : Char} {s : Str} (h : StartsClose (c :: s)) :
    neutralise_script_close (c :: s) = ESCAPED_CLOSE ++ neutralise_script_close (s.drop 7) := by
  rw [neutralise_script_close, if_pos (startsNoCase_iff.2 h)]
  rfl

@[simp] theorem neutralise_nil : neutralise_script_close [] = [] := by
  rw [neutralise_script_close]

theorem StartsClose.head {c : Char} {s : Str} (h : StartsClose (c :: s)) : c = '<' :=
  eq_of_toLower_eq (List.cons_prefix_cons.1 h).1.symm (by decide)

theorem StartsClose.head_tail {c d : Char} {s : Str} (h : StartsClose (c :: d :: s)) : d = '/' :=
  eq_of_toLower_eq (List.cons_prefix_cons.1 (List.cons_prefix_cons.1 h).2).1.symm (by decide)

/-- An end tag has no other `<` in it. -/
theorem StartsClose.of_append_lt {c : Char} {s r : Str} (h : StartsClose (c :: s ++ '<' :: r)) :
    StartsClose (c :: s) := by
  obtain ⟨t, ht⟩ := h
  unfold lower at ht
  rw [List.map_append] at ht
  rcases List.append_eq_append_iff.1 ht with ⟨u, hu, -⟩ | ⟨u, hu, hrest⟩
  · exact ⟨u, hu.symm⟩
  · cases u with
    | nil => exact ⟨[], hu.trans (List.append_nil _) ▸ List.append_nil _⟩
    | cons d u =>
      obtain rfl : '<' = d := List.head_eq_of_cons_eq hrest
      have htail : "/script".toList = s.map Char.toLower ++ '<' :: u := List.tail_eq_of_cons_eq hu
      have hmem : '<' ∈ "/script".toList := htail ▸ List.mem_append_right _ List.mem_cons_self
      exact absurd hmem (by decide)

theorem StartsClose.length {c : Char} {s : Str} (h : StartsClose (c :: s)) : 7 ≤ s.length := by
  have hlength := h.length_le
  simp only [lower, List.length_map, List.length_cons] at hlength
  exact Nat.le_of_succ_le_succ hlength

theorem StartsClose.append {s : Str} (h : StartsClose s) (r : Str) : StartsClose (s ++ r) := by
  unfold StartsClose lower at h ⊢
  rw [List.map_append]
  exact h.trans (List.prefix_append _ _)

/-- A body is neutralised on both sides of a `<` alike. -/
theorem neutralise_append_lt (l r : Str) :
    neutralise_script_close (l ++ '<' :: r) =
      neutralise_script_close l ++ neutralise_script_close ('<' :: r) := by
  fun_induction neutralise_script_close l with
  | case1 => rfl
  | case2 c s hstart ih =>
    have hstarts := startsNoCase_iff.1 hstart
    have hle : 7 ≤ s.length := hstarts.length
    have hstarts' : StartsClose (c :: (s ++ '<' :: r)) := hstarts.append _
    rw [List.cons_append, neutralise_of_starts hstarts', List.drop_append_of_le_length hle, ih,
      List.append_assoc]
    rfl
  | case3 c s hstart ih =>
    have hstarts : ¬ StartsClose (c :: (s ++ '<' :: r)) :=
      fun h => hstart (startsNoCase_iff.2 h.of_append_lt)
    rw [List.cons_append, neutralise_of_not hstarts, ih, List.cons_append]

/-- A text without a `<` is read from a neutralised body as from the body. -/
theorem neutralise_eq_append {l : Str} (hlt : '<' ∉ l) {s r : Str}
    (h : neutralise_script_close s = l ++ r) :
    ∃ s', s = l ++ s' ∧ neutralise_script_close s' = r := by
  induction l generalizing s with
  | nil => exact ⟨s, rfl, h⟩
  | cons d l ih =>
    obtain ⟨hd, hl⟩ := not_or.1 (mt List.mem_cons.2 hlt)
    cases s with
    | nil =>
      rw [neutralise_nil] at h
      cases h
    | cons c s =>
      by_cases hstarts : StartsClose (c :: s)
      · rw [neutralise_of_starts hstarts] at h
        exact absurd (List.head_eq_of_cons_eq h) hd
      · rw [neutralise_of_not hstarts] at h
        obtain ⟨hcd, h⟩ := List.cons_eq_cons.1 h
        obtain ⟨s', hs, hs'⟩ := ih hl h
        exact ⟨s', by rw [hcd, hs, List.cons_append], hs'⟩

theorem neutralise_append {l : Str} (hl : '<' ∉ l) (s : Str) :
    neutralise_script_close (l ++ s) = l ++ neutralise_script_close s := by
  induction l with
  | nil => rfl
  | cons d l ih =>
    obtain ⟨hd, hl⟩ := not_or.1 (mt List.mem_cons.2 hl)
    have hstarts : ¬ StartsClose (d :: (l ++ s)) := fun h => hd h.head.symm
    rw [List.cons_append, neutralise_of_not hstarts, ih hl, List.cons_append]

theorem neutralise_lt {c : Char} (hc : c ≠ '/') (s : Str) :
    neutralise_script_close ('<' :: c :: s) = '<' :: neutralise_script_close (c :: s) :=
  neutralise_of_not fun h => hc h.head_tail

/-- A text starts after another one that does not have its first character. -/
theorem exists_of_append_eq {c : Char} {l l' r r' : Str} (hl : c ∉ l)
    (h : l ++ r = l' ++ c :: r') : ∃ t, l' = l ++ t ∧ r = t ++ c :: r' := by
  rcases List.append_eq_append_iff.1 h with ⟨t, ht, hr⟩ | ⟨t, ht, hr⟩
  · exact ⟨t, ht, hr⟩
  · cases t with
    | nil => exact ⟨[], by rw [ht, List.append_nil, List.append_nil], hr.symm⟩
    | cons d t =>
      obtain rfl : c = d := List.head_eq_of_cons_eq hr
      exact absurd (ht ▸ List.mem_append_right _ List.mem_cons_self) hl

/-- A `<` that was not put there is one of the body. -/
theorem neutralise_eq_append_lt {s l r : Str} {d : Char} (hd : d ≠ '\\')
    (h : neutralise_script_close s = l ++ '<' :: d :: r) :
    ∃ s₁ s₂, s = s₁ ++ '<' :: s₂ ∧ neutralise_script_close s₁ = l ∧
      neutralise_script_close s₂ = d :: r := by
  fun_induction neutralise_script_close s generalizing l with
  | case1 =>
    rcases List.append_eq_nil_iff.1 h.symm with ⟨-, hnil⟩
    cases hnil
  | case2 c s hstart ih =>
    have hstarts := startsNoCase_iff.1 hstart
    have hsplit : ESCAPED_CLOSE ++ neutralise_script_close (s.drop 7) = l ++ '<' :: d :: r := h
    rw [escaped_close_eq, List.cons_append] at hsplit
    cases l with
    | nil => exact absurd (List.head_eq_of_cons_eq (List.tail_eq_of_cons_eq hsplit)).symm hd
    | cons e l =>
      obtain ⟨rfl, htail⟩ := List.cons_eq_cons.1 hsplit
      have hno : '<' ∉ "\\/script".toList := by decide
      obtain ⟨t, rfl, hrest⟩ := exists_of_append_eq hno htail
      obtain ⟨s₁, s₂, hs, rfl, hs₂⟩ := ih hrest
      refine ⟨c :: (s.take 7 ++ s₁), s₂, ?_, ?_, hs₂⟩
      · rw [List.cons_append, List.append_assoc, ← hs, List.take_append_drop]
      · have hseven : 7 ≤ s.length := hstarts.length
        have hcut : c :: s = c :: (s.take 7 ++ s₁) ++ '<' :: s₂ := by
          rw [List.cons_append, List.append_assoc, ← hs, List.take_append_drop]
        have hstarts' : StartsClose (c :: (s.take 7 ++ s₁)) := by
          rw [hcut] at hstarts
          exact hstarts.of_append_lt
        have hlength : (s.take 7).length = 7 := List.length_take_of_le hseven
        rw [neutralise_of_starts hstarts', List.drop_left' hlength, escaped_close_eq,
          List.cons_append]
  | case3 c s hstart ih =>
    have hstarts : ¬ StartsClose (c :: s) := fun h => hstart (startsNoCase_iff.2 h)
    cases l with
    | nil =>
      obtain ⟨rfl, htail⟩ := List.cons_eq_cons.1 h
      exact ⟨[], s, rfl, neutralise_nil, htail⟩
    | cons e l =>
      obtain ⟨rfl, htail⟩ := List.cons_eq_cons.1 h
      obtain ⟨s₁, s₂, rfl, rfl, hs₂⟩ := ih htail
      refine ⟨c :: s₁, s₂, rfl, ?_, hs₂⟩
      exact neutralise_of_not fun hstarts' => hstarts (hstarts'.append ('<' :: s₂))

/-- What an end tag starts with is the end tag. -/
theorem StartsClose.lower_take {c : Char} {s : Str} (h : StartsClose (c :: s)) :
    lower (c :: s.take 7) = Element.script.close := by
  have htake := List.prefix_iff_eq_take.1 h
  rw [htake, lower, lower, ← List.map_take]
  rfl

/-- Nothing that is no part of an end tag comes or goes. -/
theorem infix_neutralise_iff {needle s : Str} {d : Char} (hlt : '<' ∉ d :: needle)
    (hclose : d.toLower ∉ Element.script.close) (hescaped : d ∉ ESCAPED_CLOSE) :
    (d :: needle) <:+: neutralise_script_close s ↔ (d :: needle) <:+: s := by
  have hprefix : ∀ s : Str, (d :: needle) <+: neutralise_script_close s ↔ (d :: needle) <+: s := by
    intro s
    constructor
    · rintro ⟨t, ht⟩
      obtain ⟨s', rfl, -⟩ := neutralise_eq_append hlt ht.symm
      exact List.prefix_append _ _
    · rintro ⟨t, rfl⟩
      rw [neutralise_append hlt]
      exact List.prefix_append _ _
  fun_induction neutralise_script_close s with
  | case1 => exact Iff.rfl
  | case2 c s hstart ih =>
    have hstarts := startsNoCase_iff.1 hstart
    have htake : d ∉ c :: s.take 7 := fun hmem =>
      hclose (hstarts.lower_take ▸ List.mem_map_of_mem hmem)
    constructor
    · intro hinfix
      have hrest := ih.1 (infix_of_infix_append hescaped hinfix)
      exact hrest.trans ((List.drop_suffix 7 s).trans (List.suffix_cons c s)).isInfix
    · intro hinfix
      have hsplit : c :: s = (c :: s.take 7) ++ s.drop 7 := by
        rw [List.cons_append, List.take_append_drop]
      rw [hsplit] at hinfix
      have hrest := ih.2 (infix_of_infix_append htake hinfix)
      exact hrest.trans (List.suffix_append _ _).isInfix
  | case3 c s hstart ih =>
    have hstarts : ¬ StartsClose (c :: s) := fun h => hstart (startsNoCase_iff.2 h)
    have hhead := hprefix (c :: s)
    rw [neutralise_of_not hstarts] at hhead
    rw [List.infix_cons_iff, List.infix_cons_iff]
    exact or_congr hhead ih

/-! ### Double escapes -/

/-- The end of a comment is neither put nor removed. -/
theorem unclosed_neutralise (comment : Str) :
    "-->".toList <:+: "--".toList ++ neutralise_script_close comment ↔
      "-->".toList <:+: "--".toList ++ comment := by
  have hdashes : '<' ∉ "--".toList := by decide
  have hneedle : '<' ∉ '-' :: "->".toList := by decide
  rw [← neutralise_append hdashes]
  exact infix_neutralise_iff hneedle (by decide) (by decide)

theorem neutralise_comment (before comment : Str) :
    neutralise_script_close (before ++ "<!--".toList ++ comment) =
      neutralise_script_close before ++ "<!--".toList ++ neutralise_script_close comment := by
  have hopen : '<' ∉ "!--".toList := by decide
  have htext : before ++ "<!--".toList ++ comment = before ++ '<' :: ("!--".toList ++ comment) :=
    List.append_assoc _ _ _
  have hlt : neutralise_script_close ('<' :: ("!--".toList ++ comment)) =
      '<' :: neutralise_script_close ("!--".toList ++ comment) := neutralise_lt (by decide) _
  rw [htext, neutralise_append_lt, hlt, neutralise_append hopen, List.append_assoc]
  rfl

/-- The name of a script and what ends it. -/
theorem not_lt_mem_name {name : Str} {c : Char} (hname : lower name = Element.script.name)
    (hc : isTagEnd c = true) : '<' ∉ name ++ [c] := by
  intro hmem
  rcases List.mem_append.1 hmem with hmem | hmem
  · cases isAlpha_of_lower_eq hname '<' hmem
  · rw [← List.mem_singleton.1 hmem] at hc
    cases hc

/-- A name of a script starts with a letter. -/
theorem exists_name {name : Str} (hname : lower name = Element.script.name) :
    ∃ d rest, name = d :: rest ∧ d.isAlpha = true := by
  have halpha := isAlpha_of_lower_eq hname
  cases name with
  | nil => cases hname
  | cons d rest => exact ⟨d, rest, rfl, halpha d List.mem_cons_self⟩

theorem neutralise_name {name : Str} {c : Char} (hname : lower name = Element.script.name)
    (hc : isTagEnd c = true) (inner after : Str) :
    neutralise_script_close (inner ++ '<' :: (name ++ c :: after)) =
      neutralise_script_close inner ++ '<' :: (name ++ c :: neutralise_script_close after) := by
  have hsplit : ∀ after : Str, name ++ c :: after = (name ++ [c]) ++ after := fun after => by simp
  have hlt : neutralise_script_close ('<' :: (name ++ c :: after)) =
      '<' :: neutralise_script_close (name ++ c :: after) := by
    obtain ⟨d, rest, rfl, hd⟩ := exists_name hname
    refine neutralise_lt ?_ _
    rintro rfl
    cases hd
  rw [neutralise_append_lt, hlt, hsplit, neutralise_append (not_lt_mem_name hname hc), ← hsplit]

/-- To neutralise a body neither opens nor ends a double escape. -/
theorem leavesDoubleEscape_neutralise (body : Str) :
    LeavesDoubleEscape (neutralise_script_close body) ↔ LeavesDoubleEscape body := by
  constructor
  · rintro ⟨before, comment, ⟨htext, hunclosed⟩, inner, name, c, after, rfl, hname, hc⟩
    have hsplit : neutralise_script_close body =
        before ++ '<' :: '!' :: ("--".toList ++ (inner ++ '<' :: (name ++ c :: after))) :=
      htext.trans (List.append_assoc _ _ _)
    obtain ⟨before', rest, rfl, -, hrest⟩ := neutralise_eq_append_lt (by decide) hsplit
    have hopen : '<' ∉ "!--".toList := by decide
    obtain ⟨comment', rfl, hcomment⟩ := neutralise_eq_append hopen hrest
    obtain ⟨d, letters, hletters, hd⟩ := exists_name hname
    have hslash : d ≠ '\\' := by
      rintro rfl
      cases hd
    have hcomment' : neutralise_script_close comment' =
        inner ++ '<' :: d :: (letters ++ c :: after) := by rw [hcomment, hletters, List.cons_append]
    obtain ⟨inner', tail, rfl, -, htail⟩ := neutralise_eq_append_lt hslash hcomment'
    have htail' : neutralise_script_close tail = (name ++ [c]) ++ after := by
      rw [htail, hletters]
      simp
    obtain ⟨after', rfl, -⟩ := neutralise_eq_append (not_lt_mem_name hname hc) htail'
    refine ⟨before', inner' ++ '<' :: ((name ++ [c]) ++ after'), ⟨?_, ?_⟩, inner', name, c, after',
      by simp, hname, hc⟩
    · exact (List.append_assoc before' "<!--".toList _).symm
    · rw [← unclosed_neutralise, hcomment]
      exact hunclosed
  · rintro ⟨before, comment, ⟨rfl, hunclosed⟩, inner, name, c, after, rfl, hname, hc⟩
    refine ⟨neutralise_script_close before, _, ⟨neutralise_comment before _, ?_⟩,
      neutralise_script_close inner, name, c, neutralise_script_close after,
      neutralise_name hname hc inner after, hname, hc⟩
    rw [unclosed_neutralise]
    exact hunclosed

/-! ### Bodies without an end tag -/

theorem neutralise_eq_self {body : Str} (h : NoClose .script body) :
    neutralise_script_close body = body := by
  induction body with
  | nil => exact neutralise_nil
  | cons c s ih => rw [neutralise_of_not h.head, ih h.tail]

theorem removeStyleClose_eq_none {body : Str} (h : NoClose .style body) :
    removeStyleClose body = none := by
  induction body with
  | nil => rfl
  | cons c s ih =>
    have hstart : ¬ startsWithNoCase "</style".toList (c :: s) = true :=
      fun hstart => h.head (List.isPrefixOf_iff_prefix.1 hstart)
    rw [removeStyleClose, if_neg hstart, ih h.tail]
    rfl

theorem strip_eq_self {body : Str} (h : NoClose .style body) : strip_style_close body = body := by
  rw [strip_style_close]
  split
  · rfl
  · next t ht =>
    rw [removeStyleClose_eq_none h] at ht
    cases ht

/-! ### Where an element ends -/

/-- A body stays in its element, be that a style or a script: the element ends with its own end tag.
What has no end tag in it is not changed. -/
structure Contained (body : Str) : Prop where
  style : ClosesAfter .style (strip_style_close body)
  script : ClosesAfter .script (neutralise_script_close body)
  style_unchanged : NoClose .style body → strip_style_close body = body
  script_unchanged : NoClose .script body → neutralise_script_close body = body
  style_twice : strip_style_close (strip_style_close body) = strip_style_close body

/-- A body stays in its element exactly if it leaves no double escape: no `<!--` with a later
`<script` that no `-->` ends. -/
theorem contained_iff (body : Str) : Contained body ↔ ¬ LeavesDoubleEscape body := by
  have hstyle : NoClose .style (strip_style_close body) := not_infix_strip_style_close body
  have hscript : NoClose .script (neutralise_script_close body) :=
    not_infix_neutralise_script_close body
  have hcloses := closes_script_iff hscript
  rw [leavesDoubleEscape_neutralise] at hcloses
  constructor
  · intro h
    exact hcloses.1 h.script
  · intro h
    exact ⟨closes_style hstyle, hcloses.2 h, strip_eq_self, neutralise_eq_self,
      strip_eq_self hstyle⟩

/-- After this body the end tag of the script ends the second escape only. -/
theorem doubleEscaped_not_contained : ¬ Contained "<!--<script>".toList := by
  intro h
  have hclose : NoClose .script "<!--<script>".toList := by
    unfold NoClose
    decide
  have hscript := h.script
  rw [neutralise_eq_self hclose] at hscript
  have hnone : close? .script .data
      ("<!--<script>".toList ++ Element.script.close ++ ['>']) = none := by decide
  cases hnone.symm.trans hscript

end IpeLang.Runtime.Dom
