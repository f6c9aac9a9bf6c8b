import IpeLang.Lib.Text
import Mathlib

/-!
# Where a browser ends a raw text

The tokeniser of HTML on what follows the start tag of a `<style>` (raw text) or a `<script>`
(script data, with its escaped and double escaped states). Both end at the first end tag of their
name, except that a script does not end while it is double escaped: after a `<!--` and a
`<script` in it, up to `-->` or `</script`.

* `close?`: the input after the first end tag;
* `closes_style`: a text without the start of its own end tag ends where that is appended;
* `closes_script_iff`: so does such a script, exactly if the text leaves no double escape open.
-/

namespace IpeLang.Lib.RawText

def lower (s : Str) : Str := s.map Char.toLower

/-- The elements whose text is raw. -/
inductive Element
  | style
  | script
  deriving DecidableEq, Repr

def Element.name : Element → Str
  | .style => "style".toList
  | .script => "script".toList

/-- The start of an end tag. -/
def Element.close (el : Element) : Str := '<' :: '/' :: el.name

/-- The states of the tokeniser. A state has the dashes that it has just read, or the letters that
it keeps to compare with a name. -/
inductive State
  | data
  | lessThan
  | endTagOpen
  | endTagName (buffer : Str)
  | escapeStart
  | escapeStartDash
  | escaped (dashes : ℕ)
  | escapedLessThan
  | escapedEndTagOpen
  | escapedEndTagName (buffer : Str)
  | doubleEscapeStart (buffer : Str)
  | doubleEscaped (dashes : ℕ)
  | doubleEscapedLessThan
  | doubleEscapeEnd (buffer : Str)
  | closed
  deriving DecidableEq, Repr

/-- What ends the name of a tag. A carriage return is read as a line feed. -/
def isTagEnd (c : Char) : Bool :=
  c == '\t' || c == '\n' || c == '\x0c' || c == '\r' || c == ' ' || c == '/' || c == '>'

def dataStep (c : Char) : State := if c = '<' then .lessThan else .data

def escapedStep (dashes : ℕ) (c : Char) : State :=
  if c = '-' then .escaped (dashes + 1)
  else if c = '<' then .escapedLessThan
  else if c = '>' ∧ 2 ≤ dashes then .data
  else .escaped 0

def doubleEscapedStep (dashes : ℕ) (c : Char) : State :=
  if c = '-' then .doubleEscaped (dashes + 1)
  else if c = '<' then .doubleEscapedLessThan
  else if c = '>' ∧ 2 ≤ dashes then .data
  else .doubleEscaped 0

/-- Read a character of the text of an element. -/
def step (el : Element) (s : State) (c : Char) : State :=
  match s with
  | .data => dataStep c
  | .lessThan =>
    if c = '/' then .endTagOpen
    else if c = '!' ∧ el = .script then .escapeStart
    else dataStep c
  | .endTagOpen => if c.isAlpha then .endTagName [c.toLower] else dataStep c
  | .endTagName buffer =>
    if isTagEnd c = true ∧ buffer = el.name then .closed
    else if c.isAlpha then .endTagName (buffer ++ [c.toLower])
    else dataStep c
  | .escapeStart => if c = '-' then .escapeStartDash else dataStep c
  | .escapeStartDash => if c = '-' then .escaped 2 else dataStep c
  | .escaped dashes => escapedStep dashes c
  | .escapedLessThan =>
    if c = '/' then .escapedEndTagOpen
    else if c.isAlpha then .doubleEscapeStart [c.toLower]
    else escapedStep 0 c
  | .escapedEndTagOpen => if c.isAlpha then .escapedEndTagName [c.toLower] else escapedStep 0 c
  | .escapedEndTagName buffer =>
    if isTagEnd c = true ∧ buffer = el.name then .closed
    else if c.isAlpha then .escapedEndTagName (buffer ++ [c.toLower])
    else escapedStep 0 c
  | .doubleEscapeStart buffer =>
    if isTagEnd c then if buffer = el.name then .doubleEscaped 0 else .escaped 0
    else if c.isAlpha then .doubleEscapeStart (buffer ++ [c.toLower])
    else escapedStep 0 c
  | .doubleEscaped dashes => doubleEscapedStep dashes c
  | .doubleEscapedLessThan => if c = '/' then .doubleEscapeEnd [] else doubleEscapedStep 0 c
  | .doubleEscapeEnd buffer =>
    if isTagEnd c then if buffer = el.name then .escaped 0 else .doubleEscaped 0
    else if c.isAlpha then .doubleEscapeEnd (buffer ++ [c.toLower])
    else doubleEscapedStep 0 c
  | .closed => .closed

def run (el : Element) (s : State) (text : Str) : State := text.foldl (step el) s

/-- The input after the first end tag of the element. -/
def close? (el : Element) : State → Str → Option Str
  | _, [] => none
  | s, c :: input => if step el s c = .closed then some input else close? el (step el s c) input

/-- The element ends with the end tag after its text, and not before. -/
def ClosesAfter (el : Element) (text : Str) : Prop :=
  close? el .data (text ++ el.close ++ ['>']) = some []

@[simp] theorem run_nil (el : Element) (s : State) : run el s [] = s := rfl

@[simp] theorem run_cons (el : Element) (s : State) (c : Char) (text : Str) :
    run el s (c :: text) = run el (step el s c) text := rfl

theorem run_append (el : Element) (s : State) (text text' : Str) :
    run el s (text ++ text') = run el (run el s text) text' := List.foldl_append

/-! ### Texts without the end tag -/

/-- What is to be read does not complete an end tag that the state has begun. -/
def Safe (el : Element) (s : State) (text : Str) : Prop :=
  match s with
  | .lessThan | .escapedLessThan | .doubleEscapedLessThan => ¬ '/' :: el.name <+: lower text
  | .endTagOpen | .escapedEndTagOpen => ¬ el.name <+: lower text
  | .endTagName buffer | .escapedEndTagName buffer | .doubleEscapeEnd buffer =>
    ¬ el.name <+: buffer ++ lower text
  | .closed => False
  | _ => True

theorem not_name_prefix {el : Element} {text : Str} (h : ¬ el.close <+: lower ('<' :: text)) :
    ¬ '/' :: el.name <+: lower text := fun hname => h (List.cons_prefix_cons.2 ⟨rfl, hname⟩)

theorem safe_dataStep {el : Element} {c : Char} {text : Str} (h : ¬ el.close <+: lower (c :: text)) :
    Safe el (dataStep c) text := by
  unfold dataStep
  split_ifs with hc
  · subst hc
    exact not_name_prefix h
  · trivial

theorem safe_escapedStep {el : Element} (dashes : ℕ) {c : Char} {text : Str}
    (h : ¬ el.close <+: lower (c :: text)) : Safe el (escapedStep dashes c) text := by
  unfold escapedStep
  split_ifs with hdash hc
  · trivial
  · subst hc
    exact not_name_prefix h
  all_goals trivial

theorem safe_doubleEscapedStep {el : Element} (dashes : ℕ) {c : Char} {text : Str}
    (h : ¬ el.close <+: lower (c :: text)) : Safe el (doubleEscapedStep dashes c) text := by
  unfold doubleEscapedStep
  split_ifs with hdash hc
  · trivial
  · subst hc
    exact not_name_prefix h
  all_goals trivial

/-- A letter moves from the text to the letters that the state keeps. -/
theorem not_name_buffer {el : Element} {buffer : Str} {c : Char} {text : Str}
    (h : ¬ el.name <+: buffer ++ lower (c :: text)) :
    ¬ el.name <+: (buffer ++ [c.toLower]) ++ lower text := by
  rw [List.append_assoc]
  exact h

/-- Reading a character keeps a state safe, and so does not end the element. -/
theorem safe_step {el : Element} {s : State} {c : Char} {text : Str}
    (hclose : ¬ el.close <+: lower (c :: text)) (hs : Safe el s (c :: text)) :
    Safe el (step el s c) text := by
  have hslash : ∀ {c : Char}, c = '/' → ¬ '/' :: el.name <+: lower (c :: text) →
      ¬ el.name <+: lower text := by
    rintro c rfl h hname
    exact h (List.cons_prefix_cons.2 ⟨rfl, hname⟩)
  -- In a state that has read the start of an end tag, `hs` is that the rest of one does not follow.
  cases s with
  | data => exact safe_dataStep hclose
  | lessThan =>
    unfold step
    dsimp only
    split_ifs with hc hbang
    · exact hslash hc hs
    · trivial
    · exact safe_dataStep hclose
  | endTagOpen =>
    unfold step
    dsimp only
    split_ifs with halpha
    · have hnil : ¬ el.name <+: [] ++ lower (c :: text) := hs
      exact not_name_buffer hnil
    · exact safe_dataStep hclose
  | endTagName buffer =>
    unfold step
    dsimp only
    split_ifs with hend halpha
    · exact hs (hend.2 ▸ List.prefix_append _ _)
    · exact not_name_buffer hs
    · exact safe_dataStep hclose
  | escapeStart =>
    unfold step
    dsimp only
    split_ifs with hc
    · trivial
    · exact safe_dataStep hclose
  | escapeStartDash =>
    unfold step
    dsimp only
    split_ifs with hc
    · trivial
    · exact safe_dataStep hclose
  | escaped dashes => exact safe_escapedStep dashes hclose
  | escapedLessThan =>
    unfold step
    dsimp only
    split_ifs with hc halpha
    · exact hslash hc hs
    · trivial
    · exact safe_escapedStep 0 hclose
  | escapedEndTagOpen =>
    unfold step
    dsimp only
    split_ifs with halpha
    · have hnil : ¬ el.name <+: [] ++ lower (c :: text) := hs
      exact not_name_buffer hnil
    · exact safe_escapedStep 0 hclose
  | escapedEndTagName buffer =>
    unfold step
    dsimp only
    split_ifs with hend halpha
    · exact hs (hend.2 ▸ List.prefix_append _ _)
    · exact not_name_buffer hs
    · exact safe_escapedStep 0 hclose
  | doubleEscapeStart buffer =>
    unfold step
    dsimp only
    split_ifs with hend hname halpha
    · trivial
    · trivial
    · trivial
    · exact safe_escapedStep 0 hclose
  | doubleEscaped dashes => exact safe_doubleEscapedStep dashes hclose
  | doubleEscapedLessThan =>
    unfold step
    dsimp only
    split_ifs with hc
    · exact hslash hc hs
    · exact safe_doubleEscapedStep 0 hclose
  | doubleEscapeEnd buffer =>
    unfold step
    dsimp only
    split_ifs with hend hname halpha
    · trivial
    · trivial
    · exact not_name_buffer hs
    · exact safe_doubleEscapedStep 0 hclose
  | closed => exact hs.elim

/-- No end tag starts in the text. -/
def NoClose (el : Element) (text : Str) : Prop := ¬ el.close <:+: lower text

theorem NoClose.head {el : Element} {c : Char} {text : Str} (h : NoClose el (c :: text)) :
    ¬ el.close <+: lower (c :: text) := fun hclose => h hclose.isInfix

theorem NoClose.tail {el : Element} {c : Char} {text : Str} (h : NoClose el (c :: text)) :
    NoClose el text := fun hclose => h (List.infix_cons hclose)

theorem Safe.ne_closed {el : Element} {s : State} {text : Str} (h : Safe el s text) :
    s ≠ .closed := by
  rintro rfl
  exact h

/-- A text without an end tag is read to its end. -/
theorem close?_append {el : Element} {s : State} {text : Str} (hs : Safe el s text)
    (h : NoClose el text) (input : Str) :
    close? el s (text ++ input) = close? el (run el s text) input := by
  induction text generalizing s with
  | nil => rfl
  | cons c text ih =>
    have hstep := safe_step h.head hs
    rw [List.cons_append, close?, if_neg hstep.ne_closed, run_cons]
    exact ih hstep h.tail

theorem safe_run {el : Element} {s : State} {text : Str} (hs : Safe el s text)
    (h : NoClose el text) : run el s text ≠ .closed := by
  induction text generalizing s with
  | nil => exact hs.ne_closed
  | cons c text ih => exact ih (safe_step h.head hs) h.tail

/-! ### How deep a state is escaped -/

/-- How many times the text is escaped. -/
def State.level : State → ℕ
  | .escaped _ | .escapedLessThan | .escapedEndTagOpen | .escapedEndTagName _
  | .doubleEscapeStart _ => 1
  | .doubleEscaped _ | .doubleEscapedLessThan | .doubleEscapeEnd _ => 2
  | _ => 0

/-- The dashes just read, at most two of which matter. -/
def State.dashes : State → ℕ
  | .escaped n => n
  | .doubleEscaped n => n
  | _ => 0

/-- The dashes after one more character. -/
def nextDashes (n : ℕ) (c : Char) : ℕ := if c = '-' then n + 1 else 0

theorem level_dataStep (c : Char) : (dataStep c).level = 0 := by
  unfold dataStep
  split_ifs <;> rfl

theorem level_escapedStep {n : ℕ} {c : Char} :
    (escapedStep n c).level = if c = '>' ∧ 2 ≤ n then 0 else 1 := by
  unfold escapedStep
  split_ifs with h₁ h₂ h₃ h₃ <;> simp_all [State.level]

theorem level_doubleEscapedStep {n : ℕ} {c : Char} :
    (doubleEscapedStep n c).level = if c = '>' ∧ 2 ≤ n then 0 else 2 := by
  unfold doubleEscapedStep
  split_ifs with h₁ h₂ h₃ h₃ <;> simp_all [State.level]

theorem dashes_escapedStep (n : ℕ) (c : Char) :
    (escapedStep n c).dashes = nextDashes n c := by
  unfold escapedStep nextDashes
  split_ifs <;> rfl

theorem dashes_doubleEscapedStep (n : ℕ) (c : Char) :
    (doubleEscapedStep n c).dashes = nextDashes n c := by
  unfold doubleEscapedStep nextDashes
  split_ifs <;> rfl

theorem nextDashes_of_isTagEnd {c : Char} (h : isTagEnd c = true) (n : ℕ) :
    nextDashes n c = 0 := by
  refine if_neg ?_
  rintro rfl
  cases h

theorem nextDashes_of_isAlpha {c : Char} (h : c.isAlpha = true) (n : ℕ) : nextDashes n c = 0 := by
  refine if_neg ?_
  rintro rfl
  cases h

/-- How a state that is escaped is reached: by the second dash of `<!--`, or from an escaped state
by a character that is not the end of `-->`. -/
theorem level_step {el : Element} {s : State} {c : Char} (h : 1 ≤ (step el s c).level) :
    (s = .escapeStartDash ∧ step el s c = .escaped 2 ∧ c = '-') ∨
      (1 ≤ s.level ∧ (step el s c).dashes = nextDashes s.dashes c ∧ (c = '>' → s.dashes < 2)) := by
  have hescaped : ∀ {n : ℕ}, 1 ≤ (escapedStep n c).level → c = '>' → n < 2 := by
    intro n hlevel hc
    by_contra hn
    rw [level_escapedStep, if_pos ⟨hc, not_lt.1 hn⟩] at hlevel
    cases hlevel
  have hdouble : ∀ {n : ℕ}, 1 ≤ (doubleEscapedStep n c).level → c = '>' → n < 2 := by
    intro n hlevel hc
    by_contra hn
    rw [level_doubleEscapedStep, if_pos ⟨hc, not_lt.1 hn⟩] at hlevel
    cases hlevel
  have hdata : ∀ {c : Char}, ¬ 1 ≤ (dataStep c).level := by
    intro c hlevel
    rw [level_dataStep] at hlevel
    cases hlevel
  -- Of the states of data only the one after `<!-` leads to an escaped one; those count the dashes on.
  cases s with
  | data => exact absurd h hdata
  | lessThan =>
    unfold step at h
    dsimp only at h
    split_ifs at h
    · cases h
    · cases h
    · exact absurd h hdata
  | endTagOpen =>
    unfold step at h
    dsimp only at h
    split_ifs at h
    · cases h
    · exact absurd h hdata
  | endTagName buffer =>
    unfold step at h
    dsimp only at h
    split_ifs at h
    · cases h
    · cases h
    · exact absurd h hdata
  | escapeStart =>
    unfold step at h
    dsimp only at h
    split_ifs at h
    · cases h
    · exact absurd h hdata
  | escapeStartDash =>
    unfold step at h ⊢
    dsimp only at h ⊢
    split_ifs at h ⊢ with hc
    · exact Or.inl ⟨rfl, rfl, hc⟩
    · exact absurd h hdata
  | escaped dashes =>
    exact Or.inr ⟨le_rfl, dashes_escapedStep dashes c, hescaped h⟩
  | escapedLessThan =>
    refine Or.inr ⟨le_rfl, ?_, fun _ => Nat.two_pos⟩
    unfold step
    dsimp only
    split_ifs with hc halpha
    · rw [hc]
      rfl
    · exact (nextDashes_of_isAlpha halpha _).symm
    · exact dashes_escapedStep 0 c
  | escapedEndTagOpen =>
    refine Or.inr ⟨le_rfl, ?_, fun _ => Nat.two_pos⟩
    unfold step
    dsimp only
    split_ifs with halpha
    · exact (nextDashes_of_isAlpha halpha _).symm
    · exact dashes_escapedStep 0 c
  | escapedEndTagName buffer =>
    refine Or.inr ⟨le_rfl, ?_, fun _ => Nat.two_pos⟩
    unfold step
    dsimp only
    split_ifs with hend halpha
    · exact (nextDashes_of_isTagEnd hend.1 _).symm
    · exact (nextDashes_of_isAlpha halpha _).symm
    · exact dashes_escapedStep 0 c
  | doubleEscapeStart buffer =>
    refine Or.inr ⟨le_rfl, ?_, fun _ => Nat.two_pos⟩
    unfold step
    dsimp only
    split_ifs with hend hname halpha
    · exact (nextDashes_of_isTagEnd hend _).symm
    · exact (nextDashes_of_isTagEnd hend _).symm
    · exact (nextDashes_of_isAlpha halpha _).symm
    · exact dashes_escapedStep 0 c
  | doubleEscaped dashes =>
    exact Or.inr ⟨one_le_two, dashes_doubleEscapedStep dashes c, hdouble h⟩
  | doubleEscapedLessThan =>
    refine Or.inr ⟨one_le_two, ?_, fun _ => Nat.two_pos⟩
    unfold step
    dsimp only
    split_ifs with hc
    · rw [hc]
      rfl
    · exact dashes_doubleEscapedStep 0 c
  | doubleEscapeEnd buffer =>
    refine Or.inr ⟨one_le_two, ?_, fun _ => Nat.two_pos⟩
    unfold step
    dsimp only
    split_ifs with hend hname halpha
    · exact (nextDashes_of_isTagEnd hend _).symm
    · exact (nextDashes_of_isTagEnd hend _).symm
    · exact (nextDashes_of_isAlpha halpha _).symm
    · exact dashes_doubleEscapedStep 0 c
  | closed => cases h

/-- Only the end of `-->` or of an end tag makes a state less escaped. -/
theorem level_le_step {el : Element} {s : State} {c : Char} {text : Str}
    (hs : Safe el s (c :: text)) (hdash : c = '>' → s.dashes < 2) :
    s.level ≤ (step el s c).level := by
  have hescaped : ∀ {n : ℕ}, (c = '>' → n < 2) → 1 ≤ (escapedStep n c).level := by
    intro n hn
    rw [level_escapedStep, if_neg fun h => absurd (hn h.1) (not_lt.2 h.2)]
  have hdouble : ∀ {n : ℕ}, (c = '>' → n < 2) → 2 ≤ (doubleEscapedStep n c).level := by
    intro n hn
    rw [level_doubleEscapedStep, if_neg fun h => absurd (hn h.1) (not_lt.2 h.2)]
  cases s with
  | escaped dashes => exact hescaped hdash
  | escapedLessThan =>
    unfold step
    dsimp only
    split_ifs
    · exact le_rfl
    · exact le_rfl
    · exact hescaped fun _ => Nat.two_pos
  | escapedEndTagOpen =>
    unfold step
    dsimp only
    split_ifs
    · exact le_rfl
    · exact hescaped fun _ => Nat.two_pos
  | escapedEndTagName buffer =>
    unfold step
    dsimp only
    split_ifs with hend
    · exact absurd (hend.2 ▸ List.prefix_append _ _) hs
    · exact le_rfl
    · exact hescaped fun _ => Nat.two_pos
  | doubleEscapeStart buffer =>
    unfold step
    dsimp only
    split_ifs
    · exact one_le_two
    · exact le_rfl
    · exact le_rfl
    · exact hescaped fun _ => Nat.two_pos
  | doubleEscaped dashes => exact hdouble hdash
  | doubleEscapedLessThan =>
    unfold step
    dsimp only
    split_ifs
    · exact le_rfl
    · exact hdouble fun _ => Nat.two_pos
  | doubleEscapeEnd buffer =>
    unfold step
    dsimp only
    split_ifs with hend hname
    · exact absurd (hname ▸ List.prefix_append _ _) hs
    · exact le_rfl
    · exact le_rfl
    · exact hdouble fun _ => Nat.two_pos
  | _ => exact Nat.zero_le _

/-! ### What a text leaves open -/

/-- A comment, without its `<!--`, in which a script is opened. -/
def OpensScript (comment : Str) : Prop :=
  ∃ inner name c after, comment = inner ++ '<' :: (name ++ c :: after) ∧
    lower name = Element.script.name ∧ isTagEnd c = true

/-- The text has a comment that is not ended. The dashes of its start count for its end. -/
structure LeavesComment (text before comment : Str) : Prop where
  text_eq : text = before ++ "<!--".toList ++ comment
  unclosed : ¬ "-->".toList <:+: "--".toList ++ comment

/-- The text has a `<!--`, later `<script` as a whole name, and no `-->` from then on. -/
def LeavesDoubleEscape (text : Str) : Prop :=
  ∃ before comment, LeavesComment text before comment ∧ OpensScript comment

/-- The text has a comment that is not ended and ends in a number of dashes, if there are less
than two of them. -/
structure Commented (text before comment : Str) (dashes : ℕ) : Prop
    extends LeavesComment text before comment where
  two : dashes < 2 → ¬ "--".toList <:+ "--".toList ++ comment
  one : dashes = 0 → ¬ "-".toList <:+ "--".toList ++ comment

theorem commented_nil (before : Str) :
    Commented (before ++ "<!--".toList) before [] 2 where
  text_eq := (List.append_nil _).symm
  unclosed := by decide
  two h := absurd h (lt_irrefl 2)
  one h := by cases h

theorem Commented.snoc {text before comment : Str} {n : ℕ} (h : Commented text before comment n)
    {c : Char} (hc : c = '>' → n < 2) :
    Commented (text ++ [c]) before (comment ++ [c]) (nextDashes n c) where
  text_eq := by rw [h.text_eq, List.append_assoc _ comment]
  unclosed := by
    rw [← List.append_assoc, List.infix_concat_iff, not_or]
    refine ⟨fun hsuffix => ?_, h.unclosed⟩
    rcases List.suffix_concat_iff.1 hsuffix with hnil | ⟨t, ht, hsuffix⟩
    · cases hnil
    · have hsplit : ['-', '-'] ++ ['>'] = t ++ [c] := ht
      obtain ⟨rfl, hlast⟩ := List.append_inj' hsplit rfl
      have hc' : c = '>' := (List.singleton_injective hlast).symm
      exact h.two (hc hc') hsuffix
  two hlt := by
    rw [← List.append_assoc]
    intro hsuffix
    rcases List.suffix_concat_iff.1 hsuffix with hnil | ⟨t, ht, hsuffix⟩
    · cases hnil
    · have hsplit : ['-'] ++ ['-'] = t ++ [c] := ht
      obtain ⟨rfl, hlast⟩ := List.append_inj' hsplit rfl
      have hc' : c = '-' := (List.singleton_injective hlast).symm
      rw [nextDashes, if_pos hc'] at hlt
      exact h.one (Nat.lt_one_iff.1 (Nat.lt_of_succ_lt_succ hlt)) hsuffix
  one hzero := by
    rw [← List.append_assoc]
    intro hsuffix
    rcases List.suffix_concat_iff.1 hsuffix with hnil | ⟨t, ht, -⟩
    · cases hnil
    · have hsplit : [] ++ ['-'] = t ++ [c] := ht
      obtain ⟨-, hlast⟩ := List.append_inj' hsplit rfl
      have hc' : c = '-' := (List.singleton_injective hlast).symm
      rw [nextDashes, if_pos hc'] at hzero
      cases hzero

/-- What a state says about the comment that it is in. -/
def Knows (s : State) (comment : Str) : Prop :=
  match s with
  | .escapedLessThan => ∃ inner, comment = inner ++ ['<']
  | .doubleEscapeStart buffer => ∃ inner name, comment = inner ++ '<' :: name ∧ lower name = buffer
  | .doubleEscaped _ | .doubleEscapedLessThan | .doubleEscapeEnd _ => OpensScript comment
  | _ => True

theorem OpensScript.snoc {comment : Str} (h : OpensScript comment) (c : Char) :
    OpensScript (comment ++ [c]) := by
  obtain ⟨inner, name, d, after, rfl, hname, hd⟩ := h
  exact ⟨inner, name, d, after ++ [c], by simp, hname, hd⟩

theorem knows_escapedStep (n : ℕ) (c : Char) (comment : Str) :
    Knows (escapedStep n c) (comment ++ [c]) := by
  unfold escapedStep
  split_ifs with hdash hc
  · trivial
  · exact ⟨comment, by rw [hc]⟩
  all_goals trivial

theorem knows_doubleEscapedStep (n : ℕ) (c : Char) {comment : Str} (h : OpensScript comment) :
    Knows (doubleEscapedStep n c) (comment ++ [c]) := by
  unfold doubleEscapedStep
  split_ifs
  · exact h.snoc c
  · exact h.snoc c
  · trivial
  · exact h.snoc c

theorem knows_step {s : State} {comment : Str} (h : Knows s comment) (hs : 1 ≤ s.level) (c : Char) :
    Knows (step .script s c) (comment ++ [c]) := by
  cases s with
  | escaped dashes => exact knows_escapedStep dashes c comment
  | escapedLessThan =>
    unfold step
    dsimp only
    split_ifs with hc halpha
    · trivial
    · obtain ⟨inner, rfl⟩ := h
      exact ⟨inner, [c], by simp, rfl⟩
    · exact knows_escapedStep 0 c comment
  | escapedEndTagOpen =>
    unfold step
    dsimp only
    split_ifs
    · trivial
    · exact knows_escapedStep 0 c comment
  | escapedEndTagName buffer =>
    unfold step
    dsimp only
    split_ifs
    · trivial
    · trivial
    · exact knows_escapedStep 0 c comment
  | doubleEscapeStart buffer =>
    obtain ⟨inner, name, rfl, hname⟩ := h
    unfold step
    dsimp only
    split_ifs with hend hbuffer
    · exact ⟨inner, name, c, [], by simp, hname.trans hbuffer, hend⟩
    · trivial
    · exact ⟨inner, name ++ [c], by simp, by simp [lower, ← hname]⟩
    · exact knows_escapedStep 0 c _
  | doubleEscaped dashes => exact knows_doubleEscapedStep dashes c h
  | doubleEscapedLessThan =>
    have hopens : OpensScript comment := h
    unfold step
    dsimp only
    split_ifs
    · exact hopens.snoc c
    · exact knows_doubleEscapedStep 0 c hopens
  | doubleEscapeEnd buffer =>
    have hopens : OpensScript comment := h
    unfold step
    dsimp only
    split_ifs
    · trivial
    · exact hopens.snoc c
    · exact hopens.snoc c
    · exact knows_doubleEscapedStep 0 c hopens
  | _ => cases hs

/-- The states of the start of a comment, and of any tag, are reached in one way. -/
structure Origin (s : State) (c : Char) (s' : State) : Prop where
  start : s' = .escapeStart → s = .lessThan ∧ c = '!'
  startDash : s' = .escapeStartDash → s = .escapeStart ∧ c = '-'
  lessThan : s' = .lessThan → c = '<'

theorem origin_dataStep (s : State) (c : Char) : Origin s c (dataStep c) := by
  unfold dataStep
  split_ifs with hc
  · exact ⟨by simp, by simp, fun _ => hc⟩
  · constructor <;> simp

theorem origin_escapedStep (s : State) (n : ℕ) (c : Char) : Origin s c (escapedStep n c) := by
  unfold escapedStep
  split_ifs <;> constructor <;> simp

theorem origin_doubleEscapedStep (s : State) (n : ℕ) (c : Char) :
    Origin s c (doubleEscapedStep n c) := by
  unfold doubleEscapedStep
  split_ifs <;> constructor <;> simp

theorem origin_step (el : Element) (s : State) (c : Char) : Origin s c (step el s c) := by
  have hother : ∀ {s' : State}, s' ≠ .escapeStart → s' ≠ .escapeStartDash → s' ≠ .lessThan →
      Origin s c s' := fun h₁ h₂ h₃ =>
    ⟨fun h => absurd h h₁, fun h => absurd h h₂, fun h => absurd h h₃⟩
  cases s with
  | data => exact origin_dataStep _ c
  | lessThan =>
    unfold step
    dsimp only
    split_ifs with hc hbang
    · exact hother (by simp) (by simp) (by simp)
    · exact ⟨fun _ => ⟨rfl, hbang.1⟩, by simp, by simp⟩
    · exact origin_dataStep _ c
  | escapeStart =>
    unfold step
    dsimp only
    split_ifs with hc
    · exact ⟨by simp, fun _ => ⟨rfl, hc⟩, by simp⟩
    · exact origin_dataStep _ c
  | escaped dashes => exact origin_escapedStep _ dashes c
  | doubleEscaped dashes => exact origin_doubleEscapedStep _ dashes c
  | closed => exact hother (by simp [step]) (by simp [step]) (by simp [step])
  | _ =>
    unfold step
    dsimp only
    split_ifs
    all_goals
      first
        | exact origin_dataStep _ c
        | exact origin_escapedStep _ 0 c
        | exact origin_doubleEscapedStep _ 0 c
        | exact hother (by simp) (by simp) (by simp)

/-- What is so of the text read so far. -/
structure Invariant (text : Str) (s : State) : Prop where
  start : s = .escapeStart → "<!".toList <:+ text
  startDash : s = .escapeStartDash → "<!-".toList <:+ text
  lessThan : s = .lessThan → "<".toList <:+ text
  comment : 1 ≤ s.level → ∃ before comment, Commented text before comment s.dashes ∧ Knows s comment

theorem suffix_snoc {l text : Str} (h : l <:+ text) (c : Char) : l ++ [c] <:+ text ++ [c] := by
  obtain ⟨t, rfl⟩ := h
  exact ⟨t, by simp⟩

theorem invariant_nil : Invariant [] .data := by
  constructor <;> intro h <;> cases h

theorem Invariant.step {text : Str} {s : State} (h : Invariant text s) (c : Char) :
    Invariant (text ++ [c]) (step .script s c) where
  start hs := by
    obtain ⟨hlt, rfl⟩ := (origin_step _ s c).start hs
    exact suffix_snoc (h.lessThan hlt) '!'
  startDash hs := by
    obtain ⟨hstart, rfl⟩ := (origin_step _ s c).startDash hs
    exact suffix_snoc (h.start hstart) '-'
  lessThan hs := by
    obtain rfl := (origin_step _ s c).lessThan hs
    exact suffix_snoc List.nil_suffix '<'
  comment hlevel := by
    rcases level_step hlevel with ⟨hs, hstep, rfl⟩ | ⟨hs, hdashes, hgt⟩
    · obtain ⟨before, rfl⟩ := h.startDash hs
      refine ⟨before, [], ?_, ?_⟩
      · rw [hstep, List.append_assoc]
        exact commented_nil before
      · rw [hstep]
        trivial
    · obtain ⟨before, comment, hcomment, hknows⟩ := h.comment hs
      refine ⟨before, comment ++ [c], ?_, knows_step hknows hs c⟩
      rw [hdashes]
      exact hcomment.snoc hgt

theorem invariant_run (text : Str) : Invariant text (run .script .data text) := by
  induction text using List.reverseRecOn with
  | nil => exact invariant_nil
  | append_singleton text c ih =>
    rw [run_append]
    exact ih.step c

/-- A text after which the tokeniser is in a double escape leaves one. -/
theorem leavesDoubleEscape_of_level {text : Str}
    (h : (run .script .data text).level = 2) : LeavesDoubleEscape text := by
  have hinv := invariant_run text
  generalize run .script .data text = s at h hinv
  obtain ⟨before, comment, hcomment, hknows⟩ := hinv.comment (by omega)
  refine ⟨before, comment, hcomment.toLeavesComment, ?_⟩
  cases s with
  | doubleEscaped dashes => exact hknows
  | doubleEscapedLessThan => exact hknows
  | doubleEscapeEnd buffer => exact hknows
  | _ => cases h

/-! ### What a text opens -/

/-- The dashes just read and the text do not complete `-->`. -/
def Unended (dashes : ℕ) (text : Str) : Prop :=
  ¬ "-->".toList <:+: List.replicate dashes '-' ++ text

theorem Unended.lt_two {n : ℕ} {c : Char} {text : Str} (h : Unended n (c :: text)) (hc : c = '>') :
    n < 2 := by
  by_contra hn
  obtain ⟨k, rfl⟩ := Nat.exists_eq_add_of_le' (not_lt.1 hn)
  refine h ⟨List.replicate k '-', text, ?_⟩
  rw [hc, List.replicate_add]
  simp [List.replicate]

theorem Unended.next {n : ℕ} {c : Char} {text : Str} (h : Unended n (c :: text)) :
    Unended (nextDashes n c) text := by
  unfold Unended nextDashes
  split_ifs with hc
  · subst hc
    rw [List.replicate_succ', List.append_assoc]
    exact h
  · intro hbody
    refine h (hbody.trans ?_)
    exact ⟨List.replicate n '-' ++ [c], [], by simp⟩

theorem NoClose.of_append {el : Element} {l r : Str} (h : NoClose el (l ++ r)) : NoClose el r := by
  refine fun hclose => h (hclose.trans ?_)
  unfold lower
  rw [List.map_append]
  exact (List.suffix_append _ _).isInfix

theorem safe_run_append {el : Element} {s : State} {l r : Str} (hs : Safe el s (l ++ r))
    (h : NoClose el (l ++ r)) : Safe el (run el s l) r := by
  induction l generalizing s with
  | nil => exact hs
  | cons c l ih => exact ih (safe_step h.head hs) h.tail

/-- The state is escaped, and the text to be read does not end that. -/
structure StaysEscaped (el : Element) (s : State) (text : Str) : Prop where
  level : 1 ≤ s.level
  safe : Safe el s text
  noClose : NoClose el text
  unended : Unended s.dashes text

theorem StaysEscaped.step {el : Element} {s : State} {c : Char} {text : Str}
    (h : StaysEscaped el s (c :: text)) :
    StaysEscaped el (step el s c) text ∧ s.level ≤ (step el s c).level := by
  have hle := level_le_step h.safe fun hc => h.unended.lt_two hc
  have hdashes : (RawText.step el s c).dashes = nextDashes s.dashes c := by
    rcases level_step (h.level.trans hle) with ⟨hs, -⟩ | ⟨-, hdashes, -⟩
    · have hlevel := h.level
      rw [hs] at hlevel
      cases hlevel
    · exact hdashes
  refine ⟨⟨h.level.trans hle, safe_step h.noClose.head h.safe, h.noClose.tail, ?_⟩, hle⟩
  rw [hdashes]
  exact h.unended.next

/-- An escape that is not ended is kept. -/
theorem StaysEscaped.run {el : Element} {s : State} {l r : Str} (h : StaysEscaped el s (l ++ r)) :
    StaysEscaped el (run el s l) r ∧ s.level ≤ (run el s l).level := by
  induction l generalizing s with
  | nil => exact ⟨h, le_rfl⟩
  | cons c l ih =>
    obtain ⟨hstep, hle⟩ := h.step
    obtain ⟨hrun, hle'⟩ := ih hstep
    exact ⟨hrun, hle.trans hle'⟩

/-- `<!--` starts a comment in any state. -/
theorem run_comment {s : State} (h : s ≠ .closed) :
    run .script s "<!--".toList = .escaped 2 ∨ run .script s "<!--".toList = .doubleEscaped 2 := by
  have hlt : step .script s '<' = .lessThan ∨ step .script s '<' = .escapedLessThan ∨
      step .script s '<' = .doubleEscapedLessThan := by
    cases s with
    | data => exact Or.inl rfl
    | lessThan => exact Or.inl rfl
    | endTagOpen => exact Or.inl rfl
    | endTagName buffer => exact Or.inl rfl
    | escapeStart => exact Or.inl rfl
    | escapeStartDash => exact Or.inl rfl
    | escaped dashes => exact Or.inr (Or.inl rfl)
    | escapedLessThan => exact Or.inr (Or.inl rfl)
    | escapedEndTagOpen => exact Or.inr (Or.inl rfl)
    | escapedEndTagName buffer => exact Or.inr (Or.inl rfl)
    | doubleEscapeStart buffer => exact Or.inr (Or.inl rfl)
    | doubleEscaped dashes => exact Or.inr (Or.inr rfl)
    | doubleEscapedLessThan => exact Or.inr (Or.inr rfl)
    | doubleEscapeEnd buffer => exact Or.inr (Or.inr rfl)
    | closed => exact absurd rfl h
  have htext : "<!--".toList = '<' :: "!--".toList := rfl
  rw [htext, run_cons]
  rcases hlt with hlt | hlt | hlt <;> rw [hlt]
  · exact Or.inl rfl
  · exact Or.inl rfl
  · exact Or.inr rfl

theorem isAlpha_of_toLower {c : Char} (h : c.toLower.isAlpha = true) : c.isAlpha = true := by
  unfold Char.toLower at h
  split_ifs at h with hc
  · have hupper : c.isUpper = true := by
      unfold Char.isUpper
      simpa using hc
    simp [Char.isAlpha, hupper]
  · exact h

theorem isTagEnd_of_isAlpha {c : Char} (h : c.isAlpha = true) : isTagEnd c = false := by
  have hne : ∀ d : Char, d.isAlpha = false → c ≠ d := by
    rintro d hd rfl
    rw [h] at hd
    cases hd
  simp [isTagEnd, hne]

/-- The letters of a name are kept. -/
theorem run_doubleEscapeStart {name : Str} (h : ∀ c ∈ name, c.isAlpha = true) (buffer : Str) :
    run .script (.doubleEscapeStart buffer) name = .doubleEscapeStart (buffer ++ lower name) := by
  induction name generalizing buffer with
  | nil => simp [lower]
  | cons c name ih =>
    obtain ⟨hc, hname⟩ := List.forall_mem_cons.1 h
    have hstep : step .script (.doubleEscapeStart buffer) c =
        .doubleEscapeStart (buffer ++ [c.toLower]) := by
      unfold step
      dsimp only
      rw [if_neg (by rw [isTagEnd_of_isAlpha hc]; simp), if_pos hc]
    rw [run_cons, hstep, ih hname]
    simp [lower]

theorem isAlpha_of_lower_eq {name : Str} (h : lower name = Element.script.name) :
    ∀ c ∈ name, c.isAlpha = true := by
  intro c hc
  have hall : Element.script.name.all Char.isAlpha = true := by decide
  have hmem : c.toLower ∈ lower name := List.mem_map_of_mem hc
  rw [h] at hmem
  exact isAlpha_of_toLower (List.all_eq_true.1 hall _ hmem)

/-- The name of a script after a `<` starts a double escape. -/
theorem run_script {name : Str} (h : lower name = Element.script.name) {c : Char}
    (hc : isTagEnd c = true) :
    run .script .escapedLessThan (name ++ [c]) = .doubleEscaped 0 := by
  have halpha := isAlpha_of_lower_eq h
  cases name with
  | nil => cases h
  | cons d name =>
    obtain ⟨hd, hname⟩ := List.forall_mem_cons.1 halpha
    have hslash : d ≠ '/' := by
      rintro rfl
      cases hd
    have hstep : step .script .escapedLessThan d = .doubleEscapeStart [d.toLower] := by
      unfold step
      dsimp only
      rw [if_neg hslash, if_pos hd]
    rw [List.cons_append, run_cons, hstep, run_append, run_doubleEscapeStart hname, run_cons, run_nil]
    have hbuffer : [d.toLower] ++ lower name = Element.script.name := h
    unfold step
    dsimp only
    rw [if_pos hc, if_pos hbuffer]

theorem step_lt_of_level {s : State} (h : s.level = 1) :
    step .script s '<' = .escapedLessThan := by
  cases s with
  | escaped dashes => rfl
  | escapedLessThan => rfl
  | escapedEndTagOpen => rfl
  | escapedEndTagName buffer => rfl
  | doubleEscapeStart buffer => rfl
  | _ => cases h

theorem State.level_le_two (s : State) : s.level ≤ 2 := by
  cases s <;> simp [State.level]

/-- A text that leaves a double escape has the tokeniser in one. -/
theorem level_of_leavesDoubleEscape {text : Str} (hclose : NoClose .script text)
    (h : LeavesDoubleEscape text) : (run .script .data text).level = 2 := by
  obtain ⟨before, comment, ⟨rfl, hunclosed⟩, inner, name, c, after, rfl, hname, hc⟩ := h
  refine le_antisymm (State.level_le_two _) ?_
  -- The state after `<!--` is escaped, whatever came before.
  rw [List.append_assoc] at hclose ⊢
  have hsafe : Safe .script .data (before ++ ("<!--".toList ++
    (inner ++ '<' :: (name ++ c :: after)))) := trivial
  have hbefore := safe_run_append hsafe hclose
  have hcomment := safe_run_append hbefore hclose.of_append
  have hstart := run_comment hbefore.ne_closed
  rw [run_append, run_append]
  generalize run .script (run .script .data before) "<!--".toList = s at hcomment hstart ⊢
  have hstays : StaysEscaped .script s (inner ++ '<' :: (name ++ c :: after)) := by
    rcases hstart with rfl | rfl
    · exact ⟨le_rfl, hcomment, hclose.of_append.of_append, hunclosed⟩
    · exact ⟨one_le_two, hcomment, hclose.of_append.of_append, hunclosed⟩
  -- It still is at the name of the script, which escapes it a second time if that is to be done.
  obtain ⟨hinner, -⟩ := hstays.run
  rw [run_append]
  generalize run .script s inner = s at hinner
  rcases Nat.lt_or_ge s.level 2 with hlevel | hlevel
  · have hone : s.level = 1 := le_antisymm (Nat.lt_succ_iff.1 hlevel) hinner.level
    have hsplit : '<' :: (name ++ c :: after) = ('<' :: (name ++ [c])) ++ after := by simp
    rw [hsplit] at hinner ⊢
    obtain ⟨hafter, -⟩ := hinner.run
    rw [run_append]
    rw [run_cons, step_lt_of_level hone, run_script hname hc] at hafter ⊢
    rw [← List.append_nil after] at hafter
    exact hafter.run.2
  · rw [← List.append_nil ('<' :: (name ++ c :: after))] at hinner
    exact hlevel.trans hinner.run.2

/-! ### Where the element ends -/

theorem close?_of_level {s : State} (h : s ≠ .closed) :
    close? .script s (Element.script.close ++ ['>']) = some [] ↔ s.level ≠ 2 := by
  cases s with
  | data => exact iff_of_true rfl (by simp [State.level])
  | lessThan => exact iff_of_true rfl (by simp [State.level])
  | endTagOpen => exact iff_of_true rfl (by simp [State.level])
  | endTagName buffer => exact iff_of_true rfl (by simp [State.level])
  | escapeStart => exact iff_of_true rfl (by simp [State.level])
  | escapeStartDash => exact iff_of_true rfl (by simp [State.level])
  | escaped dashes => exact iff_of_true rfl (by simp [State.level])
  | escapedLessThan => exact iff_of_true rfl (by simp [State.level])
  | escapedEndTagOpen => exact iff_of_true rfl (by simp [State.level])
  | escapedEndTagName buffer => exact iff_of_true rfl (by simp [State.level])
  | doubleEscapeStart buffer => exact iff_of_true rfl (by simp [State.level])
  | doubleEscaped dashes => exact iff_of_false (by rintro ⟨⟩) (absurd rfl)
  | doubleEscapedLessThan => exact iff_of_false (by rintro ⟨⟩) (absurd rfl)
  | doubleEscapeEnd buffer => exact iff_of_false (by rintro ⟨⟩) (absurd rfl)
  | closed => exact absurd rfl h

/-- A script ends with its end tag exactly if its text leaves no double escape. -/
theorem closes_script_iff {text : Str} (h : NoClose .script text) :
    ClosesAfter .script text ↔ ¬ LeavesDoubleEscape text := by
  have hdata : Safe .script .data text := trivial
  unfold ClosesAfter
  rw [List.append_assoc, close?_append hdata h, close?_of_level (safe_run hdata h)]
  exact not_congr ⟨leavesDoubleEscape_of_level, level_of_leavesDoubleEscape h⟩

/-- The states of raw text. -/
def State.plain : State → Bool
  | .data | .lessThan | .endTagOpen | .endTagName _ => true
  | _ => false

theorem plain_dataStep (c : Char) : (dataStep c).plain = true := by
  unfold dataStep
  split_ifs <;> rfl

theorem plain_step {s : State} (h : s.plain = true) {c : Char} (hc : step .style s c ≠ .closed) :
    (step .style s c).plain = true := by
  cases s with
  | data => exact plain_dataStep c
  | lessThan =>
    unfold step
    dsimp only
    split_ifs with hslash hbang
    · rfl
    · cases hbang.2
    · exact plain_dataStep c
  | endTagOpen =>
    unfold step
    dsimp only
    split_ifs
    · rfl
    · exact plain_dataStep c
  | endTagName buffer =>
    unfold step at hc ⊢
    dsimp only at hc ⊢
    split_ifs at hc ⊢
    · exact absurd rfl hc
    · rfl
    · exact plain_dataStep c
  | _ => cases h

theorem plain_run {s : State} {text : Str} (h : s.plain = true) (hs : Safe .style s text)
    (hclose : NoClose .style text) : (run .style s text).plain = true := by
  induction text generalizing s with
  | nil => exact h
  | cons c text ih =>
    have hstep := safe_step hclose.head hs
    exact ih (plain_step h hstep.ne_closed) hstep hclose.tail

/-- A style ends with its end tag. -/
theorem closes_style {text : Str} (h : NoClose .style text) : ClosesAfter .style text := by
  have hdata : Safe .style .data text := trivial
  have hplain := plain_run rfl hdata h
  unfold ClosesAfter
  rw [List.append_assoc, close?_append hdata h]
  generalize run .style .data text = s at hplain
  cases s with
  | data => rfl
  | lessThan => rfl
  | endTagOpen => rfl
  | endTagName buffer => rfl
  | _ => cases hplain

end IpeLang.Lib.RawText
