import IpeLang.Hot.Mask

/-!
# When a swap is right

Where data and blanks do not overlap, two texts that are the same up to data are so blank by blank.

* `Held`, `Held.synced`: where a blank ends can be read from where it starts;
* `pairs_of_sameUpTo`: what is the same up to data goes through the blanks;
* `classify_sound_iff`: a swap is right if, and with data apart only if, the mask blanks data only;
* `unrelated_fallback`: a default value in unrelated code, which the mask takes for the fallback of a read.
-/

namespace IpeLang.Hot

open Lib (Str Json)

/-! ### Where a blank ends -/

/-- What stands behind a character, and the character at its end. -/
inductive Reads : Char → Str → Char → Prop
  | array {n : ℕ} {mid : Str} : ArrayBody n mid → Reads '[' mid ']'
  | string {mid : Str} : StrBody mid → Reads '"' mid '"'
  | argument {c : Char} {mid : Str} : c ≠ '[' → c ≠ '"' → Closes 0 mid → Reads c mid ')'

theorem Reads.unique {c e e' : Char} {mid mid' r r' : Str} (h : Reads c mid e) (h' : Reads c mid' e')
    (heq : mid ++ e :: r = mid' ++ e' :: r') : mid = mid' := by
  cases h with
  | array h =>
    cases h' with
    | array h' => exact (h.unique h' heq).1
    | argument hne => exact absurd rfl hne
  | string h =>
    cases h' with
    | string h' => exact (h.unique h' heq).1
    | argument _ hne => exact absurd rfl hne
  | argument hbracket hquote h =>
    cases h' with
    | array => exact absurd rfl hbracket
    | string => exact absurd rfl hquote
    | argument _ _ h' => exact h.unique h' heq

/-- A part of a text that ends where it should by the character in front of it. -/
def Held (src : Str) (s : MaskSpan) : Prop :=
  ∃ c mid e, (src.take s.start).getLast? = some c ∧ Reads c mid e ∧ Between src s.start mid s.stop ∧
    src[s.stop]? = some e

section Held

variable {src : Str} {s : MaskSpan}

theorem getLast?_of_suffix (pre : Str) {text : Str} {c : Char} (h : pre ++ [c] <:+ text) :
    text.getLast? = some c := by
  obtain ⟨front, rfl⟩ := h
  simp

/-- The character in front of a part that holds data. -/
def Kind.Opens : Kind → Char → Prop
  | .array _, c => c = '['
  | .datum, c => c = '"'
  | .argument, c => c = ',' ∨ isAsciiWhitespace c = true
  | .message _, c => c = '"'
  | .fallback, c => c = '('

theorem DEFAULTS_OPEN_eq : DEFAULTS_OPEN = "from_defaults(&".toList ++ ['['] := rfl

theorem UNWRAP_OR_OPEN_eq : UNWRAP_OR_OPEN = ".unwrap_or".toList ++ ['('] := rfl

theorem ChainedRead.getLast? {text : Str} (h : ChainedRead text) : text.getLast? = some '(' := by
  obtain ⟨index, ty, -, -, -, -, hsuffix⟩ := h
  rw [UNWRAP_OR_OPEN_eq, ← List.append_assoc] at hsuffix
  exact getLast?_of_suffix _ hsuffix

theorem Region.opens {k : Kind} (h : Region src s k) : ∃ c, (src.take s.start).getLast? = some c ∧ k.Opens c := by
  cases h with
  | array hsuffix => exact ⟨_, getLast?_of_suffix _ (DEFAULTS_OPEN_eq ▸ hsuffix), rfl⟩
  | datum _ _ hsuffix => exact ⟨_, getLast?_of_suffix _ hsuffix, rfl⟩
  | @argument ws body ws' ws'' mid _ _ _ hws'' hsuffix =>
    rcases List.eq_nil_or_concat' ws'' with rfl | ⟨l, c, rfl⟩
    · rw [List.append_nil] at hsuffix
      exact ⟨_, getLast?_of_suffix _ hsuffix, .inl rfl⟩
    · rw [← List.append_assoc] at hsuffix
      exact ⟨c, getLast?_of_suffix _ hsuffix, .inr (List.all_eq_true.1 hws'' c (by simp))⟩
  | message _ _ hsuffix => exact ⟨_, getLast?_of_suffix _ hsuffix, rfl⟩
  | fallback hchained => exact ⟨_, hchained.getLast?, rfl⟩

theorem Region.held {k : Kind} (h : Region src s k) : Held src s := by
  obtain ⟨c, hlast, hopens⟩ := h.opens
  cases h with
  | array _ hbody hbetween hstop =>
    cases hopens
    exact ⟨_, _, _, hlast, .array hbody, hbetween, hstop⟩
  | datum _ _ _ hbody hbetween hstop =>
    cases hopens
    exact ⟨_, _, _, hlast, .string hbody, hbetween, hstop⟩
  | argument _ _ _ _ _ _ hcloses hbetween hstop =>
    refine ⟨c, _, _, hlast, .argument ?_ ?_ hcloses, hbetween, hstop⟩
    · rintro rfl
      exact absurd hopens (by simp [Kind.Opens, isAsciiWhitespace])
    · rintro rfl
      exact absurd hopens (by simp [Kind.Opens, isAsciiWhitespace])
  | message _ _ _ hbody hbetween hstop =>
    cases hopens
    exact ⟨_, _, _, hlast, .string hbody, hbetween, hstop⟩
  | fallback _ hcloses hbetween hstop =>
    cases hopens
    exact ⟨_, _, _, hlast, .argument (by decide) (by decide) hcloses, hbetween, hstop⟩

theorem held_of_mask {ch : Channels} {spans : List MaskSpan} (hch : scan_channels src = some ch)
    (h : mask_spans src ch = some spans) (hs : s ∈ spans) : Held src s := by
  rcases mask_spans_sound hch h hs with hfallback | ⟨k, hregion, -⟩
  · obtain ⟨hopen, mid, hcloses, hbetween, hstop⟩ := fallbackParts_sound hfallback
    exact ⟨_, _, _, getLast?_of_suffix _ (UNWRAP_OR_OPEN_eq ▸ hopen), .argument (by decide) (by decide)
      hcloses, hbetween, hstop⟩
  · exact hregion.held

theorem Held.le (h : Held src s) : s.start ≤ s.stop := by
  obtain ⟨c, mid, e, -, -, hbetween, -⟩ := h
  exact hbetween.le

theorem Held.lt_length (h : Held src s) : s.stop < src.length := by
  obtain ⟨c, mid, e, -, -, -, hstop⟩ := h
  exact (List.getElem?_eq_some_iff.1 hstop).1

end Held

/-! ### Alignments -/

/-- The spans stand apart from a position on. -/
def Apart (cursor : ℕ) : List MaskSpan → Prop
  | [] => True
  | s :: spans => cursor < s.start ∧ Apart s.stop spans

section Align

variable {prev next : Str}

/-- Two blanks with the same text before and behind their starts end at the same place. -/
theorem Held.synced {i j : ℕ} {s t : MaskSpan} {gap x y y' : Str} (hs : Held prev s) (ht : Held next t)
    (hgap : Between prev i gap s.start) (hgap' : Between next j gap t.start) (hne : gap ≠ [])
    (hprev : prev.drop s.start = x ++ y) (hnext : next.drop t.start = x ++ y')
    (hlen : s.stop < s.start + x.length) :
    ∃ mid, Between prev s.start mid s.stop ∧ Between next t.start mid t.stop := by
  obtain ⟨c, mid, e, hlast, hreads, hbetween, hstop⟩ := hs
  obtain ⟨c', mid', e', hlast', hreads', hbetween', hstop'⟩ := ht
  have hchar : ∀ {src : Str} {i j : ℕ}, Between src i gap j → (src.take j).getLast? = gap.getLast? := by
    intro src i j h
    rw [h.take_eq, List.getLast?_append_of_ne_nil _ hne]
  obtain rfl : c = c' := Option.some.inj (by rw [← hlast, ← hlast', hchar hgap, hchar hgap'])
  have hdrop : ∀ {src : Str} {j : ℕ} {e : Char}, src[j]? = some e → src.drop j = e :: src.drop (j + 1) :=
    fun h => (Between.char h).1
  have hmid : prev.drop s.start = mid ++ e :: prev.drop (s.stop + 1) := by rw [hbetween.1, hdrop hstop]
  have hmid' : next.drop t.start = mid' ++ e' :: next.drop (t.stop + 1) := by rw [hbetween'.1, hdrop hstop']
  -- the text that both share goes on behind the end of the first one
  obtain ⟨x', rfl⟩ : mid ++ [e] <+: x := by
    refine List.prefix_of_prefix_length_le ⟨prev.drop (s.stop + 1), ?_⟩ (List.prefix_append x y) ?_
    · rw [List.append_assoc, List.singleton_append, ← hmid, hprev]
    · have := hbetween.2
      rw [List.length_append, List.length_singleton]
      omega
  have heq : mid ++ e :: (x' ++ y') = mid' ++ e' :: next.drop (t.stop + 1) := by
    rw [← hmid', hnext]
    simp only [List.append_assoc, List.cons_append, List.nil_append]
  obtain rfl : mid = mid' := hreads.unique hreads' heq
  exact ⟨mid, hbetween, hbetween'⟩

theorem textOf_eq {s t : MaskSpan} {mid : Str} (hs : Between prev s.start mid s.stop)
    (ht : Between next t.start mid t.stop) : textOf prev s = textOf next t := by
  rw [textOf, textOf, ← hs.eq_slice, ← ht.eq_slice]

/-- The gap before a span. -/
theorem between_gap {src : Str} {i : ℕ} {s : MaskSpan} (hs : Held src s) (hi : i < s.start) :
    Between src i ((src.take s.start).drop i) s.start ∧ (src.take s.start).drop i ≠ [] := by
  have hlt := hs.lt_length
  have hle := hs.le
  have hbetween := between_of_le hi.le (hle.trans hlt.le)
  refine ⟨hbetween, fun hnil => ?_⟩
  have hlen := hbetween.2
  rw [hnil, List.length_nil] at hlen
  omega

theorem Apart.start_gt {src : Str} {i : ℕ} {spans : List MaskSpan} (h : Apart i spans)
    (hheld : ∀ s ∈ spans, Held src s) : ∀ s ∈ spans, i < s.start := by
  induction spans generalizing i with
  | nil => exact fun s hs => absurd hs List.not_mem_nil
  | cons s spans ih =>
    obtain ⟨hs, hheld⟩ := List.forall_mem_cons.1 hheld
    refine List.forall_mem_cons.2 ⟨h.1, fun r hr => ?_⟩
    exact (h.1.trans_le hs.le).trans (ih h.2 hheld r hr)

/-- Where two texts are the same to their ends, so are the blanks. -/
theorem pairs_of_rest {i j : ℕ} {spans spans' : List MaskSpan} (hrest : prev.drop i = next.drop j)
    (hgaps : gapsFrom prev i spans = gapsFrom next j spans') (hapart : Apart i spans) (hapart' : Apart j spans')
    (hheld : ∀ s ∈ spans, Held prev s) (hheld' : ∀ t ∈ spans', Held next t) :
    ∀ p ∈ spans.zip spans', textOf prev p.1 = textOf next p.2 := by
  induction spans generalizing i j spans' with
  | nil => exact fun p hp => absurd hp List.not_mem_nil
  | cons s spans ih =>
    cases spans' with
    | nil => exact fun p hp => absurd hp List.not_mem_nil
    | cons t spans' =>
      obtain ⟨hs, hheld⟩ := List.forall_mem_cons.1 hheld
      obtain ⟨ht, hheld'⟩ := List.forall_mem_cons.1 hheld'
      obtain ⟨hgap, hgaps⟩ := List.cons.inj hgaps
      obtain ⟨hprev, hne⟩ := between_gap hs hapart.1
      obtain ⟨hnext, -⟩ := between_gap ht hapart'.1
      rw [← hgap] at hnext
      have hstart : prev.drop s.start = next.drop t.start := by
        have heq := hrest
        rw [hprev.1, hnext.1] at heq
        exact List.append_cancel_left heq
      have hall : next.drop t.start = prev.drop s.start ++ [] := by rw [List.append_nil, hstart]
      have hlen : s.stop < s.start + (prev.drop s.start).length := by
        have := hs.lt_length
        have := hs.le
        rw [List.length_drop]
        omega
      obtain ⟨mid, hmid, hmid'⟩ := hs.synced ht hprev hnext hne (List.append_nil _).symm hall hlen
      have hstop : prev.drop s.stop = next.drop t.stop := by
        rw [hmid.1, hmid'.1] at hstart
        exact List.append_cancel_left hstart
      exact List.forall_mem_cons.2 ⟨textOf_eq hmid hmid', ih hstop hgaps hapart.2 hapart'.2 hheld hheld'⟩

/-- Where two texts are the same up to a blank of each, these blanks face each other, and the blanks before
them are the same. -/
theorem align_front {i j : ℕ} {same : Str} {s₁ t₁ : MaskSpan} {front rest spans' : List MaskSpan}
    (hsame : Between prev i same s₁.start) (hsame' : Between next j same t₁.start)
    (hgaps : gapsFrom prev i (front ++ s₁ :: rest) = gapsFrom next j spans')
    (hapart : Apart i (front ++ s₁ :: rest)) (hapart' : Apart j spans')
    (hheld : ∀ s ∈ front ++ s₁ :: rest, Held prev s) (hheld' : ∀ t ∈ spans', Held next t) (ht₁ : t₁ ∈ spans') :
    ∃ front' rest', spans' = front' ++ t₁ :: rest' ∧ front.length = front'.length ∧
      (∀ p ∈ front.zip front', textOf prev p.1 = textOf next p.2) ∧
      gapsFrom prev s₁.stop rest = gapsFrom next t₁.stop rest' ∧ Apart s₁.stop rest ∧ Apart t₁.stop rest' := by
  cases spans' with
  | nil => exact absurd ht₁ List.not_mem_nil
  | cons t spans' =>
    obtain ⟨ht, hheld'⟩ := List.forall_mem_cons.1 hheld'
    have hbehind := hapart'.2.start_gt hheld'
    cases front with
    | nil =>
      obtain ⟨hs, -⟩ := List.forall_mem_cons.1 hheld
      obtain ⟨hgap, hgaps⟩ := List.cons.inj hgaps
      obtain ⟨hprev, -⟩ := between_gap hs hapart.1
      obtain ⟨hnext, -⟩ := between_gap ht hapart'.1
      rw [← hgap] at hnext
      -- Both blanks start where the text ends that is the same.
      have hstart : t.start = t₁.start := by
        have := hsame.2
        have := hprev.2
        have := hsame'.2
        have := hnext.2
        omega
      rcases List.mem_cons.1 ht₁ with rfl | hmem
      · exact ⟨[], spans', rfl, rfl, fun p hp => absurd hp List.not_mem_nil, hgaps, hapart.2, hapart'.2⟩
      · have := hbehind t₁ hmem
        have := ht.le
        omega
    | cons s front =>
      obtain ⟨hs, hheld⟩ := List.forall_mem_cons.1 hheld
      obtain ⟨hgap, hgaps⟩ := List.cons.inj hgaps
      obtain ⟨hprev, hne⟩ := between_gap hs hapart.1
      obtain ⟨hnext, -⟩ := between_gap ht hapart'.1
      rw [← hgap] at hnext
      have hbefore : s.stop < s₁.start := hapart.2.start_gt hheld s₁ (by simp)
      have hsle := hs.le
      have hlen := hsame.2
      have hlen' := hsame'.2
      have hgapLen := hprev.2
      have hgapLen' := hnext.2
      -- The text that is the same goes on behind the first blanks, which face each other therefore.
      obtain ⟨x, hx, hx₁⟩ := hprev.split hsame (by omega)
      obtain ⟨x', hx', hx₁'⟩ := hnext.split hsame' (by omega)
      obtain rfl : x = x' := List.append_cancel_left (hx.symm.trans hx')
      obtain ⟨mid, hmid, hmid'⟩ := hs.synced ht hprev hnext hne hx₁.1 hx₁'.1 (by have := hx₁.2; omega)
      have hmidLen := hmid.2
      have hmidLen' := hmid'.2
      obtain ⟨z, rfl, hz⟩ := hmid.split hx₁ hbefore.le
      obtain ⟨z', hz', hz₁⟩ := hmid'.split hx₁' (by omega)
      obtain rfl : z = z' := List.append_cancel_left hz'
      have hmem : t₁ ∈ spans' := by
        refine (List.mem_cons.1 ht₁).resolve_left ?_
        rintro rfl
        omega
      obtain ⟨front', rest', rfl, hfront, hpairs, hrest⟩ :=
        align_front hz hz₁ hgaps hapart.2 hapart'.2 hheld hheld' hmem
      exact ⟨t :: front', rest', rfl, congrArg Nat.succ hfront,
        List.forall_mem_cons.2 ⟨textOf_eq hmid hmid', hpairs⟩, hrest⟩
  termination_by front

/-- From a position on, data is in blanks, or an empty part at the position itself. -/
def Owned (src : Str) (i : ℕ) (spans : List MaskSpan) : Prop :=
  ∀ s k, Region src s k → i ≤ s.start → s ∈ spans ∨ s.start = i ∧ s.stop = i

theorem Owned.rest {src : Str} {i : ℕ} {s : MaskSpan} {front rest : List MaskSpan}
    (h : Owned src i (front ++ s :: rest)) (hapart : Apart i (front ++ s :: rest))
    (hheld : ∀ r ∈ front ++ s :: rest, Held src r) : Owned src s.stop rest := by
  have hgt := hapart.start_gt hheld
  have hfront : ∀ r ∈ front, r.start < s.start := by
    clear h hgt
    induction front generalizing i with
    | nil => exact fun r hr => absurd hr List.not_mem_nil
    | cons r front ih =>
      obtain ⟨hr, hheld⟩ := List.forall_mem_cons.1 hheld
      refine List.forall_mem_cons.2 ⟨?_, ih hapart.2 hheld⟩
      exact hr.le.trans_lt (hapart.2.start_gt hheld s (by simp))
  have hs : Held src s := hheld s (by simp)
  intro r k hr hle
  rcases h r k hr (((hgt s (by simp)).le.trans hs.le).trans hle) with hmem | hempty
  · rcases List.mem_append.1 hmem with hmem | hmem
    · exact absurd ((hs.le.trans hle).trans_lt (hfront r hmem)) (lt_irrefl _)
    · rcases List.mem_cons.1 hmem with rfl | hmem
      · exact .inr ⟨le_antisymm hs.le hle, rfl⟩
      · exact .inl hmem
  · have := hgt s (by simp)
    have := hs.le
    omega

/-- What is the same up to data goes through the blanks. -/
theorem pairs_of_sameUpTo [Json.Library] {to_string : Json → Str} {i j : ℕ} {spans spans' : List MaskSpan}
    (h : SameUpTo to_string prev next i j) (hgaps : gapsFrom prev i spans = gapsFrom next j spans')
    (hapart : Apart i spans) (hapart' : Apart j spans') (hheld : ∀ s ∈ spans, Held prev s)
    (hheld' : ∀ t ∈ spans', Held next t) (howned : Owned prev i spans) (howned' : Owned next j spans') :
    ∀ p ∈ spans.zip spans', textOf prev p.1 = textOf next p.2 ∨
      ∃ k k', Region prev p.1 k ∧ Region next p.2 k' ∧ Compatible to_string k k' := by
  induction h generalizing spans spans' with
  | rest heq => exact fun p hp => .inl (pairs_of_rest heq hgaps hapart hapart' hheld hheld' p hp)
  | @region i j same s t k k' hsame hsame' hs ht hcompatible _ ih =>
    have hlen := hsame.2
    have hlen' := hsame'.2
    rcases howned s k hs hsame.le with hmem | ⟨hstart, hstop⟩
    · have hgt := hapart.start_gt hheld s hmem
      have hmem' : t ∈ spans' := (howned' t k' ht hsame'.le).resolve_right fun hempty => by
        have := hempty.1
        omega
      obtain ⟨front, rest, rfl⟩ := List.append_of_mem hmem
      obtain ⟨front', rest', rfl, hfront, hpairs, hgapsRest, hapartRest, hapartRest'⟩ :=
        align_front hsame hsame' hgaps hapart hapart' hheld hheld' hmem'
      have hrest := ih hgapsRest hapartRest hapartRest' (fun r hr => hheld r (by simp [hr]))
        (fun r hr => hheld' r (by simp [hr])) (howned.rest hapart hheld) (howned'.rest hapart' hheld')
      intro p hp
      rw [List.zip_append hfront, List.mem_append, List.zip_cons_cons, List.mem_cons] at hp
      rcases hp with hp | rfl | hp
      · exact .inl (hpairs p hp)
      · exact .inr ⟨k, k', hs, ht, hcompatible⟩
      · exact hrest p hp
    · -- an empty part that was met before
      have hempty : t.start = j ∧ t.stop = j := (howned' t k' ht hsame'.le).resolve_left fun hmem => by
        have := hapart'.start_gt hheld' t hmem
        omega
      rw [hstop, hempty.2] at ih
      exact ih hgaps hapart hapart' hheld hheld' howned howned'

end Align

/-! ### Files -/

/-- Data and blanks of a text do not overlap: between the blanks there is text without the character of a blank,
and all data is blanked on its own. -/
structure DataApart (src : Str) : Prop where
  plain : ∀ gap ∈ gapsFrom src 0 (maskedParts src), '\x00' ∉ gap
  apart : Apart 0 (maskedParts src)
  own : ∀ s k, Region src s k → s ∈ maskedParts src

section File

variable {src : Str} {s : MaskSpan}

theorem DataApart.owned (h : DataApart src) : Owned src 0 (maskedParts src) :=
  fun s k hs _ => .inl (h.own s k hs)

/-- A blank that is taken for a fallback, and holds data, follows its read. -/
theorem Region.chainedRead {k : Kind} (h : Region src s k) (hfallback : s ∈ fallbackParts src) :
    ChainedRead (src.take s.start) := by
  have hlast : (src.take s.start).getLast? = some '(' :=
    getLast?_of_suffix _ (UNWRAP_OR_OPEN_eq ▸ (fallbackParts_sound hfallback).1)
  obtain ⟨c, hc, hopens⟩ := h.opens
  obtain rfl : c = '(' := Option.some.inj (hc.symm.trans hlast)
  cases h with
  | fallback hchained => exact hchained
  | _ => exact absurd hopens (by simp [Kind.Opens, isAsciiWhitespace])

/-- An array holds data as an array only. -/
theorem Region.arrayBody {n : ℕ} {k : Kind} (h : Region src s (.array n)) (h' : Region src s k) :
    ∃ m, k = .array m ∧ ArrayBody m (textOf src s) := by
  obtain ⟨c, hc, hopens⟩ := h.opens
  obtain ⟨c', hc', hopens'⟩ := h'.opens
  cases hopens
  obtain rfl : c' = '[' := Option.some.inj (hc'.symm.trans hc)
  cases h' with
  | array _ hbody hbetween => exact ⟨_, rfl, by rwa [textOf, ← hbetween.eq_slice]⟩
  | _ => exact absurd hopens' (by simp [Kind.Opens, isAsciiWhitespace])

theorem ArrayBody.length_unique {n n' : ℕ} {mid : Str} (h : ArrayBody n mid) (h' : ArrayBody n' mid) : n = n' := by
  have heq : mid ++ ']' :: [] = mid ++ ']' :: [] := rfl
  exact (h.unique h' heq).2

variable [Json.Library] {to_string : Json → Str} {prev next : Str} {hot : HotSwap}

/-- Where data and blanks do not overlap, the mask of two versions that are the same up to their data blanks
data only. -/
theorem maskFits_of_sameUpTo (h : classify_file to_string prev next = some hot) (hprevApart : DataApart prev)
    (hnextApart : DataApart next) (hsame : SameUpTo to_string prev next 0 0) : MaskFits prev next := by
  obtain ⟨prev_ch, next_ch, msg_sets, prev_masks, next_masks, hprev, hnext, -, hprevMasks, hnextMasks, hskeleton,
    hprevParts, hnextParts⟩ := classify_file_scans h
  have hgaps : gapsFrom prev 0 (maskedParts prev) = gapsFrom next 0 (maskedParts next) := by
    refine gaps_eq_of_intercalate_eq (gapsFrom_ne_nil _ _ _) (gapsFrom_ne_nil _ _ _) hprevApart.plain
      hnextApart.plain ?_
    rw [hprevParts, hnextParts, ← skeletonFrom_eq, ← skeletonFrom_eq]
    exact hskeleton
  have hheld : ∀ s ∈ maskedParts prev, Held prev s := fun s hs =>
    held_of_mask hprev hprevMasks (mem_of_mem_keptFrom (hprevParts ▸ hs))
  have hheld' : ∀ t ∈ maskedParts next, Held next t := fun t ht =>
    held_of_mask hnext hnextMasks (mem_of_mem_keptFrom (hnextParts ▸ ht))
  have hpairs := pairs_of_sameUpTo hsame hgaps hprevApart.apart hnextApart.apart hheld hheld' hprevApart.owned
    hnextApart.owned
  have harray : ∀ {src : Str} {ch : Channels}, scan_channels src = some ch → ∀ a ∈ defaultsArrays src,
      Region src a.inner (.array a.values.length) := by
    intro src ch hch a ha
    have hscan := (scan_channels_scans hch).1
    rw [defaultsArrays, hscan, Option.getD_some] at ha
    exact arrays_region hscan ha
  refine ⟨hgaps, fun p hp => (hpairs p hp).imp_right fun hboth => ?_, fun p hp a ha b hb hinner hinner' => ?_⟩
  · obtain ⟨k, k', hk, hk', -⟩ := hboth
    exact ⟨hk.chainedRead, hk'.chainedRead⟩
  · -- The strings of an array are counted by its text, whichever region it is taken for.
    have hs := hinner ▸ harray hprev a ha
    have ht := hinner' ▸ harray hnext b hb
    obtain ⟨_, hn, hbody⟩ := hs.arrayBody hs
    obtain ⟨_, hn', hbody'⟩ := ht.arrayBody ht
    cases hn
    cases hn'
    rcases hpairs p hp with htext | ⟨k, k', hk, hk', hcompatible⟩
    · exact hbody.length_unique (htext ▸ hbody')
    · obtain ⟨m, rfl, hm⟩ := hs.arrayBody hk
      obtain ⟨m', rfl, hm'⟩ := ht.arrayBody hk'
      rw [hbody.length_unique hm, hbody'.length_unique hm']
      exact hcompatible.array m m' rfl rfl

end File

/-! ### Projects -/

section Project

variable [Json.Library] {to_string : Json → Str} {prev next : EmittedProject} {hot : HotSwap}

/-- In the files that an edit changes, data and blanks do not overlap. -/
def FilesApart (prev next : EmittedProject) : Prop :=
  ∀ rel prev_src next_src, prev.files.get? rel = some prev_src → next.files.get? rel = some next_src →
    prev_src ≠ next_src → DataApart prev_src ∧ DataApart next_src

/-- An edit that can be swapped changes only data if the mask of the files that it changes blanks data only; and
only if it does, where data and blanks do not overlap. -/
theorem classify_sound_iff (h : classify to_string prev next = .HotSwappable hot) :
    (FilesFit prev next → OnlyDataDiffers to_string prev next) ∧
      (FilesApart prev next → (OnlyDataDiffers to_string prev next ↔ FilesFit prev next)) := by
  refine ⟨onlyDataDiffers_of_fits h, fun hapart => ⟨fun honly => ?_, onlyDataDiffers_of_fits h⟩⟩
  intro rel prev_src next_src hprev hnext hne
  obtain ⟨-, -, hfiles⟩ := classify_files h
  obtain ⟨delta, hdelta⟩ := (hfiles rel _ _ hprev hnext).resolve_left hne
  obtain ⟨hprevApart, hnextApart⟩ := hapart rel _ _ hprev hnext hne
  exact maskFits_of_sameUpTo hdelta hprevApart hnextApart (honly.files rel _ _ hprev hnext)

end Project

/-! ### Two edits -/

/-- A view with a text, and a function that has nothing to do with it. -/
def titleAndPick (value : String) : Str :=
  "fn title() \x7b let __ipe_lit = LiteralTable::from_defaults(&[\"A\"]); ".toList ++
    "__ipe_lit.get(0).to_string() \x7d\nfn pick(x) \x7b x.unwrap_or(".toList ++ value.toList ++
    ") \x7d\n".toList

/-- The parts that hold data of a text with one array, no datum and no fallback. -/
theorem Region.eq_array {src : Str} {s : MaskSpan} {k : Kind} {start stop : ℕ} (h : Region src s k)
    (hopen : ∀ i < src.length, DEFAULTS_OPEN <:+ src.take i → i = start)
    (hclose : ∀ i < src.length, src[i]? = some ']' → i = stop)
    (hdata : ∀ pat ∈ ").parse::<".toList :: MSG_SET_OPEN :: DATUM_OPENS, ¬ pat <:+: src) :
    s.start = start ∧ s.stop = stop := by
  obtain ⟨hparse, hdata⟩ := List.forall_mem_cons.1 hdata
  obtain ⟨hmessage, hdata⟩ := List.forall_mem_cons.1 hdata
  have hinside : ∀ (pre : Str) {pat post : Str}, pre ++ pat ++ post <:+ src.take s.start → pat <:+: src :=
    fun _ _ _ h => (List.infix_append ..).trans (h.isInfix.trans (List.take_prefix ..).isInfix)
  cases h with
  | array hsuffix _ hbetween hstop =>
    have hlt := (List.getElem?_eq_some_iff.1 hstop).1
    exact ⟨hopen _ (hbetween.le.trans_lt hlt) hsuffix, hclose _ hlt hstop⟩
  | datum hpat _ hsuffix =>
    exact absurd (hinside [] (by simpa using hsuffix)) (hdata _ hpat)
  | argument _ _ _ _ hsuffix =>
    exact absurd (hinside [] (by simpa using hsuffix)) (hdata INIT_OPEN (by simp [DATUM_OPENS]))
  | message _ _ hsuffix => exact absurd (hinside [] (by simpa using hsuffix)) hmessage
  | fallback hchained =>
    obtain ⟨index, ty, -, -, -, -, hsuffix⟩ := hchained
    exact absurd (hinside (HOISTED_READ_OPEN ++ index) (by simpa using hsuffix)) hparse

theorem region_titleAndPick {value : String} (h : value ∈ ["1", "2"]) {s : MaskSpan} {k : Kind}
    (hs : Region (titleAndPick value) s k) : s.start = 59 ∧ s.stop = 62 := by
  simp only [List.mem_cons, List.not_mem_nil, or_false] at h
  rcases h with rfl | rfl <;> exact hs.eq_array (by decide +kernel) (by decide +kernel) (by decide +kernel)

theorem maskedParts_titleAndPick {value : String} (h : value ∈ ["1", "2"]) :
    maskedParts (titleAndPick value) = [⟨59, 62⟩, ⟨122, 123⟩] := by
  simp only [List.mem_cons, List.not_mem_nil, or_false] at h
  rcases h with rfl | rfl <;> decide +kernel

theorem dataApart_titleAndPick {value : String} (h : value ∈ ["1", "2"]) : DataApart (titleAndPick value) := by
  have hparts := maskedParts_titleAndPick h
  refine ⟨?_, ?_, fun s k hs => ?_⟩
  · simp only [List.mem_cons, List.not_mem_nil, or_false] at h
    rcases h with rfl | rfl <;> decide +kernel
  · rw [hparts]
    exact ⟨by decide, by decide, trivial⟩
  · obtain ⟨hstart, hstop⟩ := region_titleAndPick h hs
    obtain ⟨start, stop⟩ := s
    rw [hparts]
    exact List.mem_cons.2 (.inl (congrArg₂ MaskSpan.mk hstart hstop))

/-- The edit of the default value is sent as one of no data. -/
theorem classify_titleAndPick :
    classify (fun j => j.print escape) (oneFile (titleAndPick "1")) (oneFile (titleAndPick "2")) =
      .HotSwappable HotSwap.default := by
  decide +kernel

/-- The padding of a view is edited, which is data; and a default value of unrelated code, which is none. -/
theorem classify_sound_iff_padding :
    OnlyDataDiffers (fun j => j.print escape) (oneFile (paddingView "main" "12")) (oneFile (paddingView "main" "16")) ∧
      ¬ OnlyDataDiffers (fun j => j.print escape) (oneFile (titleAndPick "1")) (oneFile (titleAndPick "2")) := by
  have hpadding : classify (fun j => j.print escape) (oneFile (paddingView "main" "12"))
      (oneFile (paddingView "main" "16")) =
        .HotSwappable ⟨[⟨["12".toList], [(0, "16".toList)]⟩], [], [], [], [], []⟩ := by
    decide +kernel
  refine ⟨(classify_sound_iff hpadding).1 ?_, fun honly => ?_⟩
  · intro rel prev_src next_src hprev hnext _
    obtain ⟨-, rfl⟩ := Prod.mk.inj (List.mem_singleton.1 (Lib.SortedMap.get?_eq_some.1 hprev))
    obtain ⟨-, rfl⟩ := Prod.mk.inj (List.mem_singleton.1 (Lib.SortedMap.get?_eq_some.1 hnext))
    have hparts : maskedParts (paddingView "main" "12") = [⟨58, 62⟩, ⟨120, 125⟩] ∧
        maskedParts (paddingView "main" "16") = [⟨58, 62⟩, ⟨120, 125⟩] := by
      decide +kernel
    refine ⟨by decide +kernel, fun p hp => .inr ?_, by decide +kernel⟩
    rw [hparts.1, hparts.2] at hp
    simp only [List.zip_cons_cons, List.zip_nil_left, List.mem_cons, List.not_mem_nil, or_false] at hp
    rcases hp with rfl | rfl
    · exact ⟨fun h => absurd h (by decide +kernel), fun h => absurd h (by decide +kernel)⟩
    · have hsuffix : HOISTED_READ_OPEN ++ "0".toList ++ ").parse::<".toList ++ "i64".toList ++
          ">()".toList ++ UNWRAP_OR_OPEN <:+ (paddingView "main" "12").take 120 ∧
          HOISTED_READ_OPEN ++ "0".toList ++ ").parse::<".toList ++ "i64".toList ++
          ">()".toList ++ UNWRAP_OR_OPEN <:+ (paddingView "main" "16").take 120 := by
        decide +kernel
      exact ⟨fun _ => ⟨_, _, by decide, by decide, by decide, by decide, hsuffix.1⟩,
        fun _ => ⟨_, _, by decide, by decide, by decide, by decide, hsuffix.2⟩⟩
  · have hapart : FilesApart (oneFile (titleAndPick "1")) (oneFile (titleAndPick "2")) := by
      intro rel prev_src next_src hprev hnext _
      obtain ⟨-, rfl⟩ := Prod.mk.inj (List.mem_singleton.1 (Lib.SortedMap.get?_eq_some.1 hprev))
      obtain ⟨-, rfl⟩ := Prod.mk.inj (List.mem_singleton.1 (Lib.SortedMap.get?_eq_some.1 hnext))
      exact ⟨dataApart_titleAndPick (by decide), dataApart_titleAndPick (by decide)⟩
    have hfits := ((classify_sound_iff classify_titleAndPick).2 hapart).1 honly "src/main.rs".toList _ _ rfl rfl (by decide +kernel)
    have hpair : (⟨122, 123⟩, ⟨122, 123⟩) ∈
        (maskedParts (titleAndPick "1")).zip (maskedParts (titleAndPick "2")) := by
      rw [maskedParts_titleAndPick (by decide), maskedParts_titleAndPick (by decide)]
      decide
    rcases hfits.chained _ hpair with hsame | ⟨hchained, -⟩
    · exact absurd hsame (by decide +kernel)
    · -- the text holds no read that is parsed
      obtain ⟨index, ty, -, -, -, -, hsuffix⟩ := hchained (by decide +kernel)
      have hparse : ").parse::<".toList <:+: titleAndPick "1" := by
        refine List.IsInfix.trans ⟨HOISTED_READ_OPEN ++ index, ty ++ ">()".toList ++ UNWRAP_OR_OPEN, ?_⟩
          (hsuffix.isInfix.trans (List.take_prefix ..).isInfix)
        simp only [List.append_assoc]
      exact absurd hparse (by decide +kernel)

/-- The default value of an unrelated function is edited, and the edit is sent as one of no data. -/
theorem unrelated_fallback :
    ¬ ∀ (to_string : Json → Str) (prev next : EmittedProject) (hot : HotSwap),
      classify to_string prev next = .HotSwappable hot → OnlyDataDiffers to_string prev next := by
  intro h
  have hsame := (h _ _ _ _ classify_titleAndPick).files "src/main.rs".toList _ _ rfl rfl
  have hregion := @region_titleAndPick "1" (by decide)
  have hregion' := @region_titleAndPick "2" (by decide)
  cases hsame with
  | rest heq => exact absurd heq (by decide +kernel)
  | region _ _ hs ht _ hrest =>
    rw [(hregion hs).2, (hregion' ht).2] at hrest
    cases hrest with
    | rest heq => exact absurd heq (by decide +kernel)
    | region hbetween _ hs' =>
      have hle := hbetween.le
      rw [(hregion hs').1] at hle
      omega

end IpeLang.Hot
