import IpeLang.Hot.Swap
import IpeLang.Hot.Token

/-!
# Edits that only change data

A swap is right when the two emits differ in nothing but baked data.

* `Region`: the parts of a text that hold baked data;
* `SameUpTo`: two texts are the same outside such parts, which agree where they have to;
* `MaskFits`: the mask blanks data only;
* `onlyDataDiffers_of_fits`: a swap is right where the mask blanks data only.
-/

namespace IpeLang.Hot

open Lib (Str Json)

/-! ### Data in a text -/

/-- A text that ends with a read of a table, parsed, and the opening of the fallback of it. -/
def ChainedRead (text : Str) : Prop :=
  ∃ index ty : Str, index ≠ [] ∧ index.all Char.isDigit = true ∧ ty ≠ [] ∧ ty.all Char.isAlphanum = true ∧
    HOISTED_READ_OPEN ++ index ++ ").parse::<".toList ++ ty ++ ">()".toList ++ UNWRAP_OR_OPEN <:+ text

/-- What a part of a text holds. -/
inductive Kind
  | array (length : ℕ)
  | datum
  | argument
  | message (json : Str)
  | fallback

/-- The calls whose first argument is a datum. -/
def DATUM_OPENS : List Str := [TRANSITION_OPEN, SUB_OPEN, INIT_OPEN, WIRING_OPEN]

/-- The parts of a text that hold baked data. -/
inductive Region (src : Str) (s : MaskSpan) : Kind → Prop
  | array {n : ℕ} {mid : Str} : DEFAULTS_OPEN <:+ src.take s.start → ArrayBody n mid →
      Between src s.start mid s.stop → src[s.stop]? = some ']' → Region src s (.array n)
  | datum {opener ws mid : Str} : opener ∈ DATUM_OPENS → IsSpace ws →
      opener ++ ws ++ ['"'] <:+ src.take s.start → StrBody mid → Between src s.start mid s.stop →
      src[s.stop]? = some '"' → Region src s .datum
  | argument {ws body ws' ws'' mid : Str} : IsSpace ws → StrBody body → IsSpace ws' → IsSpace ws'' →
      INIT_OPEN ++ ws ++ ('"' :: body ++ ['"']) ++ ws' ++ [','] ++ ws'' <:+ src.take s.start →
      (∀ c ∈ mid.head?, isAsciiWhitespace c = false) → Closes 0 mid → Between src s.start mid s.stop → src[s.stop]? = some ')' → Region src s .argument
  | message {json ws mid : Str} : scan_msg_set_located src = some (json, s) → IsSpace ws →
      MSG_SET_OPEN ++ ws ++ ['"'] <:+ src.take s.start → StrBody mid → Between src s.start mid s.stop →
      src[s.stop]? = some '"' → Region src s (.message json)
  | fallback {mid : Str} : ChainedRead (src.take s.start) → Closes 0 mid →
      Between src s.start mid s.stop → src[s.stop]? = some ')' → Region src s .fallback

/-- Arrays have as many strings as before, and the messages are only added to. -/
structure Compatible [Json.Library] (to_string : Json → Str) (k k' : Kind) : Prop where
  array : ∀ n n', k = .array n → k' = .array n' → n = n'
  message : ∀ live cand, k = .message live → k' = .message cand →
    live = cand ∨ msg_set_is_additive_superset to_string live cand = true

/-- Two texts from two positions on are the same but for parts that hold baked data. -/
inductive SameUpTo [Json.Library] (to_string : Json → Str) (prev next : Str) : ℕ → ℕ → Prop
  | rest {i j : ℕ} : prev.drop i = next.drop j → SameUpTo to_string prev next i j
  | region {i j : ℕ} {same : Str} {s t : MaskSpan} {k k' : Kind} :
    Between prev i same s.start → Between next j same t.start → Region prev s k → Region next t k' →
      Compatible to_string k k' → SameUpTo to_string prev next s.stop t.stop →
      SameUpTo to_string prev next i j

/-- Only the data of the files differs. -/
structure OnlyDataDiffers [Json.Library] (to_string : Json → Str) (prev next : EmittedProject) : Prop where
  cargo_toml : prev.cargo_toml = next.cargo_toml
  paths : prev.files.keys = next.files.keys
  files : ∀ rel prev_src next_src, prev.files.get? rel = some prev_src →
    next.files.get? rel = some next_src → SameUpTo to_string prev_src next_src 0 0

/-! ### The mask -/

/-- The spans that the skeleton blanks: the others start inside of one before. -/
def keptFrom (cursor : ℕ) : List MaskSpan → List MaskSpan
  | [] => []
  | s :: spans => if s.start < cursor then keptFrom cursor spans else s :: keptFrom s.stop spans

/-- The texts that are left between spans. -/
def gapsFrom (src : Str) (cursor : ℕ) : List MaskSpan → List Str
  | [] => [src.drop cursor]
  | s :: spans => (src.take s.start).drop cursor :: gapsFrom src s.stop spans

/-- The parts of a text that the mask blanks. -/
def maskedParts (src : Str) : List MaskSpan :=
  keptFrom 0 (((scan_channels src).bind (mask_spans src)).getD [])

/-- The parts that the mask takes for fallbacks of reads. -/
def fallbackParts (src : Str) : List MaskSpan := (scan_hoisted_read_fallbacks src).getD []

/-- The arrays of default values. -/
def defaultsArrays (src : Str) : List DefaultsArray := (scan_defaults_arrays src).getD []

def textOf (src : Str) (s : MaskSpan) : Str := (src.take s.stop).drop s.start

/-- The mask of two texts blanks data only: what is not blanked is the same, blank by blank; what is taken for
a fallback follows its read or is the same in both texts; and arrays that are blanked for each other have as
many strings. -/
structure MaskFits (prev next : Str) : Prop where
  gaps : gapsFrom prev 0 (maskedParts prev) = gapsFrom next 0 (maskedParts next)
  chained : ∀ p ∈ (maskedParts prev).zip (maskedParts next), textOf prev p.1 = textOf next p.2 ∨
    ((p.1 ∈ fallbackParts prev → ChainedRead (prev.take p.1.start)) ∧
      (p.2 ∈ fallbackParts next → ChainedRead (next.take p.2.start)))
  lengths : ∀ p ∈ (maskedParts prev).zip (maskedParts next), ∀ a ∈ defaultsArrays prev, ∀ b ∈ defaultsArrays next,
    a.inner = p.1 → b.inner = p.2 → a.values.length = b.values.length

/-! ### The spans of the mask -/

theorem find_sound {pat src : Str} {k : ℕ} (h : find pat src = some k) : pat <+: src.drop k := by
  induction src generalizing k with
  | nil =>
    unfold find at h
    split_ifs at h with hpat
    exact hpat ▸ List.nil_prefix
  | cons c src ih =>
    unfold find at h
    split_ifs at h with hpat
    · cases h
      exact List.isPrefixOf_iff_prefix.1 hpat
    · obtain ⟨k', hk', rfl⟩ := Option.map_eq_some_iff.1 h
      exact ih hk'

theorem findFrom_sound {pat src : Str} {start k : ℕ} (h : findFrom pat src start = some k) :
    pat <+: src.drop k := by
  obtain ⟨k', hk', rfl⟩ := Option.map_eq_some_iff.1 h
  have hstarts := find_sound hk'
  rwa [List.drop_drop] at hstarts

theorem scanAll_sound {α : Type} {pat src : Str} {readAt : ℕ → Option (α × ℕ)} {fuel start : ℕ}
    {as : List α} (h : scanAll pat src readAt fuel start = some as) :
    ∀ a ∈ as, ∃ k next, pat <+: src.drop k ∧ readAt (k + pat.length) = some (a, next) := by
  induction fuel generalizing start as with
  | zero => cases h
  | succ fuel ih =>
    unfold scanAll at h
    cases hfind : findFrom pat src start with
    | none =>
      rw [hfind] at h
      cases h
      exact fun a ha => absurd ha List.not_mem_nil
    | some k =>
      rw [hfind] at h
      simp only [Option.bind_eq_bind, Option.bind_eq_some_iff] at h
      obtain ⟨⟨a, next⟩, hread, rest, hrest, hcons⟩ := h
      cases hcons
      intro b hb
      rcases List.mem_cons.1 hb with rfl | hb
      · exact ⟨k, next, findFrom_sound hfind, hread⟩
      · exact ih hrest b hb

/-- What stands before a position that is read after a text that was found. -/
theorem suffix_take {pat src : Str} {k j : ℕ} {mid : Str} (hpat : pat <+: src.drop k)
    (hmid : Between src (k + pat.length) mid j) : pat ++ mid <:+ src.take j := by
  refine ⟨src.take k, ?_⟩
  rw [hmid.take_eq, (Between.of_prefix hpat).take_eq, List.append_assoc]

section Spans

variable {src : Str} {s : MaskSpan}

theorem arrays_region {arrays : List DefaultsArray} (h : scan_defaults_arrays src = some arrays)
    {a : DefaultsArray} (ha : a ∈ arrays) : Region src a.inner (.array a.values.length) := by
  obtain ⟨k, next, hpat, hread⟩ := scanAll_sound h a ha
  simp only [Option.bind_eq_bind, Option.bind_eq_some_iff] at hread
  obtain ⟨⟨values, stop⟩, hparse, heq⟩ := hread
  cases heq
  obtain ⟨mid, hbody, hbetween, hstop⟩ := parse_string_array_sound hparse
  have hopen := suffix_take hpat (Between.refl ..)
  rw [List.append_nil] at hopen
  exact .array hopen hbody hbetween hstop

/-- A datum and the quotes around it. -/
theorem readDatum_sound {args next : ℕ} {d : TransitionData} (h : readDatum src args = some (d, next)) :
    ∃ ws mid, IsSpace ws ∧ StrBody mid ∧ Between src args (ws ++ ['"']) d.inner.start ∧
      Between src d.inner.start mid d.inner.stop ∧ src[d.inner.stop]? = some '"' ∧
      Between src args (ws ++ ('"' :: mid ++ ['"'])) next := by
  obtain ⟨ws, hws, hspace⟩ := between_skip_ws src args
  simp only [readDatum, Option.bind_eq_bind, Option.bind_eq_some_iff] at h
  obtain ⟨⟨json, stop⟩, hparse, heq⟩ := h
  cases heq
  obtain ⟨mid, hmid, hquote, hbetween⟩ := parse_string_literal_sound hparse
  have hnext : stop - 1 = skip_ws src args + 1 + mid.length := by
    rw [hbetween.2, List.length_append, List.length_singleton]
    omega
  have hinner : Between src (skip_ws src args + 1) mid (stop - 1) := by
    rw [hnext]
    refine Between.of_prefix ?_
    rw [hbetween.1, List.append_assoc]
    exact List.prefix_append ..
  refine ⟨ws, mid, hws, hmid, hspace.trans (Between.char hquote), hinner, ?_, ?_⟩
  · have hdrop := hbetween.1
    rw [hinner.1, List.append_assoc] at hdrop
    have hrest := congrArg List.head? (List.append_cancel_left hdrop)
    rwa [List.head?_drop] at hrest
  · exact hspace.trans ((Between.char hquote).trans hbetween)

theorem datum_region {pat : Str} (hpat : pat ∈ DATUM_OPENS) {k next : ℕ} {d : TransitionData}
    (hstarts : pat <+: src.drop k) (h : readDatum src (k + pat.length) = some (d, next)) :
    Region src d.inner .datum := by
  obtain ⟨ws, mid, hws, hmid, hopen, hbetween, hstop, -⟩ := readDatum_sound h
  have hsuffix := suffix_take hstarts hopen
  rw [← List.append_assoc] at hsuffix
  exact .datum hpat hws hsuffix hmid hbetween hstop

theorem scanData_region {pat : Str} (hpat : pat ∈ DATUM_OPENS) {ds : List TransitionData}
    (h : scanData pat src = some ds) {d : TransitionData} (hd : d ∈ ds) : Region src d.inner .datum := by
  obtain ⟨k, next, hstarts, hread⟩ := scanAll_sound h d hd
  exact datum_region hpat hstarts hread

theorem inits_region {inits : List InitData} (h : scan_init_data src = some inits) {d : InitData}
    (hd : d ∈ inits) : Region src d.json_inner .datum ∧ Region src d.arg2 .argument := by
  obtain ⟨k, next, hstarts, hread⟩ := scanAll_sound h d hd
  simp only [Option.bind_eq_bind, Option.bind_eq_some_iff] at hread
  obtain ⟨⟨datum, after_str⟩, hdatum, hread⟩ := hread
  split_ifs at hread with hcomma
  rw [Option.bind_eq_some_iff] at hread
  obtain ⟨close, hclose, hread⟩ := hread
  split_ifs at hread with hle
  cases hread
  refine ⟨datum_region (by simp [DATUM_OPENS]) hstarts hdatum, ?_⟩
  obtain ⟨ws, mid, hws, hmid, -, -, -, hfirst⟩ := readDatum_sound hdatum
  obtain ⟨ws', hws', hspace'⟩ := between_skip_ws src after_str
  obtain ⟨ws'', hws'', hspace''⟩ := between_skip_ws src (skip_ws src after_str + 1)
  have hargs := ((hfirst.trans hspace').trans (Between.char (not_not.1 hcomma))).trans hspace''
  obtain ⟨all, hall, hbetween, hstop⟩ := match_close_paren_sound hclose
  obtain ⟨arg, rfl, harg⟩ := hargs.split hbetween (Nat.le_of_not_lt hle)
  have hcloses : Closes 0 arg := by
    simp only [List.append_assoc] at hall
    have hlit := hall.of_space hws
    simp only [← List.append_assoc] at hlit
    have hrest := Closes.of_literal (t := ws' ++ ([','] ++ (ws'' ++ arg))) hmid (by simpa using hlit)
    exact ((hrest.of_space hws').of_plain (by decide) (by decide) (by decide)).of_space hws''
  have hsuffix := suffix_take hstarts hargs
  simp only [← List.append_assoc] at hsuffix
  refine .argument hws hmid hws' hws'' (by simpa using hsuffix) (fun c hc => ?_) hcloses harg hstop
  refine isAsciiWhitespace_skip_ws src (skip_ws src after_str + 1) ?_
  rw [← List.head?_drop, harg.1, List.head?_append, hc, Option.some_or]

theorem message_region {json : Str} (h : scan_msg_set_located src = some (json, s)) :
    Region src s (.message json) := by
  have hlocated := h
  simp only [scan_msg_set_located, Option.bind_eq_bind, Option.bind_eq_some_iff] at h
  obtain ⟨rel, hrel, ⟨datum, next⟩, hdatum, heq⟩ := h
  cases heq
  obtain ⟨ws, mid, hws, hmid, hopen, hbetween, hstop, -⟩ := readDatum_sound hdatum
  have hsuffix := suffix_take (find_sound hrel) hopen
  rw [← List.append_assoc] at hsuffix
  exact .message hlocated hws hsuffix hmid hbetween hstop

theorem scanFallbacks_sound {fuel start : ℕ} {spans : List MaskSpan}
    (h : scanFallbacks src fuel start = some spans) :
    ∀ s ∈ spans, UNWRAP_OR_OPEN <:+ src.take s.start ∧ match_close_paren src s.start = some s.stop := by
  induction fuel generalizing start spans with
  | zero => cases h
  | succ fuel ih =>
    unfold scanFallbacks at h
    cases hfind : findFrom HOISTED_READ_OPEN src start with
    | none =>
      rw [hfind] at h
      cases h
      exact fun a ha => absurd ha List.not_mem_nil
    | some read_at =>
      rw [hfind] at h
      simp only [Option.bind_eq_bind] at h
      split at h
      · simp only [Option.bind_some, Option.bind_eq_some_iff] at h
        obtain ⟨rest, hrest, hspans⟩ := h
        cases hspans
        exact ih hrest
      · rename_i u_at hu
        simp only [Option.bind_some, Option.bind_eq_some_iff] at h
        obtain ⟨arg_end, hclose, rest, hrest, hspans⟩ := h
        cases hspans
        intro s hs
        rcases List.mem_cons.1 hs with rfl | hs
        · have hopen : UNWRAP_OR_OPEN <+: src.drop u_at := by
            refine (findFrom_sound hu).trans ?_
            rw [List.drop_take]
            exact List.take_prefix ..
          have hsuffix := suffix_take hopen (Between.refl ..)
          rw [List.append_nil] at hsuffix
          exact ⟨hsuffix, hclose⟩
        · exact ih hrest s hs

theorem fallbackParts_sound (h : s ∈ fallbackParts src) :
    UNWRAP_OR_OPEN <:+ src.take s.start ∧
      ∃ mid, Closes 0 mid ∧ Between src s.start mid s.stop ∧ src[s.stop]? = some ')' := by
  unfold fallbackParts at h
  cases hscan : scan_hoisted_read_fallbacks src with
  | none =>
    rw [hscan] at h
    exact absurd h List.not_mem_nil
  | some spans =>
    rw [hscan] at h
    obtain ⟨hopen, hclose⟩ := scanFallbacks_sound hscan s h
    exact ⟨hopen, match_close_paren_sound hclose⟩

theorem mem_insertSpan {span : MaskSpan} {spans : List MaskSpan} :
    s ∈ insertSpan span spans ↔ s = span ∨ s ∈ spans := by
  induction spans with
  | nil => simp [insertSpan]
  | cons other spans ih =>
    unfold insertSpan
    split_ifs
    · rw [List.mem_cons]
    · rw [List.mem_cons, ih, List.mem_cons]
      tauto

theorem mem_sorted {spans sorted : List MaskSpan} :
    s ∈ spans.foldl (fun sorted span => insertSpan span sorted) sorted ↔ s ∈ sorted ∨ s ∈ spans := by
  induction spans generalizing sorted with
  | nil => simp
  | cons span spans ih =>
    rw [List.foldl_cons, ih, mem_insertSpan, List.mem_cons]
    tauto

theorem scan_channels_scans {ch : Channels} (h : scan_channels src = some ch) :
    scan_defaults_arrays src = some ch.arrays ∧ scan_transition_data src = some ch.trans ∧
      scan_sub_data src = some ch.subs ∧ scan_init_data src = some ch.inits ∧
      scan_wiring_data src = some ch.wire ∧ ch.msg_set = scan_msg_set src := by
  simp only [scan_channels, Option.bind_eq_bind, Option.bind_eq_some_iff, Option.some.injEq] at h
  obtain ⟨arrays, harrays, trans, htrans, subs, hsubs, inits, hinits, wire, hwire, rfl⟩ := h
  exact ⟨harrays, htrans, hsubs, hinits, hwire, rfl⟩

/-- What the mask blanks is taken for the fallback of a read, or it is data. -/
theorem mask_spans_sound {ch : Channels} {spans : List MaskSpan} (hch : scan_channels src = some ch)
    (h : mask_spans src ch = some spans) (hs : s ∈ spans) :
    s ∈ fallbackParts src ∨ ∃ k, Region src s k ∧ ∀ n, k = .array n →
      ∃ a ∈ ch.arrays, a.inner = s ∧ a.values.length = n := by
  obtain ⟨harrays, htrans, hsubs, hinits, hwire, -⟩ := scan_channels_scans hch
  simp only [mask_spans, Option.bind_eq_bind, Option.bind_eq_some_iff] at h
  obtain ⟨fallbacks, hfallbacks, heq⟩ := h
  cases heq
  rw [mem_sorted] at hs
  simp only [List.not_mem_nil, false_or, List.mem_append, List.mem_map, List.mem_flatMap, List.mem_cons,
    or_false, Option.mem_toList, Option.map_eq_some_iff] at hs
  rcases hs with (((((⟨a, ha, rfl⟩ | ⟨d, hd, rfl⟩) | ⟨d, hd, rfl⟩) | ⟨d, hd, hs⟩) | ⟨d, hd, rfl⟩) | hs) | hs
  · refine .inr ⟨_, arrays_region harrays ha, fun n hn => ⟨a, ha, rfl, ?_⟩⟩
    cases hn
    rfl
  · exact .inr ⟨_, scanData_region (by simp [DATUM_OPENS]) htrans hd, fun n hn => by cases hn⟩
  · exact .inr ⟨_, scanData_region (by simp [DATUM_OPENS]) hsubs hd, fun n hn => by cases hn⟩
  · obtain ⟨hdatum, hargument⟩ := inits_region hinits hd
    rcases hs with rfl | rfl
    · exact .inr ⟨_, hdatum, fun n hn => by cases hn⟩
    · exact .inr ⟨_, hargument, fun n hn => by cases hn⟩
  · exact .inr ⟨_, scanData_region (by simp [DATUM_OPENS]) hwire hd, fun n hn => by cases hn⟩
  · refine .inl ?_
    rw [fallbackParts, hfallbacks]
    exact hs
  · obtain ⟨⟨json, span⟩, hlocated, rfl⟩ := hs
    exact .inr ⟨_, message_region hlocated, fun n hn => by cases hn⟩

/-- A part lies in its text. -/
theorem Region.between {k : Kind} (h : Region src s k) :
    ∃ mid, Between src s.start mid s.stop ∧ s.stop ≤ src.length := by
  cases h with
  | array _ _ hbetween hstop => exact ⟨_, hbetween, (List.getElem?_eq_some_iff.1 hstop).1.le⟩
  | datum _ _ _ _ hbetween hstop => exact ⟨_, hbetween, (List.getElem?_eq_some_iff.1 hstop).1.le⟩
  | argument _ _ _ _ _ _ _ hbetween hstop => exact ⟨_, hbetween, (List.getElem?_eq_some_iff.1 hstop).1.le⟩
  | message _ _ _ _ hbetween hstop => exact ⟨_, hbetween, (List.getElem?_eq_some_iff.1 hstop).1.le⟩
  | fallback _ _ hbetween hstop => exact ⟨_, hbetween, (List.getElem?_eq_some_iff.1 hstop).1.le⟩

theorem between_of_mask {ch : Channels} {spans : List MaskSpan} (hch : scan_channels src = some ch)
    (h : mask_spans src ch = some spans) (hs : s ∈ spans) :
    ∃ mid, Between src s.start mid s.stop ∧ s.stop ≤ src.length := by
  rcases mask_spans_sound hch h hs with hfallback | ⟨k, hregion, -⟩
  · obtain ⟨-, mid, -, hbetween, hstop⟩ := fallbackParts_sound hfallback
    exact ⟨mid, hbetween, (List.getElem?_eq_some_iff.1 hstop).1.le⟩
  · exact hregion.between

end Spans

/-! ### Gaps -/

/-- Every span starts after the one before. -/
def Follows (cursor : ℕ) : List MaskSpan → Prop
  | [] => True
  | s :: spans => cursor ≤ s.start ∧ Follows s.stop spans

theorem follows_keptFrom (cursor : ℕ) (spans : List MaskSpan) : Follows cursor (keptFrom cursor spans) := by
  induction spans generalizing cursor with
  | nil => trivial
  | cons s spans ih =>
    unfold keptFrom
    split_ifs with hlt
    · exact ih cursor
    · exact ⟨Nat.le_of_not_lt hlt, ih s.stop⟩

theorem mem_of_mem_keptFrom {cursor : ℕ} {spans : List MaskSpan} {s : MaskSpan}
    (h : s ∈ keptFrom cursor spans) : s ∈ spans := by
  induction spans generalizing cursor with
  | nil => exact h
  | cons t spans ih =>
    unfold keptFrom at h
    split_ifs at h
    · exact List.mem_cons_of_mem _ (ih h)
    · rcases List.mem_cons.1 h with rfl | h
      · exact List.mem_cons_self
      · exact List.mem_cons_of_mem _ (ih h)

theorem gapsFrom_ne_nil (src : Str) (cursor : ℕ) (spans : List MaskSpan) :
    gapsFrom src cursor spans ≠ [] := by
  cases spans <;> exact List.cons_ne_nil _ _

theorem skeletonFrom_eq (src : Str) (cursor : ℕ) (spans : List MaskSpan) :
    skeletonFrom src cursor spans =
      ['\x00'].intercalate (gapsFrom src cursor (keptFrom cursor spans)) := by
  induction spans generalizing cursor with
  | nil =>
    rw [keptFrom, gapsFrom, List.intercalate_singleton]
    rfl
  | cons s spans ih =>
    unfold skeletonFrom keptFrom
    split_ifs
    · exact ih cursor
    · rw [gapsFrom, List.intercalate_cons_of_ne_nil (gapsFrom_ne_nil _ _ _), ih, List.append_assoc]
      rfl

/-- Skeletons without the character of a blank between the blanks show the texts between them. -/
theorem gaps_eq_of_intercalate_eq {ls ls' : List Str} (hls : ls ≠ []) (hls' : ls' ≠ [])
    (hplain : ∀ l ∈ ls, '\x00' ∉ l) (hplain' : ∀ l ∈ ls', '\x00' ∉ l)
    (h : ['\x00'].intercalate ls = ['\x00'].intercalate ls') : ls = ls' := by
  rw [← List.splitOn_intercalate '\x00' hplain hls, h, List.splitOn_intercalate '\x00' hplain' hls']

theorem between_of_le {src : Str} {i j : ℕ} (hij : i ≤ j) (hj : j ≤ src.length) :
    Between src i ((src.take j).drop i) j := by
  have hlen : ((src.take j).drop i).length = j - i := by
    rw [List.length_drop, List.length_take, Nat.min_eq_left hj]
  refine ⟨?_, by omega⟩
  have hsplit := List.take_append_drop j src
  conv_lhs => rw [← hsplit]
  rw [List.drop_append_of_le_length]
  rw [List.length_take, Nat.min_eq_left hj]
  exact hij

section SameUpTo

variable [Json.Library] {to_string : Json → Str} {prev next : Str}

/-- The same text in front of two positions. -/
theorem SameUpTo.prepend {i j i' j' : ℕ} {same : Str} (hprev : Between prev i same i')
    (hnext : Between next j same j') (h : SameUpTo to_string prev next i' j') :
    SameUpTo to_string prev next i j := by
  cases h with
  | rest heq =>
    refine .rest ?_
    rw [hprev.1, hnext.1, heq]
  | region hs ht hsRegion htRegion hcompatible hrest =>
    exact .region (hprev.trans hs) (hnext.trans ht) hsRegion htRegion hcompatible hrest

/-- Texts with the same gaps are the same up to what stands between the gaps. -/
theorem sameUpTo_of_gaps {i j : ℕ} {spans spans' : List MaskSpan}
    (hgaps : gapsFrom prev i spans = gapsFrom next j spans') (hfollows : Follows i spans)
    (hfollows' : Follows j spans')
    (hspans : ∀ s ∈ spans, ∃ mid, Between prev s.start mid s.stop ∧ s.stop ≤ prev.length)
    (hspans' : ∀ t ∈ spans', ∃ mid, Between next t.start mid t.stop ∧ t.stop ≤ next.length)
    (hpairs : ∀ p ∈ spans.zip spans', textOf prev p.1 = textOf next p.2 ∨
      ∃ k k', Region prev p.1 k ∧ Region next p.2 k' ∧ Compatible to_string k k') :
    SameUpTo to_string prev next i j := by
  induction spans generalizing i j spans' with
  | nil =>
    cases spans' with
    | nil => exact .rest (List.cons.inj hgaps).1
    | cons t spans' => exact absurd (List.cons.inj hgaps).2.symm (gapsFrom_ne_nil _ _ _)
  | cons s spans ih =>
    cases spans' with
    | nil => exact absurd (List.cons.inj hgaps).2 (gapsFrom_ne_nil _ _ _)
    | cons t spans' =>
      obtain ⟨hgap, hgaps⟩ := List.cons.inj hgaps
      obtain ⟨⟨mid, hs, hslen⟩, hspans⟩ := List.forall_mem_cons.1 hspans
      obtain ⟨⟨mid', ht, htlen⟩, hspans'⟩ := List.forall_mem_cons.1 hspans'
      obtain ⟨hpair, hpairs⟩ := List.forall_mem_cons.1 hpairs
      have hrest := ih hgaps hfollows.2 hfollows'.2 hspans hspans' hpairs
      have hgapPrev := between_of_le hfollows.1 (hs.le.trans hslen)
      have hgapNext := between_of_le hfollows'.1 (ht.le.trans htlen)
      rw [← hgap] at hgapNext
      rcases hpair with hsame | ⟨k, k', hsRegion, htRegion, hcompatible⟩
      · -- an argument of unrelated code, the same in both texts
        have hmid : mid' = mid := by
          rw [hs.eq_slice, ht.eq_slice]
          exact hsame.symm
        rw [hmid] at ht
        exact hrest.prepend (hgapPrev.trans hs) (hgapNext.trans ht)
      · exact .region hgapPrev hgapNext hsRegion htRegion hcompatible hrest

section Classify

variable {prev_src next_src : Str} {hot : HotSwap}

theorem diffMsgSet_additive {live cand : Str} {patches : List MsgSetPatch}
    (h : diffMsgSet to_string (some live) (some cand) = some patches) :
    live = cand ∨ msg_set_is_additive_superset to_string live cand = true := by
  simp only [diffMsgSet] at h
  split_ifs at h with heq hadditive
  · exact .inl heq
  · exact .inr hadditive

/-- The scans and the comparisons of two versions of a file that can be swapped. -/
theorem classify_file_scans (h : classify_file to_string prev_src next_src = some hot) :
    ∃ prev_ch next_ch msg_sets prev_masks next_masks, scan_channels prev_src = some prev_ch ∧
      scan_channels next_src = some next_ch ∧
      diffMsgSet to_string (scan_msg_set prev_src) (scan_msg_set next_src) = some msg_sets ∧
      mask_spans prev_src prev_ch = some prev_masks ∧ mask_spans next_src next_ch = some next_masks ∧
      skeleton prev_src prev_masks = skeleton next_src next_masks ∧
      maskedParts prev_src = keptFrom 0 prev_masks ∧ maskedParts next_src = keptFrom 0 next_masks := by
  simp only [classify_file, Option.bind_eq_bind, Option.bind_eq_some_iff] at h
  obtain ⟨prev_ch, hprev, next_ch, hnext, -, -, msg_sets, hmsg, prev_masks, hprevMasks, next_masks,
    hnextMasks, -, -, _, hskeleton, -⟩ := h
  rw [(scan_channels_scans hprev).2.2.2.2.2, (scan_channels_scans hnext).2.2.2.2.2] at hmsg
  refine ⟨prev_ch, next_ch, msg_sets, prev_masks, next_masks, hprev, hnext, hmsg, hprevMasks, hnextMasks,
    (Option.guard_eq_some' _).1 hskeleton, ?_, ?_⟩
  · rw [maskedParts, hprev, Option.bind_some, hprevMasks, Option.getD_some]
  · rw [maskedParts, hnext, Option.bind_some, hnextMasks, Option.getD_some]

omit [Json.Library] in
/-- A blank that is no stray fallback holds data. -/
theorem region_of_mask {src : Str} {s : MaskSpan} {ch : Channels} {spans : List MaskSpan}
    (hch : scan_channels src = some ch) (h : mask_spans src ch = some spans) (hs : s ∈ spans)
    (hchained : s ∈ fallbackParts src → ChainedRead (src.take s.start)) :
    ∃ k, Region src s k ∧ ∀ n, k = .array n → ∃ a ∈ defaultsArrays src, a.inner = s ∧ a.values.length = n := by
  rcases mask_spans_sound hch h hs with hfallback | hregion
  · obtain ⟨-, mid, hmid, hbetween, hstop⟩ := fallbackParts_sound hfallback
    exact ⟨_, .fallback (hchained hfallback) hmid hbetween hstop, fun n hn => by cases hn⟩
  · rw [defaultsArrays, (scan_channels_scans hch).1, Option.getD_some]
    exact hregion

/-- Two versions of a file that can be swapped are the same up to their data, if the mask blanks nothing else. -/
theorem classify_file_sound (h : classify_file to_string prev_src next_src = some hot)
    (hfits : MaskFits prev_src next_src) : SameUpTo to_string prev_src next_src 0 0 := by
  obtain ⟨prev_ch, next_ch, msg_sets, prev_masks, next_masks, hprev, hnext, hmsg, hprevMasks, hnextMasks, -,
    hprevParts, hnextParts⟩ := classify_file_scans h
  have hmem : ∀ s ∈ maskedParts prev_src, s ∈ prev_masks := fun s hs =>
    mem_of_mem_keptFrom (hprevParts ▸ hs)
  have hmem' : ∀ t ∈ maskedParts next_src, t ∈ next_masks := fun t ht =>
    mem_of_mem_keptFrom (hnextParts ▸ ht)
  refine sameUpTo_of_gaps hfits.gaps (hprevParts ▸ follows_keptFrom ..) (hnextParts ▸ follows_keptFrom ..)
    (fun s hs => between_of_mask hprev hprevMasks (hmem s hs))
    (fun t ht => between_of_mask hnext hnextMasks (hmem' t ht)) fun p hp => ?_
  refine (hfits.chained p hp).imp_right fun hchained => ?_
  obtain ⟨hs, ht⟩ := List.of_mem_zip (show (p.1, p.2) ∈ _ from hp)
  obtain ⟨k, hk, harray⟩ := region_of_mask hprev hprevMasks (hmem _ hs) hchained.1
  obtain ⟨k', hk', harray'⟩ := region_of_mask hnext hnextMasks (hmem' _ ht) hchained.2
  refine ⟨k, k', hk, hk', fun n n' hn hn' => ?_, fun live cand hlive hcand => ?_⟩
  · obtain ⟨a, ha, hinner, rfl⟩ := harray n hn
    obtain ⟨b, hb, hinner', rfl⟩ := harray' n' hn'
    exact hfits.lengths p hp a ha b hb hinner hinner'
  · rw [hlive] at hk
    rw [hcand] at hk'
    cases hk with
    | message hlocated =>
      cases hk' with
      | message hlocated' =>
        rw [scan_msg_set, scan_msg_set, hlocated, hlocated'] at hmsg
        exact diffMsgSet_additive hmsg

end Classify

end SameUpTo

/-! ### Projects -/

section Project

variable [Json.Library] {to_string : Json → Str} {prev next : EmittedProject} {hot : HotSwap}

theorem classifyFiles_file {files : List (Str × Str)} (h : classifyFiles to_string next files = some hot) :
    ∀ f ∈ files, ∃ next_src delta, next.files.get? f.1 = some next_src ∧
      fileDelta to_string f.2 next_src = some delta := by
  induction files generalizing hot with
  | nil => exact fun f hf => absurd hf List.not_mem_nil
  | cons f files ih =>
    simp only [classifyFiles, Option.bind_eq_bind, Option.bind_eq_some_iff] at h
    obtain ⟨next_src, hnext, delta, hdelta, rest, hrest, -⟩ := h
    exact List.forall_mem_cons.2 ⟨⟨next_src, delta, hnext, hdelta⟩, ih hrest⟩

omit [Json.Library] in
/-- As many paths, none of which is missing. -/
theorem keys_eq (hlength : prev.files.entries.length = next.files.entries.length)
    (hmem : ∀ f ∈ prev.files.entries, ∃ next_src, next.files.get? f.1 = some next_src) :
    prev.files.keys = next.files.keys := by
  have hsorted : prev.files.keys.Pairwise (· < ·) := List.pairwise_map.2 prev.files.sorted
  have hsorted' : next.files.keys.Pairwise (· < ·) := List.pairwise_map.2 next.files.sorted
  have hsubset : prev.files.keys ⊆ next.files.keys := by
    intro rel hrel
    obtain ⟨f, hf, rfl⟩ := List.mem_map.1 hrel
    obtain ⟨next_src, hget⟩ := hmem f hf
    exact List.mem_map.2 ⟨_, Lib.SortedMap.get?_eq_some.1 hget, rfl⟩
  have hperm : prev.files.keys.Perm next.files.keys := by
    refine (List.subperm_of_subset (hsorted.imp ne_of_lt) hsubset).perm_of_length_le ?_
    rw [Lib.SortedMap.keys, Lib.SortedMap.keys, List.length_map, List.length_map, hlength]
  exact hperm.eq_of_pairwise (fun _ _ _ _ hab hba => absurd hab hba.asymm) hsorted hsorted'

/-- What a swap has compared: the rest of the projects, and file by file. -/
theorem classify_files (h : classify to_string prev next = .HotSwappable hot) :
    prev.cargo_toml = next.cargo_toml ∧ prev.files.keys = next.files.keys ∧
      ∀ rel prev_src next_src, prev.files.get? rel = some prev_src → next.files.get? rel = some next_src →
        prev_src = next_src ∨ ∃ delta, classify_file to_string prev_src next_src = some delta := by
  unfold classify at h
  split_ifs at h with hcargo hlength
  split at h
  · rename_i hot' hfiles
    have hfile := classifyFiles_file hfiles
    refine ⟨not_not.1 hcargo, keys_eq (not_not.1 hlength) fun f hf => ?_, ?_⟩
    · obtain ⟨next_src, -, hget, -⟩ := hfile f hf
      exact ⟨next_src, hget⟩
    · intro rel prev_src next_src hprev hnext
      obtain ⟨next_src', delta, hget, hdelta⟩ := hfile _ (Lib.SortedMap.get?_eq_some.1 hprev)
      obtain rfl : next_src = next_src' := Option.some.inj (hnext.symm.trans hget)
      unfold fileDelta at hdelta
      split_ifs at hdelta with hsame
      · exact .inl hsame
      · exact .inr ⟨delta, hdelta⟩
  · cases h

/-- The mask of the files that an edit changes blanks data only. -/
def FilesFit (prev next : EmittedProject) : Prop :=
  ∀ rel prev_src next_src, prev.files.get? rel = some prev_src → next.files.get? rel = some next_src →
    prev_src ≠ next_src → MaskFits prev_src next_src

/-- An edit that can be swapped changes only data, where the mask of the files that it changes blanks
data only. -/
theorem onlyDataDiffers_of_fits (h : classify to_string prev next = .HotSwappable hot) (hfits : FilesFit prev next) :
    OnlyDataDiffers to_string prev next := by
  obtain ⟨hcargo, hkeys, hfiles⟩ := classify_files h
  refine ⟨hcargo, hkeys, fun rel prev_src next_src hprev hnext => ?_⟩
  by_cases hsame : prev_src = next_src
  · exact .rest (congrArg _ hsame)
  · obtain ⟨delta, hdelta⟩ := (hfiles rel _ _ hprev hnext).resolve_left hsame
    exact classify_file_sound hdelta (hfits rel _ _ hprev hnext hsame)

end Project

end IpeLang.Hot
