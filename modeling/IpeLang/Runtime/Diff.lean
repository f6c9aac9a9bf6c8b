import IpeLang.Runtime.Html
import IpeLang.Runtime.IpeId
import Mathlib

/-!
# Patches

The patches that turn the page of one tree into that of another one, and the policy that every one of them
obeys.

* `diff`: the patches, by the address of the element that they change;
* `browserScheme`: the scheme of an address as browsers read it;
* `UrlAttr`: the attributes with addresses;
* `SafeAttr`: what may be set, `SafeHtml`: what may be put into an element;
* `diff_safe`: all patches are safe.
-/

namespace IpeLang.Runtime.Dom

open Lib (Str SortedMap isWhiteSpace)

variable {M : Type}

/-- A change to an element of a page. An empty value removes an attribute. -/
structure Patch where
  id : Str
  text : Option Str
  html : Option Str
  attrs : SortedMap Str Str
  remove : Bool

def Patch.for_id (id : Str) : Patch := ⟨id, none, none, SortedMap.empty, false⟩

/-! ### Attributes -/

def collectAttr (m : SortedMap Str Str) : Attribute M → SortedMap Str Str
  | .Attr k v => if k = "ipe-id".toList then m else m.insert k v
  | .BoolAttr k true => m.insert k k
  | .BoolAttr _ false => m
  | .EventAttr _ => m
  | .NoAttr => m

def collect (xs : List (Attribute M)) : SortedMap Str Str := xs.foldl collectAttr SortedMap.empty

/-- Insert a pair that passes the policy. -/
def insert_safe_attr (attrs : SortedMap Str Str) (key val : Str) : SortedMap Str Str :=
  match safe_patch_attr key val with
  | some (k, v) => attrs.insert k v
  | none => attrs

def diff_events (id : Str) (old new : List (Attribute M)) (attrs : SortedMap Str Str) : SortedMap Str Str :=
  let on := old.filterMap Attribute.eventName
  let nn := new.filterMap Attribute.eventName
  let gained := nn.foldl (fun attrs ev =>
    if on.contains ev then attrs
    else insert_safe_attr (insert_safe_attr attrs (ev_key ev) ev) "data-ipe-hid".toList id) attrs
  on.foldl (fun attrs ev =>
    if nn.contains ev then attrs
    else if nn.isEmpty then insert_safe_attr (insert_safe_attr attrs (ev_key ev) []) "data-ipe-hid".toList []
    else insert_safe_attr attrs (ev_key ev) []) gained

/-- The attributes that change. The order of the keys does not matter: they are different. -/
def diff_attrs (id : Str) (old new : List (Attribute M)) : SortedMap Str Str :=
  let om := collect old
  let nm := collect new
  let changed := nm.entries.foldl (fun attrs kv =>
    if om.get? kv.1 = some kv.2 then attrs else insert_safe_attr attrs kv.1 kv.2) SortedMap.empty
  let removed := om.keys.foldl (fun attrs k =>
    if nm.contains k then attrs else insert_safe_attr attrs k []) changed
  diff_events id old new removed

/-! ### Children -/

def render_children (parent_tag : Str) (kids : List (Html M)) : Str :=
  if parent_tag = "script".toList then neutralise_script_close (kids.flatMap render_into_raw_text)
  else if parent_tag = "style".toList then strip_style_close (kids.flatMap render_into_raw_text)
  else kids.flatMap render_into

def html_replace (id parent_tag : Str) (new_kids : List (Html M)) : List Patch :=
  if id.isEmpty then [] else [{ Patch.for_id id with html := some (render_children parent_tag new_kids) }]

def attrs_patch (id : Str) (old new : List (Attribute M)) : List Patch :=
  let attrs := diff_attrs id old new
  if id.isEmpty || attrs.isEmpty then [] else [{ Patch.for_id id with attrs }]

def text_patch (id old new : Str) : List Patch :=
  if old = new ∨ id.isEmpty then [] else [{ Patch.for_id id with text := some new }]

/-- The texts of elements with one child, which is a text. -/
def soleTexts : List (Html M) → List (Html M) → Option (Str × Str)
  | [.HText o], [.HText n] => some (o, n)
  | _, _ => none

/-- What is to be done about two children at the same place. -/
inductive Step
  | skip
  | descend
  | replace

def childStep : Html M → Html M → Step
  | .HText o, .HText n => if o = n then .skip else .replace
  | .HRaw _, .HRaw _ => .skip
  | .HElement t₁ _ _, .HElement t₂ _ _ => if t₁ = t₂ then .descend else .replace
  | _, _ => .replace

mutual

def diff_node_depth : Html M → Html M → ℕ → List Patch
  | .HElement ot oa ok, .HElement nt na nk, depth =>
    if MAX_HTML_DEPTH ≤ depth ∨ ot ≠ nt then []
    else
      let id := (attr_value oa "ipe-id".toList).getD []
      attrs_patch id oa na ++
        match soleTexts ok nk with
        | some (o, n) => text_patch id o n
        | none => if ok.length ≠ nk.length then html_replace id ot nk else diff_kids id ot nk ok nk (depth + 1)
  | _, _, _ => []

/-- The patches of children, place by place, up to one that needs all children to be replaced. -/
def diff_kids (id parent_tag : Str) (new_kids : List (Html M)) : List (Html M) → List (Html M) → ℕ → List Patch
  | oc :: ok, nc :: nk, depth =>
    match childStep oc nc with
    | .skip => diff_kids id parent_tag new_kids ok nk depth
    | .descend => diff_node_depth oc nc depth ++ diff_kids id parent_tag new_kids ok nk depth
    | .replace => html_replace id parent_tag new_kids
  | _, _, _ => []

end

def diff (old new : Html M) : List Patch := diff_node_depth old new 0

/-! ### Addresses as browsers read them -/

/-- What a browser keeps of an address: no controls and spaces in front, no tabs and ends of lines. -/
def browserText (value : Str) : Str :=
  (value.dropWhile fun c => c.toNat ≤ 0x20).filter fun c => c != '\t' && c != '\n' && c != '\r'

def isSchemeChar (c : Char) : Bool := c.isAlphanum || c == '+' || c == '-' || c == '.'

/-- The scheme that a browser reads: a letter, and letters, digits, `+`, `-`, `.` up to a colon. -/
def browserScheme (value : Str) : Option Str :=
  match Lib.splitOnce ':' (browserText value) with
  | some (c :: scheme, _) =>
    if c.isAlpha && scheme.all isSchemeChar then some (to_ascii_lowercase (c :: scheme)) else none
  | _ => none

/-- The address holds a picture in a raster format. -/
def InertPicture (value : Str) : Prop :=
  ∃ scheme space picture rest, browserText value = scheme ++ ':' :: space ++ picture ++ rest ∧ ':' ∉ scheme ∧
    (∀ c ∈ space, isWhiteSpace c = true) ∧
    (∃ format ∈ RASTER, to_ascii_lowercase picture = "image/".toList ++ format) ∧
    (∀ c ∈ rest.head?, c = ';' ∨ c = ',')

/-- The attributes whose values are fetched or navigated to. -/
inductive UrlAttr
  | href
  | src
  | xlinkHref
  | formaction
  | action
  | poster
  | cite
  | background
  | manifest
  | longdesc
  | data
  deriving DecidableEq

namespace UrlAttr

def text : UrlAttr → Str
  | href => "href".toList
  | src => "src".toList
  | xlinkHref => "xlink:href".toList
  | formaction => "formaction".toList
  | action => "action".toList
  | poster => "poster".toList
  | cite => "cite".toList
  | background => "background".toList
  | manifest => "manifest".toList
  | longdesc => "longdesc".toList
  | data => "data".toList

/-- The value is shown as a picture. -/
def ShowsPicture (attr : UrlAttr) : Prop := attr = src ∨ attr = poster ∨ attr = background

/-- Names of attributes are read in any letter case. -/
def Named (attr : UrlAttr) (name : Str) : Prop := to_ascii_lowercase name = attr.text

end UrlAttr

/-- What the policy lets through. -/
structure SafeAttr (name value : Str) : Prop where
  chars : name.all isNameChar = true
  handler : ¬ "on".toList <+: to_ascii_lowercase name
  document : to_ascii_lowercase name ≠ "srcdoc".toList
  script : ∀ attr : UrlAttr, attr.Named name →
    browserScheme value ≠ some "javascript".toList ∧ browserScheme value ≠ some "vbscript".toList
  data : ∀ attr : UrlAttr, attr.Named name → browserScheme value = some "data".toList →
    attr.ShowsPicture ∧ InertPicture value

/-- A payload for an element of the new tree. -/
def SafeHtml (new : Html M) (html : Str) : Prop :=
  ∃ p tag attrs kids, new.at? p = some (.HElement tag attrs kids) ∧
    (tag = "script".toList → ¬ "</script".toList <:+: to_ascii_lowercase html) ∧
    (tag = "style".toList → ¬ "</style".toList <:+: to_ascii_lowercase html) ∧
    (tag ≠ "script".toList → tag ≠ "style".toList → html = (kids.map render_into).flatten)

/-! ### Schemes -/

theorem urlSchemeFrom_filter {keep : Char → Bool} (hkeep : ∀ c, keep c = false → c.toNat ≤ 0x20) (acc s : Str) :
    urlSchemeFrom acc (s.filter keep) = urlSchemeFrom acc s := by
  induction s generalizing acc with
  | nil => rfl
  | cons c s ih =>
    by_cases hc : keep c = true
    · rw [List.filter_cons_of_pos hc, urlSchemeFrom, urlSchemeFrom, ih, ih]
    · have hle := hkeep c (Bool.eq_false_iff.2 hc)
      have hne : ∀ d : Char, 0x20 < d.toNat → c ≠ d := by
        rintro d hd rfl
        omega
      have hstops : ¬ (c = '/' ∨ c = '?' ∨ c = '#') := by
        rintro (h | h | h)
        · exact hne _ (by decide) h
        · exact hne _ (by decide) h
        · exact hne _ (by decide) h
      rw [List.filter_cons_of_neg hc, urlSchemeFrom, if_neg (hne ':' (by decide)), if_neg hstops, if_pos hle, ih]

theorem urlSchemeFrom_dropWhile {p : Char → Bool} (hp : ∀ c, p c = true → c.toNat ≤ 0x20) (acc s : Str) :
    urlSchemeFrom acc (s.dropWhile p) = urlSchemeFrom acc s := by
  have hkeep : ∀ c, (!p c) = false → c.toNat ≤ 0x20 := fun c hc => hp c (by simpa using hc)
  rw [← urlSchemeFrom_filter hkeep acc s, ← urlSchemeFrom_filter hkeep acc (s.dropWhile p)]
  congr 1
  induction s with
  | nil => rfl
  | cons c s ih =>
    by_cases hc : p c = true
    · rw [List.dropWhile_cons_of_pos hc, ih, List.filter_cons_of_neg (by simp [hc])]
    · rw [List.dropWhile_cons_of_neg hc]

theorem url_scheme_browserText (value : Str) : url_scheme (browserText value) = url_scheme value := by
  unfold url_scheme browserText
  rw [urlSchemeFrom_filter, urlSchemeFrom_dropWhile]
  · intro c hc
    exact of_decide_eq_true hc
  · intro c hc
    simp only [Bool.and_eq_false_iff, bne_eq_false_iff_eq] at hc
    rcases hc with (rfl | rfl) | rfl <;> decide

theorem isSchemeChar_range {c : Char} (h : isSchemeChar c = true) :
    0x20 < c.toNat ∧ c ≠ ':' ∧ c ≠ '/' ∧ c ≠ '?' ∧ c ≠ '#' := by
  have hval : c.toNat = c.val.toNat := rfl
  have hne : ∀ d : Char, isSchemeChar d = false → c ≠ d := by
    rintro d hd rfl
    rw [h] at hd
    cases hd
  refine ⟨?_, hne _ (by decide), hne _ (by decide), hne _ (by decide), hne _ (by decide)⟩
  simp only [isSchemeChar, Char.isAlphanum, Char.isAlpha, Char.isUpper, Char.isLower, Char.isDigit, Bool.or_eq_true,
    Bool.and_eq_true, decide_eq_true_eq, beq_iff_eq, ge_iff_le, UInt32.le_iff_toNat_le, Char.reduceVal,
    UInt32.reduceToNat] at h
  rcases h with ((h | rfl) | rfl) | rfl
  · omega
  · decide
  · decide
  · decide

theorem urlSchemeFrom_run {run : Str} (h : run.all isSchemeChar = true) (acc rest : Str) :
    urlSchemeFrom acc (run ++ ':' :: rest) = some (acc ++ to_ascii_lowercase run) := by
  induction run generalizing acc with
  | nil => simp [urlSchemeFrom, to_ascii_lowercase]
  | cons c run ih =>
    rw [List.all_cons, Bool.and_eq_true] at h
    obtain ⟨hlt, hcolon, hslash, hquestion, hhash⟩ := isSchemeChar_range h.1
    have hstops : ¬ (c = '/' ∨ c = '?' ∨ c = '#') := by
      rintro (h | h | h)
      · exact hslash h
      · exact hquestion h
      · exact hhash h
    rw [List.cons_append, urlSchemeFrom, if_neg hcolon, if_neg hstops, if_neg (by omega), ih h.2, List.append_assoc]
    rfl

/-- The scheme that a browser reads is the one that is checked. -/
theorem url_scheme_of_browserScheme {value scheme : Str} (h : browserScheme value = some scheme) :
    url_scheme value = some scheme := by
  unfold browserScheme at h
  split at h
  · rename_i c run rest hsplit
    split at h
    · rename_i hrun
      cases h
      rw [Bool.and_eq_true] at hrun
      have hall : (c :: run).all isSchemeChar = true := by
        rw [List.all_cons, Bool.and_eq_true]
        exact ⟨by simp [isSchemeChar, Char.isAlphanum, hrun.1], hrun.2⟩
      rw [← url_scheme_browserText, (Lib.splitOnce_eq_some hsplit).1]
      exact urlSchemeFrom_run hall [] rest
    · cases h
  · cases h

/-! ### Pictures -/

theorem eq_of_toLower_eq {c d : Char} (h : c.toLower = d) (hd : d.isLower = false) : c = d := by
  rw [← h, Char.isLower_toLower_eq_isAlpha, Char.isAlpha, Bool.or_eq_false_iff] at hd
  rw [← h, Char.toLower_eq_of_not_isUpper (by simp [hd.1])]

theorem dropWhile_append_cons {α : Type} {p : α → Bool} {a : α} (ha : p a = false) (s t : List α) :
    (s ++ a :: t).dropWhile p = s.dropWhile p ++ a :: t := by
  induction s with
  | nil => simp [ha]
  | cons b s ih =>
    by_cases hb : p b = true
    · rw [List.cons_append, List.dropWhile_cons_of_pos hb, List.dropWhile_cons_of_pos hb, ih]
    · rw [List.cons_append, List.dropWhile_cons_of_neg hb, List.dropWhile_cons_of_neg hb, List.cons_append]

/-- A picture that passes the check is one for the browser. -/
theorem inertPicture_of_is_inert_data_image {value : Str} (h : is_inert_data_image value = true) :
    InertPicture value := by
  unfold is_inert_data_image at h
  split at h
  · cases h
  · rename_i scheme rest hsplit
    split at h
    · rename_i after hafter
      set format := after.takeWhile fun c => c != ';' && c != ',' with hformat
      have hmem : format ∈ RASTER := List.contains_iff_mem.1 h
      set body := rest.dropWhile isWhiteSpace with hbody
      obtain ⟨image, himage, heq⟩ := List.dropPrefix?_eq_some_iff.1 hafter
      have hlower : to_ascii_lowercase body =
          ("image/".toList ++ format) ++ after.dropWhile fun c => c != ';' && c != ',' := by
        rw [himage, eq_of_beq heq, hformat, List.append_assoc, List.takeWhile_append_dropWhile]
      obtain ⟨picture, tail, hpt, hpicture, htail⟩ := List.map_eq_append_iff.1 hlower
      -- neither the picture nor the place where it ends changes in the browser
      have hkept : ∀ c ∈ picture, (c != '\t' && c != '\n' && c != '\r') = true := by
        intro c hc
        have hall : (RASTER.all fun format => ("image/".toList ++ format).all fun c =>
            c != '\t' && c != '\n' && c != '\r') = true := by decide
        have hlow := List.all_eq_true.1 (List.all_eq_true.1 hall format hmem) c.toLower
          (hpicture ▸ List.mem_map_of_mem hc)
        have hne : ∀ d : Char, d.isLower = false → d.toLower = d → c.toLower ≠ d → c ≠ d := by
          rintro d - hd hcd rfl
          exact hcd hd
        simp only [Bool.and_eq_true, bne_iff_ne] at hlow ⊢
        exact ⟨⟨hne _ (by decide) (by decide) hlow.1.1, hne _ (by decide) (by decide) hlow.1.2⟩,
          hne _ (by decide) (by decide) hlow.2⟩
      have hhead : ∀ c ∈ tail.head?, c = ';' ∨ c = ',' := by
        intro c hc
        have hstop := List.head?_dropWhile_not (fun c => c != ';' && c != ',') after
        rw [← htail] at hstop
        cases tail with
        | nil => cases hc
        | cons d tail =>
          cases hc
          simp only [List.map_cons, List.head?_cons, Bool.and_eq_false_iff, bne_eq_false_iff_eq] at hstop
          rcases hstop with hstop | hstop
          · exact Or.inl (eq_of_toLower_eq hstop (by decide))
          · exact Or.inr (eq_of_toLower_eq hstop (by decide))
      obtain ⟨hvalue, hcolon⟩ := Lib.splitOnce_eq_some hsplit
      have hrest : rest = rest.takeWhile isWhiteSpace ++ (picture ++ tail) := by
        rw [← hpt, hbody, List.takeWhile_append_dropWhile]
      refine ⟨(scheme.dropWhile fun c => c.toNat ≤ 0x20).filter fun c => c != '\t' && c != '\n' && c != '\r',
        (rest.takeWhile isWhiteSpace).filter fun c => c != '\t' && c != '\n' && c != '\r', picture,
        tail.filter fun c => c != '\t' && c != '\n' && c != '\r', ?_, ?_, ?_, ⟨format, hmem, hpicture⟩, ?_⟩
      · unfold browserText
        rw [hvalue, dropWhile_append_cons (by decide), List.filter_append, List.filter_cons_of_pos (by decide)]
        conv_lhs => rw [hrest]
        rw [List.filter_append, List.filter_append, List.filter_eq_self.2 hkept]
        simp only [List.append_assoc, List.cons_append]
      · intro hmem
        exact hcolon ((List.dropWhile_sublist _).subset (List.mem_filter.1 hmem).1)
      · intro c hc
        exact List.mem_takeWhile_imp (List.mem_filter.1 hc).1
      · intro c hc
        cases tail with
        | nil => cases hc
        | cons d tail =>
          have hd := hhead d rfl
          rw [List.filter_cons_of_pos (by rcases hd with rfl | rfl <;> decide)] at hc
          cases hc
          exact hd
    · cases h

/-! ### Pairs that may be set -/

/-- The table of the policy has all attributes with addresses. -/
theorem is_url_attr_of_named {attr : UrlAttr} {name : Str} (h : attr.Named name) : is_url_attr name = true := by
  rw [is_url_attr, h]
  cases attr <;> decide

theorem showsPicture_of_is_media_url_attr {attr : UrlAttr} {name : Str} (h : attr.Named name)
    (hmedia : is_media_url_attr name = true) : attr.ShowsPicture := by
  rw [is_media_url_attr, h] at hmedia
  cases attr
  case src => exact Or.inl rfl
  case poster => exact Or.inr (Or.inl rfl)
  case background => exact Or.inr (Or.inr rfl)
  all_goals exact absurd hmedia (by decide)

theorem safeAttr_nil {name : Str} (hsafe : SafeAttrName.parse name ≠ none) : SafeAttr name [] := by
  unfold SafeAttrName.parse at hsafe
  split at hsafe
  · rename_i h
    have hdanger := Bool.or_eq_false_iff.1 h.2
    have hscheme : browserScheme [] = none := rfl
    refine ⟨(Bool.and_eq_true_iff.1 h.1).2, fun hon => ?_, fun hdoc => ?_, fun _ _ => ?_,
      fun _ _ hdata => ?_⟩
    · rw [List.isPrefixOf_iff_prefix.2 hon] at hdanger
      exact absurd hdanger.1 (by decide)
    · rw [hdoc] at hdanger
      exact absurd hdanger.2 (by decide)
    · rw [hscheme]
      exact ⟨by simp, by simp⟩
    · rw [hscheme] at hdata
      cases hdata
  · exact absurd rfl hsafe

theorem safe_patch_attr_eq_some {name value k v : Str} (h : safe_patch_attr name value = some (k, v)) :
    SafeAttr k v := by
  unfold safe_patch_attr at h
  obtain ⟨safe, hsafe, heq⟩ := Option.map_eq_some_iff.1 h
  have hparse : SafeAttrName.parse name ≠ none := by rw [hsafe]; simp
  have hname : safe.name = name := by
    unfold SafeAttrName.parse at hsafe
    split at hsafe
    · cases hsafe
      rfl
    · cases hsafe
  cases heq
  rw [hname]
  have hnil := safeAttr_nil hparse
  unfold sanitise_url_attr
  split
  · exact hnil
  · rename_i hdangerous
    refine ⟨hnil.chars, hnil.handler, hnil.document, fun attr hattr => ?_, fun attr hattr hdata => ?_⟩
    · rw [is_url_attr_of_named hattr, Bool.true_and] at hdangerous
      constructor
      · intro hscheme
        rw [is_dangerous_url, url_scheme_of_browserScheme hscheme] at hdangerous
        exact hdangerous (if_pos (Or.inl rfl))
      · intro hscheme
        rw [is_dangerous_url, url_scheme_of_browserScheme hscheme] at hdangerous
        exact hdangerous (if_pos (Or.inr rfl))
    · rw [is_url_attr_of_named hattr, Bool.true_and, is_dangerous_url,
        url_scheme_of_browserScheme hdata] at hdangerous
      dsimp only at hdangerous
      rw [if_neg (by decide), if_pos rfl] at hdangerous
      simp only [Bool.not_eq_true', Bool.not_eq_false, Bool.and_eq_true] at hdangerous
      exact ⟨showsPicture_of_is_media_url_attr hattr hdangerous.1, inertPicture_of_is_inert_data_image hdangerous.2⟩

/-- All attributes of a patch may be set. -/
def SafeAttrs (attrs : SortedMap Str Str) : Prop := ∀ k v, attrs.get? k = some v → SafeAttr k v

theorem safeAttrs_empty : SafeAttrs SortedMap.empty := by
  intro k v h
  cases h

theorem SafeAttrs.insert_safe_attr {attrs : SortedMap Str Str} (h : SafeAttrs attrs) (key val : Str) :
    SafeAttrs (insert_safe_attr attrs key val) := by
  unfold Dom.insert_safe_attr
  split
  · rename_i k v hpatch
    intro k' v' hget
    rw [SortedMap.get?_insert] at hget
    split at hget
    · rename_i hk
      cases hget
      rw [hk]
      exact safe_patch_attr_eq_some hpatch
    · exact h k' v' hget
  · exact h

theorem SafeAttrs.foldl {α : Type} {step : SortedMap Str Str → α → SortedMap Str Str}
    (hstep : ∀ attrs a, SafeAttrs attrs → SafeAttrs (step attrs a)) (l : List α) {attrs : SortedMap Str Str}
    (h : SafeAttrs attrs) : SafeAttrs (l.foldl step attrs) := by
  induction l generalizing attrs with
  | nil => exact h
  | cons a l ih => exact ih (hstep attrs a h)

theorem safeAttrs_diff_attrs (id : Str) (old new : List (Attribute M)) : SafeAttrs (diff_attrs id old new) := by
  unfold diff_attrs diff_events
  refine SafeAttrs.foldl (fun attrs ev h => ?_) _ (SafeAttrs.foldl (fun attrs ev h => ?_) _
    (SafeAttrs.foldl (fun attrs k h => ?_) _ (SafeAttrs.foldl (fun attrs kv h => ?_) _ safeAttrs_empty)))
  · split
    · exact h
    · split
      · exact (h.insert_safe_attr _ _).insert_safe_attr _ _
      · exact h.insert_safe_attr _ _
  · split
    · exact h
    · exact (h.insert_safe_attr _ _).insert_safe_attr _ _
  · split
    · exact h
    · exact h.insert_safe_attr _ _
  · split
    · exact h
    · exact h.insert_safe_attr _ _

/-! ### Bodies -/

/-- What the script's body has without the mark of an end was there before. -/
theorem prefix_neutralise_script_close {needle : Str} (hneedle : '<' ∉ needle) (s : Str)
    (h : needle <+: to_ascii_lowercase (neutralise_script_close s)) : needle <+: to_ascii_lowercase s := by
  induction needle generalizing s with
  | nil => exact List.nil_prefix
  | cons d needle ih =>
    obtain ⟨hd, hneedle⟩ := not_or.1 (mt List.mem_cons.2 hneedle)
    cases s with
    | nil =>
      rw [neutralise_script_close] at h
      exact h
    | cons c s =>
      rw [neutralise_script_close] at h
      split at h
      · exact absurd (List.cons_prefix_cons.1 h).1.symm hd
      · obtain ⟨hc, htail⟩ := List.cons_prefix_cons.1 h
        exact List.cons_prefix_cons.2 ⟨hc, ih hneedle s htail⟩

theorem infix_of_infix_append {d : Char} {needle l r : Str} (hl : d ∉ l) (h : (d :: needle) <:+: l ++ r) :
    (d :: needle) <:+: r := by
  induction l with
  | nil => exact h
  | cons c l ih =>
    obtain ⟨hc, hl⟩ := not_or.1 (mt List.mem_cons.2 hl)
    rcases List.infix_cons_iff.1 h with h | h
    · exact absurd (List.cons_prefix_cons.1 h).1 hc
    · exact ih hl h

/-- No end of a script is left. -/
theorem not_infix_neutralise_script_close (s : Str) :
    ¬ "</script".toList <:+: to_ascii_lowercase (neutralise_script_close s) := by
  fun_induction neutralise_script_close s with
  | case1 => decide
  | case2 c s hstart ih =>
    intro h
    have hsplit : to_ascii_lowercase ("<\\/script".toList ++ neutralise_script_close (s.drop 7)) =
        '<' :: ("\\/script".toList ++ to_ascii_lowercase (neutralise_script_close (s.drop 7))) := by
      unfold to_ascii_lowercase
      rw [List.map_append]
      rfl
    rw [hsplit] at h
    rcases List.infix_cons_iff.1 h with h | h
    · exact absurd (List.cons_prefix_cons.1 (List.cons_prefix_cons.1 h).2).1 (by decide)
    · exact ih (infix_of_infix_append (by decide) h)
  | case3 c s hstart ih =>
    intro h
    rcases List.infix_cons_iff.1 h with h | h
    · obtain ⟨hc, htail⟩ := List.cons_prefix_cons.1 h
      refine hstart (List.isPrefixOf_iff_prefix.2 (List.cons_prefix_cons.2 ⟨hc, ?_⟩))
      exact prefix_neutralise_script_close (by decide) s htail
    · exact ih h

theorem not_infix_of_removeStyleClose {s : Str} (h : removeStyleClose s = none) :
    ¬ "</style".toList <:+: to_ascii_lowercase s := by
  induction s with
  | nil => decide
  | cons c s ih =>
    unfold removeStyleClose at h
    split at h
    · cases h
    · rename_i hstart
      intro hinfix
      rcases List.infix_cons_iff.1 hinfix with hinfix | hinfix
      · exact hstart (List.isPrefixOf_iff_prefix.2 hinfix)
      · exact ih (Option.map_eq_none_iff.1 h) hinfix

theorem not_infix_strip_style_close (s : Str) :
    ¬ "</style".toList <:+: to_ascii_lowercase (strip_style_close s) := by
  fun_induction strip_style_close s with
  | case1 s h => exact not_infix_of_removeStyleClose h
  | case2 s t h ih => exact ih

/-! ### Patches -/

/-- A patch for the new tree that the policy lets through. -/
structure SafePatch (new : Html M) (patch : Patch) : Prop where
  attrs : SafeAttrs patch.attrs
  html : ∀ h, patch.html = some h → SafeHtml new h

theorem safeHtml_render_children (tag : Str) (attrs : List (Attribute M)) (kids : List (Html M)) :
    SafeHtml (.HElement tag attrs kids) (render_children tag kids) := by
  refine ⟨[], tag, attrs, kids, rfl, ?_, ?_, ?_⟩
  · rintro rfl
    exact not_infix_neutralise_script_close _
  · rintro rfl
    exact not_infix_strip_style_close _
  · intro hscript hstyle
    unfold render_children
    rw [if_neg hscript, if_neg hstyle, List.flatMap_def]

/-- What is safe for a child is safe for the tree. -/
theorem SafePatch.of_child {tag : Str} {attrs : List (Attribute M)} {kids : List (Html M)} {child : Html M}
    {patch : Patch} (h : SafePatch child patch) (hchild : child ∈ kids) :
    SafePatch (.HElement tag attrs kids) patch where
  attrs := h.attrs
  html payload hpayload := by
    obtain ⟨p, rest⟩ := h.html payload hpayload
    obtain ⟨i, hi⟩ := List.mem_iff_getElem?.1 hchild
    refine ⟨i :: p, ?_⟩
    rw [Html.at?, hi]
    exact rest

theorem safePatch_html_replace (id tag : Str) (attrs : List (Attribute M)) (kids : List (Html M)) :
    ∀ patch ∈ html_replace id tag kids, SafePatch (.HElement tag attrs kids) patch := by
  intro patch hpatch
  unfold html_replace at hpatch
  split at hpatch
  · cases hpatch
  · rw [List.mem_singleton] at hpatch
    subst hpatch
    refine ⟨safeAttrs_empty, fun payload hpayload => ?_⟩
    cases hpayload
    exact safeHtml_render_children tag attrs kids

theorem safePatch_attrs_patch (new : Html M) (id : Str) (oa na : List (Attribute M)) :
    ∀ patch ∈ attrs_patch id oa na, SafePatch new patch := by
  intro patch hpatch
  unfold attrs_patch at hpatch
  dsimp only at hpatch
  split at hpatch
  · cases hpatch
  · rw [List.mem_singleton] at hpatch
    subst hpatch
    exact ⟨safeAttrs_diff_attrs id oa na, fun _ hpayload => by cases hpayload⟩

theorem safePatch_text_patch (new : Html M) (id o n : Str) :
    ∀ patch ∈ text_patch id o n, SafePatch new patch := by
  intro patch hpatch
  unfold text_patch at hpatch
  split at hpatch
  · cases hpatch
  · rw [List.mem_singleton] at hpatch
    subst hpatch
    exact ⟨safeAttrs_empty, fun _ hpayload => by cases hpayload⟩

mutual

theorem safePatch_diff_node_depth : ∀ (old new : Html M) (depth : ℕ),
    ∀ patch ∈ diff_node_depth old new depth, SafePatch new patch
  | .HElement ot oa ok, .HElement nt na nk, depth => by
    intro patch hpatch
    unfold diff_node_depth at hpatch
    split at hpatch
    · cases hpatch
    · rename_i hcond
      have htag : ot = nt := by
        by_contra hne
        exact hcond (Or.inr hne)
      subst htag
      rcases List.mem_append.1 hpatch with hpatch | hpatch
      · exact safePatch_attrs_patch _ _ oa na patch hpatch
      · split at hpatch
        · exact safePatch_text_patch _ _ _ _ patch hpatch
        · split at hpatch
          · exact safePatch_html_replace _ ot na nk patch hpatch
          · exact safePatch_diff_kids _ ot na nk ok nk _ (fun _ h => h) patch hpatch
  | .HElement _ _ _, .HText _, _ => by
    intro patch hpatch
    cases hpatch
  | .HElement _ _ _, .HRaw _, _ => by
    intro patch hpatch
    cases hpatch
  | .HText _, _, _ => by
    intro patch hpatch
    cases hpatch
  | .HRaw _, _, _ => by
    intro patch hpatch
    cases hpatch

theorem safePatch_diff_kids (id tag : Str) (attrs : List (Attribute M)) (kids : List (Html M)) :
    ∀ (ok nk : List (Html M)) (depth : ℕ), nk ⊆ kids →
      ∀ patch ∈ diff_kids id tag kids ok nk depth, SafePatch (.HElement tag attrs kids) patch
  | oc :: ok, nc :: nk, depth, hsub => by
    intro patch hpatch
    have hrest := List.cons_subset.1 hsub
    unfold diff_kids at hpatch
    split at hpatch
    · exact safePatch_diff_kids id tag attrs kids ok nk depth hrest.2 patch hpatch
    · rcases List.mem_append.1 hpatch with hpatch | hpatch
      · exact (safePatch_diff_node_depth oc nc depth patch hpatch).of_child hrest.1
      · exact safePatch_diff_kids id tag attrs kids ok nk depth hrest.2 patch hpatch
    · exact safePatch_html_replace id tag attrs kids patch hpatch
  | [], _, _, _ => by
    intro patch hpatch
    cases hpatch
  | _ :: _, [], _, _ => by
    intro patch hpatch
    cases hpatch

end

/-- Every patch sets only what the policy lets through, and puts only rendered children of the new tree
into an element, or a body that does not end its script or style. -/
theorem diff_safe (old new : Html M) : ∀ patch ∈ diff old new,
    (∀ name value, patch.attrs.get? name = some value → SafeAttr name value) ∧
      ∀ html, patch.html = some html → SafeHtml new html := by
  intro patch hpatch
  have h := safePatch_diff_node_depth old new 0 patch hpatch
  exact ⟨h.attrs, h.html⟩

/-- A link, with and without an address. -/
def link (attrs : List (Attribute ℕ)) : Html ℕ :=
  .HElement "a".toList (.Attr "ipe-id".toList ['r'] :: attrs) []

theorem diff_safe_link : ∃ patch ∈ diff (link []) (link [.Attr "href".toList "/home".toList]),
    patch.attrs.get? "href".toList = some "/home".toList ∧
      (∀ name value, patch.attrs.get? name = some value → SafeAttr name value) ∧
      ∀ html, patch.html = some html → SafeHtml (link [.Attr "href".toList "/home".toList]) html := by
  have hne : diff (link []) (link [.Attr "href".toList "/home".toList]) ≠ [] := by
    intro h
    cases h
  exact ⟨_, List.head_mem hne, rfl, diff_safe _ _ _ (List.head_mem hne)⟩

end IpeLang.Runtime.Dom
