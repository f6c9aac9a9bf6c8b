import IpeLang.Hot.Scan
import IpeLang.Lib.Overlay
import IpeLang.Lib.SortedMap

/-!
# Swapping data without a rebuild

An edit that changes nothing but baked data is sent to the running program, which keeps the new data
under the old one.

* `classify`: the data that two emits differ in, or that the program has to be built again;
* `register_dev_patch`, `register_dev_transition`: keep the new data;
* `from_defaults`, `transition_for`: read it;
* `hot_swap_agrees_iff`: exactly when all sites of the program then read what the last emit bakes.
-/

namespace IpeLang.Hot

open Lib (Str Json SortedMap)
open Lib.Overlay (Site changed Steady)

/-! ### Classification -/

/-- The files that are emitted for a program, by their paths. -/
structure EmittedProject where
  files : SortedMap Str Str
  cargo_toml : Str
  deriving DecidableEq

structure ViewPatch where
  defaults : List Str
  patch : List (ℕ × Str)
  deriving DecidableEq

/-- A datum that has changed. The running program still bakes the old one. -/
structure DatumPatch where
  old_json : Str
  new_json : Str
  deriving DecidableEq

abbrev TransitionPatch := DatumPatch

abbrev SubPatch := DatumPatch

abbrev InitPatch := DatumPatch

abbrev WiringPatch := DatumPatch

structure MsgSetPatch where
  live_json : Str
  candidate_json : Str
  deriving DecidableEq

structure HotSwap where
  views : List ViewPatch
  transitions : List TransitionPatch
  msg_sets : List MsgSetPatch
  subs : List SubPatch
  inits : List InitPatch
  wirings : List WiringPatch
  deriving DecidableEq

def HotSwap.default : HotSwap := ⟨[], [], [], [], [], []⟩

def HotSwap.append (a b : HotSwap) : HotSwap :=
  ⟨a.views ++ b.views, a.transitions ++ b.transitions, a.msg_sets ++ b.msg_sets, a.subs ++ b.subs,
    a.inits ++ b.inits, a.wirings ++ b.wirings⟩

def HotSwap.is_empty (hot : HotSwap) : Bool :=
  hot.views.isEmpty && hot.transitions.isEmpty && hot.msg_sets.isEmpty && hot.subs.isEmpty &&
    hot.inits.isEmpty && hot.wirings.isEmpty

inductive Classification
  | HotSwappable (hot : HotSwap)
  | Logic
  deriving DecidableEq

/-- The values that differ, with their indices from `idx` on. -/
def diffValues (idx : ℕ) : List Str → List Str → List (ℕ × Str)
  | pv :: prev, nv :: next =>
    if pv ≠ nv then (idx, nv) :: diffValues (idx + 1) prev next else diffValues (idx + 1) prev next
  | _, _ => []

/-- One patch for every array whose values have changed, under its old values. An array of another
length is no change of data. -/
def diff_view_patches : List DefaultsArray → List DefaultsArray → Option (List ViewPatch)
  | pa :: prev, na :: next =>
    if pa.values.length ≠ na.values.length then none
    else
      let patch := diffValues 0 pa.values na.values
      (diff_view_patches prev next).map fun views =>
        if patch.isEmpty then views else ⟨pa.values, patch⟩ :: views
  | _, _ => some []

def diff_datum_patches {D : Type} (json : D → Str) (prev next : List D) : List DatumPatch :=
  ((prev.zip next).filter fun p => json p.1 != json p.2).map fun p => ⟨json p.1, json p.2⟩

section Classify

-- How a JSON value is written. It is only compared with another one.
variable (to_string : Json → Str)

/-- The last value of a field. -/
def getField (obj : List (Str × Json)) (name : Str) : Option Json := obj.reverse.lookup name

/-- A name and the text of its shape. -/
def parseVariant : Json → Option (Str × Str)
  | .obj vobj => do
    let name ← (getField vobj "name".toList).bind Json.asStr
    let shape ← getField vobj "shape".toList
    some (name, to_string shape)
  | _ => none

variable [Json.Library]

def parse_msg_set (json : Str) : Option (BitVec 64 × List (Str × Str)) :=
  match Json.parse json with
  | some (.obj obj) => do
    let schema ← (getField obj "schema".toList).bind asI64
    let variants ← (getField obj "variants".toList).bind (Json.asList (parseVariant to_string))
    some (schema, variants)
  | _ => none

/-- Every variant of the live set is still there and has the same shape. -/
def msg_set_is_additive_superset (live_json candidate_json : Str) : Bool :=
  match parse_msg_set to_string live_json, parse_msg_set to_string candidate_json with
  | some (live_schema, live_vars), some (cand_schema, cand_vars) =>
    live_schema == cand_schema && live_vars.all fun v => cand_vars.lookup v.1 == some v.2
  | _, _ => false

/-- A descriptor that appears or disappears is no change of data. -/
def diffMsgSet : Option Str → Option Str → Option (List MsgSetPatch)
  | some live, some cand =>
    if live = cand then some []
    else if msg_set_is_additive_superset to_string live cand then some [⟨live, cand⟩]
    else none
  | none, none => some []
  | _, _ => none

/-- The data that two versions of a file differ in, or nothing when something else differs. -/
def classify_file (prev_src next_src : Str) : Option HotSwap := do
  let prev_ch ← scan_channels prev_src
  let next_ch ← scan_channels next_src
  guard (channels_counts_match prev_ch next_ch = true)
  let msg_sets ← diffMsgSet to_string prev_ch.msg_set next_ch.msg_set
  let prev_masks ← mask_spans prev_src prev_ch
  let next_masks ← mask_spans next_src next_ch
  guard (prev_masks.length = next_masks.length)
  guard (skeleton prev_src prev_masks = skeleton next_src next_masks)
  let views ← diff_view_patches prev_ch.arrays next_ch.arrays
  some {
    views
    transitions := diff_datum_patches TransitionData.json prev_ch.trans next_ch.trans
    msg_sets
    subs := diff_datum_patches TransitionData.json prev_ch.subs next_ch.subs
    inits := diff_datum_patches InitData.json prev_ch.inits next_ch.inits
    wirings := diff_datum_patches TransitionData.json prev_ch.wire next_ch.wire }

/-- The same file has no changed data, whether it can be scanned or not. -/
def fileDelta (prev_src next_src : Str) : Option HotSwap :=
  if prev_src = next_src then some HotSwap.default else classify_file to_string prev_src next_src

/-- The data that the files differ in. -/
def classifyFiles (next : EmittedProject) : List (Str × Str) → Option HotSwap
  | [] => some HotSwap.default
  | (rel, prev_src) :: files => do
    let next_src ← next.files.get? rel
    let delta ← fileDelta to_string prev_src next_src
    let rest ← classifyFiles next files
    some (delta.append rest)

def classify (prev next : EmittedProject) : Classification :=
  if prev.cargo_toml ≠ next.cargo_toml then .Logic
  else if prev.files.entries.length ≠ next.files.entries.length then .Logic
  else
    match classifyFiles to_string next prev.files.entries with
    | some hot => .HotSwappable hot
    | none => .Logic

end Classify

/-! ### The running program -/

/-- The patches of a development session, the latest first, by the values that they patch. -/
abbrev DevOverlay := List (List Str × List (ℕ × Str))

def register_dev_patch (active : Bool) (overlay : DevOverlay) (defaults : List Str)
    (patch : List (ℕ × Str)) : DevOverlay :=
  if active then (defaults, patch) :: overlay else overlay

/-- Replace the value at each index of the patch that there is. -/
def apply_patch (values : List Str) (patch : List (ℕ × Str)) : List Str :=
  patch.foldl (fun values p => values.set p.1 p.2) values

/-- The values of a table. -/
def from_defaults (active : Bool) (overlay : DevOverlay) (defaults : List Str) : List Str :=
  match if active then overlay.lookup defaults else none with
  | some patch => apply_patch defaults patch
  | none => defaults

def register_dev_transition (active : Bool) (overlay : DevTransitionOverlay) (default_json : Str)
    (replacement : Transition) : DevTransitionOverlay :=
  if active then (default_json, replacement) :: overlay else overlay

/-- A text that is no transition is refused. -/
def hot_transition_handler [Json.Library] (active : Bool) (overlay : DevTransitionOverlay)
    (parsed : TransitionPatch) : DevTransitionOverlay :=
  match (Json.parse parsed.new_json).bind Transition.ofJson with
  | some replacement => register_dev_transition active overlay parsed.old_json replacement
  | none => overlay

/-- The transition that is applied at a site. -/
def transition_for [Json.Library] (active : Bool) (overlay : DevTransitionOverlay) (default_json : Str) :
    Option Transition :=
  match if active then overlay.lookup default_json else none with
  | some replacement => some replacement
  | none => (Json.parse default_json).bind Transition.ofJson

theorem apply_transition_hot_eq [Json.Library] {D T : Type} (serde : Serde D T) (active : Bool)
    (overlay : DevTransitionOverlay) (key : Types.Symbol → Str) (shape : Shape T)
    (default_json : Str) (model : Fields D) :
    apply_transition_hot serde active overlay key shape default_json model =
      match transition_for active overlay default_json with
      | some t => apply_transition serde key shape t model
      | none => model := by
  unfold apply_transition_hot transition_for
  cases if active then overlay.lookup default_json else none <;> rfl

/-- What the swaps of a development session have left. -/
structure Overlays where
  views : DevOverlay
  transitions : DevTransitionOverlay

def register_swap [Json.Library] (active : Bool) (overlays : Overlays) (hot : HotSwap) : Overlays where
  views := hot.views.foldl
    (fun overlay p => register_dev_patch active overlay p.defaults p.patch) overlays.views
  transitions := hot.transitions.foldl (hot_transition_handler active) overlays.transitions

/-- Register all swaps in their order. -/
def register_swaps [Json.Library] (active : Bool) (swaps : List HotSwap) : Overlays :=
  swaps.foldl (register_swap active) ⟨[], []⟩

/-! ### Sites -/

/-- The default values of the views of a file. -/
def baked_defaults (src : Str) : List (List Str) :=
  ((scan_defaults_arrays src).getD []).map DefaultsArray.values

/-- The texts of the transitions of a file. -/
def baked_transitions (src : Str) : List Str :=
  ((scan_transition_data src).getD []).map TransitionData.json

section Sites

variable {K : Type} (baked : Str → List K)

/-- The sites of a list of files, with what another emit bakes there. -/
def sitesOf (e : EmittedProject) (files : List (Str × Str)) : List (Site K) :=
  files.flatMap fun f => (baked f.2).zip (baked ((e.files.get? f.1).getD []))

/-- The sites of the running program, with what another emit bakes there. -/
def sites (e₀ e : EmittedProject) : List (Site K) := sitesOf baked e e₀.files.entries

end Sites

/-- The transitions of an emit are written as the emitter writes them. -/
def Emitted (e : EmittedProject) : Prop :=
  ∀ f ∈ e.files.entries, ∀ json ∈ baked_transitions f.2, ∃ t : Transition, json = t.to_json

/-- Every table and every transition of the running program is the one that `e` bakes. -/
structure AgreesWithRebuild [Json.Library] (overlays : Overlays) (e₀ e : EmittedProject) : Prop where
  views : ∀ s ∈ sites baked_defaults e₀ e, from_defaults true overlays.views s.1 = s.2
  transitions : ∀ s ∈ sites baked_transitions e₀ e,
    transition_for true overlays.transitions s.1 = (Json.parse s.2).bind Transition.ofJson

/-- The swaps of a development session: each emit is one for the running program. -/
def Swaps [Json.Library] (to_string : Json → Str) (e₀ : EmittedProject) (es : List EmittedProject)
    (swaps : List HotSwap) : Prop :=
  List.Forall₂ (fun e hot => classify to_string e₀ e = .HotSwappable hot ∧ hot.is_empty = false)
    es swaps

/-! ### What a swap sends -/

/-- What a patch makes of the values of its table. -/
def ViewPatch.site (p : ViewPatch) : Site (List Str) := (p.defaults, apply_patch p.defaults p.patch)

def DatumPatch.site (p : DatumPatch) : Site Str := (p.old_json, p.new_json)

/-- Values before an index are not touched by later patches. -/
theorem apply_diffValues {vs vs' : List Str} (h : vs.length = vs'.length) (pre : List Str) :
    apply_patch (pre ++ vs) (diffValues pre.length vs vs') = pre ++ vs' := by
  induction vs generalizing vs' pre with
  | nil =>
    obtain rfl : vs' = [] := List.length_eq_zero_iff.1 h.symm
    rfl
  | cons v vs ih =>
    cases vs' with
    | nil => cases h
    | cons v' vs' =>
      have hlen : vs.length = vs'.length := Nat.succ.inj h
      have hrest := ih hlen (pre ++ [v'])
      rw [List.length_append, List.length_singleton, List.append_assoc, List.append_assoc] at hrest
      unfold diffValues
      split_ifs with hv
      · have hset : (pre ++ v :: vs).set pre.length v' = pre ++ v' :: vs := by simp
        rw [apply_patch, List.foldl_cons, hset]
        exact hrest
      · obtain rfl : v = v' := not_not.1 hv
        exact hrest

theorem diffValues_eq_nil {vs vs' : List Str} (h : vs.length = vs'.length) (idx : ℕ) :
    diffValues idx vs vs' = [] ↔ vs = vs' := by
  induction vs generalizing vs' idx with
  | nil => simp [diffValues, List.length_eq_zero_iff.1 h.symm]
  | cons v vs ih =>
    cases vs' with
    | nil => cases h
    | cons v' vs' =>
      unfold diffValues
      split_ifs with hv
      · simp [hv]
      · rw [ih (Nat.succ.inj h), List.cons.injEq, not_not.1 hv]
        simp

/-- One patch is sent for every table that has changed. -/
theorem diff_view_patches_sites {prev next : List DefaultsArray} {views : List ViewPatch}
    (h : diff_view_patches prev next = some views) :
    views.map ViewPatch.site =
      changed ((prev.map DefaultsArray.values).zip (next.map DefaultsArray.values)) := by
  induction prev generalizing next views with
  | nil =>
    cases h
    rfl
  | cons pa prev ih =>
    cases next with
    | nil =>
      cases h
      rfl
    | cons na next =>
      unfold diff_view_patches at h
      split_ifs at h with hlen
      obtain ⟨rest, hrest, rfl⟩ := Option.map_eq_some_iff.1 h
      have hlen : pa.values.length = na.values.length := not_not.1 hlen
      rw [List.map_cons, List.map_cons, List.zip_cons_cons, changed, List.filter_cons, ← changed,
        ← ih hrest]
      by_cases hsame : pa.values = na.values
      · rw [(diffValues_eq_nil hlen 0).2 hsame]
        simp [hsame]
      · have hne : (diffValues 0 pa.values na.values).isEmpty = false := by
          rw [List.isEmpty_eq_false_iff]
          exact fun hnil => hsame ((diffValues_eq_nil hlen 0).1 hnil)
        have happly := apply_diffValues hlen []
        simp only [List.nil_append, List.length_nil] at happly
        simp [hne, hsame, ViewPatch.site, happly]

theorem diff_datum_patches_sites {D : Type} (json : D → Str) (prev next : List D) :
    (diff_datum_patches json prev next).map DatumPatch.site =
      changed ((prev.map json).zip (next.map json)) := by
  unfold diff_datum_patches changed
  rw [List.zip_map, List.filter_map, List.map_map]
  rfl

/-! ### The sites of an emit -/

theorem scan_channels_eq_some {src : Str} {ch : Channels} (h : scan_channels src = some ch) :
    baked_defaults src = ch.arrays.map DefaultsArray.values ∧
      baked_transitions src = ch.trans.map TransitionData.json := by
  simp only [scan_channels, Option.bind_eq_bind, Option.bind_eq_some_iff, Option.some.injEq] at h
  obtain ⟨arrays, harrays, trans, htrans, subs, -, inits, -, wire, -, rfl⟩ := h
  rw [baked_defaults, baked_transitions, harrays, htrans]
  exact ⟨rfl, rfl⟩

theorem changed_zip_self {K : Type} [BEq K] [LawfulBEq K] (l : List K) : changed (l.zip l) = [] := by
  refine List.filter_eq_nil_iff.2 fun s hs => ?_
  obtain ⟨i, hi, rfl⟩ := List.getElem_of_mem hs
  simp

section Classify

variable [Json.Library] {to_string : Json → Str} {e₀ e : EmittedProject} {hot : HotSwap}

theorem classify_file_eq_some {prev_src next_src : Str}
    (h : classify_file to_string prev_src next_src = some hot) :
    hot.views.map ViewPatch.site =
        changed ((baked_defaults prev_src).zip (baked_defaults next_src)) ∧
      hot.transitions.map DatumPatch.site =
        changed ((baked_transitions prev_src).zip (baked_transitions next_src)) := by
  simp only [classify_file, Option.bind_eq_bind, Option.bind_eq_some_iff, Option.some.injEq] at h
  obtain ⟨prev_ch, hprev, next_ch, hnext, -, -, msg_sets, -, prev_masks, -, next_masks, -, -, -, -, -,
    views, hviews, rfl⟩ := h
  obtain ⟨hprevArrays, hprevTrans⟩ := scan_channels_eq_some hprev
  obtain ⟨hnextArrays, hnextTrans⟩ := scan_channels_eq_some hnext
  rw [hprevArrays, hnextArrays, hprevTrans, hnextTrans]
  exact ⟨diff_view_patches_sites hviews, diff_datum_patches_sites ..⟩

/-- The patches of a swap are the changed sites. -/
theorem classifyFiles_sites {files : List (Str × Str)}
    (h : classifyFiles to_string e files = some hot) :
    hot.views.map ViewPatch.site = changed (sitesOf baked_defaults e files) ∧
      hot.transitions.map DatumPatch.site = changed (sitesOf baked_transitions e files) := by
  induction files generalizing hot with
  | nil =>
    cases h
    exact ⟨rfl, rfl⟩
  | cons f files ih =>
    obtain ⟨rel, prev_src⟩ := f
    simp only [classifyFiles, Option.bind_eq_bind, Option.bind_eq_some_iff, Option.some.injEq] at h
    obtain ⟨next_src, hnext, delta, hdelta, rest, hrest, rfl⟩ := h
    obtain ⟨hviews, htrans⟩ := ih hrest
    have hfile : delta.views.map ViewPatch.site =
          changed ((baked_defaults prev_src).zip (baked_defaults next_src)) ∧
        delta.transitions.map DatumPatch.site =
          changed ((baked_transitions prev_src).zip (baked_transitions next_src)) := by
      unfold fileDelta at hdelta
      split_ifs at hdelta with hsame
      · cases hdelta
        rw [hsame, changed_zip_self, changed_zip_self]
        exact ⟨rfl, rfl⟩
      · exact classify_file_eq_some hdelta
    simp only [sitesOf, List.flatMap_cons, changed, List.filter_append] at hviews htrans hfile ⊢
    simp [HotSwap.append, hviews, htrans, hfile, hnext]

theorem classify_sites (h : classify to_string e₀ e = .HotSwappable hot) :
    hot.views.map ViewPatch.site = changed (sites baked_defaults e₀ e) ∧
      hot.transitions.map DatumPatch.site = changed (sites baked_transitions e₀ e) := by
  unfold classify at h
  split_ifs at h
  split at h
  · rename_i hfiles
    cases h
    exact classifyFiles_sites hfiles
  · cases h

end Classify

/-! ### Runs -/

section Run

variable {to_string : Json → Str} {e₀ : EmittedProject} {es : List EmittedProject} {swaps : List HotSwap}

/-- What the program and then the emits bake at the sites of the program. -/
def rounds {K : Type} (baked : Str → List K) (e₀ : EmittedProject) (es : List EmittedProject) :
    List (List (Site K)) := (e₀ :: es).map (sites baked e₀)

theorem rounds_getLast? {K : Type} (baked : Str → List K) (e₀ : EmittedProject)
    (es : List EmittedProject) :
    (rounds baked e₀ es).getLast? = some (sites baked e₀ (es.getLastD e₀)) := by
  rw [rounds, List.getLast?_map, List.getLast?_cons, Option.map_some, List.getLastD_eq_getLast?]

/-- The program bakes what it was made with. -/
theorem changed_sites_self {K : Type} [BEq K] [LawfulBEq K] (baked : Str → List K)
    (e₀ : EmittedProject) : changed (sites baked e₀ e₀) = [] := by
  refine List.filter_eq_nil_iff.2 fun s hs => ?_
  obtain ⟨f, hf, hs⟩ := List.mem_flatMap.1 hs
  have hget : e₀.files.get? f.1 = some f.2 := SortedMap.get?_eq_some.2 hf
  rw [hget, Option.getD_some] at hs
  exact List.filter_eq_nil_iff.1 (changed_zip_self (baked f.2)) s hs

theorem registerAll_rounds {K : Type} [BEq K] [LawfulBEq K] (baked : Str → List K)
    (e₀ : EmittedProject) (es : List EmittedProject) :
    Lib.Overlay.registerAll (rounds baked e₀ es) =
      (es.map (sites baked e₀)).foldl Lib.Overlay.register [] := by
  rw [rounds, Lib.Overlay.registerAll, List.map_cons, List.foldl_cons, Lib.Overlay.register_eq,
    changed_sites_self]
  rfl

/-- The contents that an overlay of patches stands for. -/
def contents (overlay : DevOverlay) : List (List Str × List Str) :=
  overlay.map fun p => (p.1, apply_patch p.1 p.2)

/-- The texts of the transitions of an overlay. -/
def texts (overlay : DevTransitionOverlay) : List (Str × Str) :=
  overlay.map fun p => (p.1, p.2.to_json)

theorem Emitted.site {e : EmittedProject} (he : Emitted e) {s : Site Str}
    (hs : s ∈ sites baked_transitions e₀ e) : ∃ t : Transition, s.2 = t.to_json := by
  obtain ⟨f, -, hs⟩ := List.mem_flatMap.1 hs
  have hmem : s.2 ∈ baked_transitions ((e.files.get? f.1).getD []) := (List.of_mem_zip hs).2
  cases hget : e.files.get? f.1 with
  | none =>
    rw [hget] at hmem
    exact absurd hmem (by simp [show baked_transitions [] = [] from rfl])
  | some src =>
    rw [hget] at hmem
    exact he (f.1, src) (SortedMap.get?_eq_some.1 hget) _ hmem

theorem Emitted.site_fst {e : EmittedProject} (he₀ : Emitted e₀) {s : Site Str}
    (hs : s ∈ sites baked_transitions e₀ e) : ∃ t : Transition, s.1 = t.to_json := by
  obtain ⟨f, hf, hs⟩ := List.mem_flatMap.1 hs
  exact he₀ f hf _ (List.of_mem_zip hs).1

theorem from_defaults_eq (overlay : DevOverlay) (defaults : List Str) :
    from_defaults true overlay defaults = Lib.Overlay.read (contents overlay) defaults := by
  unfold from_defaults Lib.Overlay.read contents
  rw [Lib.Overlay.lookup_map apply_patch]
  cases overlay.lookup defaults <;> rfl

theorem to_json_injective : Function.Injective Transition.to_json := fun t t' h => by
  have hread := congrArg (fun text => (Json.parse text).bind Transition.ofJson) h
  simpa [read_to_json] using hread

variable [Json.Library]

theorem register_swap_views (overlays : Overlays) (hot : HotSwap) :
    contents (register_swap true overlays hot).views =
      (hot.views.map ViewPatch.site).reverse ++ contents overlays.views := by
  have hregister : (register_swap true overlays hot).views =
      (hot.views.map fun p => (p.defaults, p.patch)).reverse ++ overlays.views :=
    List.foldl_flip_cons_eq_append
  rw [hregister, contents, List.map_append, List.map_reverse, List.map_map]
  rfl

theorem register_swaps_views (h : Swaps to_string e₀ es swaps) :
    contents (register_swaps true swaps).views =
      Lib.Overlay.registerAll (rounds baked_defaults e₀ es) := by
  have hrun : ∀ overlays : Overlays, contents (swaps.foldl (register_swap true) overlays).views =
      (es.map (sites baked_defaults e₀)).foldl Lib.Overlay.register (contents overlays.views) := by
    induction h with
    | nil => intro overlays; rfl
    | cons hclassify _ ih =>
      intro overlays
      rw [List.foldl_cons, ih, register_swap_views, (classify_sites hclassify.1).1,
        ← Lib.Overlay.register_eq]
      rfl
  rw [registerAll_rounds]
  exact hrun _

theorem hot_transition_handler_to_json (overlay : DevTransitionOverlay) (old_json : Str)
    (t : Transition) :
    hot_transition_handler true overlay ⟨old_json, t.to_json⟩ = (old_json, t) :: overlay := by
  rw [hot_transition_handler, read_to_json]
  rfl

theorem handle_transitions {patches : List TransitionPatch}
    (h : ∀ p ∈ patches, ∃ t : Transition, p.new_json = t.to_json) (overlay : DevTransitionOverlay) :
    texts (patches.foldl (hot_transition_handler true) overlay) =
      (patches.map DatumPatch.site).reverse ++ texts overlay := by
  induction patches generalizing overlay with
  | nil => rfl
  | cons p patches ih =>
    obtain ⟨⟨t, ht⟩, hpatches⟩ := List.forall_mem_cons.1 h
    obtain ⟨old_json, new_json⟩ := p
    obtain rfl : new_json = t.to_json := ht
    rw [List.foldl_cons, ih hpatches, hot_transition_handler_to_json, List.map_cons,
      List.reverse_cons, List.append_assoc]
    rfl

theorem register_swaps_transitions (h : Swaps to_string e₀ es swaps)
    (hes : ∀ e ∈ es, Emitted e) :
    texts (register_swaps true swaps).transitions =
      Lib.Overlay.registerAll (rounds baked_transitions e₀ es) := by
  have hrun : ∀ overlays : Overlays, texts (swaps.foldl (register_swap true) overlays).transitions =
      (es.map (sites baked_transitions e₀)).foldl Lib.Overlay.register
        (texts overlays.transitions) := by
    induction h with
    | nil => intro overlays; rfl
    | @cons e hot es swaps hclassify _ ih =>
      intro overlays
      obtain ⟨he, hes⟩ := List.forall_mem_cons.1 hes
      have hsites := (classify_sites hclassify.1).2
      have hnew : ∀ p ∈ hot.transitions, ∃ t : Transition, p.new_json = t.to_json := by
        intro p hp
        have hmem : p.site ∈ changed (sites baked_transitions e₀ e) :=
          hsites ▸ List.mem_map_of_mem hp
        exact he.site (Lib.Overlay.mem_changed.1 hmem).1
      rw [List.foldl_cons, ih hes]
      have hregister : texts (register_swap true overlays hot).transitions =
          Lib.Overlay.register (texts overlays.transitions) (sites baked_transitions e₀ e) := by
        rw [Lib.Overlay.register_eq, ← hsites]
        exact handle_transitions hnew _
      rw [hregister]
      rfl
  rw [registerAll_rounds]
  exact hrun _

/-! ### Agreement -/

/-- A site applies the transition of a text exactly when that text is read there. -/
theorem transition_for_eq_iff (overlay : DevTransitionOverlay) (t t' : Transition) :
    transition_for true overlay t.to_json = (Json.parse t'.to_json).bind Transition.ofJson ↔
      Lib.Overlay.read (texts overlay) t.to_json = t'.to_json := by
  unfold transition_for Lib.Overlay.read texts
  rw [Lib.Overlay.lookup_map fun _ (t : Transition) => t.to_json, read_to_json, read_to_json]
  cases overlay.lookup t.to_json with
  | none => simp [to_json_injective.eq_iff]
  | some r => simp [to_json_injective.eq_iff]

/-- The tables and the transitions of the program are steady: those that the program bakes alike are
alike in the last emit, and none of them is in the last emit as the program bakes it after another one
like it was changed. -/
structure SteadyRun (e₀ : EmittedProject) (es : List EmittedProject) : Prop where
  views : Steady (rounds baked_defaults e₀ es) (sites baked_defaults e₀ (es.getLastD e₀))
  transitions : Steady (rounds baked_transitions e₀ es)
    (sites baked_transitions e₀ (es.getLastD e₀))

/-- After all swaps the program reads what the last emit bakes, exactly when its sites are steady. -/
theorem hot_swap_agrees_iff (h : Swaps to_string e₀ es swaps)
    (hemitted : ∀ e ∈ e₀ :: es, Emitted e) :
    AgreesWithRebuild (register_swaps true swaps) e₀ (es.getLastD e₀) ↔ SteadyRun e₀ es := by
  obtain ⟨he₀, hes⟩ := List.forall_mem_cons.1 hemitted
  have hviews := Lib.Overlay.read_eq_iff (rounds_getLast? baked_defaults e₀ es)
  have htransitions := Lib.Overlay.read_eq_iff (rounds_getLast? baked_transitions e₀ es)
  rw [← register_swaps_views h] at hviews
  rw [← register_swaps_transitions h hes] at htransitions
  have hread : ∀ s ∈ sites baked_transitions e₀ (es.getLastD e₀),
      transition_for true (register_swaps true swaps).transitions s.1 =
          (Json.parse s.2).bind Transition.ofJson ↔
        Lib.Overlay.read (texts (register_swaps true swaps).transitions) s.1 = s.2 := by
    rintro ⟨json, json'⟩ hs
    obtain ⟨t, ht⟩ := he₀.site_fst hs
    obtain ⟨t', ht'⟩ := (hemitted _ List.getLastD_mem_cons).site hs
    obtain rfl : json = t.to_json := ht
    obtain rfl : json' = t'.to_json := ht'
    exact transition_for_eq_iff ..
  constructor
  · rintro ⟨h₁, h₂⟩
    refine ⟨hviews.1 fun s hs => ?_, htransitions.1 fun s hs => (hread s hs).1 (h₂ s hs)⟩
    rw [← from_defaults_eq]
    exact h₁ s hs
  · rintro ⟨h₁, h₂⟩
    refine ⟨fun s hs => ?_, fun s hs => (hread s hs).2 (htransitions.2 h₂ s hs)⟩
    rw [from_defaults_eq]
    exact hviews.2 h₁ s hs

/-- A program that agrees with a rebuild runs the transitions that the last emit bakes. -/
theorem AgreesWithRebuild.apply {D T : Type} {overlays : Overlays} {e : EmittedProject}
    (h : AgreesWithRebuild overlays e₀ e) (serde : Serde D T) (key : Types.Symbol → Str)
    (shape : Shape T) (model : Fields D) {s : Site Str} (hs : s ∈ sites baked_transitions e₀ e) :
    apply_transition_hot serde true overlays.transitions key shape s.1 model =
      apply_transition_hot serde false [] key shape s.2 model := by
  have hbaked : transition_for false [] s.2 = (Json.parse s.2).bind Transition.ofJson := rfl
  rw [apply_transition_hot_eq, apply_transition_hot_eq, h.transitions s hs, hbaked]

end Run

/-! ### Two programs -/

/-- A view whose padding is a hoisted literal. -/
def paddingView (name px : String) : Str :=
  ("fn ".toList ++ name.toList ++ "() \x7b let __ipe_lit = LiteralTable::from_defaults(&[\"".toList ++
    px.toList ++ "\"]); ui_padding_(__ipe_lit.get(0).parse::<i64>().unwrap_or(".toList ++
    px.toList ++ "i64)) \x7d\n".toList)

/-- An update function that sets the field `on`. -/
def switchUpdate (value : String) : Str :=
  "fn update(model) \x7b apply_transition_hot(\"\x7b\\\"field\\\":\\\"on\\\",\\\"op\\\":\\\"Set\\\",".toList ++
    "\\\"source\\\":\x7b\\\"Bool\\\":".toList ++ value.toList ++ "\x7d\x7d\", model) \x7d\n".toList

/-- A program with one file. -/
def oneFile (src : Str) : EmittedProject where
  files := ⟨[("src/main.rs".toList, src)], List.pairwise_singleton ..⟩
  cargo_toml := []

theorem emitted_oneFile {src : Str} (ts : List Transition)
    (h : baked_transitions src = ts.map Transition.to_json) : Emitted (oneFile src) := by
  intro f hf json hjson
  obtain rfl := List.mem_singleton.1 hf
  rw [h] at hjson
  obtain ⟨t, -, rfl⟩ := List.mem_map.1 hjson
  exact ⟨t, rfl⟩

theorem sites_oneFile {K : Type} (baked : Str → List K) (src src' : Str) :
    sites baked (oneFile src) (oneFile src') = (baked src).zip (baked src') := by
  have hget : (oneFile src').files.get? "src/main.rs".toList = some src' := rfl
  simp [sites, sitesOf, oneFile] at hget ⊢
  rw [hget, Option.getD_some]

/-- A padding and the update function are edited. -/
theorem padding_and_switch_agree :
    AgreesWithRebuild
      (register_swaps true
        [⟨[⟨["12".toList], [(0, "16".toList)]⟩],
          [⟨(⟨"on".toList, .Set, .Bool true⟩ : Transition).to_json,
            (⟨"on".toList, .Set, .Bool false⟩ : Transition).to_json⟩], [], [], [], []⟩])
      (oneFile (paddingView "main" "12" ++ switchUpdate "true"))
      (oneFile (paddingView "main" "16" ++ switchUpdate "false")) := by
  have hswaps : Swaps (fun j => j.print escape)
      (oneFile (paddingView "main" "12" ++ switchUpdate "true"))
      [oneFile (paddingView "main" "16" ++ switchUpdate "false")]
      [⟨[⟨["12".toList], [(0, "16".toList)]⟩],
        [⟨(⟨"on".toList, .Set, .Bool true⟩ : Transition).to_json,
          (⟨"on".toList, .Set, .Bool false⟩ : Transition).to_json⟩], [], [], [], []⟩] :=
    .cons ⟨by decide +kernel, rfl⟩ .nil
  have hviews : baked_defaults (paddingView "main" "12" ++ switchUpdate "true") = [["12".toList]] ∧
      baked_defaults (paddingView "main" "16" ++ switchUpdate "false") = [["16".toList]] := by
    decide +kernel
  have htransitions : baked_transitions (paddingView "main" "12" ++ switchUpdate "true") =
        [(⟨"on".toList, .Set, .Bool true⟩ : Transition).to_json] ∧
      baked_transitions (paddingView "main" "16" ++ switchUpdate "false") =
        [(⟨"on".toList, .Set, .Bool false⟩ : Transition).to_json] := by
    decide +kernel
  refine (hot_swap_agrees_iff hswaps ?_).2 ⟨?_, ?_⟩
  · simp only [List.forall_mem_cons, List.not_mem_nil, false_imp_iff, implies_true, and_true]
    exact ⟨emitted_oneFile [⟨"on".toList, .Set, .Bool true⟩] htransitions.1,
      emitted_oneFile [⟨"on".toList, .Set, .Bool false⟩] htransitions.2⟩
  · simp only [rounds, List.map_cons, List.map_nil, List.getLastD_cons, List.getLastD_nil,
      sites_oneFile, hviews]
    exact ⟨by decide, by decide⟩
  · simp only [rounds, List.map_cons, List.map_nil, List.getLastD_cons, List.getLastD_nil,
      sites_oneFile, htransitions]
    exact ⟨by decide, by decide⟩

/-- Two views with the same padding, one of which is edited: the other one follows it. -/
theorem alike_views_disagree :
    ¬ ∀ (to_string : Json → Str) (e₀ : EmittedProject) (es : List EmittedProject)
      (swaps : List HotSwap), Swaps to_string e₀ es swaps → (∀ e ∈ e₀ :: es, Emitted e) →
        AgreesWithRebuild (register_swaps true swaps) e₀ (es.getLastD e₀) := by
  intro h
  have hswap : classify (fun j => j.print escape)
      (oneFile (paddingView "header" "12" ++ paddingView "footer" "12"))
      (oneFile (paddingView "header" "12" ++ paddingView "footer" "16")) =
        .HotSwappable ⟨[⟨["12".toList], [(0, "16".toList)]⟩], [], [], [], [], []⟩ := by
    decide +kernel
  have htransitions : baked_transitions (paddingView "header" "12" ++ paddingView "footer" "12") = [] ∧
      baked_transitions (paddingView "header" "12" ++ paddingView "footer" "16") = [] := by
    decide +kernel
  have hemitted : ∀ e ∈ [oneFile (paddingView "header" "12" ++ paddingView "footer" "12"),
      oneFile (paddingView "header" "12" ++ paddingView "footer" "16")], Emitted e := by
    simp only [List.forall_mem_cons, List.not_mem_nil, false_imp_iff, implies_true, and_true]
    exact ⟨emitted_oneFile [] htransitions.1, emitted_oneFile [] htransitions.2⟩
  have hviews : baked_defaults (paddingView "header" "12" ++ paddingView "footer" "12") =
        [["12".toList], ["12".toList]] ∧
      baked_defaults (paddingView "header" "12" ++ paddingView "footer" "16") =
        [["12".toList], ["16".toList]] := by
    decide +kernel
  have hread := (h _ _ _ _ (.cons ⟨hswap, rfl⟩ .nil) hemitted).views
  rw [List.getLastD_cons, List.getLastD_nil, sites_oneFile, hviews.1, hviews.2] at hread
  exact absurd (hread (["12".toList], ["12".toList]) (by decide)) (by decide)

end IpeLang.Hot
