import IpeLang.Hot.Mask

/-!
# All data of a swap

Besides the tables and the transitions, a swap carries the subscriptions, the initial models and the
wirings that have changed. The running program keeps each of them under the text that it bakes.

* `registered`: the texts that the swaps of a session have left for one of these legs;
* `ReadsAs`: the program reads at every site what an emit bakes there;
* `readsAs_of_steady`: it does after a run of swaps, if all its sites are steady.
-/

namespace IpeLang.Hot

open Lib (Str Json)
open Lib.Overlay (Site changed Steady)

/-- The texts of the subscriptions of a file. -/
def baked_subs (src : Str) : List Str := ((scan_sub_data src).getD []).map TransitionData.json

/-- The texts of the initial models of a file. -/
def baked_inits (src : Str) : List Str := ((scan_init_data src).getD []).map InitData.json

/-- The texts of the wirings of a file. -/
def baked_wirings (src : Str) : List Str := ((scan_wiring_data src).getD []).map TransitionData.json

/-- Register the patches of one leg. The latest entry comes first. -/
def register_texts (overlay : List (Str × Str)) (patches : List DatumPatch) : List (Str × Str) :=
  patches.foldl (fun overlay p => p.site :: overlay) overlay

/-- What the swaps of a session have left for one leg. -/
def registered (leg : HotSwap → List DatumPatch) (swaps : List HotSwap) : List (Str × Str) :=
  swaps.foldl (fun overlay hot => register_texts overlay (leg hot)) []

/-- Every site of one leg is read as another emit bakes it. -/
def LegReads (baked : Str → List Str) (overlay : List (Str × Str)) (e₀ e : EmittedProject) : Prop :=
  ∀ s ∈ sites baked e₀ e, Lib.Overlay.read overlay s.1 = s.2

/-- After these swaps the program reads at every site what `e` bakes there. -/
structure ReadsAs [Json.Library] (swaps : List HotSwap) (e₀ e : EmittedProject) : Prop where
  shown : AgreesWithRebuild (register_swaps true swaps) e₀ e
  subs : LegReads baked_subs (registered HotSwap.subs swaps) e₀ e
  inits : LegReads baked_inits (registered HotSwap.inits swaps) e₀ e
  wirings : LegReads baked_wirings (registered HotSwap.wirings swaps) e₀ e

/-- The sites of one leg are steady. -/
def SteadyLeg (baked : Str → List Str) (e₀ : EmittedProject) (es : List EmittedProject) : Prop :=
  Steady (rounds baked e₀ es) (sites baked e₀ (es.getLastD e₀))

/-- All sites of the program are steady. -/
structure SteadyData (e₀ : EmittedProject) (es : List EmittedProject) : Prop where
  shown : SteadyRun e₀ es
  subs : SteadyLeg baked_subs e₀ es
  inits : SteadyLeg baked_inits e₀ es
  wirings : SteadyLeg baked_wirings e₀ es

/-! ### One leg -/

theorem register_texts_eq (overlay : List (Str × Str)) (patches : List DatumPatch) :
    register_texts overlay patches = (patches.map DatumPatch.site).reverse ++ overlay :=
  List.foldl_flip_cons_eq_append

section Leg

variable [Json.Library] {to_string : Json → Str} {baked : Str → List Str} {leg : HotSwap → List DatumPatch}
  {e₀ e : EmittedProject} {es : List EmittedProject} {hot : HotSwap} {swaps : List HotSwap}

/-- A leg sends the texts that differ between two versions of a file, and those of all files. -/
structure Sends [Json.Library] (to_string : Json → Str) (baked : Str → List Str)
    (leg : HotSwap → List DatumPatch) : Prop where
  default : leg HotSwap.default = []
  append : ∀ a b : HotSwap, leg (a.append b) = leg a ++ leg b
  file : ∀ prev_src next_src hot, classify_file to_string prev_src next_src = some hot →
    (leg hot).map DatumPatch.site = changed ((baked prev_src).zip (baked next_src))

theorem Sends.files (h : Sends to_string baked leg) {files : List (Str × Str)}
    (hfiles : classifyFiles to_string e files = some hot) :
    (leg hot).map DatumPatch.site = changed (sitesOf baked e files) := by
  induction files generalizing hot with
  | nil =>
    cases hfiles
    rw [h.default]
    rfl
  | cons f files ih =>
    obtain ⟨rel, prev_src⟩ := f
    simp only [classifyFiles, Option.bind_eq_bind, Option.bind_eq_some_iff, Option.some.injEq] at hfiles
    obtain ⟨next_src, hnext, delta, hdelta, rest, hrest, rfl⟩ := hfiles
    have hfile : (leg delta).map DatumPatch.site =
        changed ((baked prev_src).zip (baked next_src)) := by
      unfold fileDelta at hdelta
      split_ifs at hdelta with hsame
      · cases hdelta
        rw [hsame, changed_zip_self, h.default]
        rfl
      · exact h.file _ _ _ hdelta
    have hrest := ih hrest
    simp only [sitesOf, List.flatMap_cons, changed, List.filter_append] at hrest hfile ⊢
    rw [h.append, List.map_append, hfile, hrest, hnext, Option.getD_some]

theorem Sends.sites (h : Sends to_string baked leg) (hswap : classify to_string e₀ e = .HotSwappable hot) :
    (leg hot).map DatumPatch.site = changed (sites baked e₀ e) := by
  unfold classify at hswap
  split_ifs at hswap
  split at hswap
  · rename_i hfiles
    cases hswap
    exact h.files hfiles
  · cases hswap

theorem Sends.registered (h : Sends to_string baked leg) (hswaps : Swaps to_string e₀ es swaps) :
    registered leg swaps = Lib.Overlay.registerAll (rounds baked e₀ es) := by
  have hrun : ∀ overlay, swaps.foldl (fun overlay hot => register_texts overlay (leg hot)) overlay =
      (es.map (Hot.sites baked e₀)).foldl Lib.Overlay.register overlay := by
    induction hswaps with
    | nil => intro overlay; rfl
    | cons hclassify _ ih =>
      intro overlay
      rw [List.foldl_cons, ih, register_texts_eq, h.sites hclassify.1, ← Lib.Overlay.register_eq]
      rfl
  rw [registerAll_rounds]
  exact hrun []

theorem Sends.reads (h : Sends to_string baked leg) (hswaps : Swaps to_string e₀ es swaps)
    (hsteady : SteadyLeg baked e₀ es) :
    LegReads baked (Hot.registered leg swaps) e₀ (es.getLastD e₀) := by
  rw [h.registered hswaps]
  exact (Lib.Overlay.read_eq_iff (rounds_getLast? baked e₀ es)).2 hsteady

theorem sends_subs (to_string : Json → Str) : Sends to_string baked_subs HotSwap.subs where
  default := rfl
  append _ _ := rfl
  file prev_src next_src hot h := by
    simp only [classify_file, Option.bind_eq_bind, Option.bind_eq_some_iff, Option.some.injEq] at h
    obtain ⟨prev_ch, hprev, next_ch, hnext, -, -, -, -, -, -, -, -, -, -, -, -, -, -, rfl⟩ := h
    rw [baked_subs, baked_subs, (scan_channels_scans hprev).2.2.1, (scan_channels_scans hnext).2.2.1]
    exact diff_datum_patches_sites ..

theorem sends_inits (to_string : Json → Str) : Sends to_string baked_inits HotSwap.inits where
  default := rfl
  append _ _ := rfl
  file prev_src next_src hot h := by
    simp only [classify_file, Option.bind_eq_bind, Option.bind_eq_some_iff, Option.some.injEq] at h
    obtain ⟨prev_ch, hprev, next_ch, hnext, -, -, -, -, -, -, -, -, -, -, -, -, -, -, rfl⟩ := h
    rw [baked_inits, baked_inits, (scan_channels_scans hprev).2.2.2.1,
      (scan_channels_scans hnext).2.2.2.1]
    exact diff_datum_patches_sites ..

theorem sends_wirings (to_string : Json → Str) : Sends to_string baked_wirings HotSwap.wirings where
  default := rfl
  append _ _ := rfl
  file prev_src next_src hot h := by
    simp only [classify_file, Option.bind_eq_bind, Option.bind_eq_some_iff, Option.some.injEq] at h
    obtain ⟨prev_ch, hprev, next_ch, hnext, -, -, -, -, -, -, -, -, -, -, -, -, -, -, rfl⟩ := h
    rw [baked_wirings, baked_wirings, (scan_channels_scans hprev).2.2.2.2.1,
      (scan_channels_scans hnext).2.2.2.2.1]
    exact diff_datum_patches_sites ..

end Leg

/-! ### All legs -/

/-- A program without any swap reads what it bakes. -/
theorem steady_nil {K : Type} [BEq K] [LawfulBEq K] (baked : Str → List K) (e₀ : EmittedProject) :
    Steady (rounds baked e₀ []) (sites baked e₀ e₀) := by
  have hself : ∀ s ∈ sites baked e₀ e₀, s.2 = s.1 := fun s hs => by
    by_contra hne
    have hmem : s ∈ changed (sites baked e₀ e₀) := Lib.Overlay.mem_changed.2 ⟨hs, Ne.symm hne⟩
    rw [changed_sites_self] at hmem
    exact List.not_mem_nil hmem
  refine ⟨fun s hs s' hs' hkey => ?_, fun s hs _ round hround s' hs' _ => ?_⟩
  · rw [hself s hs, hself s' hs', hkey]
  · rw [List.mem_singleton.1 hround] at hs'
    exact hself s' hs'

theorem steadyData_nil (e₀ : EmittedProject) : SteadyData e₀ [] where
  shown := ⟨steady_nil _ _, steady_nil _ _⟩
  subs := steady_nil _ _
  inits := steady_nil _ _
  wirings := steady_nil _ _

section Run

variable [Json.Library] {to_string : Json → Str} {e₀ : EmittedProject} {es : List EmittedProject}
  {swaps : List HotSwap}

/-- The tables and the transitions of steady sites are read as the last emit bakes them. -/
theorem agrees_of_steady (h : Swaps to_string e₀ es swaps) (hemitted : ∀ e ∈ e₀ :: es, Emitted e)
    (hsteady : SteadyRun e₀ es) :
    AgreesWithRebuild (register_swaps true swaps) e₀ (es.getLastD e₀) := by
  obtain ⟨he₀, hes⟩ := List.forall_mem_cons.1 hemitted
  have hviews := (Lib.Overlay.read_eq_iff (rounds_getLast? baked_defaults e₀ es)).2 hsteady.views
  have htransitions :=
    (Lib.Overlay.read_eq_iff (rounds_getLast? baked_transitions e₀ es)).2 hsteady.transitions
  rw [← register_swaps_views h] at hviews
  rw [← register_swaps_transitions h hes] at htransitions
  refine ⟨fun s hs => (from_defaults_eq ..).trans (hviews s hs), fun s hs => ?_⟩
  obtain ⟨t, ht⟩ := he₀.site_fst hs
  obtain ⟨t', ht'⟩ := (hemitted _ List.getLastD_mem_cons).site hs
  have hread := htransitions s hs
  rw [ht, ht'] at hread ⊢
  exact (transition_for_eq_iff ..).2 hread

/-- After a run of swaps a program with steady sites reads what the last emit bakes. -/
theorem readsAs_of_steady (h : Swaps to_string e₀ es swaps) (hemitted : ∀ e ∈ e₀ :: es, Emitted e)
    (hsteady : SteadyData e₀ es) : ReadsAs swaps e₀ (es.getLastD e₀) where
  shown := agrees_of_steady h hemitted hsteady.shown
  subs := (sends_subs to_string).reads h hsteady.subs
  inits := (sends_inits to_string).reads h hsteady.inits
  wirings := (sends_wirings to_string).reads h hsteady.wirings

end Run

end IpeLang.Hot
