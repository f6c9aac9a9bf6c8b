import IpeLang.Lib.Worklist
import IpeLang.Project.Modules

/-!
# Embedded modules

A module that is imported and has embedded source is added to the sources of the project, with the
embedded modules that it imports. A path that the project has a source for is left alone.

* `inject_compiled_std_closure`: the closure under imports;
* `inject_spec`: what is added, and what is trusted.
-/

namespace IpeLang.Project

open IpeLang.Lib
open IpeLang.Lib.Worklist (Source Store)

/-- A row of the table of embedded modules. -/
structure CompiledStdModule where
  dotted : String
  source : String

/-- The path of a source file, and its text. -/
abbrev Sources := SortedMap ModulePath (String × String)

section

variable (table : List CompiledStdModule) (extract_imports : String → List ModulePath)

def compiled_std_source_segments (segments : ModulePath) : Option String :=
  (table.find? fun m => m.dotted = dotted segments).map CompiledStdModule.source

def is_compiled_source_segments (segments : ModulePath) : Bool :=
  (compiled_std_source_segments table segments).isSome

def veneer_induced_compiled_deps (import_segments : ModulePath) : List ModulePath :=
  if dotted import_segments = "Ipe.Http" then [["Ipe", "Duration"]] else []

def embedded_compiled_std_imports (embedded : String) : List ModulePath :=
  (extract_imports embedded).filter (is_compiled_source_segments table)

/-- What a source of the project asks for. -/
def asked_by (src : String) : List ModulePath :=
  (extract_imports src).flatMap fun imp =>
    (if is_compiled_source_segments table imp then [imp] else []) ++ veneer_induced_compiled_deps imp

/-- The queue at the start. -/
def seeds (sources : Sources) : List ModulePath :=
  sources.values.flatMap fun entry => asked_by table extract_imports entry.2

/-- The sources, the records and the paths that were injected. -/
structure Injection where
  sources : Sources
  discovered : List DiscoveredModule
  injected : Finset ModulePath

def synth_path (path : ModulePath) : String := "<embedded-stdlib>/" ++ dotted path

def Injection.inject (s : Injection) (path : ModulePath) (embedded : String) : Injection where
  sources := s.sources.insert path (synth_path path, embedded)
  discovered := s.discovered ++ [.embedded_stdlib (synth_path path) path]
  injected := insert path s.injected

def injections : Store Injection ModulePath String where
  has s path := s.sources.contains path
  add := Injection.inject
  has_add s path embedded path' := by
    simp only [Injection.inject, SortedMap.contains, SortedMap.get?_insert]
    split_ifs <;> simp_all

/-- The embedded modules, and what they import. -/
def embedded_modules (sources : Sources) : Source ModulePath String where
  find path := (compiled_std_source_segments table path).map fun embedded =>
    (embedded, embedded_compiled_std_imports table extract_imports embedded)
  pool := seeds table extract_imports sources ++
    table.flatMap fun m => embedded_compiled_std_imports table extract_imports m.source
  closed path embedded asked h := by
    obtain ⟨source, hsource, heq⟩ := Option.map_eq_some_iff.1 h
    obtain ⟨m, hm, rfl⟩ := Option.map_eq_some_iff.1 hsource
    obtain ⟨rfl, rfl⟩ := Prod.mk.inj heq
    exact fun imp himp => List.mem_append_right _
      (List.mem_flatMap.2 ⟨m, List.mem_of_find?_eq_some hm, himp⟩)

def inject_compiled_std_closure (sources : Sources) (discovered : List DiscoveredModule) : Injection :=
  (embedded_modules table extract_imports sources).walk injections (seeds table extract_imports sources)
    (List.subset_append_left _ _) ⟨sources, discovered, ∅⟩

/-- The paths that are trusted after the injection. -/
def trusted (sources : Sources) (discovered : List DiscoveredModule) : Finset ModulePath :=
  embedded_stdlib_modules (inject_compiled_std_closure table extract_imports sources discovered).discovered

/-- The closure under imports: what the project asks for, and what an embedded module asks for that is
asked for and that the project has no source of. -/
inductive Wanted (sources : Sources) : ModulePath → Prop
  | seed {path : ModulePath} (h : path ∈ seeds table extract_imports sources) : Wanted sources path
  | imported {path imp : ModulePath} {embedded : String} (h : Wanted sources path)
      (hown : sources.contains path = false)
      (hembedded : compiled_std_source_segments table path = some embedded)
      (himp : imp ∈ embedded_compiled_std_imports table extract_imports embedded) : Wanted sources imp

end

variable {table : List CompiledStdModule} {extract_imports : String → List ModulePath}
  {sources : Sources} {discovered : List DiscoveredModule}

theorem find_embedded {path : ModulePath} {embedded : String}
    (h : compiled_std_source_segments table path = some embedded) :
    (embedded_modules table extract_imports sources).find path =
      some (embedded, embedded_compiled_std_imports table extract_imports embedded) := by
  simp [embedded_modules, h]

theorem wanted_iff {path : ModulePath} :
    Wanted table extract_imports sources path ↔
      ∃ w ∈ seeds table extract_imports sources,
        Relation.ReflTransGen (Worklist.Leads injections (embedded_modules table extract_imports sources)
          ⟨sources, discovered, ∅⟩) w path := by
  constructor
  · intro h
    induction h with
    | seed h => exact ⟨_, h, .refl⟩
    | imported _ hown hembedded himp ih =>
      obtain ⟨w, hw, hpath⟩ := ih
      exact ⟨w, hw, hpath.tail ⟨hown, _, _, find_embedded hembedded, himp⟩⟩
  · rintro ⟨w, hw, hpath⟩
    induction hpath with
    | refl => exact .seed hw
    | tail _ hlead ih =>
      obtain ⟨hown, embedded, asked, hfind, hmem⟩ := hlead
      obtain ⟨source, hsource, heq⟩ := Option.map_eq_some_iff.1 hfind
      obtain ⟨rfl, rfl⟩ := Prod.mk.inj heq
      exact .imported ih hown hsource hmem

/-! ### Injected one after another -/

/-- What the injections of these modules make of a project. -/
theorem foldl_inject (added : List (ModulePath × String)) (s : Injection)
    (hnodup : (added.map Prod.fst).Nodup) :
    let s' := added.foldl (fun s p => s.inject p.1 p.2) s
    (∀ path, s'.sources.get? path =
      ((added.find? fun p => p.1 = path).map fun p => (synth_path path, p.2)).or (s.sources.get? path)) ∧
    s'.discovered = s.discovered ++ added.map (fun p => .embedded_stdlib (synth_path p.1) p.1) ∧
    s'.injected = s.injected ∪ (added.map Prod.fst).toFinset := by
  induction added generalizing s with
  | nil => simp
  | cons p added ih =>
    obtain ⟨hfresh, hnodup⟩ := List.nodup_cons.1 hnodup
    obtain ⟨hsources, hdiscovered, hinjected⟩ := ih (s.inject p.1 p.2) hnodup
    refine ⟨fun path => ?_, ?_, ?_⟩
    · show (added.foldl _ (s.inject p.1 p.2)).sources.get? path = _
      rw [hsources]
      by_cases hpath : p.1 = path
      · have hnone : (added.find? fun q => q.1 = path) = none := by
          rw [List.find?_eq_none]
          rintro q hq heq
          exact hfresh (List.mem_map.2 ⟨q, hq, by simpa [hpath] using heq⟩)
        simp [hnone, Injection.inject, hpath]
      · simp [Injection.inject, hpath, Ne.symm hpath]
    · show (added.foldl _ (s.inject p.1 p.2)).discovered = _
      rw [hdiscovered]
      simp [Injection.inject]
    · show (added.foldl _ (s.inject p.1 p.2)).injected = _
      rw [hinjected]
      ext path
      simp [Injection.inject]

/-- What an injection leaves: the modules that were added, one after another. -/
theorem inject_added (table : List CompiledStdModule) (extract_imports : String → List ModulePath)
    (sources : Sources) (discovered : List DiscoveredModule) :
    ∃ added : List (ModulePath × String),
      (∀ path, path ∈ added.map Prod.fst ↔ sources.contains path = false ∧
        is_compiled_source_segments table path = true ∧ Wanted table extract_imports sources path) ∧
      (∀ path, (inject_compiled_std_closure table extract_imports sources discovered).sources.get? path =
        (sources.get? path).or (if path ∈ added.map Prod.fst then
          (compiled_std_source_segments table path).map fun embedded => (synth_path path, embedded)
        else none)) ∧
      (inject_compiled_std_closure table extract_imports sources discovered).discovered =
        discovered ++ added.map (fun p => .embedded_stdlib (synth_path p.1) p.1) ∧
      (inject_compiled_std_closure table extract_imports sources discovered).injected =
        (added.map Prod.fst).toFinset := by
  obtain ⟨added, hwalk, hnodup, hknown, hmem⟩ := Worklist.walk_spec injections
    (embedded_modules table extract_imports sources) (seeds table extract_imports sources)
    (List.subset_append_left _ _) ⟨sources, discovered, ∅⟩
  obtain ⟨hsources, hdiscovered, hinjected⟩ := foldl_inject added ⟨sources, discovered, ∅⟩ hnodup
  have hrun : inject_compiled_std_closure table extract_imports sources discovered =
      added.foldl (fun s p => s.inject p.1 p.2) ⟨sources, discovered, ∅⟩ := hwalk
  have hfound : ∀ path, path ∈ added.map Prod.fst ↔ sources.contains path = false ∧
      is_compiled_source_segments table path = true ∧ Wanted table extract_imports sources path := by
    intro path
    rw [hmem, Worklist.Found, ← wanted_iff]
    refine and_congr Iff.rfl (and_congr ?_ Iff.rfl)
    simp [embedded_modules, is_compiled_source_segments]
  refine ⟨added, hfound, fun path => ?_, by rw [hrun, hdiscovered], by simp [hrun, hinjected]⟩
  rw [hrun, hsources]
  cases hfind : added.find? fun p => p.1 = path with
  | none =>
    have hnot : path ∉ added.map Prod.fst := by
      rintro hin
      obtain ⟨p, hp, rfl⟩ := List.mem_map.1 hin
      simpa using List.find?_eq_none.1 hfind p hp
    simp [hnot]
  | some p =>
    obtain rfl : p.1 = path := by simpa using List.find?_some hfind
    have hin := List.mem_of_find?_eq_some hfind
    have hpath : p.1 ∈ added.map Prod.fst := List.mem_map_of_mem hin
    obtain ⟨asked, hknown⟩ := hknown p hin
    obtain ⟨source, hsource, heq⟩ := Option.map_eq_some_iff.1 hknown
    obtain ⟨rfl, -⟩ := Prod.mk.inj heq
    have hnone : sources.get? p.1 = none := by
      simpa [SortedMap.contains] using ((hfound p.1).1 hpath).1
    rw [if_pos hpath, hsource, hnone]
    rfl

/-- The injected paths are those that are wanted, embedded and not in the project. Each gets the source
of the table, and the sources of the project are left alone. -/
theorem inject_spec (table : List CompiledStdModule) (extract_imports : String → List ModulePath)
    (sources : Sources) (discovered : List DiscoveredModule) (path : ModulePath) :
    (path ∈ (inject_compiled_std_closure table extract_imports sources discovered).injected ↔
      sources.contains path = false ∧ is_compiled_source_segments table path = true ∧
        Wanted table extract_imports sources path) ∧
    (inject_compiled_std_closure table extract_imports sources discovered).sources.get? path =
      (sources.get? path).or
        (if path ∈ (inject_compiled_std_closure table extract_imports sources discovered).injected then
          (compiled_std_source_segments table path).map fun embedded => (synth_path path, embedded)
        else none) := by
  obtain ⟨added, hfound, hget, -, hinjected⟩ := inject_added table extract_imports sources discovered
  have hmem : path ∈ (inject_compiled_std_closure table extract_imports sources discovered).injected ↔
      path ∈ added.map Prod.fst := by rw [hinjected, List.mem_toFinset]
  exact ⟨hmem.trans (hfound path), by rw [hget, if_congr hmem rfl rfl]⟩

/-- After the injection each embedded module that a source asks for has a source. -/
theorem inject_closed (table : List CompiledStdModule) (extract_imports : String → List ModulePath)
    (sources : Sources) (discovered : List DiscoveredModule) {path imp : ModulePath}
    {entry : String × String}
    (hentry : (inject_compiled_std_closure table extract_imports sources discovered).sources.get? path =
      some entry)
    (himp : imp ∈ embedded_compiled_std_imports table extract_imports entry.2) :
    (inject_compiled_std_closure table extract_imports sources discovered).sources.contains imp = true := by
  have hcompiled : is_compiled_source_segments table imp = true := (List.mem_filter.1 himp).2
  obtain ⟨embedded, hembedded⟩ := Option.isSome_iff_exists.1 hcompiled
  have hwanted : Wanted table extract_imports sources imp := by
    obtain ⟨hinjected, hget⟩ := inject_spec table extract_imports sources discovered path
    rw [hget, Option.or_eq_some_iff] at hentry
    rcases hentry with hown | ⟨hnone, hnew⟩
    · refine .seed (List.mem_flatMap.2 ⟨entry, SortedMap.mem_values.2 ⟨path, hown⟩,
        List.mem_flatMap.2 ⟨imp, (List.mem_filter.1 himp).1, ?_⟩⟩)
      simp [hcompiled]
    · split_ifs at hnew with hin
      obtain ⟨hfresh, -, hwanted⟩ := hinjected.1 hin
      obtain ⟨source, hsource, rfl⟩ := Option.map_eq_some_iff.1 hnew
      exact .imported hwanted hfresh hsource himp
  obtain ⟨hinjected, hget⟩ := inject_spec table extract_imports sources discovered imp
  rw [SortedMap.contains, hget]
  cases hown : sources.get? imp with
  | some entry => rfl
  | none =>
    rw [if_pos (hinjected.2 ⟨by simp [SortedMap.contains, hown], hcompiled, hwanted⟩), hembedded]
    rfl

/-- A path is trusted if it was injected, or was recorded as embedded before, and no user module claims
it. -/
theorem mem_trusted (table : List CompiledStdModule) (extract_imports : String → List ModulePath)
    (sources : Sources) (discovered : List DiscoveredModule) (path : ModulePath) :
    path ∈ trusted table extract_imports sources discovered ↔
      (path ∈ (inject_compiled_std_closure table extract_imports sources discovered).injected ∨
        ∃ m ∈ discovered, m.module_path = path ∧ m.provenance = .EmbeddedStdlib) ∧
      path ∉ user_claimed discovered := by
  obtain ⟨added, -, -, hdiscovered, hinjected⟩ := inject_added table extract_imports sources discovered
  have hclaimed : ∀ path, path ∈ user_claimed
      (inject_compiled_std_closure table extract_imports sources discovered).discovered ↔
        path ∈ user_claimed discovered := by
    intro path
    simp only [mem_user_claimed, hdiscovered, List.mem_append, List.mem_map]
    constructor
    · rintro ⟨m, hm | ⟨p, -, rfl⟩, hpath, huser⟩
      · exact ⟨m, hm, hpath, huser⟩
      · cases huser
    · rintro ⟨m, hm, hrest⟩
      exact ⟨m, .inl hm, hrest⟩
  rw [trusted, mem_embedded_stdlib_modules, hclaimed, hinjected, hdiscovered]
  refine and_congr ?_ Iff.rfl
  simp only [List.mem_append, List.mem_map, List.mem_toFinset]
  constructor
  · rintro ⟨m, hm | ⟨p, hp, rfl⟩, hpath, hprov⟩
    · exact .inr ⟨m, hm, hpath, hprov⟩
    · exact .inl ⟨p, hp, hpath⟩
  · rintro (⟨p, hp, rfl⟩ | ⟨m, hm, hpath, hprov⟩)
    · exact ⟨_, .inr ⟨p, hp, rfl⟩, rfl, rfl⟩
    · exact ⟨m, .inl hm, hpath, hprov⟩

/-- In a project of user modules with their sources, exactly those modules are trusted that are wanted,
embedded and not in the project, and each has the source of the table. All other sources are those of the
project, and each embedded module that a source asks for has one. -/
theorem inject_trust (table : List CompiledStdModule) (extract_imports : String → List ModulePath)
    (sources : Sources) (discovered : List DiscoveredModule)
    (huser : ∀ m ∈ discovered, m.provenance.is_user = true)
    (hsources : ∀ m ∈ discovered, sources.contains m.module_path = true) (path : ModulePath) :
    (path ∈ trusted table extract_imports sources discovered ↔
      sources.contains path = false ∧ is_compiled_source_segments table path = true ∧
        Wanted table extract_imports sources path) ∧
    (inject_compiled_std_closure table extract_imports sources discovered).sources.get? path =
      (if path ∈ trusted table extract_imports sources discovered then
        (compiled_std_source_segments table path).map fun embedded => (synth_path path, embedded)
      else sources.get? path) ∧
    ∀ entry,
      (inject_compiled_std_closure table extract_imports sources discovered).sources.get? path =
        some entry →
      ∀ imp ∈ embedded_compiled_std_imports table extract_imports entry.2,
        (inject_compiled_std_closure table extract_imports sources discovered).sources.contains imp =
          true := by
  obtain ⟨hinjected, hget⟩ := inject_spec table extract_imports sources discovered path
  have htrusted : path ∈ trusted table extract_imports sources discovered ↔
      path ∈ (inject_compiled_std_closure table extract_imports sources discovered).injected := by
    rw [mem_trusted]
    constructor
    · rintro ⟨hin | ⟨m, hm, -, hprov⟩, -⟩
      · exact hin
      · have hclaims := huser m hm
        rw [hprov] at hclaims
        cases hclaims
    · intro hin
      refine ⟨.inl hin, fun hclaimed => ?_⟩
      obtain ⟨m, hm, rfl, -⟩ := mem_user_claimed.1 hclaimed
      rw [hsources m hm] at hinjected
      exact absurd (hinjected.1 hin).1 (by simp)
  refine ⟨htrusted.trans hinjected, ?_, fun entry hentry imp himp =>
    inject_closed table extract_imports sources discovered hentry himp⟩
  rw [hget, if_congr htrusted rfl rfl]
  by_cases hin : path ∈ (inject_compiled_std_closure table extract_imports sources discovered).injected
  · have hnone : sources.get? path = none := by
      simpa [SortedMap.contains] using (hinjected.1 hin).1
    rw [if_pos hin, if_pos hin, hnone, Option.none_or]
  · rw [if_neg hin, if_neg hin, Option.or_none]

/-- A palette that is made of colours, and a theme. -/
def paletteTable : List CompiledStdModule :=
  [⟨"Ipe.Palette", "palette"⟩, ⟨"Ipe.Color", "color"⟩, ⟨"Ipe.Theme", "theme"⟩]

def paletteImports (src : String) : List ModulePath :=
  if src = "main" then [["Ipe", "Palette"], ["Ipe", "Theme"]]
  else if src = "palette" then [["Ipe", "Color"]] else []

/-- The project has a theme of its own. -/
def paletteSources : Sources :=
  (SortedMap.empty.insert ["Main"] ("src/Main.ipe", "main")).insert ["Ipe", "Theme"]
    ("src/Ipe/Theme.ipe", "own theme")

def paletteModules : List DiscoveredModule :=
  [.user "src/Main.ipe" ["Main"], .user "src/Ipe/Theme.ipe" ["Ipe", "Theme"]]

/-- The palette and what it imports are trusted, and the theme of the project is not and stays. -/
theorem inject_trust_palette :
    ["Ipe", "Palette"] ∈ trusted paletteTable paletteImports paletteSources paletteModules ∧
      ["Ipe", "Color"] ∈ trusted paletteTable paletteImports paletteSources paletteModules ∧
      ["Ipe", "Theme"] ∉ trusted paletteTable paletteImports paletteSources paletteModules ∧
      (inject_compiled_std_closure paletteTable paletteImports paletteSources paletteModules).sources.get?
          ["Ipe", "Theme"] = some ("src/Ipe/Theme.ipe", "own theme") := by
  have htrust := inject_trust paletteTable paletteImports paletteSources paletteModules
    (by decide) (by decide +kernel)
  have hpalette : Wanted paletteTable paletteImports paletteSources ["Ipe", "Palette"] :=
    .seed (by decide +kernel)
  have hsource : compiled_std_source_segments paletteTable ["Ipe", "Palette"] = some "palette" := by
    decide +kernel
  have hcolor : Wanted paletteTable paletteImports paletteSources ["Ipe", "Color"] :=
    .imported hpalette (by decide +kernel) hsource (by decide +kernel)
  have htheme : ["Ipe", "Theme"] ∉ trusted paletteTable paletteImports paletteSources paletteModules :=
    fun h => absurd ((htrust ["Ipe", "Theme"]).1.1 h).1 (by decide +kernel)
  refine ⟨(htrust ["Ipe", "Palette"]).1.2 ⟨by decide +kernel, by decide +kernel, hpalette⟩,
    (htrust ["Ipe", "Color"]).1.2 ⟨by decide +kernel, by decide +kernel, hcolor⟩, htheme, ?_⟩
  rw [(htrust ["Ipe", "Theme"]).2.1, if_neg htheme]
  decide +kernel

end IpeLang.Project
