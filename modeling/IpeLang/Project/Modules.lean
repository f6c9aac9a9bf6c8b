import IpeLang.Lib.SortedMap
import Mathlib.Data.List.Lex
import Mathlib.Data.String.Basic

/-!
# The modules of a project

A module is known by its path, the segments of its dotted name. It was found under the source root of
the project, or taken from the sources that are embedded in the compiler.

* `embedded_stdlib_modules`: the paths that are trusted as embedded source;
* `module_map`: the record of a path, the last one that claims it.
-/

namespace IpeLang.Project

abbrev ModulePath := List String

/-- The name of a module path. -/
def dotted (path : ModulePath) : String := ".".intercalate path

inductive EntryRole
  | Main
  | Library
  deriving DecidableEq, Repr

def EntryRole.of_module_path (module_path : ModulePath) : EntryRole :=
  if module_path.getLast? = some "Main" then .Main else .Library

inductive ModuleProvenance
  | User (role : EntryRole)
  | EmbeddedStdlib
  deriving DecidableEq, Repr

structure DiscoveredModule where
  path : String
  module_path : ModulePath
  provenance : ModuleProvenance
  deriving DecidableEq, Repr

def DiscoveredModule.user (path : String) (module_path : ModulePath) : DiscoveredModule :=
  ⟨path, module_path, .User (.of_module_path module_path)⟩

def DiscoveredModule.embedded_stdlib (path : String) (module_path : ModulePath) : DiscoveredModule :=
  ⟨path, module_path, .EmbeddedStdlib⟩

def ModuleProvenance.is_user : ModuleProvenance → Bool
  | .User _ => true
  | .EmbeddedStdlib => false

def user_claimed (discovered : List DiscoveredModule) : Finset ModulePath :=
  ((discovered.filter fun m => m.provenance.is_user).map DiscoveredModule.module_path).toFinset

def embedded_stdlib_modules (discovered : List DiscoveredModule) : Finset ModulePath :=
  (((discovered.filter fun m => m.provenance = .EmbeddedStdlib).filter fun m =>
    m.module_path ∉ user_claimed discovered).map DiscoveredModule.module_path).toFinset

theorem mem_user_claimed {discovered : List DiscoveredModule} {path : ModulePath} :
    path ∈ user_claimed discovered ↔
      ∃ m ∈ discovered, m.module_path = path ∧ m.provenance.is_user = true := by
  simp [user_claimed, and_comm, and_left_comm]

theorem mem_embedded_stdlib_modules {discovered : List DiscoveredModule} {path : ModulePath} :
    path ∈ embedded_stdlib_modules discovered ↔
      (∃ m ∈ discovered, m.module_path = path ∧ m.provenance = .EmbeddedStdlib) ∧
        path ∉ user_claimed discovered := by
  simp only [embedded_stdlib_modules, List.mem_toFinset, List.mem_map, List.mem_filter,
    decide_eq_true_eq]
  constructor
  · rintro ⟨m, ⟨⟨hmem, hprov⟩, hclaimed⟩, rfl⟩
    exact ⟨⟨m, hmem, rfl, hprov⟩, hclaimed⟩
  · rintro ⟨⟨m, hmem, rfl, hprov⟩, hclaimed⟩
    exact ⟨m, ⟨⟨hmem, hprov⟩, hclaimed⟩, rfl⟩

/-- The record of each path: one that comes later replaces one that came before. -/
def module_map (modules : List DiscoveredModule) (path : ModulePath) : Option DiscoveredModule :=
  modules.foldl (fun found m => if m.module_path = path then some m else found) none

theorem module_map_concat (modules : List DiscoveredModule) (m : DiscoveredModule)
    (path : ModulePath) :
    module_map (modules ++ [m]) path = if m.module_path = path then some m else module_map modules path := by
  simp [module_map]

theorem module_map_some {modules : List DiscoveredModule} {path : ModulePath} {m : DiscoveredModule}
    (h : module_map modules path = some m) :
    m.module_path = path ∧ ∃ before after, modules = before ++ m :: after ∧
      ∀ m' ∈ after, m'.module_path ≠ path := by
  induction modules using List.reverseRecOn with
  | nil => cases h
  | append_singleton modules last ih =>
    rw [module_map_concat] at h
    by_cases hlast : last.module_path = path
    · rw [if_pos hlast] at h
      obtain rfl := Option.some.inj h
      exact ⟨hlast, modules, [], rfl, by simp⟩
    · rw [if_neg hlast] at h
      obtain ⟨hpath, before, after, rfl, hafter⟩ := ih h
      refine ⟨hpath, before, after ++ [last], by simp, fun m' hm' => ?_⟩
      rcases List.mem_append.1 hm' with hm' | hm'
      · exact hafter m' hm'
      · rwa [List.mem_singleton.1 hm']

theorem module_map_isSome {modules : List DiscoveredModule} {path : ModulePath} :
    (module_map modules path).isSome ↔ path ∈ modules.map DiscoveredModule.module_path := by
  induction modules using List.reverseRecOn with
  | nil => simp [module_map]
  | append_singleton modules last ih =>
    rw [module_map_concat]
    by_cases hlast : last.module_path = path
    · simp [hlast]
    · simp only [if_neg hlast, ih, List.map_append, List.map_cons, List.map_nil, List.mem_append,
        List.mem_singleton, Ne.symm hlast, or_false]

end IpeLang.Project
