import IpeLang.Lib.DepthFirst
import IpeLang.Project.Modules

/-!
# The order of the modules

A project is compiled module by module, and each module after the modules that it imports. The order is
found by a depth-first search from the entry module, and then from the modules that the entry does not
lead to.

* `topological_order_paths`: the order of the module paths, or a cycle;
* `topological_order`: the order of the discovered modules.
-/

namespace IpeLang.Project

open IpeLang.Lib
open IpeLang.Lib.DepthFirst (Graph RunsIntoItself)

/-- The names of the modules on a cycle. -/
structure CycleError where
  path : List String
  deriving DecidableEq, Repr

/-- The imports of a module are taken from the end of their list. -/
def import_graph (modules : List ModulePath) (imports_of : ModulePath → List ModulePath) :
    Graph ModulePath where
  nodes := modules
  targets path := (imports_of path).reverse

def topological_order_paths (modules : List ModulePath) (entry_path : ModulePath)
    (imports_of : ModulePath → List ModulePath) : Except CycleError (List ModulePath) :=
  (DepthFirst.order (import_graph modules imports_of) entry_path).mapError fun path =>
    ⟨path.map dotted⟩

theorem mapError_ok {α ε ε' : Type} {f : ε → ε'} {x : Except ε α} {a : α}
    (h : x.mapError f = .ok a) : ∃ b, x = .ok b ∧ b = a := by
  cases x with
  | error e => simp [Except.mapError] at h
  | ok b => exact ⟨b, rfl, by simpa [Except.mapError] using h⟩

variable {modules : List ModulePath} {entry_path : ModulePath}
  {imports_of : ModulePath → List ModulePath}

/-- A module imports another one of the project. -/
def Imports (modules : List ModulePath) (imports_of : ModulePath → List ModulePath)
    (path import_path : ModulePath) : Prop :=
  import_path ∈ imports_of path ∧ import_path ∈ modules

theorem needs_eq_imports : (import_graph modules imports_of).Needs = Imports modules imports_of := by
  funext path import_path
  rw [DepthFirst.needs_iff]
  simp [import_graph, Imports]

/-- The order of the module paths: each once, each after all that it imports, the modules that the entry
leads to before the entry, and the others after it. -/
structure ModuleOrder (modules : List ModulePath) (entry_path : ModulePath)
    (imports_of : ModulePath → List ModulePath) (order : List ModulePath) : Prop where
  nodup : order.Nodup
  mem : ∀ path, path ∈ order ↔ path = entry_path ∨ path ∈ modules
  imports_first : ∀ before path after, order = before ++ path :: after →
    ∀ import_path, Imports modules imports_of path import_path → import_path ∈ before
  entry : ∃ reachable orphans, order = reachable ++ entry_path :: orphans ∧
    ∀ path, path ∈ reachable ↔ Relation.TransGen (Imports modules imports_of) entry_path path

theorem topological_order_paths_ok {order : List ModulePath}
    (h : topological_order_paths modules entry_path imports_of = .ok order) :
    ModuleOrder modules entry_path imports_of order := by
  rw [topological_order_paths] at h
  cases hsearch : DepthFirst.order (import_graph modules imports_of) entry_path with
  | error path => simp [hsearch, Except.mapError] at h
  | ok result =>
    obtain rfl : result = order := by simpa [hsearch, Except.mapError] using h
    have horder := DepthFirst.order_ok hsearch
    refine ⟨horder.nodup, horder.mem, fun before path after heq import_path himports => ?_, ?_⟩
    · rw [← needs_eq_imports] at himports
      exact horder.ordered before path after heq import_path himports
    · rw [← needs_eq_imports]
      exact horder.entry

/-- There is an order exactly when no module imports itself, and else the error is a way along imports
that starts at the entry or at another module and ends in a module that it has passed. -/
theorem topological_order_paths_spec (modules : List ModulePath) (entry_path : ModulePath)
    (imports_of : ModulePath → List ModulePath) :
    ((∃ order, topological_order_paths modules entry_path imports_of = .ok order) ↔
      ∀ path, ¬ Relation.TransGen (Imports modules imports_of) path path) ∧
    (∀ order, topological_order_paths modules entry_path imports_of = .ok order →
      ModuleOrder modules entry_path imports_of order) ∧
    ∀ e, topological_order_paths modules entry_path imports_of = .error e →
      ∃ seed way last, e.path = (way ++ [last]).map dotted ∧ last ∈ way ∧
        (way ++ [last]).head? = some seed ∧ seed ∈ entry_path :: modules ∧
        (way ++ [last]).IsChain (Imports modules imports_of) := by
  refine ⟨?_, fun order => topological_order_paths_ok, fun e h => ?_⟩
  · rw [← needs_eq_imports, ← DepthFirst.order_isOk_iff _ entry_path]
    unfold topological_order_paths
    cases DepthFirst.order (import_graph modules imports_of) entry_path <;> simp [Except.mapError]
  · rw [topological_order_paths] at h
    cases hsearch : DepthFirst.order (import_graph modules imports_of) entry_path with
    | ok result => simp [hsearch, Except.mapError] at h
    | error path =>
      obtain rfl : (⟨path.map dotted⟩ : CycleError) = e := by
        simpa [hsearch, Except.mapError] using h
      obtain ⟨⟨hchain, way, last, rfl, hlast⟩, seed, hseed, hhead⟩ := DepthFirst.order_error hsearch
      rw [needs_eq_imports] at hchain
      exact ⟨seed, way, last, rfl, hlast, hhead, hseed, hchain⟩

/-- Up to the entry module the order is the same for every listing of the modules. -/
theorem topological_order_paths_orphans {modules' order order' : List ModulePath}
    (hsame : ∀ path, path ∈ modules ↔ path ∈ modules')
    (h : topological_order_paths modules entry_path imports_of = .ok order)
    (h' : topological_order_paths modules' entry_path imports_of = .ok order') :
    ∃ reachable orphans orphans', order = reachable ++ entry_path :: orphans ∧
      order' = reachable ++ entry_path :: orphans' ∧ orphans.Perm orphans' := by
  have horder := topological_order_paths_ok h
  have horder' := topological_order_paths_ok h'
  obtain ⟨result, hresult, rfl⟩ := mapError_ok h
  obtain ⟨result', hresult', rfl⟩ := mapError_ok h'
  obtain ⟨reachable, orphans, orphans', rfl, rfl⟩ :=
    @DepthFirst.order_prefix _ _ (import_graph modules imports_of)
      (import_graph modules' imports_of) hsame (fun _ => rfl) entry_path _ _ hresult hresult'
  refine ⟨reachable, orphans, orphans', rfl, rfl, ?_⟩
  have hperm : (reachable ++ entry_path :: orphans).Perm (reachable ++ entry_path :: orphans') := by
    refine (List.perm_ext_iff_of_nodup horder.nodup horder'.nodup).2 fun path => ?_
    rw [horder.mem, horder'.mem, hsame]
  exact (List.perm_cons _).1 ((List.perm_append_left_iff _).1 hperm)

/-- Two listings of a module, one that it imports and one that nothing imports. -/
theorem topological_order_paths_orphans_main :
    ∃ reachable orphans orphans' : List ModulePath,
      [["Lib"], ["Main"], ["Old"]] = reachable ++ ["Main"] :: orphans ∧
      [["Lib"], ["Main"], ["Old"]] = reachable ++ ["Main"] :: orphans' ∧ orphans.Perm orphans' := by
  refine @topological_order_paths_orphans [["Main"], ["Lib"], ["Old"]] ["Main"]
    (fun path => if path = ["Main"] then [["Lib"]] else []) [["Old"], ["Lib"], ["Main"]]
    [["Lib"], ["Main"], ["Old"]] [["Lib"], ["Main"], ["Old"]] (fun path => ?_) ?_ ?_
  · simp only [List.mem_cons, List.not_mem_nil, or_false]
    tauto
  · simp [topological_order_paths, DepthFirst.order, DepthFirst.search, DepthFirst.searchNew,
      import_graph, Graph.deps, DepthFirst.Search.paint, Except.mapError, bind, Except.bind, pure,
      Except.pure]
  · simp [topological_order_paths, DepthFirst.order, DepthFirst.search, DepthFirst.searchNew,
      import_graph, Graph.deps, DepthFirst.Search.paint, Except.mapError, bind, Except.bind, pure,
      Except.pure]

/-! ### The discovered modules -/

def topological_order (modules : List DiscoveredModule) (entry_path : ModulePath)
    (imports_of : ModulePath → List ModulePath) : Except CycleError (List DiscoveredModule) := do
  let paths := modules.map DiscoveredModule.module_path
  let order ← topological_order_paths paths entry_path imports_of
  return order.filterMap (module_map modules)

theorem map_filterMap_module_map (modules : List DiscoveredModule) (order : List ModulePath) :
    (order.filterMap (module_map modules)).map DiscoveredModule.module_path =
      order.filter (· ∈ modules.map DiscoveredModule.module_path) := by
  induction order with
  | nil => rfl
  | cons path order ih =>
    cases hfound : module_map modules path with
    | none =>
      have hnot : path ∉ modules.map DiscoveredModule.module_path := by
        rw [← module_map_isSome, hfound]
        simp
      rw [List.filterMap_cons_none hfound, ih, List.filter_cons_of_neg (by simpa using hnot)]
    | some m =>
      have hin : path ∈ modules.map DiscoveredModule.module_path := by
        rw [← module_map_isSome, hfound]
        rfl
      rw [List.filterMap_cons_some hfound, List.map_cons, ih,
        List.filter_cons_of_pos (by simpa using hin), (module_map_some hfound).1]

/-- The discovered modules are in the order of their paths. Of the modules with one path the last is
kept. -/
theorem topological_order_spec {modules ordered : List DiscoveredModule}
    (h : topological_order modules entry_path imports_of = .ok ordered) :
    ∃ order, ModuleOrder (modules.map DiscoveredModule.module_path) entry_path imports_of order ∧
      ordered.map DiscoveredModule.module_path =
        order.filter (· ∈ modules.map DiscoveredModule.module_path) ∧
      ∀ m ∈ ordered, ∃ before after, modules = before ++ m :: after ∧
        ∀ m' ∈ after, m'.module_path ≠ m.module_path := by
  rw [topological_order] at h
  cases horder : topological_order_paths (modules.map DiscoveredModule.module_path) entry_path
      imports_of with
  | error e => simp [horder, bind, Except.bind] at h
  | ok order =>
    obtain rfl : order.filterMap (module_map modules) = ordered := by
      simpa [horder, bind, Except.bind, pure, Except.pure] using h
    refine ⟨order, topological_order_paths_ok horder, map_filterMap_module_map modules order,
      fun m hm => ?_⟩
    obtain ⟨path, -, hfound⟩ := List.mem_filterMap.1 hm
    obtain ⟨rfl, hsplit⟩ := module_map_some hfound
    exact hsplit

end IpeLang.Project
