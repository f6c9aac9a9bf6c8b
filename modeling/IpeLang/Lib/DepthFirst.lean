import Mathlib.Tactic
import Mathlib.Logic.Relation

/-!
# Depth-first order

A depth-first search with three colours and a stack of its own. A node is recorded when all nodes that
it depends on are, and the search ends with a path when it meets a node that it is inside of.

* `loop`, `search`, `order`: the search, from one node and from all of them;
* `order_ok`: each node is recorded once, and after what it depends on;
* `order_error`: the path that the search ends with runs into itself;
* `order_isOk_iff`: there is an order exactly when there is no cycle.
-/

namespace IpeLang.Lib.DepthFirst

variable {N : Type}

/-- Nodes, and what each of them asks for. -/
structure Graph (N : Type) where
  nodes : List N
  targets : N → List N

inductive Color
  | White
  | Gray
  | Black
  deriving DecidableEq, Repr

/-- How far a search has come: the colours, and the nodes it has recorded. -/
structure Search (N : Type) where
  color : N → Color
  result : List N

/-- A node that the search is inside of, what it still has to look at there, and the way to it. -/
structure Frame (N : Type) where
  node : N
  deps : List N
  path : List N

variable [DecidableEq N]

/-- What a node depends on: the nodes that it asks for. -/
def Graph.deps (g : Graph N) (x : N) : List N := (g.targets x).filter (· ∈ g.nodes)

/-- One node depends on another. -/
def Graph.Needs (g : Graph N) (x d : N) : Prop := d ∈ g.deps x

theorem needs_iff {g : Graph N} {x d : N} : g.Needs x d ↔ d ∈ g.targets x ∧ d ∈ g.nodes := by
  simp [Graph.Needs, Graph.deps]

def Search.paint (s : Search N) (x : N) (c : Color) : Search N :=
  { s with color := Function.update s.color x c }

@[simp]
theorem paint_color_self (s : Search N) (x : N) (c : Color) : (s.paint x c).color x = c := by
  simp [Search.paint]

theorem paint_color_of_ne (s : Search N) {x y : N} (c : Color) (h : y ≠ x) :
    (s.paint x c).color y = s.color y := by
  simp [Search.paint, h]

@[simp]
theorem paint_result (s : Search N) (x : N) (c : Color) : (s.paint x c).result = s.result :=
  rfl

/-- The nodes that were not found yet. -/
def whites (g : Graph N) (s : Search N) : Finset N :=
  g.nodes.toFinset.filter fun x => s.color x = .White

theorem whites_paint_subset (g : Graph N) (s : Search N) (x : N) {c : Color} (hc : c ≠ .White) :
    whites g (s.paint x c) ⊆ whites g s := by
  intro y hy
  obtain ⟨hmem, hwhite⟩ := Finset.mem_filter.1 hy
  refine Finset.mem_filter.2 ⟨hmem, ?_⟩
  by_cases hyx : y = x
  · rw [hyx, paint_color_self] at hwhite
    exact absurd hwhite hc
  · rwa [paint_color_of_ne s c hyx] at hwhite

theorem whites_paint_lt {g : Graph N} {s : Search N} {x : N} {c : Color} (hx : x ∈ g.nodes)
    (hwhite : s.color x = .White) (hc : c ≠ .White) :
    (whites g (s.paint x c)).card < (whites g s).card := by
  refine Finset.card_lt_card ((Finset.ssubset_iff_of_subset (whites_paint_subset g s x hc)).2
    ⟨x, Finset.mem_filter.2 ⟨List.mem_toFinset.2 hx, hwhite⟩, fun hmem => ?_⟩)
  have hcolor := (Finset.mem_filter.1 hmem).2
  rw [paint_color_self] at hcolor
  exact hc hcolor

/-- The search goes on from a stack. The error is the way to a node that the search is inside of. -/
def loop (g : Graph N) (stack : List (Frame N)) (s : Search N) : Except (List N) (Search N) :=
  match stack with
  | [] => .ok s
  | ⟨node, [], _⟩ :: stack =>
    loop g stack { s.paint node .Black with result := s.result ++ [node] }
  | ⟨node, dep :: deps, path⟩ :: stack =>
    if _hmem : dep ∈ g.nodes then
      match _hcolor : s.color dep with
      | .Gray => .error (path ++ [dep])
      | .Black => loop g (⟨node, deps, path⟩ :: stack) s
      | .White =>
        loop g (⟨dep, g.deps dep, path ++ [dep]⟩ :: ⟨node, deps, path⟩ :: stack) (s.paint dep .Gray)
    else loop g (⟨node, deps, path⟩ :: stack) s
termination_by ((whites g s).card, (stack.map fun f => f.deps.length).sum, stack.length)
decreasing_by
  · rename_i stack
    rcases (Finset.card_le_card (whites_paint_subset g s node (c := .Black) (by decide))).lt_or_eq with
      hlt | heq
    · exact .left _ _ hlt
    · show Prod.Lex _ _ ((whites g (s.paint node .Black)).card, _) _
      rw [heq]
      refine .right _ ?_
      simp [Prod.lex_def]
  · exact .right _ (.left _ _ (by simp))
  · exact .left _ _ (whites_paint_lt _hmem _hcolor (by decide))
  · exact .right _ (.left _ _ (by simp))

section

variable {g : Graph N} {node dep : N} {deps path : List N} {stack : List (Frame N)} {s : Search N}

@[simp]
theorem loop_nil : loop g [] s = .ok s := by rw [loop]

@[simp]
theorem loop_record :
    loop g (⟨node, [], path⟩ :: stack) s =
      loop g stack { s.paint node .Black with result := s.result ++ [node] } := by
  rw [loop]

@[simp]
theorem loop_foreign (hmem : dep ∉ g.nodes) :
    loop g (⟨node, dep :: deps, path⟩ :: stack) s = loop g (⟨node, deps, path⟩ :: stack) s := by
  rw [loop, dif_neg hmem]

@[simp]
theorem loop_gray (hmem : dep ∈ g.nodes) (hcolor : s.color dep = .Gray) :
    loop g (⟨node, dep :: deps, path⟩ :: stack) s = .error (path ++ [dep]) := by
  rw [loop, dif_pos hmem]
  split <;> simp_all

@[simp]
theorem loop_black (hmem : dep ∈ g.nodes) (hcolor : s.color dep = .Black) :
    loop g (⟨node, dep :: deps, path⟩ :: stack) s = loop g (⟨node, deps, path⟩ :: stack) s := by
  rw [loop, dif_pos hmem]
  split <;> simp_all

@[simp]
theorem loop_white (hmem : dep ∈ g.nodes) (hcolor : s.color dep = .White) :
    loop g (⟨node, dep :: deps, path⟩ :: stack) s =
      loop g (⟨dep, g.deps dep, path ++ [dep]⟩ :: ⟨node, deps, path⟩ :: stack) (s.paint dep .Gray) := by
  rw [loop, dif_pos hmem]
  split <;> simp_all

end

/-- Search from one node. -/
def search (g : Graph N) (seed : N) (s : Search N) : Except (List N) (Search N) :=
  loop g [⟨seed, g.deps seed, [seed]⟩] (s.paint seed .Gray)

/-- Search from a node unless it was found already. -/
def searchNew (g : Graph N) (s : Search N) (x : N) : Except (List N) (Search N) :=
  if x ∈ g.nodes ∧ s.color x = .White then search g x s else .ok s

/-- Search from one node and then from all others, in their order. -/
def order (g : Graph N) (entry : N) : Except (List N) (List N) := do
  let s ← search g entry ⟨fun _ => .White, []⟩
  let s ← g.nodes.foldlM (searchNew g) s
  return s.result

/-! ### The invariant -/

/-- The stack below a node `above`. The way to each frame is the nodes under it, and each dependency
of a frame is still to be looked at, recorded, or the node above. -/
def Stacked (g : Graph N) (result : List N) (above : Option N) : List (Frame N) → Prop
  | [] => True
  | f :: stack =>
    f.path = ((f :: stack).map Frame.node).reverse ∧
      (∀ d ∈ f.deps, d ∈ g.deps f.node) ∧
      (∀ d ∈ g.deps f.node, d ∈ f.deps ∨ d ∈ result ∨ above = some d) ∧
      (∀ a, above = some a → a ∈ g.deps f.node) ∧
      Stacked g result (some f.node) stack

/-- What each node depends on comes before it. -/
def Ordered (g : Graph N) (result : List N) : Prop :=
  ∀ before x after, result = before ++ x :: after → ∀ d ∈ g.deps x, d ∈ before

/-- What the search keeps: gray are the nodes that it is inside of, black those that it has recorded. -/
structure Inv (g : Graph N) (stack : List (Frame N)) (s : Search N) : Prop where
  stacked : Stacked g s.result none stack
  gray : ∀ x, s.color x = .Gray ↔ x ∈ stack.map Frame.node
  black : ∀ x, s.color x = .Black ↔ x ∈ s.result
  distinct : (stack.map Frame.node).Nodup
  nodup : s.result.Nodup
  ordered : Ordered g s.result

theorem Stacked.mono {g : Graph N} {result result' : List N} {above : Option N}
    {stack : List (Frame N)} (h : Stacked g result above stack) (hsub : result ⊆ result') :
    Stacked g result' above stack := by
  induction stack generalizing above with
  | nil => trivial
  | cons f stack ih =>
    obtain ⟨hpath, hdeps, hpending, habove, hstack⟩ := h
    refine ⟨hpath, hdeps, fun d hd => ?_, habove, ih hstack⟩
    exact (hpending d hd).imp_right (Or.imp_left fun hmem => hsub hmem)

/-- The frame below is done with the node above when this is recorded. -/
theorem Stacked.pop {g : Graph N} {result : List N} {x : N} {stack : List (Frame N)}
    (h : Stacked g result (some x) stack) (hmem : x ∈ result) : Stacked g result none stack := by
  cases stack with
  | nil => trivial
  | cons f stack =>
    obtain ⟨hpath, hdeps, hpending, -, hstack⟩ := h
    refine ⟨hpath, hdeps, fun d hd => ?_, fun a ha => absurd ha (by simp), hstack⟩
    rcases hpending d hd with hleft | hdone | heq
    · exact .inl hleft
    · exact .inr (.inl hdone)
    · exact .inr (.inl (by rwa [← Option.some.inj heq]))

theorem ordered_nil (g : Graph N) : Ordered g [] := by
  intro before x after h
  simp at h

theorem ordered_snoc {g : Graph N} {result : List N} {x : N} (h : Ordered g result)
    (hx : ∀ d ∈ g.deps x, d ∈ result) : Ordered g (result ++ [x]) := by
  intro before y after heq d hd
  rcases List.eq_nil_or_concat after with rfl | ⟨after', z, rfl⟩
  · obtain ⟨rfl, rfl⟩ : result = before ∧ x = y := by simpa using heq
    exact hx d hd
  · have hsplit : result = before ++ y :: after' := by
      have heq' : result ++ [x] = (before ++ y :: after') ++ [z] := by simpa using heq
      exact (List.append_inj' heq' rfl).1
    exact h before y after' hsplit d hd

theorem mem_nodes_of_deps {g : Graph N} {x d : N} (h : d ∈ g.deps x) : d ∈ g.nodes := by
  simpa using (List.mem_filter.1 h).2

/-- A step that looks at a dependency which needs nothing more. -/
theorem Inv.skip {g : Graph N} {node dep : N} {deps path : List N} {stack : List (Frame N)}
    {s : Search N} (h : Inv g (⟨node, dep :: deps, path⟩ :: stack) s)
    (hdone : dep ∈ s.result ∨ dep ∉ g.nodes) : Inv g (⟨node, deps, path⟩ :: stack) s := by
  obtain ⟨⟨hpath, hdeps, hpending, habove, hstack⟩, hgray, hblack, hdistinct, hnodup, hordered⟩ := h
  refine ⟨⟨hpath, fun d hd => hdeps d (by simp [hd]), fun d hd => ?_, habove, hstack⟩, hgray, hblack,
    hdistinct, hnodup, hordered⟩
  rcases hpending d hd with hleft | hrest
  · rcases List.mem_cons.1 hleft with rfl | htail
    · exact .inr (.inl (hdone.resolve_right fun h => h (mem_nodes_of_deps hd)))
    · exact .inl htail
  · exact .inr hrest

/-- A step that records a node. -/
theorem Inv.record {g : Graph N} {node : N} {path : List N} {stack : List (Frame N)} {s : Search N}
    (h : Inv g (⟨node, [], path⟩ :: stack) s) :
    Inv g stack { s.paint node .Black with result := s.result ++ [node] } := by
  obtain ⟨⟨hpath, hdeps, hpending, habove, hstack⟩, hgray, hblack, hdistinct, hnodup, hordered⟩ := h
  obtain ⟨hfresh, hdistinct⟩ := List.nodup_cons.1 hdistinct
  have hnew : node ∉ s.result := by
    intro hmem
    have hcolor := (hgray node).2 (by simp)
    rw [(hblack node).2 hmem] at hcolor
    cases hcolor
  have hall : ∀ d ∈ g.deps node, d ∈ s.result := by
    intro d hd
    rcases hpending d hd with hleft | hmem | habs
    · simp at hleft
    · exact hmem
    · simp at habs
  constructor
  · exact (hstack.mono (List.subset_append_left _ _)).pop (by simp)
  · intro x
    by_cases hx : x = node
    · subst hx
      simpa [Search.paint] using hfresh
    · simpa [Search.paint, hx] using hgray x
  · intro x
    by_cases hx : x = node
    · subst hx
      simp [Search.paint]
    · simpa [Search.paint, hx] using hblack x
  · exact hdistinct
  · show (s.result ++ [node]).Nodup
    rw [List.nodup_append]
    refine ⟨hnodup, by simp, fun a ha b hb heq => ?_⟩
    obtain rfl := List.mem_singleton.1 hb
    exact hnew (heq ▸ ha)
  · exact ordered_snoc hordered hall

/-- A step that goes inside of a node. -/
theorem Inv.enter {g : Graph N} {node dep : N} {deps path : List N} {stack : List (Frame N)}
    {s : Search N} (h : Inv g (⟨node, dep :: deps, path⟩ :: stack) s)
    (hwhite : s.color dep = .White) :
    Inv g (⟨dep, g.deps dep, path ++ [dep]⟩ :: ⟨node, deps, path⟩ :: stack) (s.paint dep .Gray) := by
  obtain ⟨⟨hpath, hdeps, hpending, habove, hstack⟩, hgray, hblack, hdistinct, hnodup, hordered⟩ := h
  have hnew : dep ∉ s.result := by
    intro hmem
    rw [(hblack dep).2 hmem] at hwhite
    cases hwhite
  have hout : dep ∉ (⟨node, deps, path⟩ :: stack : List (Frame N)).map Frame.node := by
    intro hmem
    rw [(hgray dep).2 hmem] at hwhite
    cases hwhite
  constructor
  · refine ⟨?_, fun d hd => hd, fun d hd => .inl hd, fun a ha => absurd ha (by simp), hpath,
      fun d hd => hdeps d (by simp [hd]), fun d hd => ?_, fun a ha => ?_, hstack⟩
    · show path ++ [dep] = _
      rw [show path = _ from hpath]
      simp
    · rcases hpending d hd with hleft | hmem | habs
      · rcases List.mem_cons.1 hleft with rfl | htail
        · exact .inr (.inr rfl)
        · exact .inl htail
      · exact .inr (.inl hmem)
      · simp at habs
    · obtain rfl := Option.some.inj ha
      exact hdeps _ (by simp)
  · intro x
    by_cases hx : x = dep
    · subst hx
      simp
    · rw [paint_color_of_ne s _ hx, hgray x]
      simp [hx]
  · intro x
    by_cases hx : x = dep
    · subst hx
      simpa using hnew
    · rw [paint_color_of_ne s _ hx]
      exact hblack x
  · exact List.nodup_cons.2 ⟨fun hmem => hout hmem, hdistinct⟩
  · exact hnodup
  · exact hordered

/-! ### What a search gives -/

/-- A way along dependencies that ends at a node which it has passed. -/
def RunsIntoItself (g : Graph N) (path : List N) : Prop :=
  path.IsChain g.Needs ∧ ∃ way x, path = way ++ [x] ∧ x ∈ way

theorem Stacked.isChain {g : Graph N} {result : List N} {above : Option N} {stack : List (Frame N)}
    (h : Stacked g result above stack) :
    ((stack.map Frame.node).reverse ++ above.toList).IsChain g.Needs := by
  induction stack generalizing above with
  | nil => cases above <;> simp
  | cons f stack ih =>
    obtain ⟨-, -, -, habove, hstack⟩ := h
    have hchain := ih hstack
    cases above with
    | none => simpa using hchain
    | some a =>
      simp only [List.map_cons, List.reverse_cons, Option.toList_some] at hchain ⊢
      exact hchain.append (.singleton a) (by simpa [Graph.Needs] using habove a rfl)

/-- A node is found on the way along dependencies from one of these nodes. -/
def Reached (g : Graph N) (inside : List N) (x : N) : Prop :=
  ∃ r ∈ inside, Relation.ReflTransGen g.Needs r x

/-- What a search that is inside of these nodes ends with, and where the path of an error starts. -/
def Ends (g : Graph N) (inside roots : List N) (s : Search N) :
    Except (List N) (Search N) → Prop
  | .ok s' => Inv g [] s' ∧ s.result <+: s'.result ∧ inside ⊆ s'.result ∧
      ∀ x ∈ s'.result, x ∈ s.result ∨ Reached g inside x
  | .error path => RunsIntoItself g path ∧ ∃ x ∈ roots, path.head? = some x

/-- A step that leaves no node behind, and goes only where the nodes lead. -/
theorem Ends.step {g : Graph N} {inside inside' roots roots' : List N} {s t : Search N}
    {r : Except (List N) (Search N)} (h : Ends g inside' roots' t r) (hresult : s.result <+: t.result)
    (hkept : ∀ x ∈ inside, x ∈ inside' ∨ x ∈ t.result)
    (hroot : roots' ⊆ roots) (hinside : ∀ x ∈ inside', Reached g inside x)
    (hrecorded : ∀ x ∈ t.result, x ∈ s.result ∨ Reached g inside x) :
    Ends g inside roots s r := by
  cases r with
  | ok s' =>
    obtain ⟨hinv, hprefix, hdone, hreached⟩ := h
    refine ⟨hinv, hresult.trans hprefix, fun x hx => ?_, fun x hx => ?_⟩
    · rcases hkept x hx with hin | hmem
      · exact hdone hin
      · exact hprefix.subset hmem
    · rcases hreached x hx with hmem | ⟨y, hy, hyx⟩
      · exact hrecorded x hmem
      · obtain ⟨z, hz, hzy⟩ := hinside y hy
        exact .inr ⟨z, hz, hzy.trans hyx⟩
  | error path =>
    obtain ⟨hloop, x, hx, hhead⟩ := h
    exact ⟨hloop, x, hroot hx, hhead⟩

theorem reached_of_mem {g : Graph N} {inside : List N} {x : N} (h : x ∈ inside) :
    Reached g inside x :=
  ⟨x, h, .refl⟩

/-- The way to a node that the search is inside of. -/
theorem Inv.runsIntoItself {g : Graph N} {node dep : N} {deps path : List N}
    {stack : List (Frame N)} {s : Search N} (h : Inv g (⟨node, dep :: deps, path⟩ :: stack) s)
    (hgray : s.color dep = .Gray) : RunsIntoItself g (path ++ [dep]) := by
  obtain ⟨hpath, hdeps, -, -, hstack⟩ := h.stacked
  have hpath : path = (stack.map Frame.node).reverse ++ [node] := by simpa using hpath
  have hmem := (h.gray dep).1 hgray
  refine ⟨?_, path, dep, rfl, by simpa [hpath, or_comm] using hmem⟩
  have hchain := hstack.isChain
  rw [Option.toList_some, ← hpath] at hchain
  refine hchain.append (.singleton dep) fun x hx y hy => ?_
  obtain rfl : node = x := by simpa [hpath] using hx
  obtain rfl : dep = y := by simpa using hy
  exact hdeps _ (by simp)

theorem Stacked.head? {g : Graph N} {result : List N} {above : Option N} {f : Frame N}
    {stack : List (Frame N)} (h : Stacked g result above (f :: stack)) :
    ∃ x ∈ ((f :: stack).map Frame.node).getLast?.toList, f.path.head? = some x := by
  refine ⟨_, Option.mem_toList.2 (List.getLast?_eq_some_getLast (by simp)), ?_⟩
  rw [h.1, List.head?_reverse, List.getLast?_eq_some_getLast]

theorem loop_spec {g : Graph N} {stack : List (Frame N)} {s : Search N} (h : Inv g stack s) :
    Ends g (stack.map Frame.node) (stack.map Frame.node).getLast?.toList s (loop g stack s) := by
  induction stack, s using loop.induct (g := g) with
  | case1 s =>
    rw [loop_nil]
    exact ⟨h, List.prefix_rfl, by simp, fun x hx => .inl hx⟩
  | case2 s node path stack ih =>
    rw [loop_record]
    refine (ih h.record).step (List.prefix_append _ _) (fun x hx => ?_) (fun x hx => ?_)
      (fun x hx => reached_of_mem (List.mem_cons_of_mem _ hx)) fun x hx => ?_
    · rcases List.mem_cons.1 hx with rfl | hx
      · exact .inr (by simp)
      · exact .inl hx
    · have hx : (stack.map Frame.node).getLast? = some x := Option.mem_toList.1 hx
      simp [List.getLast?_cons, hx]
    · rcases List.mem_append.1 hx with hx | hx
      · exact .inl hx
      · exact .inr (reached_of_mem (by simpa using Or.inl (List.mem_singleton.1 hx)))
  | case3 s node dep deps path stack hmem hgray =>
    obtain ⟨x, hx, hhead⟩ := h.stacked.head?
    have hends : RunsIntoItself g (path ++ [dep]) := h.runsIntoItself hgray
    rw [loop_gray hmem hgray]
    exact ⟨hends, x, hx, by simp [List.head?_append, hhead]⟩
  | case4 s node dep deps path stack hmem hblack ih =>
    rw [loop_black hmem hblack]
    exact ih (h.skip (.inl ((h.black dep).1 hblack)))
  | case5 s node dep deps path stack hmem hwhite ih =>
    rw [loop_white hmem hwhite]
    refine (ih (h.enter hwhite)).step List.prefix_rfl (fun x hx => .inl (List.mem_cons_of_mem _ hx))
      (by simp [List.getLast?_cons]) (fun x hx => ?_) fun x hx => .inl hx
    rcases List.mem_cons.1 hx with rfl | hx
    · exact ⟨node, by simp, .single (h.stacked.2.1 _ (by simp))⟩
    · exact reached_of_mem hx
  | case6 s node dep deps path stack hmem ih =>
    rw [loop_foreign hmem]
    exact ih (h.skip (.inr hmem))

/-! ### The search from all nodes -/

theorem search_spec {g : Graph N} {seed : N} {s : Search N} (h : Inv g [] s)
    (hwhite : s.color seed = .White) : Ends g [seed] [seed] s (search g seed s) := by
  have hseed : seed ∉ s.result := by
    intro hmem
    rw [(h.black seed).2 hmem] at hwhite
    cases hwhite
  have hgray : ∀ x, s.color x ≠ .Gray := by simpa using h.gray
  have hinv : Inv g [⟨seed, g.deps seed, [seed]⟩] (s.paint seed .Gray) := by
    refine ⟨⟨rfl, fun d hd => hd, fun d hd => .inl hd, by simp, trivial⟩, fun x => ?_, fun x => ?_,
      by simp, h.nodup, h.ordered⟩
    · by_cases hx : x = seed
      · simp [hx]
      · simp [paint_color_of_ne s _ hx, hx, hgray x]
    · by_cases hx : x = seed
      · simpa [hx] using hseed
      · rw [paint_color_of_ne s _ hx]
        exact h.black x
  exact loop_spec hinv

/-- After a search, a node is recorded or still to be found. -/
theorem Inv.white_or {g : Graph N} {s : Search N} (h : Inv g [] s) (x : N) :
    s.color x = .White ∨ x ∈ s.result := by
  cases hx : s.color x with
  | White => exact .inl rfl
  | Gray => simpa using (h.gray x).1 hx
  | Black => exact .inr ((h.black x).1 hx)

theorem searchNew_spec {g : Graph N} {s : Search N} (h : Inv g [] s) {x : N} (hx : x ∈ g.nodes) :
    Ends g [x] [x] s (searchNew g s x) := by
  rw [searchNew]
  by_cases hwhite : s.color x = .White
  · rw [if_pos ⟨hx, hwhite⟩]
    exact search_spec h hwhite
  · rw [if_neg fun hboth => hwhite hboth.2]
    exact ⟨h, List.prefix_rfl, by simpa using (h.white_or x).resolve_left hwhite, fun y hy => .inl hy⟩

/-- The searches from these nodes, one after another. -/
theorem foldlM_spec {g : Graph N} {nodes : List N} {s : Search N} (h : Inv g [] s)
    (hsub : nodes ⊆ g.nodes) : Ends g nodes nodes s (nodes.foldlM (searchNew g) s) := by
  induction nodes generalizing s with
  | nil => exact ⟨h, List.prefix_rfl, by simp, fun x hx => .inl hx⟩
  | cons x nodes ih =>
    have hfirst := searchNew_spec h (hsub (List.mem_cons_self ..))
    rw [List.foldlM_cons]
    cases hr : searchNew g s x with
    | error path =>
      rw [hr] at hfirst
      obtain ⟨hloop, y, hy, hhead⟩ := hfirst
      exact ⟨hloop, y, by simpa using Or.inl (List.mem_singleton.1 hy), hhead⟩
    | ok t =>
      rw [hr] at hfirst
      obtain ⟨hinv, hprefix, hdone, hreached⟩ := hfirst
      have hrest := ih hinv fun y hy => hsub (List.mem_cons_of_mem _ hy)
      refine hrest.step hprefix (fun y hy => ?_) (List.subset_cons_self _ _)
        (fun y hy => reached_of_mem (List.mem_cons_of_mem _ hy)) fun y hy => ?_
      · rcases List.mem_cons.1 hy with rfl | hy
        · exact .inr (hdone (by simp))
        · exact .inl hy
      · refine (hreached y hy).imp_right fun ⟨r, hr, hry⟩ => ⟨r, ?_, hry⟩
        simpa using Or.inl (List.mem_singleton.1 hr)

theorem inv_start (g : Graph N) : Inv g [] ⟨fun _ => .White, []⟩ :=
  ⟨trivial, by simp, by simp, .nil, .nil, ordered_nil g⟩

/-- What comes before a node has all that it leads to. -/
theorem Ordered.mem_before {g : Graph N} {result before after : List N} {e x : N}
    (h : Ordered g result) (hresult : result = before ++ e :: after)
    (hlead : Relation.TransGen g.Needs e x) : x ∈ before := by
  induction hlead with
  | single hneeds => exact h before e after hresult _ hneeds
  | tail _ hneeds ih =>
    obtain ⟨front, back, rfl⟩ := List.append_of_mem ih
    have hmem := h front _ (back ++ e :: after) (by simp [hresult]) _ hneeds
    exact List.mem_append_left _ hmem

theorem Ordered.acyclic {g : Graph N} {result : List N} (h : Ordered g result) (hnodup : result.Nodup)
    {x : N} (hx : x ∈ result) : ¬ Relation.TransGen g.Needs x x := by
  intro hlead
  obtain ⟨before, after, rfl⟩ := List.append_of_mem hx
  have hmem := h.mem_before rfl hlead
  exact (List.nodup_append.1 hnodup).2.2 _ hmem _ (List.mem_cons_self ..) rfl

theorem RunsIntoItself.transGen {g : Graph N} {path : List N} (h : RunsIntoItself g path) :
    ∃ x, Relation.TransGen g.Needs x x := by
  obtain ⟨hchain, way, x, rfl, hx⟩ := h
  obtain ⟨front, back, rfl⟩ := List.append_of_mem hx
  have hback : (x :: (back ++ [x])).IsChain g.Needs := by
    have hchain : (front ++ (x :: (back ++ [x]))).IsChain g.Needs := by simpa using hchain
    exact (List.isChain_append.1 hchain).2.1
  refine ⟨x, ?_⟩
  clear hchain hx
  generalize hy : x = y at hback ⊢
  nth_rewrite 2 [← hy]
  nth_rewrite 2 [← hy] at hback
  clear hy
  induction back generalizing y with
  | nil => exact .single (by simpa using hback)
  | cons z back ih =>
    obtain ⟨hyz, hrest⟩ := List.isChain_cons_cons.1 hback
    exact (ih z hrest).head hyz

/-- The order: each node once, each after what it depends on; first what the entry leads to, then the
entry, then the rest. -/
structure IsOrder (g : Graph N) (entry : N) (result : List N) : Prop where
  nodup : result.Nodup
  mem : ∀ x, x ∈ result ↔ x = entry ∨ x ∈ g.nodes
  ordered : Ordered g result
  entry : ∃ before after, result = before ++ entry :: after ∧
    ∀ x, x ∈ before ↔ Relation.TransGen g.Needs entry x

theorem order_eq (g : Graph N) (entry : N) :
    order g entry = (search g entry ⟨fun _ => .White, []⟩).bind fun s =>
      (g.nodes.foldlM (searchNew g) s).map Search.result := by
  rw [order]
  cases search g entry ⟨fun _ => .White, []⟩ with
  | error path => rfl
  | ok s =>
    show (g.nodes.foldlM (searchNew g) s >>= fun s => pure s.result) = _
    rw [bind_pure_comp]
    rfl

/-- What the search from the entry records. -/
theorem search_start {g : Graph N} {entry : N} {s : Search N}
    (h : search g entry ⟨fun _ => .White, []⟩ = .ok s) :
    Inv g [] s ∧ ∃ before, s.result = before ++ [entry] ∧
      ∀ x, x ∈ before ↔ Relation.TransGen g.Needs entry x := by
  have hspec := @search_spec _ _ g entry _ (inv_start g) rfl
  rw [h] at hspec
  obtain ⟨hinv, -, hdone, hreached⟩ := hspec
  refine ⟨hinv, ?_⟩
  obtain ⟨before, after, hresult⟩ := List.append_of_mem (hdone (List.mem_singleton_self entry))
  have hnodup := hinv.nodup
  rw [hresult] at hnodup
  have hlead : ∀ x ∈ s.result, x = entry ∨ Relation.TransGen g.Needs entry x := by
    intro x hx
    rcases hreached x hx with hmem | ⟨r, hr, hrx⟩
    · simp at hmem
    · obtain rfl := List.mem_singleton.1 hr
      exact Relation.reflTransGen_iff_eq_or_transGen.1 hrx
  have hbefore : ∀ x, Relation.TransGen g.Needs entry x → x ∈ before := fun x hx =>
    hinv.ordered.mem_before hresult hx
  -- A node after the entry is one that the entry leads to, and so comes before it.
  have hafter : after = [] := by
    refine List.eq_nil_iff_forall_not_mem.2 fun x hx => ?_
    have hsplit := List.nodup_append.1 hnodup
    rcases hlead x (by simp [hresult, hx]) with rfl | htrans
    · exact (List.nodup_cons.1 hsplit.2.1).1 hx
    · exact hsplit.2.2 x (hbefore x htrans) x (List.mem_cons_of_mem _ hx) rfl
  refine ⟨before, by rw [hresult, hafter], fun x => ⟨fun hx => ?_, hbefore x⟩⟩
  rcases hlead x (by simp [hresult, hx]) with rfl | htrans
  · exact absurd rfl ((List.nodup_append.1 hnodup).2.2 x hx x (List.mem_cons_self ..))
  · exact htrans

theorem order_ok {g : Graph N} {entry : N} {result : List N} (h : order g entry = .ok result) :
    IsOrder g entry result := by
  rw [order_eq] at h
  cases hsearch : search g entry ⟨fun _ => .White, []⟩ with
  | error path => simp [hsearch, Except.bind] at h
  | ok s =>
    rw [hsearch, Except.bind] at h
    obtain ⟨hinv, before, hresult, hbefore⟩ := search_start hsearch
    have hspec := foldlM_spec hinv (List.Subset.refl g.nodes)
    cases hfold : g.nodes.foldlM (searchNew g) s with
    | error path => simp [hfold, Except.map] at h
    | ok s' =>
      rw [hfold] at hspec h
      obtain rfl : s'.result = result := by simpa [Except.map] using h
      obtain ⟨hinv', ⟨after, hafter⟩, hdone, hreached⟩ := hspec
      refine ⟨hinv'.nodup, fun x => ⟨fun hx => ?_, fun hx => ?_⟩, hinv'.ordered, before, after, ?_, hbefore⟩
      · rcases hreached x hx with hmem | ⟨r, hr, hrx⟩
        · rw [hresult] at hmem
          rcases List.mem_append.1 hmem with hmem | hmem
          · obtain ⟨y, -, hy⟩ := Relation.TransGen.tail'_iff.1 ((hbefore x).1 hmem)
            exact .inr (mem_nodes_of_deps hy)
          · exact .inl (List.mem_singleton.1 hmem)
        · rcases hrx.cases_tail with rfl | ⟨y, -, hy⟩
          · exact .inr hr
          · exact .inr (mem_nodes_of_deps hy)
      · rcases hx with rfl | hx
        · rw [← hafter, hresult]
          simp
        · exact hdone hx
      · rw [← hafter, hresult]
        simp

theorem search_of_order {g : Graph N} {entry : N} {result : List N}
    (h : order g entry = .ok result) :
    ∃ s, search g entry ⟨fun _ => .White, []⟩ = .ok s ∧ s.result <+: result := by
  rw [order_eq] at h
  cases hsearch : search g entry ⟨fun _ => .White, []⟩ with
  | error path => simp [hsearch, Except.bind] at h
  | ok s =>
    rw [hsearch, Except.bind] at h
    have hspec := foldlM_spec (search_start hsearch).1 (List.Subset.refl g.nodes)
    cases hfold : g.nodes.foldlM (searchNew g) s with
    | error path => simp [hfold, Except.map] at h
    | ok s' =>
      rw [hfold] at hspec h
      obtain rfl : s'.result = result := by simpa [Except.map] using h
      exact ⟨s, rfl, hspec.2.1⟩

theorem order_error {g : Graph N} {entry : N} {path : List N} (h : order g entry = .error path) :
    RunsIntoItself g path ∧ ∃ x ∈ entry :: g.nodes, path.head? = some x := by
  rw [order_eq] at h
  cases hsearch : search g entry ⟨fun _ => .White, []⟩ with
  | error path' =>
    have hspec := @search_spec _ _ g entry _ (inv_start g) rfl
    rw [hsearch] at hspec h
    obtain rfl : path' = path := by simpa [Except.bind] using h
    obtain ⟨hloop, x, hx, hhead⟩ := hspec
    exact ⟨hloop, x, by simpa using Or.inl (List.mem_singleton.1 hx), hhead⟩
  | ok s =>
    rw [hsearch, Except.bind] at h
    have hspec := foldlM_spec (search_start hsearch).1 (List.Subset.refl g.nodes)
    cases hfold : g.nodes.foldlM (searchNew g) s with
    | ok s' => simp [hfold, Except.map] at h
    | error path' =>
      rw [hfold] at hspec h
      obtain rfl : path' = path := by simpa [Except.map] using h
      obtain ⟨hloop, x, hx, hhead⟩ := hspec
      exact ⟨hloop, x, List.mem_cons_of_mem _ hx, hhead⟩

theorem order_isOk_iff (g : Graph N) (entry : N) :
    (∃ result, order g entry = .ok result) ↔ ∀ x, ¬ Relation.TransGen g.Needs x x := by
  constructor
  · rintro ⟨result, h⟩ x hx
    have hord := order_ok h
    obtain ⟨y, -, hy⟩ := Relation.TransGen.tail'_iff.1 hx
    exact hord.ordered.acyclic hord.nodup ((hord.mem x).2 (.inr (mem_nodes_of_deps hy))) hx
  · intro hacyclic
    cases h : order g entry with
    | ok result => exact ⟨result, rfl⟩
    | error path =>
      obtain ⟨x, hx⟩ := (order_error h).1.transGen
      exact absurd hx (hacyclic x)

/-! ### Another listing of the same nodes -/

theorem loop_congr {g g' : Graph N} (hnodes : ∀ x, x ∈ g.nodes ↔ x ∈ g'.nodes)
    (htargets : ∀ x, g.targets x = g'.targets x) (stack : List (Frame N)) (s : Search N) :
    loop g stack s = loop g' stack s := by
  have hdeps : ∀ x, g.deps x = g'.deps x := by
    intro x
    simp [Graph.deps, htargets, hnodes]
  induction stack, s using loop.induct (g := g) with
  | case1 s => rw [loop_nil, loop_nil]
  | case2 s node path stack ih => rw [loop_record, loop_record, ih]
  | case3 s node dep deps path stack hmem hgray =>
    rw [loop_gray hmem hgray, loop_gray ((hnodes dep).1 hmem) hgray]
  | case4 s node dep deps path stack hmem hblack ih =>
    rw [loop_black hmem hblack, loop_black ((hnodes dep).1 hmem) hblack, ih]
  | case5 s node dep deps path stack hmem hwhite ih =>
    rw [loop_white hmem hwhite, loop_white ((hnodes dep).1 hmem) hwhite, ih, hdeps]
  | case6 s node dep deps path stack hmem ih =>
    rw [loop_foreign hmem, loop_foreign fun h => hmem ((hnodes dep).2 h), ih]

theorem search_congr {g g' : Graph N} (hnodes : ∀ x, x ∈ g.nodes ↔ x ∈ g'.nodes)
    (htargets : ∀ x, g.targets x = g'.targets x) (seed : N) (s : Search N) :
    search g seed s = search g' seed s := by
  have hdeps : g.deps seed = g'.deps seed := by
    simp [Graph.deps, htargets, hnodes]
  rw [search, search, hdeps, loop_congr hnodes htargets]

/-- Up to the entry the order is the same for every listing of the nodes. -/
theorem order_prefix {g g' : Graph N} (hnodes : ∀ x, x ∈ g.nodes ↔ x ∈ g'.nodes)
    (htargets : ∀ x, g.targets x = g'.targets x) {entry : N} {result result' : List N}
    (h : order g entry = .ok result) (h' : order g' entry = .ok result') :
    ∃ before after after', result = before ++ entry :: after ∧ result' = before ++ entry :: after' := by
  obtain ⟨s, hsearch, after, hafter⟩ := search_of_order h
  obtain ⟨s', hsearch', after', hafter'⟩ := search_of_order h'
  rw [search_congr hnodes htargets] at hsearch
  obtain rfl : s = s' := Except.ok.inj (hsearch.symm.trans hsearch')
  obtain ⟨-, before, hresult, -⟩ := search_start hsearch
  exact ⟨before, after, after', by simp [← hafter, hresult], by simp [← hafter', hresult]⟩

end IpeLang.Lib.DepthFirst
