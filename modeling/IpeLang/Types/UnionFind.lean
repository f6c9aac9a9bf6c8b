import IpeLang.Lib.ClassStore
import IpeLang.Types.Diagnostic

/-!
# The union-find arena

`types/src/unionfind.rs`: a vector of slots, each a root with a descriptor and a rank or a link to
another slot, with weighted union and path compression. An arena carries the proof that its links
run downhill, so that `find` ends within as many rounds as there are slots.

* `UnionFind.view` is the partition that the arena stands for;
* `find_spec`, `content_spec`, `rootContent_spec`: reading changes the arena but not its view;
* `union_spec`, `fresh_spec`, `fresh_full`: what the two updates do to the view.
-/

namespace IpeLang.Types

open IpeLang.Lib

variable {T : Type}

/-- One slot of the arena. -/
inductive Node (T : Type)
  | root (content : T) (rank : ℕ)
  | link (next : VarId)
  deriving DecidableEq

namespace UnionFind

/-- The stage named in a broken-invariant diagnostic of the arena. -/
def STAGE : String := "ipe_types::unionfind"

def dangling (v : VarId) : Diagnostic := .compilerBug STAGE s!"dangling union-find id {v}"

def notARoot : Diagnostic := .compilerBug STAGE "union-find representative was not a root"

def arenaExceeded : Diagnostic :=
  .compilerBug STAGE "union-find arena exceeded u32::MAX variables"

theorem dangling_ne_arenaExceeded (v : VarId) : dangling v ≠ arenaExceeded := by
  intro h
  have hs := congrArg String.toList (Diagnostic.compilerBug.inj h).2
  simp [toString] at hs

/-- Read a slot. -/
def node (nodes : List (Node T)) (v : VarId) : DResult (Node T) :=
  match nodes[v]? with
  | some n => .ok n
  | none => .error (.diag (dangling v))

/-! ### Links -/

/-- `μ` falls along every link, and every link stays in the arena. -/
def Downhill (μ : ℕ → ℕ) (nodes : List (Node T)) : Prop :=
  ∀ v w, nodes[v]? = some (.link w) → w < nodes.length ∧ μ w < μ v

/-- The links from `v` lead to the root `r`. -/
inductive Leads (nodes : List (Node T)) : VarId → VarId → Prop
  | root {v : VarId} {c : T} {k : ℕ} : nodes[v]? = some (.root c k) → Leads nodes v v
  | link {v w r : VarId} : nodes[v]? = some (.link w) → Leads nodes w r → Leads nodes v r

variable {nodes nodes' : List (Node T)} {v w r r' : VarId} {μ : ℕ → ℕ}

theorem Leads.isRoot (h : Leads nodes v r) : ∃ c k, nodes[r]? = some (.root c k) := by
  induction h with
  | root h => exact ⟨_, _, h⟩
  | link _ _ ih => exact ih

theorem Leads.unique (h : Leads nodes v r) (h' : Leads nodes v r') : r = r' := by
  induction h with
  | root h =>
    cases h' with
    | root _ => rfl
    | link hl _ => simp [h] at hl
  | link hl _ ih =>
    cases h' with
    | root h => simp [h] at hl
    | link hl' hw =>
      have : some (Node.link _) = some (Node.link _) := hl.symm.trans hl'
      cases this
      exact ih hw

theorem Leads.lt (h : Leads nodes v r) : v < nodes.length := by
  cases h with
  | root h => exact (List.getElem?_eq_some_iff.1 h).1
  | link h _ => exact (List.getElem?_eq_some_iff.1 h).1

theorem Leads.trans (h : Leads nodes v r) : Leads nodes r r := by
  obtain ⟨c, k, hr⟩ := h.isRoot
  exact .root hr

theorem Leads.measure_le (hμ : Downhill μ nodes) (h : Leads nodes v r) : μ r ≤ μ v := by
  induction h with
  | root _ => exact le_rfl
  | link hl _ ih => exact ih.trans (hμ _ _ hl).2.le

/-- The slots below `v`, which bound the links that are still to be followed from it. -/
def under (μ : ℕ → ℕ) (n : ℕ) (v : VarId) : Finset ℕ :=
  (Finset.range n).filter fun w => μ w < μ v

theorem card_under_lt {n : ℕ} (hw : w < n) (h : μ w < μ v) :
    (under μ n w).card < (under μ n v).card := by
  apply Finset.card_lt_card
  rw [Finset.ssubset_iff_of_subset]
  · exact ⟨w, by simp [under, hw, h], by simp [under]⟩
  · intro u hu
    simp only [under, Finset.mem_filter] at hu ⊢
    exact ⟨hu.1, hu.2.trans h⟩

theorem card_under_lt_length (μ : ℕ → ℕ) {n : ℕ} (hv : v < n) : (under μ n v).card < n := by
  have hss : under μ n v ⊂ Finset.range n := by
    refine (Finset.ssubset_iff_of_subset (Finset.filter_subset _ _)).2 ⟨v, ?_, ?_⟩
    · simpa using hv
    · simp
  simpa using Finset.card_lt_card hss

/-! ### `find` -/

/-- The first loop of `find`: walk the links to the root. -/
def walk (nodes : List (Node T)) : ℕ → VarId → DResult VarId
  | 0, _ => .error .fuel
  | n + 1, root => do
    match ← node nodes root with
    | .root _ _ => .ok root
    | .link next => walk nodes n next

/-- The second loop of `find`: repoint the chain from `cur` at the root. -/
def compress (root : VarId) : ℕ → List (Node T) → VarId → DResult (List (Node T))
  | 0, _, _ => .error .fuel
  | n + 1, nodes, cur => do
    match ← node nodes cur with
    | .root _ _ => .ok nodes
    | .link next => compress root n (nodes.set cur (.link root)) next

theorem node_eq {n : Node T} (h : nodes[v]? = some n) : node nodes v = .ok n := by
  simp [node, h]

theorem walk_spec (hμ : Downhill μ nodes) {n : ℕ} (hn : (under μ nodes.length v).card < n)
    (hv : v < nodes.length) : ∃ r, walk nodes n v = .ok r ∧ Leads nodes v r := by
  induction n generalizing v with
  | zero => omega
  | succ n ih =>
    rcases h : nodes[v]? with _ | ⟨c, k⟩ | w
    · exact absurd (List.getElem?_eq_none_iff.1 h) (not_le.2 hv)
    · exact ⟨v, by simp [walk, node_eq h], .root h⟩
    · obtain ⟨hw, hlt⟩ := hμ v w h
      have := card_under_lt hw hlt
      obtain ⟨r, hr, hl⟩ := ih (v := w) (by omega) hw
      exact ⟨r, by simpa [walk, node_eq h] using hr, .link h hl⟩

/-- `nodes'` is `nodes` with some links repointed at the root of their class. -/
structure Compressed (nodes nodes' : List (Node T)) : Prop where
  length_eq : nodes'.length = nodes.length
  root_iff : ∀ (v : VarId) (c : T) (k : ℕ),
    nodes'[v]? = some (.root c k) ↔ nodes[v]? = some (.root c k)
  leads : ∀ {v r}, Leads nodes v r → Leads nodes' v r

theorem Compressed.refl (nodes : List (Node T)) : Compressed nodes nodes :=
  ⟨rfl, fun _ _ _ => Iff.rfl, id⟩

theorem Compressed.trans {nodes'' : List (Node T)} (h : Compressed nodes nodes')
    (h' : Compressed nodes' nodes'') : Compressed nodes nodes'' where
  length_eq := h'.length_eq.trans h.length_eq
  root_iff v c k := (h'.root_iff v c k).trans (h.root_iff v c k)
  leads hl := h'.leads (h.leads hl)

theorem compressed_set (hv : nodes[v]? = some (.link w)) (hw : Leads nodes w r) :
    Compressed nodes (nodes.set v (.link r)) := by
  have hlen : v < nodes.length := (List.getElem?_eq_some_iff.1 hv).1
  have hroot : ∀ (u : VarId) (c : T) (k : ℕ), (nodes.set v (.link r))[u]? = some (.root c k) ↔
      nodes[u]? = some (.root c k) := by
    intro u c k
    by_cases huv : v = u
    · subst huv
      rw [List.getElem?_set_self hlen, hv]
      simp
    · rw [List.getElem?_set_ne huv]
  refine ⟨by simp, hroot, fun {u x} hu => ?_⟩
  obtain ⟨c, k, hr⟩ := hw.isRoot
  induction hu with
  | root h => exact .root ((hroot _ _ _).2 h)
  | @link u w' x hl hx ih =>
    by_cases huv : v = u
    · subst huv
      obtain rfl : r = x := (Leads.link hv hw).unique (.link hl hx)
      exact .link (w := r) (by simp [hlen]) (.root ((hroot _ _ _).2 hr))
    · exact .link (by rw [List.getElem?_set_ne huv]; exact hl) ih

theorem downhill_set (hμ : Downhill μ nodes) (hv : nodes[v]? = some (.link w))
    (hw : Leads nodes w r) : Downhill μ (nodes.set v (.link r)) := by
  intro u x hu
  rw [List.length_set]
  by_cases huv : v = u
  · subst huv
    have hlen : v < nodes.length := (List.getElem?_eq_some_iff.1 hv).1
    obtain rfl : r = x := by simpa [hlen] using hu
    exact ⟨hw.trans.lt, (hw.measure_le hμ).trans_lt (hμ _ _ hv).2⟩
  · rw [List.getElem?_set_ne huv] at hu
    exact hμ _ _ hu

theorem compress_downhill (hμ : Downhill μ nodes) {n : ℕ} (hv : Leads nodes v r)
    (h : compress r n nodes v = .ok nodes') : Downhill μ nodes' := by
  induction n generalizing nodes v with
  | zero => cases h
  | succ n ih =>
    cases hv with
    | root hr =>
      simp only [compress, node_eq hr, Run.ok_bind, Except.ok.injEq] at h
      exact h ▸ hμ
    | link hl hw =>
      simp only [compress, node_eq hl, Run.ok_bind] at h
      exact ih (downhill_set hμ hl hw) ((compressed_set hl hw).leads hw) h

theorem compress_spec (hμ : Downhill μ nodes) {n : ℕ}
    (hn : (under μ nodes.length v).card < n) (hv : Leads nodes v r) :
    ∃ nodes', compress r n nodes v = .ok nodes' ∧ Compressed nodes nodes' := by
  induction n generalizing nodes v with
  | zero => omega
  | succ n ih =>
    cases hv with
    | root hr => exact ⟨nodes, by simp [compress, node_eq hr], .refl nodes⟩
    | @link _ w _ hl hw =>
      obtain ⟨hwlt, hlt⟩ := hμ _ _ hl
      have hcard := card_under_lt hwlt hlt
      have hset := compressed_set hl hw
      obtain ⟨nodes', h, hc⟩ := ih (downhill_set hμ hl hw) (v := w)
        (by rw [List.length_set]; omega) (hset.leads hw)
      exact ⟨nodes', by simpa [compress, node_eq hl] using h, hset.trans hc⟩

/-- The representative of `v`, with the path to it compressed. -/
def findIn (nodes : List (Node T)) (v : VarId) : DResult (VarId × List (Node T)) := do
  let root ← walk nodes (nodes.length + 1) v
  let nodes ← compress root (nodes.length + 1) nodes v
  .ok (root, nodes)

/-- The descriptor at a root. -/
def rootContentIn (nodes : List (Node T)) (root : VarId) : DResult T := do
  match ← node nodes root with
  | .root content _ => .ok content
  | .link _ => .error (.diag notARoot)

/-- The rank of a root. -/
def rankIn (nodes : List (Node T)) (v : VarId) : DResult ℕ := do
  match ← node nodes v with
  | .root _ rank => .ok rank
  | .link _ => .error (.diag notARoot)

/-- Overwrite the descriptor at the representative of `v`. -/
def setContentIn (nodes : List (Node T)) (v : VarId) (value : T) : DResult (List (Node T)) := do
  let (root, nodes) ← findIn nodes v
  match ← node nodes root with
  | .root _ rank => .ok (nodes.set root (.root value rank))
  | .link _ => .error (.diag notARoot)

/-- One more, up to the largest rank that fits its word. -/
def saturatingSucc (rank : ℕ) : ℕ := min (rank + 1) (2 ^ 32 - 1)

/-- Merge the classes of `a` and `b` under `keep`, the root of lower rank below the other. -/
def unionIn (nodes : List (Node T)) (a b : VarId) (keep : T) : DResult (List (Node T)) := do
  let (ra, nodes) ← findIn nodes a
  let (rb, nodes) ← findIn nodes b
  if ra = rb then setContentIn nodes ra keep
  else
    let rankA ← rankIn nodes ra
    let rankB ← rankIn nodes rb
    let (winner, loser) := if rankA ≥ rankB then (ra, rb) else (rb, ra)
    match ← node nodes winner with
    | .root _ rank =>
      let rank := if rankA = rankB then saturatingSucc rank else rank
      let nodes := nodes.set winner (.root keep rank)
      let _ ← node nodes loser
      .ok (nodes.set loser (.link winner))
    | .link _ => .error (.diag notARoot)

/-- The links of an arena run downhill. -/
def Linked (nodes : List (Node T)) : Prop := ∃ μ, Downhill μ nodes

theorem findIn_spec (hn : Linked nodes) (hv : v < nodes.length) :
    ∃ r nodes', findIn nodes v = .ok (r, nodes') ∧ Leads nodes v r ∧ Compressed nodes nodes' ∧
      Linked nodes' := by
  obtain ⟨μ, hμ⟩ := hn
  have hcard := card_under_lt_length μ hv
  obtain ⟨r, hr, hl⟩ := walk_spec hμ (n := nodes.length + 1) (by omega) hv
  obtain ⟨nodes', hc, hcomp⟩ := compress_spec hμ (n := nodes.length + 1) (by omega) hl
  exact ⟨r, nodes', by simp [findIn, hr, hc], hl, hcomp, μ, compress_downhill hμ hl hc⟩

theorem findIn_dangling (hv : nodes.length ≤ v) :
    findIn nodes v = .error (.diag (dangling v)) := by
  simp [findIn, walk, node, List.getElem?_eq_none_iff.2 hv]

theorem downhill_set_root (hμ : Downhill μ nodes) (v : VarId) (c : T) (k : ℕ) :
    Downhill μ (nodes.set v (.root c k)) := by
  intro u w hu
  rw [List.length_set]
  by_cases huv : v = u
  · subst huv
    rcases h : nodes[v]? with _ | n <;> simp [List.getElem?_set_self', h] at hu
  · rw [List.getElem?_set_ne huv] at hu
    exact hμ _ _ hu

/-- Hanging a root below another root raises the measure of its whole class. -/
theorem linked_hang {c c' : T} {k k' : ℕ} (hn : Linked nodes) (hv : nodes[v]? = some (.root c k))
    (hw : nodes[w]? = some (.root c' k')) (hvw : v ≠ w) : Linked (nodes.set v (.link w)) := by
  classical
  obtain ⟨μ, hμ⟩ := hn
  have hw' : ¬ Leads nodes w v := fun h => hvw (h.unique (.root hw))
  refine ⟨fun u => if Leads nodes u v then μ u + μ w + 1 else μ u, fun u x hu => ?_⟩
  rw [List.length_set]
  by_cases huv : v = u
  · subst huv
    obtain rfl : w = x := by simpa [(Leads.root hv).lt] using hu
    refine ⟨(Leads.root hw).lt, ?_⟩
    simp only [if_neg hw', if_pos (Leads.root hv)]
    omega
  · rw [List.getElem?_set_ne huv] at hu
    obtain ⟨hx, hlt⟩ := hμ _ _ hu
    refine ⟨hx, ?_⟩
    have hiff : Leads nodes u v ↔ Leads nodes x v := by
      refine ⟨fun h => ?_, .link hu⟩
      cases h with
      | root h => exact absurd rfl huv
      | link hl h =>
        have : some (Node.link _) = some (Node.link _) := hl.symm.trans hu
        cases this
        exact h
    simp only [hiff]
    split_ifs <;> omega

theorem leads_set_root {c : T} {k : ℕ} (hv : nodes[v]? = some (.root c k)) (c' : T) (k' : ℕ)
    {u x : VarId} (h : Leads nodes u x) : Leads (nodes.set v (.root c' k')) u x := by
  induction h with
  | @root u _ _ h =>
    by_cases huv : v = u
    · subst huv
      exact .root (List.getElem?_set_self (Leads.root hv).lt)
    · exact .root (by rw [List.getElem?_set_ne huv]; exact h)
  | @link u _ _ hl _ ih =>
    have huv : v ≠ u := fun heq => by subst heq; simp [hv] at hl
    exact .link (by rw [List.getElem?_set_ne huv]; exact hl) ih

theorem leads_hang {c c' : T} {k k' : ℕ} (hv : nodes[v]? = some (.root c k))
    (hw : nodes[w]? = some (.root c' k')) (hvw : v ≠ w) {u x : VarId} (h : Leads nodes u x) :
    Leads (nodes.set v (.link w)) u (if x = v then w else x) := by
  have hvlen := (Leads.root hv).lt
  induction h with
  | @root u _ _ h =>
    by_cases huv : v = u
    · subst huv
      rw [if_pos rfl]
      exact .link (List.getElem?_set_self hvlen)
        (.root (by rw [List.getElem?_set_ne hvw]; exact hw))
    · rw [if_neg (Ne.symm huv)]
      exact .root (by rw [List.getElem?_set_ne huv]; exact h)
  | @link u _ _ hl _ ih =>
    have huv : v ≠ u := fun heq => by subst heq; simp [hv] at hl
    exact .link (by rw [List.getElem?_set_ne huv]; exact hl) ih

/-- `nodes'` has the classes of the roots `ra` and `rb` under the one root `w`, which holds
`keep`. -/
structure Joined (nodes nodes' : List (Node T)) (ra rb w : VarId) (keep : T) : Prop where
  length_eq : nodes'.length = nodes.length
  linked : Linked nodes'
  winner : w = ra ∨ w = rb
  root_at : ∃ k, nodes'[w]? = some (.root keep k)
  leads : ∀ {u x}, Leads nodes u x → Leads nodes' u (if x = ra ∨ x = rb then w else x)
  others : ∀ {x : VarId} {c : T} {k : ℕ}, x ≠ ra → x ≠ rb → nodes[x]? = some (.root c k) →
    nodes'[x]? = some (.root c k)

variable {ra rb : VarId} {keep c c' : T} {k k' : ℕ} {nodes₁ : List (Node T)}

theorem Joined.of_compressed (hc : Compressed nodes nodes₁)
    (h : Joined nodes₁ nodes' ra rb w keep) : Joined nodes nodes' ra rb w keep where
  length_eq := h.length_eq.trans hc.length_eq
  linked := h.linked
  winner := h.winner
  root_at := h.root_at
  leads hl := h.leads (hc.leads hl)
  others ha hb hx := h.others ha hb ((hc.root_iff _ _ _).2 hx)

theorem Joined.swap (h : Joined nodes nodes' ra rb w keep) : Joined nodes nodes' rb ra w keep where
  length_eq := h.length_eq
  linked := h.linked
  winner := h.winner.symm
  root_at := h.root_at
  leads hl := by simpa only [or_comm] using h.leads hl
  others ha hb hx := h.others hb ha hx

theorem joined_set_root (hn : Linked nodes) (hr : nodes[r]? = some (.root c k)) (keep : T)
    (k' : ℕ) :
    Joined nodes (nodes.set r (.root keep k')) r r r keep where
  length_eq := List.length_set
  linked := by
    obtain ⟨μ, hμ⟩ := hn
    exact ⟨μ, downhill_set_root hμ r keep k'⟩
  winner := Or.inl rfl
  root_at := ⟨k', List.getElem?_set_self (Leads.root hr).lt⟩
  leads {u x} hl := by
    have := leads_set_root hr keep k' hl
    by_cases hx : x = r
    · simpa [hx] using this
    · simpa [hx] using this
  others ha _ hx := by rwa [List.getElem?_set_ne (Ne.symm ha)]

theorem joined_hang (hn : Linked nodes) (hw : nodes[w]? = some (.root c k))
    (hv : nodes[v]? = some (.root c' k')) (hvw : v ≠ w) (keep : T) (k'' : ℕ) :
    Joined nodes ((nodes.set w (.root keep k'')).set v (.link w)) w v w keep := by
  have hset := joined_set_root hn hw keep k''
  obtain ⟨j, hj⟩ := hset.root_at
  have hv' := hset.others hvw hvw hv
  refine ⟨?_, linked_hang hset.linked hv' hj hvw, Or.inl rfl, ⟨j, ?_⟩, fun {u x} hl => ?_,
    fun {x _ _} hxw hxv hx => ?_⟩
  · rw [List.length_set, List.length_set]
  · rwa [List.getElem?_set_ne hvw]
  · have := leads_hang hv' hj hvw (hset.leads hl)
    by_cases hxw : x = w
    · simpa [hxw, Ne.symm hvw] using this
    · by_cases hxv : x = v
      · simpa [hxv, hvw] using this
      · simpa [hxw, hxv] using this
  · rw [List.getElem?_set_ne (Ne.symm hxv)]
    exact hset.others hxw hxw hx

theorem setContentIn_spec (hn : Linked nodes) (hv : v < nodes.length) (hl : Leads nodes v r)
    (keep : T) :
    ∃ nodes', setContentIn nodes v keep = .ok nodes' ∧ Joined nodes nodes' r r r keep := by
  obtain ⟨r', nodes₁, hf, hl', hc, hn₁⟩ := findIn_spec hn hv
  obtain rfl := hl.unique hl'
  obtain ⟨c, k, hr⟩ := (hc.leads hl).isRoot
  have hj := joined_set_root hn₁ hr keep k
  exact ⟨_, by simp [setContentIn, hf, node_eq hr], hj.of_compressed hc⟩

theorem rankIn_eq (h : nodes[v]? = some (.root c k)) : rankIn nodes v = .ok k := by
  simp [rankIn, node_eq h]

/-- `union` joins the two classes. -/
theorem unionIn_spec (hn : Linked nodes) {a b : VarId} (ha : Leads nodes a ra)
    (hb : Leads nodes b rb) (keep : T) :
    ∃ w nodes', unionIn nodes a b keep = .ok nodes' ∧ Joined nodes nodes' ra rb w keep := by
  obtain ⟨r₁, nodes₁, hf₁, hl₁, hc₁, hn₁⟩ := findIn_spec hn ha.lt
  obtain rfl := ha.unique hl₁
  obtain ⟨r₂, nodes₂, hf₂, hl₂, hc₂, hn₂⟩ := findIn_spec hn₁ (hc₁.leads hb).lt
  obtain rfl := (hc₁.leads hb).unique hl₂
  have hc := hc₁.trans hc₂
  by_cases heq : ra = rb
  · subst heq
    obtain ⟨nodes', h, hj⟩ := setContentIn_spec hn₂ (hc.leads ha).trans.lt (hc.leads ha).trans keep
    exact ⟨ra, nodes', by simpa [unionIn, hf₁, hf₂] using h, hj.of_compressed hc⟩
  obtain ⟨ca, ka, hra⟩ := (hc.leads ha).isRoot
  obtain ⟨cb, kb, hrb⟩ := (hc.leads hb).isRoot
  -- the two orders of the ranks differ in the names only
  by_cases hrank : ka ≥ kb
  · have hj := joined_hang hn₂ hra hrb (Ne.symm heq) keep
      (if ka = kb then saturatingSucc ka else ka)
    obtain ⟨n, hloser⟩ : ∃ n, (nodes₂.set ra
        (.root keep (if ka = kb then saturatingSucc ka else ka)))[rb]? = some n :=
      ⟨_, by rw [List.getElem?_set_ne heq]; exact hrb⟩
    refine ⟨ra, _, ?_, hj.of_compressed hc⟩
    simp [unionIn, hf₁, hf₂, heq, rankIn_eq hra, rankIn_eq hrb, hrank, node_eq hra,
      node_eq hloser]
  · have hj := joined_hang hn₂ hrb hra heq keep
      (if ka = kb then saturatingSucc kb else kb)
    obtain ⟨n, hloser⟩ : ∃ n, (nodes₂.set rb
        (.root keep (if ka = kb then saturatingSucc kb else kb)))[ra]? = some n :=
      ⟨_, by rw [List.getElem?_set_ne (Ne.symm heq)]; exact hra⟩
    refine ⟨rb, _, ?_, (hj.of_compressed hc).swap⟩
    simp [unionIn, hf₁, hf₂, heq, rankIn_eq hra, rankIn_eq hrb, hrank, node_eq hrb,
      node_eq hloser]

end UnionFind

/-- A weighted, path-compressed union-find over descriptors of type `T`, whose links run
downhill. -/
structure UnionFind (T : Type) where
  nodes : List (Node T)
  linked : UnionFind.Linked nodes

namespace UnionFind

variable {uf : UnionFind T} {a b v r : VarId} {c keep : T} {k : ℕ}

/-- An empty arena. -/
def new : UnionFind T := ⟨[], fun _ => 0, fun _ _ h => by simp at h⟩

theorem exists_leads (uf : UnionFind T) (h : v < uf.nodes.length) : ∃ r, Leads uf.nodes v r := by
  obtain ⟨r, _, _, hl, _⟩ := findIn_spec uf.linked h
  exact ⟨r, hl⟩

theorem findIn_linked {r : VarId} {nodes' : List (Node T)}
    (h : findIn uf.nodes v = .ok (r, nodes')) : Linked nodes' := by
  by_cases hv : v < uf.nodes.length
  · obtain ⟨_, _, h', -, -, hn⟩ := findIn_spec uf.linked hv
    cases h'.symm.trans h
    exact hn
  · simp [findIn_dangling (not_lt.1 hv)] at h

/-- The representative of `v`, with the path to it compressed. -/
def find (uf : UnionFind T) (v : VarId) : DResult (VarId × UnionFind T) :=
  match h : findIn uf.nodes v with
  | .error e => .error e
  | .ok (root, nodes) => .ok (root, ⟨nodes, findIn_linked h⟩)

/-- The descriptor at a root. -/
def rootContent (uf : UnionFind T) (root : VarId) : DResult T := rootContentIn uf.nodes root

/-- The descriptor at the representative of `v`. -/
def content (uf : UnionFind T) (v : VarId) : DResult (T × UnionFind T) := do
  let (root, uf) ← uf.find v
  let c ← rootContentIn uf.nodes root
  .ok (c, uf)

theorem unionIn_linked {nodes' : List (Node T)} (h : unionIn uf.nodes a b keep = .ok nodes') :
    Linked nodes' := by
  by_cases ha : a < uf.nodes.length
  · obtain ⟨ra, nodes₁, hf, hra, hc, -⟩ := findIn_spec uf.linked ha
    by_cases hb : b < uf.nodes.length
    · obtain ⟨rb, hrb⟩ := uf.exists_leads hb
      obtain ⟨w, nodes₂, h', hj⟩ := unionIn_spec uf.linked hra hrb keep
      cases h'.symm.trans h
      exact hj.linked
    · simp [unionIn, hf, findIn_dangling (hc.length_eq ▸ not_lt.1 hb)] at h
  · simp [unionIn, findIn_dangling (not_lt.1 ha)] at h

/-- Merge the classes of `a` and `b` under the descriptor `keep`. -/
def union (uf : UnionFind T) (a b : VarId) (keep : T) : DResult (UnionFind T) :=
  match h : unionIn uf.nodes a b keep with
  | .error e => .error e
  | .ok nodes => .ok ⟨nodes, unionIn_linked h⟩

theorem linked_concat (uf : UnionFind T) (c : T) : Linked (uf.nodes ++ [.root c 0]) := by
  obtain ⟨μ, hμ⟩ := uf.linked
  refine ⟨μ, fun v w hv => ?_⟩
  rw [List.getElem?_append] at hv
  split_ifs at hv with hlt
  · obtain ⟨hw, hm⟩ := hμ v w hv
    exact ⟨by simp; omega, hm⟩
  · rcases List.mem_singleton.1 (List.mem_of_getElem? hv) with h
    cases h

/-- A new root, as long as its id fits a 32-bit word. -/
def fresh (uf : UnionFind T) (c : T) : DResult (VarId × UnionFind T) :=
  if uf.nodes.length < 2 ^ 32 then
    .ok (uf.nodes.length, ⟨uf.nodes ++ [.root c 0], uf.linked_concat c⟩)
  else .error (.diag arenaExceeded)

/-! ### The partition of an arena -/

/-- The representative of `v` (an id out of range represents itself). -/
def repr (uf : UnionFind T) (v : VarId) : VarId :=
  match walk uf.nodes (uf.nodes.length + 1) v with
  | .ok r => r
  | .error _ => v

/-- The descriptor of the class of `v`. -/
def descriptor (uf : UnionFind T) (v : VarId) : Option T :=
  match uf.nodes[uf.repr v]? with
  | some (.root c _) => some c
  | _ => none

theorem repr_eq (h : Leads uf.nodes v r) : uf.repr v = r := by
  obtain ⟨μ, hμ⟩ := uf.linked
  have hcard := card_under_lt_length μ h.lt
  obtain ⟨r', hr, hl⟩ := walk_spec hμ (n := uf.nodes.length + 1) (by omega) h.lt
  rw [repr, hr]
  exact hl.unique h

theorem repr_of_le (h : uf.nodes.length ≤ v) : uf.repr v = v := by
  simp [repr, walk, node, List.getElem?_eq_none_iff.2 h]

theorem descriptor_eq (h : Leads uf.nodes v r) (hr : uf.nodes[r]? = some (.root c k)) :
    uf.descriptor v = some c := by
  simp [descriptor, repr_eq h, hr]

theorem descriptor_of_le (h : uf.nodes.length ≤ v) : uf.descriptor v = none := by
  simp [descriptor, repr_of_le h, List.getElem?_eq_none_iff.2 h]

/-- The partition that an arena stands for. -/
def view (uf : UnionFind T) : ClassStore T where
  size := uf.nodes.length
  root := uf.repr
  desc := uf.descriptor
  root_lt {v} hv := by
    obtain ⟨r, hl⟩ := uf.exists_leads hv
    rw [repr_eq hl]
    exact hl.trans.lt
  root_of_le := repr_of_le
  root_root v := by
    by_cases hv : v < uf.nodes.length
    · obtain ⟨r, hl⟩ := uf.exists_leads hv
      rw [repr_eq hl, repr_eq hl.trans]
    · rw [repr_of_le (not_lt.1 hv), repr_of_le (not_lt.1 hv)]
  desc_root v := by
    by_cases hv : v < uf.nodes.length
    · obtain ⟨r, hl⟩ := uf.exists_leads hv
      rw [descriptor, descriptor, repr_eq hl, repr_eq hl.trans]
    · rw [repr_of_le (not_lt.1 hv)]
  desc_isSome v := by
    by_cases hv : v < uf.nodes.length
    · obtain ⟨r, hl⟩ := uf.exists_leads hv
      obtain ⟨c, k, hr⟩ := hl.isRoot
      simp [descriptor_eq hl hr, hv]
    · simp [descriptor_of_le (not_lt.1 hv), hv]

theorem view_size (uf : UnionFind T) : uf.view.size = uf.nodes.length := rfl

theorem leads_root (h : v < uf.view.size) : Leads uf.nodes v (uf.view.root v) := by
  obtain ⟨r, hl⟩ := uf.exists_leads h
  rwa [show uf.view.root v = r from repr_eq hl]

theorem view_eq_of_compressed {uf' : UnionFind T} (h : Compressed uf.nodes uf'.nodes) :
    uf'.view = uf.view := by
  refine ClassStore.ext_view h.length_eq (fun v => ?_) fun v => ?_
  all_goals
    by_cases hv : v < uf.nodes.length
    · obtain ⟨r, hl⟩ := uf.exists_leads hv
      obtain ⟨c, k, hr⟩ := hl.isRoot
      first
      | exact (repr_eq (h.leads hl)).trans (repr_eq hl).symm
      | exact (descriptor_eq (h.leads hl) ((h.root_iff r c k).2 hr)).trans
          (descriptor_eq hl hr).symm
    · have hv' : uf'.nodes.length ≤ v := h.length_eq ▸ not_lt.1 hv
      first
      | exact (repr_of_le hv').trans (repr_of_le (not_lt.1 hv)).symm
      | exact (descriptor_of_le hv').trans (descriptor_of_le (not_lt.1 hv)).symm

/-- `find` gives the representative and leaves the partition as it was. -/
theorem find_spec (h : v < uf.view.size) :
    ∃ uf', uf.find v = .ok (uf.view.root v, uf') ∧ uf'.view = uf.view := by
  obtain ⟨r, nodes', hf, hl, hc, hn⟩ := findIn_spec uf.linked h
  refine ⟨⟨nodes', hn⟩, ?_, view_eq_of_compressed hc⟩
  rw [show uf.view.root v = r from repr_eq hl, find]
  split
  · rename_i h'
    cases h'.symm.trans hf
  · rename_i h'
    cases h'.symm.trans hf
    rfl

theorem find_dangling (h : uf.view.size ≤ v) : uf.find v = .error (.diag (dangling v)) := by
  rw [find]
  split
  · rename_i h'
    cases h'.symm.trans (findIn_dangling h)
    rfl
  · rename_i h'
    cases h'.symm.trans (findIn_dangling h)

theorem find_eq_ok {uf' : UnionFind T} (h : uf.find v = .ok (r, uf')) :
    v < uf.view.size ∧ r = uf.view.root v ∧ uf'.view = uf.view := by
  by_cases hv : v < uf.view.size
  · obtain ⟨uf₁, hf, hview⟩ := find_spec hv
    cases hf.symm.trans h
    exact ⟨hv, rfl, hview⟩
  · cases (find_dangling (not_lt.1 hv)).symm.trans h

theorem find_error {e : Stop Diagnostic} (h : uf.find v = .error e) : e = .diag (dangling v) := by
  by_cases hv : v < uf.view.size
  · obtain ⟨_, hf, -⟩ := find_spec hv
    cases hf.symm.trans h
  · cases (find_dangling (not_lt.1 hv)).symm.trans h
    rfl

theorem rootContent_error {e : Stop Diagnostic} (h : uf.rootContent v = .error e) :
    e = .diag (dangling v) ∨ e = .diag notARoot := by
  rcases hn : uf.nodes[v]? with _ | ⟨c, k⟩ | w <;>
    simp [rootContent, rootContentIn, node, hn] at h
  · exact Or.inl h.symm
  · exact Or.inr h.symm

theorem rootContent_spec (h : v < uf.view.size) :
    ∃ c, uf.rootContent (uf.view.root v) = .ok c ∧ uf.view.desc v = some c := by
  have hl := leads_root h
  obtain ⟨c, k, hr⟩ := hl.isRoot
  exact ⟨c, by simp [rootContent, rootContentIn, node_eq hr], descriptor_eq hl hr⟩

theorem content_spec (h : v < uf.view.size) :
    ∃ c uf', uf.content v = .ok (c, uf') ∧ uf.view.desc v = some c ∧ uf'.view = uf.view := by
  obtain ⟨uf', hf, hview⟩ := find_spec h
  obtain ⟨c, hc, hd⟩ := rootContent_spec (show v < uf'.view.size from hview ▸ h)
  rw [hview] at hc hd
  rw [rootContent] at hc
  exact ⟨c, uf', by simp [content, hf, hc], hd, hview⟩

/-- `union` merges the two classes. -/
theorem union_spec (ha : a < uf.view.size) (hb : b < uf.view.size) (keep : T) :
    ∃ uf', uf.union a b keep = .ok uf' ∧ uf.view.Merge uf'.view a b keep [] := by
  have hla := leads_root ha
  have hlb := leads_root hb
  obtain ⟨w, nodes', hu, hj⟩ := unionIn_spec uf.linked hla hlb keep
  refine ⟨⟨nodes', hj.linked⟩, ?_, ?_⟩
  · rw [union]
    split
    · rename_i h'
      cases h'.symm.trans hu
    · rename_i h'
      cases h'.symm.trans hu
      rfl
  have hroot : ∀ {u}, u < uf.view.size → (⟨nodes', hj.linked⟩ : UnionFind T).view.root u =
      if uf.view.Same u a ∨ uf.view.Same u b then w else uf.view.root u :=
    fun hu => repr_eq (hj.leads (leads_root hu))
  have hwa : (⟨nodes', hj.linked⟩ : UnionFind T).view.root a = w := by
    rw [hroot ha, if_pos (Or.inl (ClassStore.Same.refl _ a))]
  have hout : ∀ {u}, ¬ u < uf.view.size → ¬ (uf.view.Same u a ∨ uf.view.Same u b) := by
    rintro u hu (h | h)
    · exact hu (h.symm.lt ha)
    · exact hu (h.symm.lt hb)
  refine ⟨hj.length_eq, by rw [hwa]; exact hj.winner, fun u => ?_,
    fun {u} hu => ?_, fun i => ?_⟩
  · by_cases hu : u < uf.view.size
    · rw [hroot hu, hwa]
    · rw [if_neg (hout hu), uf.view.root_of_le (not_lt.1 hu)]
      exact repr_of_le (hj.length_eq ▸ not_lt.1 hu)
  · have hl : Leads nodes' u
        (if uf.view.Same u a ∨ uf.view.Same u b then w else uf.view.root u) :=
      hj.leads (leads_root hu)
    by_cases hc : uf.view.Same u a ∨ uf.view.Same u b
    · rw [if_pos hc] at hl ⊢
      obtain ⟨k, hk⟩ := hj.root_at
      exact descriptor_eq hl hk
    · rw [if_neg hc] at hl ⊢
      obtain ⟨c, k, hr⟩ := (leads_root hu).isRoot
      rw [not_or] at hc
      exact (descriptor_eq hl (hj.others hc.1 hc.2 hr)).trans
        (descriptor_eq (leads_root hu) hr).symm
  · exact descriptor_of_le (hj.length_eq ▸ Nat.le_add_right _ i)

theorem leads_concat (h : Leads uf.nodes v r) : Leads (uf.nodes ++ [.root c 0]) v r := by
  induction h with
  | root h => exact .root (List.getElem?_append_left (Leads.root h).lt ▸ h)
  | link h hw ih => exact .link (List.getElem?_append_left (Leads.link h hw).lt ▸ h) ih

/-- `fresh` mints a class of its own while the arena has room. -/
theorem fresh_spec (h : uf.view.size < 2 ^ 32) (c : T) :
    ∃ uf', uf.fresh c = .ok (uf.view.size, uf') ∧ uf.view.Mint uf'.view [c] := by
  refine ⟨⟨uf.nodes ++ [.root c 0], uf.linked_concat c⟩, ?_, ?_⟩
  · rw [view_size] at h ⊢
    rw [fresh, if_pos h]
  have hnew : (uf.nodes ++ [.root c 0])[uf.nodes.length]? = some (.root c 0) := by simp
  refine ⟨by simp [view_size], fun v => ?_, fun {v} hv => ?_, fun i => ?_⟩
  · by_cases hv : v < uf.nodes.length
    · exact repr_eq (leads_concat (leads_root hv))
    · rw [uf.view.root_of_le (not_lt.1 hv)]
      by_cases hlast : v = uf.nodes.length
      · exact repr_eq (hlast ▸ .root hnew)
      · exact repr_of_le (by simp; omega)
  · have hl := leads_root hv
    obtain ⟨c', k, hr⟩ := hl.isRoot
    refine (descriptor_eq (k := k) (leads_concat hl) ?_).trans (descriptor_eq hl hr).symm
    exact List.getElem?_append_left hl.trans.lt ▸ hr
  · cases i with
    | zero => exact descriptor_eq (.root hnew) hnew
    | succ i => exact descriptor_of_le (by simp [view_size])

/-- The arena after minting a class of its own for each descriptor. -/
def ofContents (cs : List T) : UnionFind T where
  nodes := cs.map fun c => .root c 0
  linked := ⟨fun _ => 0, fun v w h => by simp at h⟩

theorem ofContents_size (cs : List T) : (ofContents cs).view.size = cs.length := List.length_map _

theorem ofContents_root (cs : List T) (v : VarId) : (ofContents cs).view.root v = v := by
  by_cases hv : v < cs.length
  · refine repr_eq (.root (c := cs.get ⟨v, hv⟩) (k := 0) ?_)
    simp [ofContents, hv]
  · exact ClassStore.root_of_le _ ((ofContents_size cs).trans_le (not_lt.1 hv))

theorem ofContents_desc (cs : List T) (v : VarId) : (ofContents cs).view.desc v = cs[v]? := by
  rcases h : cs[v]? with _ | c
  · exact ClassStore.desc_of_le ((ofContents_size cs).trans_le (List.getElem?_eq_none_iff.1 h))
  · have hnode : (ofContents cs).nodes[v]? = some (.root c 0) := by simp [ofContents, h]
    exact descriptor_eq (.root hnode) hnode

theorem fresh_full (h : 2 ^ 32 ≤ uf.view.size) (c : T) :
    uf.fresh c = .error (.diag arenaExceeded) := by
  rw [view_size] at h
  rw [fresh, if_neg (not_lt.2 h)]

end UnionFind

end IpeLang.Types
