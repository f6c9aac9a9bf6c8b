import IpeLang.Lib.Reach
import IpeLang.Types.Unify

/-!
# The structure graph of a store

The classes of a store, each with the classes of the children of its structure as children. A
store is acyclic when this graph is.

* `occurs_spec`: what the two verdicts of the occurs walk say about the graph;
* `occurs_halts`: the walk ends where it can reach no cycle.
-/

namespace IpeLang.Types

open IpeLang.Lib Relation

/-- A store of the solver, with the links of its arena forgotten. -/
abbrev Store := ClassStore Content

/-- `r` represents a child of the structure of `v`. -/
def Child (S : Store) (r v : VarId) : Prop :=
  ∃ d, S.desc v = some d ∧ ∃ c ∈ d.children, S.root c = r

/-- Every id in a descriptor was minted by the arena. -/
def Scoped (S : Store) : Prop := ∀ v d, S.desc v = some d → ∀ c ∈ d.children, c < S.size

/-- No class contains itself. -/
def Acyclic (S : Store) : Prop := ∀ r, ¬ TransGen (Child S) r r

/-- The class of `x` is the class of `y` or inside its structure. -/
def Inside (S : Store) (x y : VarId) : Prop := ReflTransGen (Child S) (S.root x) (S.root y)

/-- No cycle can be reached from `v`. -/
def ReachesNoCycle (S : Store) (v : VarId) : Prop :=
  ∀ r, ReflTransGen (Child S) r (S.root v) → ¬ TransGen (Child S) r r

variable {S : Store} {uf : UnionFind Content} {v w r x y target : VarId} {c d : Content}

theorem child_root_iff : Child S r (S.root v) ↔ Child S r v := by
  simp only [Child, S.desc_root]

theorem child_of_mem (hd : S.desc v = some d) (hc : w ∈ d.children) :
    Child S (S.root w) (S.root v) := ⟨d, by rw [S.desc_root, hd], w, hc, rfl⟩

theorem Scoped.child_lt (hS : Scoped S) (h : Child S r v) : r < S.size := by
  obtain ⟨d, hd, c, hc, rfl⟩ := h
  exact S.root_lt (hS v d hd c hc)

theorem reachesNoCycle_iff (hS : Scoped S) : ReachesNoCycle S v ↔ Acc (Child S) (S.root v) :=
  (acc_iff_reaches_no_cycle fun _ _ => hS.child_lt).symm

theorem acyclic_iff (hS : Scoped S) : Acyclic S ↔ WellFounded (Child S) :=
  ⟨wellFounded_of_acyclic fun _ _ => hS.child_lt, fun h r => not_transGen_of_acc (h.apply r)⟩

/-- A store is acyclic when all its representatives are accessible. -/
theorem acyclic_of_acc (h : ∀ v < S.size, Acc (Child S) (S.root v)) : Acyclic S := by
  intro r hr
  obtain ⟨_, -, d, hd, -⟩ := TransGen.tail'_iff.1 hr
  obtain ⟨_, ⟨_, -, c, -, hc⟩, -⟩ := TransGen.head'_iff.1 hr
  have hacc := h r (ClassStore.lt_of_desc hd)
  rw [← hc, S.root_root, hc] at hacc
  exact not_transGen_of_acc hacc hr

/-! ### The occurs walk -/

/-- Nothing below `v` is `target`, and no cycle is. -/
def Free (S : Store) (target v : VarId) : Prop :=
  Acc (Child S) (S.root v) ∧ ∀ r, ReflTransGen (Child S) r (S.root v) → r ≠ target

theorem free_of_children (hd : S.desc v = some d) (hne : S.root v ≠ target)
    (h : ∀ c ∈ d.children, Free S target c) : Free S target v := by
  constructor
  · refine ⟨_, fun r hr => ?_⟩
    obtain ⟨d', hd', c, hc, rfl⟩ := child_root_iff.1 hr
    cases hd.symm.trans hd'
    exact (h c hc).1
  · intro r hr
    rcases ReflTransGen.cases_tail hr with heq | ⟨u, hru, hu⟩
    · exact heq ▸ hne
    · obtain ⟨d', hd', c, hc, rfl⟩ := child_root_iff.1 hu
      cases hd.symm.trans hd'
      exact (h c hc).2 r hru

theorem occursStep_cons (target : VarId) (stack : List VarId) {n : VarId} {budget budget' : Budget}
    (hn : n < uf.view.size) (hb : budget.tick = .ok budget') :
    ∃ uf', uf'.view = uf.view ∧ ∃ d, uf.view.desc n = some d ∧
      occursStep target (uf, budget, n :: stack) =
        if uf.view.root n = target then .ok (.inr (true, uf', budget'))
        else .ok (.inl (uf', budget', d.children.reverse ++ stack)) := by
  obtain ⟨uf', hf, hv⟩ := UnionFind.find_spec hn
  obtain ⟨d, hc, hd⟩ := UnionFind.rootContent_spec (show n < uf'.view.size from hv ▸ hn)
  rw [hv] at hc hd
  refine ⟨uf', hv, d, hd, ?_⟩
  simp only [occursStep, hb, hf, Run.ok_bind]
  split_ifs
  · rfl
  · simp [hc]

/-- The verdicts of the occurs walk: `false` says that the target and every cycle are out of reach,
`true` that the target is not. -/
theorem occurs_loop_spec (hS : Scoped S) {n : ℕ} {stack : List VarId} {budget budget' : Budget}
    {found : Bool} {uf' : UnionFind Content} (hv : uf.view = S) (hst : ∀ v ∈ stack, v < S.size)
    (h : loop (occursStep target) n (uf, budget, stack) = .ok (found, uf', budget')) :
    uf'.view = S ∧ (budget.isUnbounded → budget' = budget) ∧
      (found = false → ∀ v ∈ stack, Free S target v) ∧
      (found = true → ∃ v ∈ stack, ReflTransGen (Child S) target (S.root v)) := by
  induction n generalizing uf budget stack with
  | zero => cases h
  | succ n ih =>
    cases stack with
    | nil =>
      rw [loop_succ_inr (show occursStep target (uf, budget, []) = _ from rfl)] at h
      cases h
      exact ⟨hv, fun _ => rfl, by simp, by simp⟩
    | cons v stack =>
      have hvlt : v < uf.view.size := hv ▸ hst v (by simp)
      rcases hb : budget.tick with e | b
      · rw [loop_succ_error (e := e) (by simp [occursStep, hb])] at h
        cases h
      have hub : budget.isUnbounded → b = budget := fun hu => by
        cases hb.symm.trans (Budget.tick_of_isUnbounded hu)
        rfl
      obtain ⟨uf₁, hv₁, d, hd, hstep⟩ := occursStep_cons target stack hvlt hb
      rw [hv] at hv₁ hd hstep
      split_ifs at hstep with htgt
      · rw [loop_succ_inr hstep] at h
        cases h
        exact ⟨hv₁, hub, by simp, fun _ => ⟨v, by simp, htgt ▸ ReflTransGen.refl⟩⟩
      · rw [loop_succ_inl hstep] at h
        obtain ⟨hview, hub', hfalse, htrue⟩ := ih hv₁ (fun w hw => by
          rcases List.mem_append.1 hw with hw | hw
          · exact hS v d hd w (List.mem_reverse.1 hw)
          · exact hst w (by simp [hw])) h
        refine ⟨hview, fun hu => (hub' (hub hu ▸ hu)).trans (hub hu), fun hf w hw => ?_,
          fun hf => ?_⟩
        · rcases List.mem_cons.1 hw with rfl | hw
          · exact free_of_children hd htgt fun c hc => hfalse hf c (by simp [hc])
          · exact hfalse hf w (by simp [hw])
        · obtain ⟨w, hw, hr⟩ := htrue hf
          rcases List.mem_append.1 hw with hw | hw
          · exact ⟨v, by simp, hr.tail (child_of_mem hd (List.mem_reverse.1 hw))⟩
          · exact ⟨w, by simp [hw], hr⟩

theorem occurs_spec (hS : Scoped uf.view) {n : ℕ} {node : VarId} {budget budget' : Budget}
    {found : Bool} {uf' : UnionFind Content} (hnode : node < uf.view.size)
    (h : occurs n uf budget target node = .ok (found, uf', budget')) :
    uf'.view = uf.view ∧ (budget.isUnbounded → budget' = budget) ∧
      (found = false → Free uf.view target node) ∧
      (found = true → ReflTransGen (Child uf.view) target (uf.view.root node)) := by
  obtain ⟨hv, hb, hf, ht⟩ := occurs_loop_spec hS rfl (by simpa using hnode) h
  exact ⟨hv, hb, fun h => hf h node (by simp), fun h => by simpa using ht h⟩

/-- The walk of `stack` ends, whatever the links of the arena are and whatever is left of the
budget. -/
def Halts (S : Store) (target : VarId) (stack : List VarId) : Prop :=
  ∃ n, ∀ uf budget, uf.view = S → (loop (occursStep target) n (uf, budget, stack)).Ended

theorem halts_nil (S : Store) (target : VarId) : Halts S target [] := by
  refine ⟨1, fun uf budget _ => ?_⟩
  rw [Run.Ended, loop_succ_inr (show occursStep target (uf, budget, []) = _ from rfl)]
  simp

/-- One node of the walk. -/
theorem halts_cons {stack : List VarId} (hd : S.desc v = some d)
    (h : S.root v ≠ target → Halts S target (d.children.reverse ++ stack)) :
    Halts S target (v :: stack) := by
  have hn : ∃ n, S.root v ≠ target → ∀ uf budget, uf.view = S →
      (loop (occursStep target) n (uf, budget, d.children.reverse ++ stack)).Ended := by
    by_cases htgt : S.root v = target
    · exact ⟨0, fun hne => absurd htgt hne⟩
    · obtain ⟨n, hn⟩ := h htgt
      exact ⟨n, fun _ => hn⟩
  obtain ⟨n, hn⟩ := hn
  refine ⟨n + 1, ?_⟩
  rintro uf budget rfl
  rcases hb : budget.tick with e | b
  · rw [Run.Ended, loop_succ_error (e := e) (by simp [occursStep, hb])]
    have := budget.tick_ended
    rw [hb] at this
    simpa [Run.Ended] using this
  obtain ⟨uf₁, hv₁, d', hd', hstep⟩ := occursStep_cons target stack (ClassStore.lt_of_desc hd) hb
  cases hd.symm.trans hd'
  split_ifs at hstep with htgt
  · rw [Run.Ended, loop_succ_inr hstep]
    simp
  · rw [loop_succ_inl hstep]
    exact hn htgt uf₁ b hv₁

/-- The walk of an accessible node ends when that of the rest of the stack does. -/
theorem halts_cons_of_acc (hS : Scoped S) {r : VarId} (hr : Acc (Child S) r) :
    ∀ {v stack}, S.root v = r → v < S.size → Halts S target stack →
      Halts S target (v :: stack) := by
  induction hr with
  | intro r _ ih =>
    rintro v stack rfl hvlt hrest
    obtain ⟨d, hd⟩ := ClassStore.exists_desc hvlt
    -- the children of the node go on the same stack
    have hkids : ∀ cs : List VarId, (∀ c ∈ cs, c ∈ d.children) → Halts S target (cs ++ stack) := by
      intro cs
      induction cs with
      | nil => exact fun _ => hrest
      | cons c cs ihcs =>
        intro hcs
        have hc : c ∈ d.children := hcs c (by simp)
        exact ih _ (child_of_mem hd hc) rfl (hS v d hd c hc)
          (ihcs fun c' hc' => hcs c' (by simp [hc']))
    exact halts_cons hd fun _ => hkids d.children.reverse (by simp)

theorem occurs_halts (hS : Scoped S) {node : VarId} (hnode : node < S.size)
    (h : ReachesNoCycle S node) (target : VarId) :
    ∃ n, ∀ uf budget, uf.view = S → (occurs n uf budget target node).Ended :=
  halts_cons_of_acc hS ((reachesNoCycle_iff hS).1 h) rfl hnode (halts_nil S target)

/-- Without a budget the walk stops for no other reason than the fuel. -/
theorem occurs_loop_error (hS : Scoped S) {n : ℕ} {stack : List VarId} {budget : Budget}
    {e : Stop Diagnostic} (hv : uf.view = S) (hst : ∀ v ∈ stack, v < S.size)
    (hb : budget.isUnbounded) (h : loop (occursStep target) n (uf, budget, stack) = .error e) :
    e = .fuel := by
  induction n generalizing uf stack with
  | zero =>
    cases h
    rfl
  | succ n ih =>
    cases stack with
    | nil =>
      rw [loop_succ_inr (show occursStep target (uf, budget, []) = _ from rfl)] at h
      cases h
    | cons v stack =>
      subst hv
      obtain ⟨uf₁, hv₁, d, hd, hstep⟩ := occursStep_cons target stack (hst v (by simp))
        (Budget.tick_of_isUnbounded hb)
      split_ifs at hstep
      · rw [loop_succ_inr hstep] at h
        cases h
      · rw [loop_succ_inl hstep] at h
        refine ih hv₁ (fun c hc => ?_) h
        rcases List.mem_append.1 hc with hc | hc
        · exact hS v d hd c (List.mem_reverse.1 hc)
        · exact hst c (by simp [hc])

theorem occurs_error (hS : Scoped uf.view) {n : ℕ} {node : VarId} {budget : Budget}
    {e : Stop Diagnostic} (hnode : node < uf.view.size) (hb : budget.isUnbounded)
    (h : occurs n uf budget target node = .error e) : e = .fuel :=
  occurs_loop_error hS rfl (by simpa using hnode) hb h

theorem occurs_mono {n m : ℕ} (h : n ≤ m) (uf : UnionFind Content) (budget : Budget)
    (target node : VarId) :
    Approx (occurs n uf budget target node) (occurs m uf budget target node) :=
  loop_mono (fun _ => Approx.refl _) h _

/-! ### When the walk ends -/

/-- The walk below `v` comes to the target: the node is the target, or the walk below one of its
children comes to it, and nothing is to be found below the children that are walked before that
one. -/
inductive Hit (S : Store) (target : VarId) : VarId → Prop
  | here {v : VarId} : S.root v = target → Hit S target v
  | deeper {v : VarId} {d : Content} {pre : List VarId} {c : VarId} {post : List VarId} :
      S.desc v = some d → d.children.reverse = pre ++ c :: post → (∀ w ∈ pre, Free S target w) →
      Hit S target c → Hit S target v

/-- The walk below `v` ends: it finds nothing, or it comes to the target before it comes to a
cycle. -/
def WalkDecides (S : Store) (target v : VarId) : Prop := Free S target v ∨ Hit S target v

theorem halts_of_free (hS : Scoped S) {pre stack : List VarId}
    (hpre : ∀ w ∈ pre, w < S.size ∧ Free S target w) (h : Halts S target stack) :
    Halts S target (pre ++ stack) := by
  induction pre with
  | nil => exact h
  | cons w pre ih =>
    obtain ⟨hw, hfree⟩ := hpre w List.mem_cons_self
    exact halts_cons_of_acc hS hfree.1 rfl hw (ih fun u hu => hpre u (List.mem_cons_of_mem w hu))

theorem Hit.halts (hS : Scoped S) (h : Hit S target v) (hv : v < S.size) (stack : List VarId) :
    Halts S target (v :: stack) := by
  induction h generalizing stack with
  | here heq =>
    obtain ⟨d, hd⟩ := ClassStore.exists_desc hv
    exact halts_cons hd fun hne => absurd heq hne
  | @deeper v d pre c post hd hkids hpre _ ih =>
    have hmem : ∀ w ∈ pre ++ c :: post, w < S.size := fun w hw =>
      hS v d hd w (List.mem_reverse.1 (hkids ▸ hw))
    refine halts_cons hd fun _ => ?_
    rw [hkids, List.append_assoc]
    refine halts_of_free hS (fun w hw => ⟨hmem w (by simp [hw]), hpre w hw⟩) ?_
    exact ih (hmem c (by simp)) (post ++ stack)

/-- A walk that is neither free nor comes to the target goes on below one of the children. -/
theorem stuck_child (hd : S.desc v = some d) (h : ¬ WalkDecides S target v) :
    S.root v ≠ target ∧ ∃ pre c post, d.children.reverse = pre ++ c :: post ∧
      (∀ w ∈ pre, Free S target w) ∧ ¬ WalkDecides S target c := by
  have hne : S.root v ≠ target := fun heq => h (Or.inr (.here heq))
  have key : ∀ l : List VarId, (∀ c ∈ l, Free S target c) ∨
      ∃ pre c post, l = pre ++ c :: post ∧ (∀ w ∈ pre, Free S target w) ∧ ¬ Free S target c := by
    intro l
    induction l with
    | nil => exact Or.inl (by simp)
    | cons c l ih =>
      by_cases hc : Free S target c
      · rcases ih with hall | ⟨pre, w, post, rfl, hpre, hw⟩
        · exact Or.inl (by simpa using ⟨hc, hall⟩)
        · exact Or.inr ⟨c :: pre, w, post, rfl, by simpa using ⟨hc, hpre⟩, hw⟩
      · exact Or.inr ⟨[], c, l, rfl, by simp, hc⟩
  refine ⟨hne, ?_⟩
  rcases key d.children.reverse with hall | ⟨pre, c, post, hkids, hpre, hc⟩
  · exact absurd (Or.inl (free_of_children hd hne fun c hc => hall c (by simpa using hc))) h
  · refine ⟨pre, c, post, hkids, hpre, ?_⟩
    rintro (hfree | hhit)
    · exact hc hfree
    · exact h (Or.inr (.deeper hd hkids hpre hhit))

/-- A walk that does not end wants more fuel for ever. -/
theorem occurs_eq_fuel (hS : Scoped uf.view) (hv : v < uf.view.size) {budget : Budget}
    (hb : budget.isUnbounded) (h : ¬ WalkDecides uf.view target v) (n : ℕ) :
    occurs n uf budget target v = .error .fuel := by
  let P : OccursState → Prop := fun st => st.1.view = uf.view ∧ st.2.1 = budget ∧
    (∀ w ∈ st.2.2, w < uf.view.size) ∧ ∃ pre w post, st.2.2 = pre ++ w :: post ∧
      (∀ c ∈ pre, Free uf.view target c) ∧ ¬ WalkDecides uf.view target w
  refine loop_eq_fuel_of_closed (P := P) ?_ n
    ⟨rfl, rfl, by simpa using hv, [], v, [], rfl, by simp, h⟩
  rintro ⟨uf₁, budget₁, stack⟩ ⟨hview, rfl, hlt, pre, w, post, hst, hpre, hw⟩
  dsimp only at hview hst hlt
  have hnext : ∀ {x rest}, stack = x :: rest → uf.view.root x ≠ target →
      ∃ uf', uf'.view = uf.view ∧ ∃ d, uf.view.desc x = some d ∧
        occursStep target (uf₁, budget₁, stack) =
          .ok (.inl (uf', budget₁, d.children.reverse ++ rest)) ∧
        ∀ c ∈ d.children.reverse ++ rest, c < uf.view.size := by
    rintro x rest rfl hne
    have hx : x < uf.view.size := hlt x (by simp)
    obtain ⟨uf', hv', d, hd, hstep⟩ := occursStep_cons target rest
      (show x < uf₁.view.size from hview ▸ hx) (Budget.tick_of_isUnbounded hb)
    rw [hview] at hv' hd hstep
    rw [if_neg hne] at hstep
    refine ⟨uf', hv', d, hd, hstep, fun c hc => ?_⟩
    rcases List.mem_append.1 hc with hc | hc
    · exact hS x d hd c (List.mem_reverse.1 hc)
    · exact hlt c (by simp [hc])
  cases pre with
  | nil =>
    have hwlt : w < uf.view.size := hlt w (by simp [hst])
    obtain ⟨d, hd⟩ := ClassStore.exists_desc hwlt
    obtain ⟨hne, pre, c, post', hkids, hpre', hc⟩ := stuck_child hd hw
    obtain ⟨uf', hv', d', hd', hstep, hlt'⟩ := hnext hst hne
    cases hd.symm.trans hd'
    exact ⟨_, hstep, hv', rfl, hlt', pre, c, post' ++ post, by simp [hkids], hpre', hc⟩
  | cons x pre =>
    have hx := hpre x List.mem_cons_self
    obtain ⟨uf', hv', d, hd, hstep, hlt'⟩ := hnext hst (hx.2 _ .refl)
    refine ⟨_, hstep, hv', rfl, hlt', d.children.reverse ++ pre, w, post, by simp, fun c hc => ?_,
      hw⟩
    rcases List.mem_append.1 hc with hc | hc
    · have hchild := child_of_mem hd (List.mem_reverse.1 hc)
      exact ⟨hx.1.inv hchild, fun r hr => hx.2 r (hr.tail hchild)⟩
    · exact hpre c (List.mem_cons_of_mem x hc)

theorem occurs_halts_of_walkDecides (hS : Scoped S) (hv : v < S.size) (h : WalkDecides S target v) :
    ∃ n, ∀ uf budget, uf.view = S → (occurs n uf budget target v).Ended := by
  rcases h with hfree | hhit
  · exact halts_cons_of_acc hS hfree.1 rfl hv (halts_nil S target)
  · exact hhit.halts hS hv []

end IpeLang.Types
