import IpeLang.Types.ReadRun

/-!
# Ground types

`ty_is_ground` and `solved_is_ground` of `types/src/lib.rs`: whether a resolved type is fully known,
and whether a variable is, read on the store, where an open row is still visible.

* `solved_is_ground_reach`: the walk admits only roots below which every class is a structure;
* `zonk_ground`: the machine reads back what the plain recursion does, and what the walk admits is
  read back as a ground type.
-/

namespace IpeLang.Types

open IpeLang.Lib

mutual

/-- Whether a resolved type is ground: no type variable and no open record row. -/
def ty_is_ground : Ty → Bool
  | .var _ => false
  | .unit => true
  | .fn a b => ty_is_ground a && ty_is_ground b
  | .con _ _ args => allGround args
  | .tuple elems => allGround elems
  | .record _ (.opened _) => false
  | .record fields .closed => allFieldsGround fields

def allGround : List Ty → Bool
  | [] => true
  | t :: ts => ty_is_ground t && allGround ts

def allFieldsGround : List (Symbol × Ty) → Bool
  | [] => true
  | (_, t) :: fields => ty_is_ground t && allFieldsGround fields

end

/-- The state of the walk, with the next variable first. -/
structure GroundState where
  uf : UnionFind Content
  budget : Budget
  work : List VarId
  seen : Finset VarId

/-- One variable of the walk. -/
def groundStep (st : GroundState) : DResult (GroundState ⊕ (Bool × UnionFind Content × Budget)) :=
  match st.work with
  | [] => .ok (.inr (true, st.uf, st.budget))
  | var :: work => do
    let budget ← st.budget.tick
    let (root, uf) ← st.uf.find var
    if root ∈ st.seen then .ok (.inl ⟨uf, budget, work, st.seen⟩)
    else
      let c ← uf.rootContent root
      match c with
      | .struct flat => .ok (.inl ⟨uf, budget, flat.children.reverse ++ work, insert root st.seen⟩)
      | _ => .ok (.inr (false, uf, budget))

/-- Whether every node of the solver that is reachable from the roots is known: no type variable, and
every record extension ends in the sentinel of a closed row. -/
def solved_is_ground (fuel : ℕ) (uf : UnionFind Content) (budget : Budget) (roots : List VarId) :
    DResult (Bool × UnionFind Content × Budget) :=
  loop groundStep fuel ⟨uf, budget, roots.reverse, ∅⟩

/-! ### The walk -/

variable {S : Store}

/-- A variable was seen, or will be. -/
def Covered (S : Store) (work : List VarId) (seen : Finset VarId) (v : VarId) : Prop :=
  S.root v ∈ seen ∨ v ∈ work

/-- Every seen class is a structure over covered variables. -/
def Closed (S : Store) (work : List VarId) (seen : Finset VarId) : Prop :=
  ∀ r ∈ seen, ∃ flat, S.desc r = some (.struct flat) ∧ ∀ c ∈ flat.children, Covered S work seen c

/-- The next variable is of a seen class. -/
theorem Covered.skip {work : List VarId} {seen : Finset VarId} {var v : VarId} (hvar : S.root var ∈ seen)
    (h : Covered S (var :: work) seen v) : Covered S work seen v := by
  rcases h with h | h
  · exact .inl h
  · rcases List.mem_cons.1 h with rfl | h
    · exact .inl hvar
    · exact .inr h

/-- The class of the next variable is seen now, and its children are on the stack. -/
theorem Covered.see {work : List VarId} {seen : Finset VarId} {var v : VarId} (cs : List VarId)
    (h : Covered S (var :: work) seen v) : Covered S (cs.reverse ++ work) (insert (S.root var) seen) v := by
  rcases h with h | h
  · exact .inl (Finset.mem_insert_of_mem h)
  · rcases List.mem_cons.1 h with rfl | h
    · exact .inl (Finset.mem_insert_self _ _)
    · exact .inr (List.mem_append_right _ h)

theorem Closed.see {work : List VarId} {seen : Finset VarId} {var : VarId} {flat : FlatType}
    (hd : S.desc var = some (.struct flat)) (h : Closed S (var :: work) seen) :
    Closed S (flat.children.reverse ++ work) (insert (S.root var) seen) := by
  intro r hr
  rcases Finset.mem_insert.1 hr with rfl | hr
  · refine ⟨flat, by rw [S.desc_root, hd], fun c hc => .inr ?_⟩
    exact List.mem_append_left _ (List.mem_reverse.2 hc)
  · obtain ⟨flat', hd', hkids⟩ := h r hr
    exact ⟨flat', hd', fun c hc => (hkids c hc).see flat.children⟩

/-- What the walk admits: a set of classes that holds the roots and is closed. -/
theorem solved_loop_reach {roots : List VarId} {n : ℕ} {st : GroundState} {uf' : UnionFind Content}
    {budget' : Budget} (hview : st.uf.view = S) (hroots : ∀ v ∈ roots, Covered S st.work st.seen v)
    (hclosed : Closed S st.work st.seen) (h : loop groundStep n st = .ok (true, uf', budget')) :
    uf'.view = S ∧ ∃ seen : Finset VarId, (∀ v ∈ roots, S.root v ∈ seen) ∧
      ∀ r ∈ seen, ∃ flat, S.desc r = some (.struct flat) ∧ ∀ c ∈ flat.children, S.root c ∈ seen := by
  induction n generalizing st with
  | zero => cases h
  | succ n ih =>
    obtain ⟨uf, budget, work, seen⟩ := st
    dsimp only at hview hroots hclosed
    have hdone : ∀ {v}, Covered S [] seen v → S.root v ∈ seen := fun h => h.resolve_right List.not_mem_nil
    cases work with
    | nil =>
      rw [loop_succ_inr (show groundStep ⟨uf, budget, [], seen⟩ = _ from rfl)] at h
      cases h
      refine ⟨hview, seen, fun v hv => hdone (hroots v hv), fun r hr => ?_⟩
      obtain ⟨flat, hd, hkids⟩ := hclosed r hr
      exact ⟨flat, hd, fun c hc => hdone (hkids c hc)⟩
    | cons var work =>
      cases hb : budget.tick with
      | error e =>
        rw [loop_succ_error (e := e) (by simp only [groundStep, hb, Run.error_bind])] at h
        cases h
      | ok b =>
        cases hf : uf.find var with
        | error e =>
          rw [loop_succ_error (e := e) (by simp only [groundStep, hb, hf, Run.ok_bind, Run.error_bind])] at h
          cases h
        | ok found =>
          obtain ⟨root, uf₁⟩ := found
          obtain ⟨hv, rfl, hv₁⟩ := UnionFind.find_eq_ok hf
          obtain ⟨d, hc, hd⟩ := UnionFind.rootContent_spec (show var < uf₁.view.size from hv₁ ▸ hv)
          rw [hv₁, hview] at hc hd
          rw [hview] at hf hv₁
          by_cases hseen : S.root var ∈ seen
          · have hstep : groundStep ⟨uf, budget, var :: work, seen⟩ = .ok (.inl ⟨uf₁, b, work, seen⟩) := by
              simp only [groundStep, hb, hf, Run.ok_bind, if_pos hseen]
            rw [loop_succ_inl hstep] at h
            refine ih hv₁ (fun v hv => (hroots v hv).skip hseen) (fun r hr => ?_) h
            obtain ⟨flat, hd, hkids⟩ := hclosed r hr
            exact ⟨flat, hd, fun c hc => (hkids c hc).skip hseen⟩
          · cases d with
            | struct flat =>
              have hstep : groundStep ⟨uf, budget, var :: work, seen⟩ =
                  .ok (.inl ⟨uf₁, b, flat.children.reverse ++ work, insert (S.root var) seen⟩) := by
                simp only [groundStep, hb, hf, hc, Run.ok_bind, if_neg hseen]
              rw [loop_succ_inl hstep] at h
              exact ih hv₁ (fun v hv => (hroots v hv).see flat.children) (hclosed.see hd) h
            | _ =>
              have hstep : groundStep ⟨uf, budget, var :: work, seen⟩ = .ok (.inr (false, uf₁, b)) := by
                simp only [groundStep, hb, hf, hc, Run.ok_bind, if_neg hseen]
              rw [loop_succ_inr hstep] at h
              cases h

theorem solved_is_ground_reach {uf uf' : UnionFind Content} {n : ℕ} {budget budget' : Budget}
    {roots : List VarId} (h : solved_is_ground n uf budget roots = .ok (true, uf', budget')) :
    uf'.view = uf.view ∧ ∃ seen : Finset VarId, (∀ v ∈ roots, uf.view.root v ∈ seen) ∧
      ∀ r ∈ seen, ∃ flat, uf.view.desc r = some (.struct flat) ∧ ∀ c ∈ flat.children, uf.view.root c ∈ seen := by
  have hroots : ∀ v ∈ roots, Covered uf.view roots.reverse ∅ v := fun v hv => .inr (List.mem_reverse.2 hv)
  have hclosed : Closed uf.view roots.reverse ∅ := fun r hr => absurd hr (Finset.notMem_empty r)
  exact solved_loop_reach rfl hroots hclosed h

/-! ### Ground read-backs -/

theorem allGround_iff {ts : List Ty} : allGround ts = true ↔ ∀ t ∈ ts, ty_is_ground t = true := by
  induction ts with
  | nil => simp [allGround]
  | cons t ts ih => simp [allGround, ih]

theorem allFieldsGround_iff {fields : List (Symbol × Ty)} :
    allFieldsGround fields = true ↔ ∀ p ∈ fields, ty_is_ground p.2 = true := by
  induction fields with
  | nil => simp [allFieldsGround]
  | cons p fields ih =>
    obtain ⟨name, t⟩ := p
    simp [allFieldsGround, ih]

/-- A structure over ground types is ground. -/
theorem ground_rebuild (flat : FlatType) {tys : List Ty} (h : ∀ t ∈ tys, ty_is_ground t = true)
    (hlen : tys.length = flat.readChildren.length) : ty_is_ground (flat.rebuild tys) = true := by
  cases flat with
  | fn a b =>
    obtain ⟨x, y, rfl⟩ := List.length_eq_two.1 hlen
    have hx := h x List.mem_cons_self
    have hy := h y (List.mem_cons_of_mem _ List.mem_cons_self)
    simp only [FlatType.rebuild, ty_is_ground, hx, hy, Bool.and_self]
  | con home name args => exact allGround_iff.2 h
  | tuple elems => exact allGround_iff.2 h
  | record fields ext => exact allFieldsGround_iff.2 fun p hp => h p.2 (List.of_mem_zip hp).2
  | unit => rfl
  | emptyRecord => rfl

/-- Below a closed set of structures every read-back is ground. -/
theorem ground_readBack (hS : WellFounded (Child S)) {seen : Finset VarId}
    (hseen : ∀ r ∈ seen, ∃ flat, S.desc r = some (.struct flat) ∧ ∀ c ∈ flat.children, S.root c ∈ seen)
    {r : VarId} (hr : r ∈ seen) : ty_is_ground (readBack hS r) = true := by
  induction r using hS.induction with
  | _ r ih =>
    obtain ⟨flat, hd, hkids⟩ := hseen r hr
    rw [readBack_struct hS hd]
    refine ground_rebuild flat (List.forall_mem_map.2 fun c hc => ?_) (List.length_map _)
    have hc := readChildren_subset flat c hc
    rw [← readBack_root]
    exact ih _ ⟨_, hd, c, hc, rfl⟩ (hkids c hc)

/-- On an acyclic store the machine reads a variable back as the plain recursion does, or gives up for
its node limit or its budget, and in no other way; and a variable that the walk admits is read back as
a ground type, on the store it had and on the one the walk leaves. -/
theorem zonk_ground {uf : UnionFind Content} (hsc : Scoped uf.view) (hS : WellFounded (Child uf.view))
    {v : VarId} (hv : v < uf.view.size) {n : ℕ} (hn : zonkBound uf.view ≤ n) :
    (∀ budget, (∃ uf' budget', zonk n uf budget v = .ok (readBack hS v, uf', budget')) ∨
      ∃ e, zonk n uf budget v = .error e ∧ e ≠ .diag zonkUnderflow ∧ ZonkRefusal e) ∧
    ∀ m budget uf₁ budget₁, solved_is_ground m uf budget [v] = .ok (true, uf₁, budget₁) →
      ∀ uf₂, uf₂ = uf ∨ uf₂ = uf₁ → ∀ budget₂ ty uf' budget',
        zonk n uf₂ budget₂ v = .ok (ty, uf', budget') → ty_is_ground ty = true := by
  constructor
  · intro budget
    rcases zonk_reads hsc hS hv hn budget with h | ⟨e, h, he⟩
    · exact .inl h
    · exact .inr ⟨e, h, he.ne_underflow, he⟩
  · intro m budget uf₁ budget₁ hground uf₂ huf₂ budget₂ ty uf' budget' hzonk
    obtain ⟨hview₁, seen, hroots, hseen⟩ := solved_is_ground_reach hground
    have hview : uf₂.view = uf.view := by
      rcases huf₂ with rfl | rfl
      · rfl
      · exact hview₁
    have hmem := hroots v (List.mem_singleton.2 rfl)
    have hreads : ∀ {S : Store} (hS : WellFounded (Child S)), uf₂.view = S → Scoped S → v < S.size →
        zonkBound S ≤ n → ty = readBack hS v := by
      rintro S hS rfl hsc hv hn
      rcases zonk_reads hsc hS hv hn budget₂ with ⟨_, _, h⟩ | ⟨e, h, -⟩
      · cases h.symm.trans hzonk
        rfl
      · cases h.symm.trans hzonk
    rw [hreads hS hview hsc hv hn, ← readBack_root]
    exact ground_readBack hS hseen hmem

/-- The unit type, and its pair with itself. -/
def pairStore : UnionFind Content := .ofContents [.struct .unit, .struct (.tuple [0, 0])]

theorem child_pairStore {r v : VarId} (h : Child pairStore.view r v) : r < 1 ∧ 1 ≤ v := by
  obtain ⟨d, hd, c, hc, rfl⟩ := h
  rw [pairStore, UnionFind.ofContents_desc] at hd
  rw [pairStore, UnionFind.ofContents_root]
  rcases v with _ | _ | v <;> cases hd
  · cases hc
  · exact ⟨by rcases List.mem_pair.1 hc with rfl | rfl <;> decide, by decide⟩

theorem wellFounded_pairStore : WellFounded (Child pairStore.view) := by
  refine wellFounded_of_acyclic (n := 1) (fun c v h => (child_pairStore h).1) fun v hv => ?_
  obtain ⟨c, -, hc⟩ := Relation.TransGen.tail'_iff.1 hv
  obtain ⟨d, hd, -⟩ := Relation.TransGen.head'_iff.1 hv
  exact absurd (child_pairStore hd).1 (Nat.not_lt.2 (child_pairStore hc).2)

theorem scoped_pairStore : Scoped pairStore.view := by
  intro v d hd c hc
  have h := (child_pairStore (child_of_mem hd hc)).1
  rw [pairStore, UnionFind.ofContents_root] at h
  exact h.trans (by decide)

/-- The pair is admitted, and read back as a pair of units. -/
theorem zonk_ground_pair :
    (∃ uf₁ budget₁, solved_is_ground 5 pairStore .unbounded [1] = .ok (true, uf₁, budget₁)) ∧
    ∃ n ty uf' budget', zonk n pairStore .unbounded 1 = .ok (ty, uf', budget') ∧
      ty = readBack wellFounded_pairStore 1 ∧ ty_is_ground ty = true := by
  obtain ⟨hreads, hground⟩ := zonk_ground (v := 1) (n := zonkBound pairStore.view + 6) scoped_pairStore
    wellFounded_pairStore (by decide) (Nat.le_add_right _ 6)
  have hwalk : solved_is_ground 5 pairStore .unbounded [1] = .ok (true, _, _) := rfl
  refine ⟨⟨_, _, hwalk⟩, ?_⟩
  have hzonk : zonk (zonkBound pairStore.view + 6) pairStore .unbounded 1 =
      .ok (.tuple [.unit, .unit], _, _) := rfl
  refine ⟨_, _, _, _, hzonk, ?_, hground 5 .unbounded _ _ hwalk _ (.inl rfl) .unbounded _ _ _ hzonk⟩
  rcases hreads .unbounded with ⟨_, _, h⟩ | ⟨e, h, -⟩
  · exact (Prod.mk.inj (Except.ok.inj (hzonk.symm.trans h))).1
  · cases hzonk.symm.trans h

end IpeLang.Types
