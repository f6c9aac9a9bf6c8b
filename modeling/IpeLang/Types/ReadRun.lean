import IpeLang.Types.ReadBack

/-!
# The run of a read-back

`Leaves hS ty W R` says that the tasks `W`, done on the stack of results `R`, leave `ty` alone on
it, when a visit pushes the plain read-back of its variable. One step of the machine keeps it,
whatever is cached and whatever is left of the budget, so on an acyclic store the machine gives the
plain read-back or says that its budget or its node limit was spent (`zonk_reads`).
-/

namespace IpeLang.Types

open IpeLang.Lib

variable {S : Store} {hS : WellFounded (Child S)} {ty : Ty}

/-- The tasks, done on the results, leave one type. -/
inductive Leaves (hS : WellFounded (Child S)) (ty : Ty) : List ZonkTask → List Ty → Prop
  | done : Leaves hS ty [] [ty]
  | visit {c : VarId} {W : List ZonkTask} {R : List Ty} (hc : c < S.size)
      (h : Leaves hS ty W (readBack hS c :: R)) : Leaves hS ty (.visit c :: W) R
  | memoize {r : VarId} {W : List ZonkTask} {R : List Ty} (h : Leaves hS ty W (readBack hS r :: R)) :
      Leaves hS ty (.memoize r :: W) (readBack hS r :: R)
  | build {flat : FlatType} {task : ZonkTask} {tys : List Ty} {W : List ZonkTask} {R : List Ty}
      (hleaf : flat.isLeaf = false) (htask : task = flat.buildTask)
      (hlen : tys.length = flat.readChildren.length) (h : Leaves hS ty W (flat.rebuild tys :: R)) :
      Leaves hS ty (task :: W) (tys.reverse ++ R)

/-- Visits push the read-backs of their variables. -/
theorem Leaves.visits {cs : List VarId} {W : List ZonkTask} {R : List Ty} (hcs : ∀ c ∈ cs, c < S.size)
    (h : Leaves hS ty W ((cs.map (readBack hS)).reverse ++ R)) : Leaves hS ty (cs.map .visit ++ W) R := by
  induction cs generalizing R with
  | nil => exact h
  | cons c cs ih =>
    have hcs := List.forall_mem_cons.1 hcs
    refine .visit hcs.1 (ih hcs.2 ?_)
    rwa [List.map_cons, List.reverse_cons, List.append_assoc, List.singleton_append] at h

/-- The tasks of a structure push its read-back. -/
theorem Leaves.tasks (hsc : Scoped S) {v : VarId} {flat : FlatType} (hd : S.desc v = some (.struct flat))
    (hleaf : flat.isLeaf = false) {W : List ZonkTask} {R : List Ty}
    (h : Leaves hS ty W (readBack hS v :: R)) : Leaves hS ty (zonkTasks (S.root v) flat ++ W) R := by
  rw [zonkTasks_eq hleaf, List.append_assoc]
  refine .visits (fun c hc => hsc v _ hd c (readChildren_subset flat c hc)) ?_
  refine .build hleaf rfl (List.length_map _) ?_
  rw [← readBack_struct hS hd, ← readBack_root]
  refine .memoize ?_
  rwa [readBack_root]

/-- The machine is on its way to a type. -/
structure ZonkInv (hS : WellFounded (Child S)) (ty : Ty) (st : ZonkState) : Prop where
  view : st.uf.view = S
  memo : ∀ r t, st.memo.get? r = some t → t = readBack hS r
  leaves : Leaves hS ty st.work st.results

/-- The machine gave up: too many nodes, or no budget. -/
def ZonkRefusal (e : Stop Diagnostic) : Prop :=
  e = .diag zonkLimit ∨ ∃ limit, e = .diag (.type .dummy (.stepBudgetExceeded limit))

theorem ZonkRefusal.ne_underflow {e : Stop Diagnostic} (h : ZonkRefusal e) : e ≠ .diag zonkUnderflow := by
  rcases h with rfl | ⟨limit, rfl⟩
  · simp [zonkLimit, zonkUnderflow]
  · simp [zonkUnderflow]

/-- Caching a read-back. -/
theorem memo_insert {memo : SortedMap VarId Ty} (hmemo : ∀ r t, memo.get? r = some t → t = readBack hS r)
    (r : VarId) : ∀ r' t, (memo.insert r (readBack hS r)).get? r' = some t → t = readBack hS r' := by
  intro r' t ht
  rw [SortedMap.get?_insert] at ht
  split_ifs at ht with hr
  · rw [hr, Option.some.inj ht]
  · exact hmemo r' t ht

/-- Reading the descriptor of a representative. -/
theorem ZonkInv.read (hsc : Scoped S) {st : ZonkState} {v : VarId} {d : Content} (hd : S.desc v = some d)
    (hview : st.uf.view = S) (hmemo : ∀ r t, st.memo.get? r = some t → t = readBack hS r)
    (h : Leaves hS ty st.work (readBack hS v :: st.results)) : ZonkInv hS ty (st.read (S.root v) d) := by
  have hleaf : ∀ t, readBack hS v = t → ZonkInv hS ty (st.leaf (S.root v) t) := by
    rintro t rfl
    refine ⟨hview, ?_, h⟩
    rw [← readBack_root hS v]
    exact memo_insert hmemo (S.root v)
  cases d with
  | struct flat =>
    by_cases hflat : flat.isLeaf = false
    · have htasks := Leaves.tasks hsc hd hflat h
      cases flat with
      | unit => cases hflat
      | emptyRecord => cases hflat
      | _ => exact ⟨hview, hmemo, htasks⟩
    · have hread := readBack_struct hS hd
      cases flat with
      | unit => exact hleaf .unit hread
      | emptyRecord => exact hleaf .unit hread
      | _ => exact absurd rfl hflat
  | _ => exact hleaf _ (readBack_var hS hd rfl)

/-- Visiting a variable. -/
theorem zonkVisit_inv (hsc : Scoped S) {st : ZonkState} {v : VarId} (hv : v < S.size)
    (hview : st.uf.view = S) (hmemo : ∀ r t, st.memo.get? r = some t → t = readBack hS r)
    (h : Leaves hS ty st.work (readBack hS v :: st.results)) :
    (∃ st', zonkVisit st v = .ok st' ∧ ZonkInv hS ty st') ∨ zonkVisit st v = .error (.diag zonkLimit) := by
  obtain ⟨uf', hf, hv'⟩ := UnionFind.find_spec (show v < st.uf.view.size from hview ▸ hv)
  obtain ⟨d, hc, hd⟩ := UnionFind.rootContent_spec (show v < uf'.view.size from hv' ▸ hview ▸ hv)
  rw [hv', hview] at hc hd
  rw [hview] at hf hv'
  unfold zonkVisit
  rw [hf, Run.ok_bind]
  dsimp only
  cases hget : st.memo.get? (S.root v) with
  | some t =>
    have ht : t = readBack hS v := (hmemo _ _ hget).trans (readBack_root hS v)
    exact .inl ⟨_, rfl, hv', hmemo, ht ▸ h⟩
  | none =>
    dsimp only
    by_cases hleft : st.nodesLeft = 0
    · rw [if_pos hleft]
      exact .inr rfl
    · rw [if_neg hleft, hc]
      exact .inl ⟨_, rfl, ZonkInv.read hsc hd hv' hmemo h⟩

/-- One task: the machine stays on its way, ends there or gives up. -/
theorem zonkStep_inv (hsc : Scoped S) {st : ZonkState} (h : ZonkInv hS ty st) :
    (∃ st', zonkStep st = .ok (.inl st') ∧ ZonkInv hS ty st') ∨
      (∃ uf' budget', zonkStep st = .ok (.inr (ty, uf', budget'))) ∨
      ∃ e, zonkStep st = .error e ∧ ZonkRefusal e := by
  obtain ⟨uf, budget, work, results, memo, nodesLeft⟩ := st
  obtain ⟨hview, hmemo, hleaves⟩ := h
  dsimp only at hview hmemo hleaves
  cases hleaves with
  | done => exact .inr (.inl ⟨_, _, rfl⟩)
  | @visit c W R hc hleaves =>
    cases hb : budget.tick with
    | error e =>
      refine .inr (.inr ⟨e, ?_, .inr ⟨_, Budget.tick_error hb⟩⟩)
      simp only [zonkStep, hb, Run.error_bind]
    | ok budget' =>
      have hstep : zonkStep ⟨uf, budget, .visit c :: W, results, memo, nodesLeft⟩ =
          (zonkVisit ⟨uf, budget', W, results, memo, nodesLeft⟩ c >>= fun st => .ok (.inl st)) := by
        simp only [zonkStep, hb, Run.ok_bind]
      have hvisits : (∃ st', zonkVisit ⟨uf, budget', W, results, memo, nodesLeft⟩ c = .ok st' ∧ ZonkInv hS ty st') ∨
          zonkVisit ⟨uf, budget', W, results, memo, nodesLeft⟩ c = .error (.diag zonkLimit) :=
        zonkVisit_inv hsc hc hview hmemo hleaves
      rcases hvisits with ⟨st', hvisit, hinv⟩ | hvisit
      · rw [hstep, hvisit]
        exact .inl ⟨st', rfl, hinv⟩
      · rw [hstep, hvisit]
        exact .inr (.inr ⟨_, rfl, .inl rfl⟩)
  | memoize hleaves => exact .inl ⟨_, rfl, hview, memo_insert hmemo _, hleaves⟩
  | build hleaf htask hlen hleaves =>
    subst htask
    exact .inl ⟨_, zonkStep_build hleaf rfl rfl hlen, hview, hmemo, hleaves⟩

theorem zonk_loop_reads (hsc : Scoped S) {n : ℕ} {st : ZonkState} (h : ZonkInv hS ty st) :
    (∃ uf' budget', loop zonkStep n st = .ok (ty, uf', budget')) ∨
      ∃ e, loop zonkStep n st = .error e ∧ (e = .fuel ∨ ZonkRefusal e) := by
  induction n generalizing st with
  | zero => exact .inr ⟨_, rfl, .inl rfl⟩
  | succ n ih =>
    rcases zonkStep_inv hsc h with ⟨st', hstep, hinv⟩ | ⟨uf', budget', hstep⟩ | ⟨e, hstep, he⟩
    · rw [loop_succ_inl hstep]
      exact ih hinv
    · exact .inl ⟨uf', budget', loop_succ_inr hstep n⟩
    · exact .inr ⟨e, loop_succ_error hstep n, .inr he⟩

/-- On an acyclic store the machine gives the plain read-back, unless it gives up. -/
theorem zonk_reads {uf : UnionFind Content} (hsc : Scoped uf.view) (hS : WellFounded (Child uf.view))
    {v : VarId} (hv : v < uf.view.size) {n : ℕ} (hn : zonkBound uf.view ≤ n) (budget : Budget) :
    (∃ uf' budget', zonk n uf budget v = .ok (readBack hS v, uf', budget')) ∨
      ∃ e, zonk n uf budget v = .error e ∧ ZonkRefusal e := by
  have hinv : ZonkInv hS (readBack hS v) ⟨uf, budget, [.visit v], [], .empty, ZONK_NODE_LIMIT⟩ :=
    ⟨rfl, by simp, .visit hv .done⟩
  rcases zonk_loop_reads hsc hinv with h | ⟨e, h, rfl | he⟩
  · exact .inl h
  · exact absurd h (zonk_ended hn budget v)
  · exact .inr ⟨e, h, he⟩

end IpeLang.Types
