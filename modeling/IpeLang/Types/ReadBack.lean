import IpeLang.Types.Occurs

/-!
# The read-back of an acyclic store

`readBack` is the plain recursive reading of a variable, without sharing. `zonk_eq_readBack`: on an
acyclic store the work-stack machine computes it, as long as no more classes lie below the variable
than the node limit allows. A representative is charged once, since it is cached before it can be
met again.
-/

namespace IpeLang.Types

open IpeLang.Lib Relation

/-! ### Plain recursion -/

/-- The children of a structure that a read-back looks at. -/
def FlatType.readChildren : FlatType → List VarId
  | .fn a b => [a, b]
  | .con _ _ args => args
  | .tuple elems => elems
  | .record fields _ => fields.values
  | .unit => []
  | .emptyRecord => []

/-- Rebuild a structure over the types of its children. -/
def FlatType.rebuild : FlatType → List Ty → Ty
  | .fn _ _, [a, b] => .fn a b
  | .con home name _, args => .con home name args
  | .tuple _, elems => .tuple elems
  | .record fields _, tys => .record (fields.keys.zip tys) .closed
  | _, _ => .unit

/-- The type of `v`, given the types of its children. -/
def readWith (S : Store) (f : VarId → Ty) (v : VarId) : Ty :=
  match S.desc v with
  | some (.struct flat) => flat.rebuild (flat.readChildren.map f)
  | _ => .var (tagSolverVar (S.root v))

theorem readChildren_subset (flat : FlatType) : ∀ c ∈ flat.readChildren, c ∈ flat.children := by
  cases flat <;> simp [FlatType.readChildren, FlatType.children]
  intro c hc
  exact Or.inl hc

instance : Inhabited Ty := ⟨.unit⟩

variable {S : Store}

theorem readWith_determined (S : Store) :
    Determined (Child S) fun f v => readWith S (fun c => f (S.root c)) v := by
  intro v f g h
  rcases hd : S.desc v with _ | ⟨_ | _ | _ | flat⟩ <;> simp only [readWith, hd]
  refine congrArg flat.rebuild (List.map_congr_left fun c hc => h _ ?_)
  exact ⟨_, hd, c, readChildren_subset flat c hc, rfl⟩

/-- The recursive reading of a variable. -/
noncomputable def readBack (hS : WellFounded (Child S)) (v : VarId) : Ty :=
  unfold hS (fun f v => readWith S (fun c => f (S.root c)) v) v

theorem readBack_root (hS : WellFounded (Child S)) (v : VarId) :
    readBack hS (S.root v) = readBack hS v := by
  have h : ∀ f, readWith S f (S.root v) = readWith S f v := fun f => by
    simp only [readWith, S.desc_root, S.root_root]
  rw [readBack, readBack, unfold_eq hS (readWith_determined S), h,
    ← unfold_eq hS (readWith_determined S)]

/-- The recursion. -/
theorem readBack_eq (hS : WellFounded (Child S)) (v : VarId) :
    readBack hS v = readWith S (readBack hS) v := by
  have h : (fun c => readBack hS (S.root c)) = readBack hS := funext (readBack_root hS)
  conv_lhs => rw [readBack, unfold_eq hS (readWith_determined S)]
  exact congrArg (fun f => readWith S f v) h

theorem readBack_struct (hS : WellFounded (Child S)) {v : VarId} {flat : FlatType}
    (hd : S.desc v = some (.struct flat)) :
    readBack hS v = flat.rebuild (flat.readChildren.map (readBack hS)) := by
  rw [readBack_eq, readWith, hd]

theorem readBack_var (hS : WellFounded (Child S)) {v : VarId} {d : Content}
    (hd : S.desc v = some d) (hns : d.isStructure = false) :
    readBack hS v = .var (tagSolverVar (S.root v)) := by
  rw [readBack_eq, readWith, hd]
  cases d with
  | struct flat => cases hns
  | _ => rfl

/-! ### The classes that a read-back visits -/

/-- `r` represents a child that a read-back of `v` looks at. -/
def ReadChild (S : Store) (r v : VarId) : Prop :=
  ∃ flat, S.desc v = some (.struct flat) ∧ ∃ c ∈ flat.readChildren, S.root c = r

theorem ReadChild.child {r v : VarId} (h : ReadChild S r v) : Child S r v := by
  obtain ⟨flat, hd, c, hc, rfl⟩ := h
  exact ⟨_, hd, c, readChildren_subset flat c hc, rfl⟩

open Classical in
/-- The classes that a read-back of `v` visits. -/
noncomputable def readClasses (S : Store) (v : VarId) : Finset ℕ :=
  S.classes.filter fun r => ReflTransGen (ReadChild S) r (S.root v)

theorem mem_readClasses {v r : VarId} :
    r ∈ readClasses S v ↔ r ∈ S.classes ∧ ReflTransGen (ReadChild S) r (S.root v) := by
  simp [readClasses]

theorem root_mem_readClasses {v : VarId} (hv : v < S.size) : S.root v ∈ readClasses S v :=
  mem_readClasses.2 ⟨ClassStore.mem_classes.2 ⟨S.root_lt hv, S.root_root v⟩, ReflTransGen.refl⟩

/-- The classes that a read-back of any of `cs` visits. -/
noncomputable def readClassesAll (S : Store) (cs : List VarId) : Finset ℕ :=
  cs.foldr (fun c B => readClasses S c ∪ B) ∅

theorem mem_readClassesAll {cs : List VarId} {r : VarId} :
    r ∈ readClassesAll S cs ↔ ∃ c ∈ cs, r ∈ readClasses S c := by
  induction cs with
  | nil => simp [readClassesAll]
  | cons c cs ih =>
    rw [readClassesAll, List.foldr_cons, Finset.mem_union, ← readClassesAll, ih]
    simp

/-- The classes below the children of an acyclic class are classes below it, and it is not one of
them. -/
theorem readClassesAll_subset (hS : WellFounded (Child S)) {v : VarId} {flat : FlatType}
    (hd : S.desc v = some (.struct flat)) :
    readClassesAll S flat.readChildren ⊆ (readClasses S v).erase (S.root v) := by
  intro r hr
  obtain ⟨c, hc, hr⟩ := mem_readClassesAll.1 hr
  obtain ⟨hcls, hreach⟩ := mem_readClasses.1 hr
  have hchild : ReadChild S (S.root c) (S.root v) :=
    ⟨flat, by rw [S.desc_root, hd], c, hc, rfl⟩
  refine Finset.mem_erase.2 ⟨?_, mem_readClasses.2 ⟨hcls, hreach.tail hchild⟩⟩
  rintro rfl
  have hcycle : TransGen (Child S) (S.root v) (S.root v) :=
    TransGen.tail' (hreach.lift id fun _ _ => ReadChild.child) hchild.child
  exact not_transGen_of_acc (hS.apply _) hcycle

/-! ### The machine -/

/-- The task that rebuilds a structure. -/
def FlatType.buildTask : FlatType → ZonkTask
  | .con home name args => .buildCon home name args.length
  | .tuple elems => .buildTuple elems.length
  | .record fields _ => .buildRecord fields.keys
  | _ => .buildFun

/-- Whether a structure is read back by tasks of its own. -/
def FlatType.isLeaf : FlatType → Bool
  | .unit => true
  | .emptyRecord => true
  | _ => false

theorem zonkTasks_eq {flat : FlatType} (h : flat.isLeaf = false) (root : VarId) :
    zonkTasks root flat =
      flat.readChildren.map .visit ++ [flat.buildTask, .memoize root] := by
  cases flat <;> first | rfl | cases h

theorem splitOff_append {α : Type} (bug : Diagnostic) (xs R : List α) {n : ℕ}
    (hn : n = xs.length) : splitOff bug (xs.reverse ++ R) n = .ok (xs, R) := by
  subst hn
  simp [splitOff]

theorem zonkStep_build {flat : FlatType} (h : flat.isLeaf = false) {st : ZonkState}
    {W : List ZonkTask} {tys R : List Ty} (hw : st.work = flat.buildTask :: W)
    (hr : st.results = tys.reverse ++ R) (hlen : tys.length = flat.readChildren.length) :
    zonkStep st = .ok (.inl { st with work := W, results := flat.rebuild tys :: R }) := by
  obtain ⟨uf, budget, work, results, memo, nodesLeft⟩ := st
  obtain rfl : work = _ := hw
  obtain rfl : results = _ := hr
  cases flat with
  | fn a b =>
    obtain ⟨x, y, rfl⟩ := List.length_eq_two.1 hlen
    rfl
  | con home name args =>
    have hsplit : splitOff zonkUnderflow (tys.reverse ++ R) args.length = .ok (tys, R) :=
      splitOff_append _ tys R hlen.symm
    simp only [zonkStep, FlatType.buildTask, hsplit, Run.ok_bind]
    rfl
  | tuple elems =>
    have hsplit : splitOff zonkUnderflow (tys.reverse ++ R) elems.length = .ok (tys, R) :=
      splitOff_append _ tys R hlen.symm
    simp only [zonkStep, FlatType.buildTask, hsplit, Run.ok_bind]
    rfl
  | record fields ext =>
    have hlen' : fields.keys.length = tys.length := by
      rw [hlen]
      simp [FlatType.readChildren, SortedMap.keys, SortedMap.values]
    simp only [zonkStep, FlatType.buildTask, splitOff_append _ tys R hlen', Run.ok_bind]
    rfl
  | unit => cases h
  | emptyRecord => cases h

/-- What a visit needs: a disabled budget and a cache that holds read-backs. -/
structure ZonkReady (hS : WellFounded (Child S)) (st : ZonkState) : Prop where
  view : st.uf.view = S
  budget : st.budget.isUnbounded
  memo : ∀ r t, st.memo.get? r = some t → t = readBack hS r

/-- The machine read the types `tys` back on the way from `st` to `st'`, caching classes of `B`
and charging one node for each. -/
structure ZonkRun (hS : WellFounded (Child S)) (st st' : ZonkState) (W : List ZonkTask)
    (tys : List Ty) (B : Finset ℕ) : Prop where
  visits : Visits zonkStep st st'
  ready : ZonkReady hS st'
  work : st'.work = W
  results : st'.results = tys.reverse ++ st.results
  grow : st.memo.keySet ⊆ st'.memo.keySet
  within : st'.memo.keySet ⊆ st.memo.keySet ∪ B
  left : st'.nodesLeft + st'.memo.keySet.card = st.nodesLeft + st.memo.keySet.card

variable {hS : WellFounded (Child S)}

/-- Reading one variable and then the others. -/
theorem ZonkRun.append {st st₁ st₂ : ZonkState} {W₁ W₂ : List ZonkTask} {t₁ t₂ : List Ty}
    {B₁ B₂ : Finset ℕ} (h₁ : ZonkRun hS st st₁ W₁ t₁ B₁) (h₂ : ZonkRun hS st₁ st₂ W₂ t₂ B₂) :
    ZonkRun hS st st₂ W₂ (t₁ ++ t₂) (B₁ ∪ B₂) where
  visits := h₁.visits.trans h₂.visits
  ready := h₂.ready
  work := h₂.work
  results := by rw [h₂.results, h₁.results, List.reverse_append, List.append_assoc]
  grow := h₁.grow.trans h₂.grow
  within := by
    rw [← Finset.union_assoc]
    exact h₂.within.trans (Finset.union_subset_union_left h₁.within)
  left := h₂.left.trans h₁.left

/-- The charge of a run is at most the classes that it may cache. -/
theorem ZonkRun.room {st st' : ZonkState} {W : List ZonkTask} {tys : List Ty} {B C : Finset ℕ}
    (h : ZonkRun hS st st' W tys B) (hroom : ((B ∪ C) \ st.memo.keySet).card ≤ st.nodesLeft) :
    (C \ st'.memo.keySet).card ≤ st'.nodesLeft := by
  have hsub : C \ st'.memo.keySet ∪ (st'.memo.keySet \ st.memo.keySet) ⊆
      (B ∪ C) \ st.memo.keySet := by
    intro x hx
    rcases Finset.mem_union.1 hx with hx | hx
    · obtain ⟨hC, hn⟩ := Finset.mem_sdiff.1 hx
      exact Finset.mem_sdiff.2 ⟨Finset.mem_union_right _ hC, fun hm => hn (h.grow hm)⟩
    · obtain ⟨hm, hn⟩ := Finset.mem_sdiff.1 hx
      refine Finset.mem_sdiff.2 ⟨Finset.mem_union_left _ ?_, hn⟩
      exact (Finset.mem_union.1 (h.within hm)).resolve_left hn
  have hdisj : Disjoint (C \ st'.memo.keySet) (st'.memo.keySet \ st.memo.keySet) := by
    rw [Finset.disjoint_left]
    exact fun x hx hx' => (Finset.mem_sdiff.1 hx).2 (Finset.mem_sdiff.1 hx').1
  have hcard := Finset.card_le_card hsub
  rw [Finset.card_union_of_disjoint hdisj, Finset.card_sdiff_of_subset h.grow] at hcard
  have hle := Finset.card_le_card h.grow
  have hleft := h.left
  omega

/-- Reading a list of variables, when each of them can be read. -/
theorem zonkRun_list (hS : WellFounded (Child S)) (cs : List VarId)
    (hvisit : ∀ c ∈ cs, ∀ {st : ZonkState} {W : List ZonkTask}, ZonkReady hS st →
      st.work = .visit c :: W → (readClasses S c \ st.memo.keySet).card ≤ st.nodesLeft →
      ∃ st', ZonkRun hS st st' W [readBack hS c] (readClasses S c))
    (st : ZonkState) {W : List ZonkTask} (hst : ZonkReady hS st)
    (hw : st.work = cs.map .visit ++ W)
    (hroom : (readClassesAll S cs \ st.memo.keySet).card ≤ st.nodesLeft) :
    ∃ st', ZonkRun hS st st' W (cs.map (readBack hS)) (readClassesAll S cs) := by
  induction cs generalizing st with
  | nil => exact ⟨st, .start, hst, hw, rfl, subset_rfl, Finset.subset_union_left, rfl⟩
  | cons c cs ih =>
    have hroom₁ : (readClasses S c \ st.memo.keySet).card ≤ st.nodesLeft :=
      (Finset.card_le_card (Finset.sdiff_subset_sdiff Finset.subset_union_left subset_rfl)).trans
        hroom
    obtain ⟨st₁, h₁⟩ := hvisit c (by simp) hst hw hroom₁
    obtain ⟨st₂, h₂⟩ := ih (fun c' hc' => hvisit c' (by simp [hc'])) st₁ h₁.ready h₁.work
      (h₁.room hroom)
    exact ⟨st₂, h₁.append h₂⟩

/-- A visit of a variable that was read before, and otherwise of a leaf or of a structure. -/
theorem zonkStep_visit {st : ZonkState} {W : List ZonkTask} {v : VarId} (hst : ZonkReady hS st)
    (hv : v < S.size) (hw : st.work = .visit v :: W) :
    ∃ uf', uf'.view = S ∧
      (∀ t, st.memo.get? (S.root v) = some t → zonkStep st =
        .ok (.inl { st with uf := uf', work := W, results := t :: st.results })) ∧
      (st.memo.get? (S.root v) = none → 0 < st.nodesLeft →
        (∃ flat, S.desc v = some (.struct flat) ∧ flat.isLeaf = false ∧ zonkStep st =
          .ok (.inl { st with
            uf := uf'
            work := zonkTasks (S.root v) flat ++ W
            nodesLeft := st.nodesLeft - 1 })) ∨
        (zonkStep st = .ok (.inl { st with
          uf := uf'
          work := W
          results := readBack hS v :: st.results
          memo := st.memo.insert (S.root v) (readBack hS v)
          nodesLeft := st.nodesLeft - 1 }))) := by
  obtain ⟨uf, budget, work, results, memo, nodesLeft⟩ := st
  obtain ⟨hview, hbudget, -⟩ := hst
  obtain rfl : work = _ := hw
  obtain ⟨uf', hf, hv'⟩ := UnionFind.find_spec (show v < uf.view.size from hview ▸ hv)
  obtain ⟨c, hc, hd⟩ := UnionFind.rootContent_spec
    (show v < uf'.view.size from hv' ▸ hview ▸ hv)
  dsimp only at hview hbudget
  rw [hv', hview] at hc hd
  rw [hview] at hf hv'
  refine ⟨uf', hv', fun t ht => ?_, fun hnone hpos => ?_⟩
  · simp only [zonkStep, zonkVisit, Budget.tick_of_isUnbounded hbudget, hf, Run.ok_bind, ht]
  · have hstep : zonkStep ⟨uf, budget, .visit v :: W, results, memo, nodesLeft⟩ =
        .ok (.inl (ZonkState.read ⟨uf', budget, W, results, memo, nodesLeft - 1⟩ (S.root v) c)) := by
      simp only [zonkStep, zonkVisit, Budget.tick_of_isUnbounded hbudget, hf, Run.ok_bind, hnone,
        if_neg (Nat.pos_iff_ne_zero.1 hpos), hc]
    rw [hstep]
    cases c with
    | struct flat =>
      by_cases hleaf : flat.isLeaf = false
      · refine Or.inl ⟨flat, hd, hleaf, ?_⟩
        cases flat <;> first | rfl | cases hleaf
      · right
        rw [readBack_struct hS hd]
        cases flat <;> first | rfl | exact absurd rfl hleaf
    | _ =>
      right
      rw [readBack_var hS hd rfl]
      rfl

/-- Rebuilding a structure from the types of its children, and caching it. -/
theorem ZonkRun.rebuild {st st₁ st₂ : ZonkState} {W : List ZonkTask} {v : VarId} {flat : FlatType}
    {B : Finset ℕ} (hd : S.desc v = some (.struct flat)) (hleaf : flat.isLeaf = false)
    (hstep : zonkStep st = .ok (.inl st₁)) (hmemo : st₁.memo = st.memo)
    (hres : st₁.results = st.results) (hnodes : st₁.nodesLeft + 1 = st.nodesLeft)
    (hrun : ZonkRun hS st₁ st₂ (flat.buildTask :: .memoize (S.root v) :: W)
      (flat.readChildren.map (readBack hS)) B)
    (hnot : S.root v ∉ st₂.memo.keySet) :
    ∃ st', ZonkRun hS st st' W [readBack hS v] (insert (S.root v) B) := by
  have hbuild := zonkStep_build hleaf hrun.work hrun.results (by simp)
  rw [← readBack_struct hS hd] at hbuild
  obtain ⟨hv₂, hb₂, hm₂⟩ := hrun.ready
  have hgrow := hmemo ▸ hrun.grow
  have hwithin := hmemo ▸ hrun.within
  have hleft := hrun.left
  refine ⟨{ st₂ with
    work := W
    results := readBack hS v :: st₁.results
    memo := st₂.memo.insert (S.root v) (readBack hS v) }, ?_, ⟨hv₂, hb₂, fun r t ht => ?_⟩, rfl,
    by simp [hres], ?_, ?_, ?_⟩
  · refine ((Visits.head hstep hrun.visits).next hbuild).next ?_
    rfl
  · rw [SortedMap.get?_insert] at ht
    split_ifs at ht with hr
    · cases ht
      rw [hr, readBack_root]
    · exact hm₂ r t ht
  · rw [SortedMap.keySet_insert]
    exact hgrow.trans (Finset.subset_insert _ _)
  · rw [SortedMap.keySet_insert, Finset.union_insert]
    exact Finset.insert_subset_insert _ hwithin
  · simp only [SortedMap.keySet_insert, Finset.card_insert_of_notMem hnot]
    rw [hmemo] at hleft
    omega

/-- Reading one variable back, on a store without cycles. -/
theorem zonkRun_visit (hS : WellFounded (Child S)) (hsc : Scoped S) {v : VarId}
    (hv : v < S.size) (st : ZonkState) (W : List ZonkTask) (hst : ZonkReady hS st) (hw : st.work = .visit v :: W)
    (hroom : (readClasses S v \ st.memo.keySet).card ≤ st.nodesLeft) :
    ∃ st', ZonkRun hS st st' W [readBack hS v] (readClasses S v) := by
  obtain ⟨r, hr⟩ : ∃ r, S.root v = r := ⟨_, rfl⟩
  induction r using hS.induction generalizing v st W with
  | _ r ih =>
    obtain rfl := hr
    obtain ⟨uf', hview, hcached, hfresh⟩ := zonkStep_visit hst hv hw
    rcases hmemo : st.memo.get? (S.root v) with _ | t
    swap
    · have ht : t = readBack hS v := (hst.memo _ _ hmemo).trans (readBack_root hS v)
      exact ⟨_, .next .start (hcached t hmemo), ⟨hview, hst.budget, hst.memo⟩, rfl, by simp [ht],
        subset_rfl, Finset.subset_union_left, rfl⟩
    have hnot : S.root v ∉ st.memo.keySet := by
      rw [SortedMap.mem_keySet, hmemo]
      simp
    have hmem : S.root v ∈ readClasses S v \ st.memo.keySet :=
      Finset.mem_sdiff.2 ⟨root_mem_readClasses hv, hnot⟩
    have hpos : 0 < st.nodesLeft := (Finset.card_pos.2 ⟨_, hmem⟩).trans_le hroom
    rcases hfresh hmemo hpos with ⟨flat, hd, hleaf, hstep⟩ | hstep
    · -- the classes below the children are those that are left, without the class itself
      have hsub := readClassesAll_subset hS hd
      have hkids : (readClassesAll S flat.readChildren \ st.memo.keySet).card ≤
          st.nodesLeft - 1 := by
        have hle := Finset.card_le_card (Finset.sdiff_subset_sdiff hsub
          (subset_refl st.memo.keySet))
        rw [Finset.erase_sdiff_comm, Finset.card_erase_of_mem hmem] at hle
        omega
      obtain ⟨st₂, hrun⟩ := zonkRun_list hS flat.readChildren
        (fun c hc st W hst hw hroom => ih _
          (child_of_mem hd (readChildren_subset flat c hc))
          (hsc v _ hd c (readChildren_subset flat c hc)) st W hst hw hroom rfl)
        { st with
          uf := uf'
          work := zonkTasks (S.root v) flat ++ W
          nodesLeft := st.nodesLeft - 1 }
        ⟨hview, hst.budget, hst.memo⟩
        (by rw [zonkTasks_eq hleaf, List.append_assoc]) hkids
      have hnot₂ : S.root v ∉ st₂.memo.keySet := fun h => by
        rcases Finset.mem_union.1 (hrun.within h) with h | h
        · exact hnot h
        · exact Finset.notMem_erase _ _ (hsub h)
      obtain ⟨st', h⟩ := ZonkRun.rebuild hd hleaf hstep rfl rfl (Nat.sub_add_cancel hpos) hrun hnot₂
      refine ⟨st', h.visits, h.ready, h.work, h.results, h.grow, h.within.trans ?_, h.left⟩
      refine Finset.union_subset_union_right (Finset.insert_subset (root_mem_readClasses hv) ?_)
      exact hsub.trans (Finset.erase_subset _ _)
    · refine ⟨_, .next .start hstep, ⟨hview, hst.budget, fun r t ht => ?_⟩, rfl, rfl, ?_, ?_, ?_⟩
      · dsimp only at ht
        rw [SortedMap.get?_insert] at ht
        split_ifs at ht with hr
        · cases ht
          rw [hr, readBack_root]
        · exact hst.memo r t ht
      · rw [SortedMap.keySet_insert]
        exact Finset.subset_insert _ _
      · rw [SortedMap.keySet_insert, Finset.insert_eq, Finset.union_comm]
        exact Finset.union_subset_union_right
          (Finset.singleton_subset_iff.2 (root_mem_readClasses hv))
      · simp only [SortedMap.keySet_insert, Finset.card_insert_of_notMem hnot]
        omega

/-- On an acyclic store the machine computes the read-back, unless more classes lie below the
variable than the node limit allows. -/
theorem zonk_eq_readBack {uf : UnionFind Content} {budget : Budget} {v : VarId}
    (hsc : Scoped uf.view) (hS : WellFounded (Child uf.view)) (hv : v < uf.view.size)
    (hb : budget.isUnbounded) (hlimit : (readClasses uf.view v).card ≤ ZONK_NODE_LIMIT) :
    ∃ n uf' budget', zonk n uf budget v = .ok (readBack hS v, uf', budget') := by
  obtain ⟨st', hrun⟩ := zonkRun_visit hS hsc hv
    ⟨uf, budget, [.visit v], [], .empty, ZONK_NODE_LIMIT⟩ [] ⟨rfl, hb, by simp⟩ rfl
    (by simpa using hlimit)
  obtain ⟨k, hk⟩ := hrun.visits.loop_eq
  refine ⟨1 + k, st'.uf, st'.budget, ?_⟩
  rw [zonk, hk]
  refine loop_succ_inr ?_ 0
  have hw := hrun.work
  have hr := hrun.results
  simp only [List.reverse_singleton, List.append_nil] at hr
  simp only [zonkStep, hw, hr]

end IpeLang.Types
