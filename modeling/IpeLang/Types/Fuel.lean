import IpeLang.Types.Occurs

/-!
# More fuel

The fuel of the model is no part of the program: with more of it, every function gives the outcome
that it gave before, unless it had run out (`unify_mono`, `solveAttributed_mono`).
-/

namespace IpeLang.Types

open IpeLang.Lib

variable {ι : Interner} {n m : ℕ} {uf : UnionFind Content} {budget : Budget} {span : Span}

theorem Approx.map {α β ε : Type} {x y : Run ε α} (h : Approx x y) (f : α → β) :
    Approx (x.map f) (y.map f) := by
  rcases h with rfl | rfl
  · exact Or.inl rfl
  · exact Or.inr rfl

theorem mismatch_mono (h : n ≤ m) (uf : UnionFind Content) (budget : Budget) (a b : VarId) :
    mismatch n uf budget ι span a b = .fuel ∨
      mismatch n uf budget ι span a b = mismatch m uf budget ι span a b := by
  unfold mismatch
  rcases zonk_mono h uf budget b with hz | hz
  · rw [hz]
    exact Or.inl rfl
  rw [← hz]
  rcases zonk n uf budget b with e | ⟨expectedTy, uf₁, budget₁⟩
  · exact Or.inr rfl
  dsimp only
  rcases zonk_mono h uf₁ budget₁ a with hz' | hz'
  · rw [hz']
    exact Or.inl rfl
  · rw [← hz']
    exact Or.inr rfl

theorem infiniteType_mono (h : n ≤ m) (uf : UnionFind Content) (budget : Budget) (a b : VarId) :
    infiniteType n uf budget ι span a b = .fuel ∨
      infiniteType n uf budget ι span a b = infiniteType m uf budget ι span a b := by
  unfold infiniteType
  rcases zonk_mono h uf budget a with hz | hz
  · rw [hz]
    exact Or.inl rfl
  rw [← hz]
  rcases zonk n uf budget a with e | ⟨varTy, uf₁, budget₁⟩
  · exact Or.inr rfl
  dsimp only
  rcases tyToDoc ι varTy .new with bug | ⟨varDoc, namer⟩
  · exact Or.inr rfl
  dsimp only
  rcases zonk_mono h uf₁ budget₁ b with hz' | hz'
  · rw [hz']
    exact Or.inl rfl
  · rw [← hz']
    exact Or.inr rfl

theorem approx_mismatch {α : Type} (h : n ≤ m) (uf : UnionFind Content) (budget : Budget)
    (a b : VarId) : Approx (.error (mismatch n uf budget ι span a b) : DResult α)
      (.error (mismatch m uf budget ι span a b)) := by
  rcases mismatch_mono h uf budget a b with h | h
  · exact Or.inl (by rw [h])
  · exact Or.inr (by rw [h])

theorem approx_infiniteType {α : Type} (h : n ≤ m) (uf : UnionFind Content) (budget : Budget)
    (a b : VarId) : Approx (.error (infiniteType n uf budget ι span a b) : DResult α)
      (.error (infiniteType m uf budget ι span a b)) := by
  rcases infiniteType_mono h uf budget a b with h | h
  · exact Or.inl (by rw [h])
  · exact Or.inr (by rw [h])

theorem occursGuard_mono (h : n ≤ m) (uf : UnionFind Content) (budget : Budget) (a b : VarId) :
    Approx (occursGuard n uf budget ι span a b) (occursGuard m uf budget ι span a b) := by
  refine Approx.bind (Approx.refl _) ?_
  rintro ⟨target, uf₁⟩
  refine Approx.bind (occurs_mono h uf₁ budget target b) ?_
  rintro ⟨found, uf₂, budget₂⟩
  dsimp only
  split_ifs
  · exact approx_infiniteType h _ _ _ _
  · exact Approx.refl _

theorem unifyNonstructure_mono (h : n ≤ m) (uf : UnionFind Content) (budget : Budget)
    (ra rb : VarId) (ca cb : Content) :
    Approx (unifyNonstructure n uf budget ι span ra rb ca cb)
      (unifyNonstructure m uf budget ι span ra rb ca cb) := by
  unfold unifyNonstructure
  split
  case h_6 =>
    dsimp only
    split_ifs
    · exact Approx.refl _
    · exact approx_mismatch h _ _ _ _
  case h_9 => exact approx_mismatch h _ _ _ _
  all_goals exact Approx.refl _

theorem unifySuperStructure_mono (h : n ≤ m) (uf : UnionFind Content) (budget : Budget)
    (ra rb v : VarId) (rigid : Bool) (bounds : TyBounds) (flat : FlatType) :
    Approx (unifySuperStructure n uf budget ι span ra rb v rigid bounds flat)
      (unifySuperStructure m uf budget ι span ra rb v rigid bounds flat) := by
  unfold unifySuperStructure
  split_ifs
  · exact Approx.refl _
  · exact Approx.bind (zonk_mono h uf budget v) fun _ => Approx.refl _
  · exact approx_mismatch h _ _ _ _

/-- The two checks before the merge of a constructor or a tuple. -/
theorem approx_selfCheck {α : Type} {budget : Budget} {ra rb : VarId} (h : n ≤ m)
    (uf : UnionFind Content) (cs₁ cs₂ : List VarId) (f : UnionFind Content → DResult α) :
    Approx (do
      let (self₂, uf) ← mergesIntoSelf uf ra rb cs₂
      if self₂ then .error (infiniteType n uf budget ι span ra rb)
      else
        let (self₁, uf) ← mergesIntoSelf uf ra rb cs₁
        if self₁ then .error (infiniteType n uf budget ι span ra rb) else f uf)
    (do
      let (self₂, uf) ← mergesIntoSelf uf ra rb cs₂
      if self₂ then .error (infiniteType m uf budget ι span ra rb)
      else
        let (self₁, uf) ← mergesIntoSelf uf ra rb cs₁
        if self₁ then .error (infiniteType m uf budget ι span ra rb) else f uf) := by
  refine Approx.bind (Approx.refl _) ?_
  rintro ⟨self₂, uf₂⟩
  dsimp only
  split_ifs
  · exact approx_infiniteType h _ _ _ _
  refine Approx.bind (Approx.refl _) ?_
  rintro ⟨self₁, uf₁⟩
  dsimp only
  split_ifs
  · exact approx_infiniteType h _ _ _ _
  · exact Approx.refl _

theorem unifyFlat_mono (h : n ≤ m) (uf : UnionFind Content) (budget : Budget) (ra rb : VarId)
    (fa fb : FlatType) (stack : Pending) :
    Approx (unifyFlat n uf budget ι span ra rb fa fb stack)
      (unifyFlat m uf budget ι span ra rb fa fb stack) := by
  unfold unifyFlat
  split
  · exact Approx.refl _
  · exact Approx.refl _
  · rename_i m₁ n₁ as₁ m₂ n₂ as₂
    by_cases hc : (!conHeadsCompatible ι m₁ n₁ m₂ n₂ || as₁.length != as₂.length) = true
    · rw [if_pos hc, if_pos hc]
      exact approx_mismatch h _ _ _ _
    · rw [if_neg hc, if_neg hc]
      exact approx_selfCheck h uf as₁ as₂ fun uf => do
        let uf ← uf.union ra rb (.struct (.con (if m₁.isEmpty then m₂ else m₁) n₁ as₁))
        .ok (uf, as₁.zip as₂ ++ stack)
  · rename_i es₁ es₂
    split_ifs
    · exact approx_mismatch h _ _ _ _
    · exact approx_selfCheck h uf es₁ es₂ fun uf => do
        let uf ← uf.union ra rb (.struct (.tuple es₁))
        .ok (uf, es₁.zip es₂ ++ stack)
  · refine Approx.bind (Approx.refl _) ?_
    rintro ⟨closed₁, uf₁⟩
    refine Approx.bind (Approx.refl _) ?_
    rintro ⟨closed₂, uf₂⟩
    dsimp only
    split_ifs
    · exact approx_mismatch h _ _ _ _
    · exact Approx.refl _
    · exact Approx.refl _
  · exact Approx.refl _
  · exact approx_mismatch h _ _ _ _

theorem unifyStructure_mono (h : n ≤ m) (uf : UnionFind Content) (budget : Budget)
    (ra rb : VarId) (stack : Pending) :
    Approx (unifyStructure n uf budget ι span ra rb stack)
      (unifyStructure m uf budget ι span ra rb stack) := by
  refine Approx.bind (Approx.refl _) ?_
  rintro ⟨ca, uf₁⟩
  refine Approx.bind (Approx.refl _) ?_
  rintro ⟨cb, uf₂⟩
  dsimp only
  split
  · exact Approx.bind (occursGuard_mono h _ _ _ _) fun _ => Approx.refl _
  · exact Approx.bind (occursGuard_mono h _ _ _ _) fun _ => Approx.refl _
  · exact Approx.bind (unifySuperStructure_mono h _ _ _ _ _ _ _ _) fun _ => Approx.refl _
  · exact Approx.bind (unifySuperStructure_mono h _ _ _ _ _ _ _ _) fun _ => Approx.refl _
  · exact approx_mismatch h _ _ _ _
  · exact approx_mismatch h _ _ _ _
  · exact Approx.bind (unifyFlat_mono h _ _ _ _ _ _ _) fun _ => Approx.refl _
  · exact Approx.bind (unifyNonstructure_mono h _ _ _ _ _ _) fun _ => Approx.refl _

theorem unifyStep_mono (h : n ≤ m) (uf : UnionFind Content) (budget : Budget) (a b : VarId)
    (stack : Pending) : Approx (unifyStep n uf budget ι span a b stack)
      (unifyStep m uf budget ι span a b stack) := by
  refine Approx.bind (Approx.refl _) fun budget => ?_
  refine Approx.bind (Approx.refl _) ?_
  rintro ⟨ra, uf₁⟩
  refine Approx.bind (Approx.refl _) ?_
  rintro ⟨rb, uf₂⟩
  dsimp only
  split_ifs
  · exact Approx.refl _
  refine Approx.bind (Approx.refl _) fun peekA => ?_
  split_ifs
  · exact unifyStructure_mono h _ _ _ _ _
  refine Approx.bind (Approx.refl _) fun peekB => ?_
  split_ifs
  · exact unifyStructure_mono h _ _ _ _ _
  · exact Approx.bind (unifyNonstructure_mono h _ _ _ _ _ _) fun _ => Approx.refl _

theorem unifyRound_mono (h : n ≤ m) (st : UnifyState) :
    Approx (unifyRound n ι span st) (unifyRound m ι span st) := by
  obtain ⟨uf, budget, _ | ⟨⟨a, b⟩, stack⟩⟩ := st
  · exact Approx.refl _
  · exact Approx.bind (unifyStep_mono h uf budget a b stack) fun _ => Approx.refl _

theorem unify_mono (h : n ≤ m) (uf : UnionFind Content) (budget : Budget) (a b : VarId) :
    Approx (unify n uf budget ι span a b) (unify m uf budget ι span a b) :=
  loop_mono (unifyRound_mono h) h _

/-- The outcome of a run does not depend on the fuel. -/
theorem unify_unique {uf : UnionFind Content} {budget : Budget} {a b : VarId}
    (hn : (unify n uf budget ι span a b).Ended) (hm : (unify m uf budget ι span a b).Ended) :
    unify n uf budget ι span a b = unify m uf budget ι span a b :=
  eq_of_ended_of_ended (f := fun n => unify n uf budget ι span a b)
    (fun h => unify_mono h uf budget a b) hn hm

theorem siteError_mono {α : Type} {home : ModuleHome} {x y : DResult α} (h : Approx x y) :
    Approx (siteError home x) (siteError home y) := by
  rcases h with rfl | rfl
  · exact Or.inl rfl
  · exact Or.inr rfl

theorem solveAttributed_mono (h : n ≤ m) (cs : List Constraint) (uf : UnionFind Content)
    (budget : Budget) :
    Approx (solveAttributed n ι cs uf budget) (solveAttributed m ι cs uf budget) := by
  induction cs generalizing uf budget with
  | nil => exact Approx.refl _
  | cons c cs ih =>
    exact Approx.bind (siteError_mono (unify_mono h uf budget c.lhs c.rhs)) fun ⟨uf, budget⟩ =>
      ih uf budget

/-- The outcome of the solver does not depend on the fuel. -/
theorem solveAttributed_unique {cs : List Constraint} {uf : UnionFind Content} {budget : Budget}
    (hn : (solveAttributed n ι cs uf budget).Ended) (hm : (solveAttributed m ι cs uf budget).Ended) :
    solveAttributed n ι cs uf budget = solveAttributed m ι cs uf budget :=
  eq_of_ended_of_ended (f := fun n => solveAttributed n ι cs uf budget)
    (fun h => solveAttributed_mono h cs uf budget) hn hm

end IpeLang.Types
