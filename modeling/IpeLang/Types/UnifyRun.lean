import IpeLang.Types.Meet

/-!
# Runs of the unifier

A run that ends well is a sequence of steps on partitions, from a store with a list of pending
pairs to a store with none. Solving a list of constraints is such a run too: the pairs of the
constraints are the pending pairs.

* `Solves ι P S stack F`: a run from `S` and `stack` to `F` all of whose steps satisfy `P`;
* `unify_solves`, `solve_solves`: a run of the code that gives a result is one.
-/

namespace IpeLang.Types

open IpeLang.Lib

/-- The pending pairs are ids of the store. -/
def InRange (S : Store) (stack : Pending) : Prop := ∀ p ∈ stack, p.1 < S.size ∧ p.2 < S.size

/-- A run from `S` with the pending pairs `stack` to `F`. The condition `P` holds of every pair
that is processed, in the store before its step. -/
inductive Solves (ι : Interner) (P : Store → VarId → VarId → Prop) : Store → Pending → Store → Prop
  | done {S} : Solves ι P S [] S
  | same {S F a b stack} : S.Same a b → Solves ι P S stack F → Solves ι P S ((a, b) :: stack) F
  | met {S S' F a b ca cb m stack} : P S a b → ¬ S.Same a b → S.desc a = some ca →
      S.desc b = some cb → meet ι S ca cb = some m → Guard S a b ca cb → Room S m →
      S.Merge S' a b m.keep m.minted → Solves ι P S' (m.pairs ++ stack) F →
      Solves ι P S ((a, b) :: stack) F

/-! ### Ids stay in range -/

section Range

variable {ι : Interner} {S S' : Store} {a b : VarId} {ca cb : Content} {m : Meet}
  {fs fs' : SortedMap Symbol VarId} {n : ℕ}

/-- The ids that a step leaves behind are below `n`. -/
structure Meet.Below (m : Meet) (n : ℕ) : Prop where
  keep : ∀ c ∈ m.keep.children, c < n
  minted : ∀ d ∈ m.minted, ∀ c ∈ d.children, c < n
  pairs : ∀ p ∈ m.pairs, p.1 < n ∧ p.2 < n

theorem rowsMeet_below {ext₁ ext₂ : VarId} {shared : Pending}
    {only₁ only₂ : SortedMap Symbol VarId} (hfs : ∀ c ∈ fs.values, c < n)
    (h₁ : ∀ c ∈ only₁.values, c < n) (h₂ : ∀ c ∈ only₂.values, c < n) (he₁ : ext₁ < n)
    (he₂ : ext₂ < n) (hs : ∀ p ∈ shared, p.1 < n ∧ p.2 < n) :
    (rowsMeet n fs ext₁ ext₂ only₁ only₂ shared).Below
      (n + (rowsMeet n fs ext₁ ext₂ only₁ only₂ shared).minted.length) := by
  have hmerged : ∀ c ∈ (fs.insertAll only₂).values, c < n := by
    intro c hc
    obtain ⟨k, hk⟩ := SortedMap.mem_values.1 hc
    rw [SortedMap.get?_insertAll, Option.or_eq_some_iff] at hk
    rcases hk with hk | ⟨-, hk⟩
    · exact h₂ c (SortedMap.mem_values.2 ⟨k, hk⟩)
    · exact hfs c (SortedMap.mem_values.2 ⟨k, hk⟩)
  have lift : ∀ {k c}, c < n → c < n + k := fun h => Nat.lt_add_right _ h
  have hs' : ∀ {k}, ∀ p ∈ shared, p.1 < n + k ∧ p.2 < n + k :=
    fun p hp => ⟨lift (hs p hp).1, lift (hs p hp).2⟩
  rcases e₁ : only₁.isEmpty with _ | _ <;> rcases e₂ : only₂.isEmpty with _ | _ <;>
    simp only [rowsMeet, e₁, e₂, List.length_cons, List.length_nil] <;> constructor <;>
    simp only [Content.children, FlatType.children, List.mem_append, List.mem_cons,
      List.not_mem_nil, or_false, forall_eq_or_imp, forall_eq]
  all_goals grind

theorem filterKeys_below {p : Symbol → Bool} (h : ∀ c ∈ fs.values, c < n) :
    ∀ c ∈ (fs.filterKeys p).values, c < n := by
  intro c hc
  obtain ⟨k, hk⟩ := SortedMap.mem_values.1 hc
  rw [SortedMap.get?_filterKeys] at hk
  split_ifs at hk
  exact h c (SortedMap.mem_values.2 ⟨k, hk⟩)

theorem zip_below {as bs : List VarId} (ha : ∀ c ∈ as, c < n) (hb : ∀ c ∈ bs, c < n) :
    ∀ p ∈ as.zip bs, p.1 < n ∧ p.2 < n := by
  rintro ⟨x, y⟩ hp
  exact ⟨ha x (List.of_mem_zip hp).1, hb y (List.of_mem_zip hp).2⟩

theorem meet_below (hS : Scoped S) (ha : S.desc a = some ca) (hb : S.desc b = some cb)
    (hm : meet ι S ca cb = some m) : m.Below (S.size + m.minted.length) := by
  have hsa := hS a ca ha
  have hsb := hS b cb hb
  cases meet_inv hm with
  | bindLeft => exact ⟨hsb, by simp, by simp⟩
  | bindRight => exact ⟨hsa, by simp, by simp⟩
  | pinLeft _ => exact ⟨hsb, by simp, by simp⟩
  | pinRight _ => exact ⟨hsa, by simp, by simp⟩
  | join _ _ hj =>
    have := Content.children_of_not_isStructure (joinContent_isStructure hj)
    exact ⟨by simp [this], by simp, by simp⟩
  | flat hf =>
    simp only [Content.children] at hsa hsb
    cases hf with
    | unit => exact ⟨hsa, by simp, by simp⟩
    | emptyRecord => exact ⟨hsa, by simp, by simp⟩
    | fn =>
      refine ⟨hsa, by simp, ?_⟩
      simp only [FlatType.children, List.mem_cons, List.not_mem_nil, or_false, forall_eq_or_imp,
        forall_eq] at hsa hsb ⊢
      exact ⟨⟨hsa.1, hsb.1⟩, hsa.2, hsb.2⟩
    | con _ _ => exact ⟨hsa, by simp, zip_below hsa hsb⟩
    | tuple _ => exact ⟨hsa, by simp, zip_below hsa hsb⟩
    | @record fs₁ ext₁ fs₂ ext₂ _ _ =>
      have h₁ : ∀ c ∈ fs₁.values, c < S.size := fun c hc => hsa c (by simp [FlatType.children, hc])
      have h₂ : ∀ c ∈ fs₂.values, c < S.size := fun c hc => hsb c (by simp [FlatType.children, hc])
      refine rowsMeet_below h₁ (filterKeys_below h₁) (filterKeys_below h₂)
        (hsa _ (by simp [FlatType.children])) (hsb _ (by simp [FlatType.children])) ?_
      rintro ⟨x, y⟩ hp
      obtain ⟨k, hx, hy⟩ := SortedMap.mem_shared.1 (List.mem_reverse.1 hp)
      exact ⟨h₁ x (SortedMap.mem_values.2 ⟨k, hx⟩), h₂ y (SortedMap.mem_values.2 ⟨k, hy⟩)⟩

/-- A step keeps every descriptor in scope. -/
theorem scoped_of_merge (hS : Scoped S) (hm : m.Below (S.size + m.minted.length))
    (h : S.Merge S' a b m.keep m.minted) : Scoped S' := by
  intro v d hd c hc
  have hv := ClassStore.lt_of_desc hd
  rw [h.size_eq] at hv ⊢
  by_cases hold : v < S.size
  · rw [h.desc_old hold] at hd
    split_ifs at hd
    · cases hd
      exact hm.keep c hc
    · exact Nat.lt_add_right _ (hS v d hd c hc)
  · obtain ⟨i, rfl⟩ := Nat.exists_eq_add_of_le (not_lt.1 hold)
    rw [h.desc_new] at hd
    exact hm.minted d (List.mem_of_getElem? hd) c hc

theorem InRange.tail {p : VarId × VarId} {stack : Pending} (h : InRange S (p :: stack)) :
    InRange S stack := fun q hq => h q (List.mem_cons_of_mem p hq)

/-- A step keeps the pending pairs in range. -/
theorem inRange_of_merge {stack : Pending} (hst : InRange S stack)
    (hm : m.Below (S.size + m.minted.length)) (h : S.Merge S' a b m.keep m.minted) :
    InRange S' (m.pairs ++ stack) := by
  intro p hp
  rw [h.size_eq]
  rcases List.mem_append.1 hp with hp | hp
  · exact hm.pairs p hp
  · exact ⟨Nat.lt_add_right _ (hst p hp).1, Nat.lt_add_right _ (hst p hp).2⟩

end Range

/-! ### Runs of the code -/

section Code

variable {ι : Interner} {fuel n : ℕ} {span : Span} {uf uf' : UnionFind Content}
  {budget budget' : Budget} {stack : Pending} {P : Store → VarId → VarId → Prop}

/-- The condition `P` holds of the pair that is next in a state of the loop. -/
def NextPair (P : Store → VarId → VarId → Prop) (st : UnifyState) : Prop :=
  ∀ p stack, st.2.2 = p :: stack → P st.1.view p.1 p.2

theorem unifyRound_cons {a b : VarId} {x : DResult UnifyState}
    (h : unifyStep fuel uf budget ι span a b stack = x) :
    unifyRound fuel ι span (uf, budget, (a, b) :: stack) = x.map .inl := by
  rw [unifyRound, h]
  cases x <;> rfl

/-- A loop that gave a result is a run. -/
theorem unify_loop_solves (hS : Scoped uf.view) (hst : InRange uf.view stack)
    (hP : ∀ st, Visits (unifyRound fuel ι span) (uf, budget, stack) st → NextPair P st)
    (h : loop (unifyRound fuel ι span) n (uf, budget, stack) = .ok (uf', budget')) :
    Solves ι P uf.view stack uf'.view := by
  induction n generalizing uf budget stack with
  | zero => cases h
  | succ n ih =>
    cases stack with
    | nil =>
      rw [loop_succ_inr (show unifyRound fuel ι span (uf, budget, []) = _ from rfl)] at h
      cases h
      exact .done
    | cons p stack =>
      obtain ⟨a, b⟩ := p
      have hp := hst (a, b) (by simp)
      have hnext := hP _ .start (a, b) stack rfl
      have hout := unifyStep_outcome ι fuel budget span stack hS hp.1 hp.2
      rcases hs : unifyStep fuel uf budget ι span a b stack with e | ⟨uf₁, budget₁, stack₁⟩
      · rw [loop_succ_error (unifyRound_cons hs)] at h
        cases h
      have hround := unifyRound_cons hs
      rw [loop_succ_inl hround] at h
      have hP' := fun st hst => hP st (Visits.head hround hst)
      rw [hs] at hout
      cases hout with
      | same _ hsame hv =>
        have := ih (hv ▸ hS) (by rw [hv]; exact hst.tail) hP' h
        exact .same hsame (hv ▸ this)
      | met _ hne ha hb hm hg hroom hmerge =>
        have hbelow := meet_below hS ha hb hm
        exact .met hnext hne ha hb hm hg hroom hmerge
          (ih (scoped_of_merge hS hbelow hmerge) (inRange_of_merge hst.tail hbelow hmerge) hP' h)

/-- A run of `unify` that gave a result. -/
theorem unify_solves {a b : VarId} (hS : Scoped uf.view) (ha : a < uf.view.size)
    (hb : b < uf.view.size)
    (hP : ∀ st, Visits (unifyRound fuel ι span) (uf, budget, [(a, b)]) st → NextPair P st)
    (h : unify fuel uf budget ι span a b = .ok (uf', budget')) :
    Solves ι P uf.view [(a, b)] uf'.view :=
  unify_loop_solves hS (by simpa [InRange] using ⟨ha, hb⟩) hP h

theorem Solves.append {S S' F : Store} {st st' : Pending} (h : Solves ι P S st S')
    (h' : Solves ι P S' st' F) : Solves ι P S (st ++ st') F := by
  induction h with
  | done => exact h'
  | same hs _ ih => exact .same hs (ih h')
  | met hP hne ha hb hm hg hroom hmerge _ ih =>
    exact .met hP hne ha hb hm hg hroom hmerge (by simpa [List.append_assoc] using ih h')

theorem Solves.scoped {S F : Store} {st : Pending} (h : Solves ι P S st F) (hS : Scoped S)
    (hst : InRange S st) : Scoped F ∧ S.size ≤ F.size := by
  induction h with
  | done => exact ⟨hS, le_rfl⟩
  | same _ _ ih => exact ih hS hst.tail
  | met _ _ ha hb hm _ _ hmerge _ ih =>
    have hbelow := meet_below hS ha hb hm
    obtain ⟨hF, hle⟩ := ih (scoped_of_merge hS hbelow hmerge)
      (inRange_of_merge hst.tail hbelow hmerge)
    exact ⟨hF, hmerge.size_le.trans hle⟩

/-- A run only joins classes. -/
theorem Solves.same_mono {S F : Store} {st : Pending} {v w : VarId} (h : Solves ι P S st F)
    (hvw : S.Same v w) : F.Same v w := by
  induction h with
  | done => exact hvw
  | same _ _ ih => exact ih hvw
  | met _ _ _ _ _ _ _ hmerge _ ih => exact ih (hmerge.same_mono hvw)

/-- The equations of a list of constraints. -/
def equations (cs : List Constraint) : Pending := cs.map fun c => (c.lhs, c.rhs)

/-- The condition `P` holds of every pair that is processed while `cs` is solved. -/
def EveryRound (fuel : ℕ) (ι : Interner) (P : Store → VarId → VarId → Prop) :
    List Constraint → UnionFind Content → Budget → Prop
  | [], _, _ => True
  | c :: cs, uf, budget =>
    (∀ st, Visits (unifyRound fuel ι c.span) (uf, budget, [(c.lhs, c.rhs)]) st → NextPair P st) ∧
      ∀ uf' budget', unify fuel uf budget ι c.span c.lhs c.rhs = .ok (uf', budget') →
        EveryRound fuel ι P cs uf' budget'

theorem everyRound_true (fuel : ℕ) (cs : List Constraint) (uf : UnionFind Content)
    (budget : Budget) : EveryRound fuel ι (fun _ _ _ => True) cs uf budget := by
  induction cs generalizing uf budget with
  | nil => trivial
  | cons c cs ih => exact ⟨fun _ _ _ _ _ => trivial, fun uf' budget' _ => ih uf' budget'⟩

theorem siteError_eq_ok {α : Type} {home : ModuleHome} {x : DResult α} {y : α}
    (h : siteError home x = .ok y) : x = .ok y := by
  rcases x with (_ | _) | x
  · cases h
  · cases h
  · cases h
    rfl

/-- A run of the solver that gave a result. -/
theorem solve_solves {cs : List Constraint} (hS : Scoped uf.view)
    (hcs : InRange uf.view (equations cs)) (hP : EveryRound fuel ι P cs uf budget)
    (h : solveAttributed fuel ι cs uf budget = .ok (uf', budget')) :
    Solves ι P uf.view (equations cs) uf'.view := by
  induction cs generalizing uf budget with
  | nil =>
    cases h
    exact .done
  | cons c cs ih =>
    rw [solveAttributed, Run.bind_eq_ok] at h
    obtain ⟨⟨uf₁, budget₁⟩, hu, h⟩ := h
    replace hu := siteError_eq_ok hu
    have hc := hcs (c.lhs, c.rhs) (by simp [equations])
    have hrun := unify_solves hS hc.1 hc.2 hP.1 hu
    obtain ⟨hS₁, hle⟩ := hrun.scoped hS (by simpa [InRange] using hc)
    have hcs₁ : InRange uf₁.view (equations cs) := fun p hp =>
      ⟨(hcs.tail p hp).1.trans_le hle, (hcs.tail p hp).2.trans_le hle⟩
    exact hrun.append (ih hS₁ hcs₁ (hP.2 _ _ hu) h)

end Code

end IpeLang.Types
