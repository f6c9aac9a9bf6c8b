import IpeLang.Types.Fuel
import IpeLang.Types.Solution

/-!
# Progress

A pair that a solution makes equal is never refused, except where a super-typed variable is in the
way (`Sol.gate`), and a run all of whose pairs are made equal by a solution ends well
(`unify_progress`). The solution is the measure: a step joins two classes of one value, and what it
mints instead weighs less.
-/

namespace IpeLang.Types

open IpeLang.Lib Relation

variable {ι : Interner} {ρ : VarId → Val} {S S' : Store} {a b v w : VarId}
  {ca cb d : Content} {flat fa fb : FlatType} {m : Meet} {x : Val}

/-! ### Nothing is refused -/

/-- The head of a structure. -/
inductive Kind
  | atom | fn | con | unit | tuple | record | emptyRecord
  deriving DecidableEq

def FlatType.kind : FlatType → Kind
  | .fn _ _ => .fn
  | .con _ _ _ => .con
  | .unit => .unit
  | .tuple _ => .tuple
  | .record _ _ => .record
  | .emptyRecord => .emptyRecord

def Val.kind : Val → Kind
  | .atom _ => .atom
  | .fn _ _ => .fn
  | .con _ _ _ => .con
  | .unit => .unit
  | .tuple _ => .tuple
  | .row _ _ => .record
  | .bare _ => .record
  | .emptyRecord => .emptyRecord

theorem Reads.kind (h : Reads ι ρ flat x) : x.kind = flat.kind := by
  cases flat with
  | con home name args =>
    obtain ⟨h', -, rfl⟩ := h
    rfl
  | record fields ext =>
    rw [Reads, Val.recordOf] at h
    split_ifs at h with hfs
    · rw [h]
      rfl
    · rw [h, Val.record_of_nonempty (by simpa using hfs)]
      rfl
  | _ =>
    rw [Reads] at h
    rw [h]
    rfl

/-- A closed record has no field that an equal record lacks. -/
theorem isEmpty_only_of_closed_value {fs₁ fs₂ : SortedMap Symbol VarId} {ext₁ ext₂ : VarId}
    (hcan : ∀ c, (ρ c).Canonical) (h₁ : Reads ι ρ (.record fs₁ ext₁) x)
    (h₂ : Reads ι ρ (.record fs₂ ext₂) x) (hclosed : ρ ext₂ = .emptyRecord) :
    (Row.only fs₁ fs₂).isEmpty = true := by
  obtain ⟨-, n, -, -, hext, -⟩ := rows_split hcan h₁ h₂
  by_contra hne
  rw [hclosed, Val.record_of_nonempty (by simpa using hne)] at hext
  cases hext

/-- Two structures with one value meet. -/
theorem Reads.meets (hcan : ∀ c, (ρ c).Canonical)
    (hclosed : ∀ c, isClosed S c = true → ρ c = .emptyRecord) (ha : Reads ι ρ fa x)
    (hb : Reads ι ρ fb x) : ∃ m, FlatMeet ι S fa fb m := by
  have hkind : fa.kind = fb.kind := ha.kind.symm.trans hb.kind
  cases fa <;> cases fb <;> cases hkind
  case unit.unit => exact ⟨_, .unit⟩
  case emptyRecord.emptyRecord => exact ⟨_, .emptyRecord⟩
  case fn.fn => exact ⟨_, .fn⟩
  case con.con m₁ n₁ as₁ m₂ n₂ as₂ =>
    obtain ⟨h₁, hh₁, rfl⟩ := ha
    obtain ⟨h₂, hh₂, heq⟩ := hb
    obtain ⟨rfl, rfl, hargs⟩ := Val.con.inj heq
    exact ⟨_, .con (conHeadsCompatible_iff.2 ⟨rfl, h₁, hh₁, hh₂⟩)
      (by simpa using congrArg List.length hargs)⟩
  case tuple.tuple es₁ es₂ =>
    rw [Reads] at ha hb
    have helems := Val.tuple.inj (ha.symm.trans hb)
    exact ⟨_, .tuple (by simpa using congrArg List.length helems)⟩
  case record.record fs₁ ext₁ fs₂ ext₂ =>
    exact ⟨_, .record (fun h => isEmpty_only_of_closed_value hcan ha hb (hclosed _ h))
      fun h => isEmpty_only_of_closed_value hcan hb ha (hclosed _ h)⟩

/-- Where a super-typed variable refuses a pair that a solution makes equal: two such variables one
of which is rigid, with an obligation that needs a concrete type; or a structure of the right head
with the wrong home. -/
inductive Gate (ι : Interner) : Content → Content → Prop
  | dispatch {r₁ r₂ b₁ b₂} : r₁ ≠ r₂ →
      (b₁.hasNumber || b₂.hasNumber || b₁.hasAppend || b₂.hasAppend) = true →
      Gate ι (.super r₁ b₁) (.super r₂ b₂)
  | headLeft {bounds f} : superConcreteOk ι bounds f = false →
      Gate ι (.super false bounds) (.struct f)
  | headRight {bounds f} : superConcreteOk ι bounds f = false →
      Gate ι (.struct f) (.super false bounds)

section Pair

variable (h : Sol ι S ρ) (hab : ρ a = ρ b) (hne : ¬ S.Same a b) (ha : S.desc a = some ca)
  (hb : S.desc b = some cb)
include h hab hne ha hb

/-- What the checks before a merge look for does not occur. -/
theorem Sol.guard (hS : Scoped S) : Guard S a b ca cb := by
  have hwf := (acyclic_iff hS).1 h.acyclic
  have hfree : ∀ {v w : VarId}, ρ v = ρ w → ¬ S.Same v w → Free S (S.root v) w := by
    intro v w hvw hns
    refine ⟨hwf.apply _, fun r hr => ?_⟩
    rintro rfl
    rcases reflTransGen_iff_eq_or_transGen.1 hr with heq | hpath
    · exact hns heq.symm
    · have hlt := h.sizeOf_lt_of_path hpath
      rw [h.same (S.same_root v).symm, h.same (S.same_root w).symm, hvw] at hlt
      exact lt_irrefl _ hlt
  have hchild : ∀ {v c : VarId} {d : Content}, S.desc v = some d → c ∈ d.children →
      ρ v = ρ a → ¬ S.Same c a ∧ ¬ S.Same c b := by
    intro v c d hd hc hva
    have hlt := h.sizeOf_lt (child_of_mem hd hc)
    rw [h.same (S.same_root c).symm, h.same (S.same_root v).symm, hva] at hlt
    exact ⟨fun hs => hlt.ne (congrArg sizeOf (h.same hs)),
      fun hs => hlt.ne (congrArg sizeOf ((h.same hs).trans hab.symm))⟩
  cases ca with
  | struct fa =>
    cases cb with
    | struct fb =>
      have hkids : ∀ c ∈ guardedChildren fa fb, c ∈ fa.children ∨ c ∈ fb.children := by
        cases fa <;> cases fb <;> simp [guardedChildren, FlatType.children]
      intro c hc
      rcases hkids c hc with hc | hc
      · exact hchild ha hc rfl
      · exact hchild hb hc hab.symm
    | flex => exact hfree hab.symm fun hs => hne hs.symm
    | _ => trivial
  | flex =>
    cases cb with
    | struct fb => exact hfree hab hne
    | _ => trivial
  | _ => cases cb <;> trivial

/-- Only a super-typed variable can refuse the pair. -/
theorem Sol.gate (hm : meet ι S ca cb = none) : Gate ι ca cb := by
  have hma := h.models ha
  have hmb := h.models hb
  rw [← hab] at hmb
  have hrigid : ca.isRigid = true → cb.isRigid = true → False := fun h₁ h₂ =>
    hne (h.apart ha hb h₁ h₂ hab)
  have hatom : ∀ {d : Content} {f : FlatType} {x : Val}, Models ι ρ d x → d.isRigid = true →
      Models ι ρ (.struct f) x → False := by
    intro d f x hd hr hf
    have := hd.isAtom hr
    rw [Reads.not_isAtom hf] at this
    cases this
  have hclosed : ∀ c, isClosed S c = true → ρ c = .emptyRecord := fun c hc =>
    h.models (beq_iff_eq.1 hc)
  cases ca with
  | struct fa =>
    cases cb with
    | struct fb =>
      obtain ⟨m, hf⟩ := Reads.meets h.canonical hclosed hma hmb
      rw [meet, meetFlat_iff.2 hf] at hm
      cases hm
    | flex => cases hm
    | rigid => exact (hatom hmb rfl hma).elim
    | super r bounds =>
      cases r with
      | true => exact (hatom hmb rfl hma).elim
      | false =>
        refine .headRight (Bool.eq_false_iff.2 fun hok => ?_)
        simp [meet, meetSuper, hok] at hm
  | flex => cases cb <;> cases hm
  | rigid =>
    cases cb with
    | struct fb => exact (hatom hma rfl hmb).elim
    | flex => cases hm
    | rigid => exact (hrigid rfl rfl).elim
    | super r bounds =>
      cases r with
      | true => exact (hrigid rfl rfl).elim
      | false => cases hm
  | super r₁ b₁ =>
    cases cb with
    | flex => cases r₁ <;> cases hm
    | struct fb =>
      cases r₁ with
      | true => exact (hatom hma rfl hmb).elim
      | false =>
        refine .headLeft (Bool.eq_false_iff.2 fun hok => ?_)
        simp [meet, meetSuper, hok] at hm
    | rigid =>
      cases r₁ with
      | true => exact (hrigid rfl rfl).elim
      | false => cases hm
    | super r₂ b₂ =>
      have hj : joinContent (.super r₁ b₁) (.super r₂ b₂) = none := Option.map_eq_none_iff.1 hm
      simp only [joinContent, ite_eq_right_iff, reduceCtorEq, imp_false, Bool.and_eq_true,
        Bool.or_eq_true, beq_iff_eq, Bool.not_eq_true', not_and, not_or, Bool.not_eq_false] at hj
      cases r₁ <;> cases r₂
      · exact absurd rfl (hj rfl).1
      · exact .dispatch (by decide) (by simpa using (hj rfl).2)
      · exact .dispatch (by decide) (by simpa using (hj rfl).2)
      · exact (hrigid rfl rfl).elim

end Pair

/-! ### One step -/

/-- What the classes of a store weigh. -/
noncomputable def classWeight (S : Store) (ρ : VarId → Val) : ℕ := ∑ v ∈ S.classes, weight (ρ v)

/-- A merge of two classes of one value makes the store lighter. -/
theorem classWeight_lt (hmerge : S.Merge S' a b m.keep m.minted) (h : Sol ι S ρ)
    (hab : ρ a = ρ b) (hne : ¬ S.Same a b) (ha : a < S.size) (hb : b < S.size) {vs : List Val}
    (hlen : vs.length = m.minted.length) (hw : (vs.map weight).sum < weight (ρ a)) :
    classWeight S' (extendBy S.size ρ vs) < classWeight S ρ := by
  obtain ⟨l, hl, hsum⟩ := hmerge.sum_classes hne ha hb fun v => weight (extendBy S.size ρ vs v)
  have hla : ρ l = ρ a := by
    rcases hl with hl | hl
    · exact h.same hl
    · exact (h.same hl).trans hab.symm
  have hlt : l < S.size := by
    rcases hl with hl | hl
    · exact hl.symm.lt ha
    · exact hl.symm.lt hb
  have hold : ∑ v ∈ S.classes, weight (extendBy S.size ρ vs v) = classWeight S ρ :=
    Finset.sum_congr rfl fun v hv => by rw [extendBy_of_lt (ClassStore.mem_classes.1 hv).1]
  have hnew : ∑ i ∈ Finset.range m.minted.length, weight (extendBy S.size ρ vs (S.size + i)) =
      (vs.map weight).sum := by
    rw [← hlen, Finset.sum_range, ← List.sum_ofFn]
    congr 1
    refine List.ext_getElem (by simp) fun i h₁ h₂ => ?_
    simp [extendBy_add]
  rw [hold, hnew, extendBy_of_lt hlt, hla] at hsum
  rw [classWeight]
  omega

/-- The solution `ρ` makes all pending pairs equal. -/
structure Solved (ι : Interner) (I : Store → (VarId → Val) → Prop) (S : Store) (ρ : VarId → Val)
    (stack : Pending) : Prop where
  scope : Scoped S
  range : InRange S stack
  sol : Sol ι S ρ
  pairs : ∀ p ∈ stack, ρ p.1 = ρ p.2
  inv : I S ρ

/-- The invariant `I` of solved stores keeps the gate open, and leaves room in the arena unless
`full` holds. -/
structure Guides (ι : Interner) (full : Prop) (I : Store → (VarId → Val) → Prop) : Prop where
  gate : ∀ {S ρ a b ca cb}, I S ρ → Sol ι S ρ → ρ a = ρ b → ¬ S.Same a b → S.desc a = some ca →
    S.desc b = some cb → ¬ Gate ι ca cb
  room : ∀ {S ρ a b ca cb m}, I S ρ → S.desc a = some ca → S.desc b = some cb →
    meet ι S ca cb = some m → Room S m ∨ full
  step : ∀ {S S' ρ ρ' a b ca cb m}, I S ρ → Sol ι S ρ → ρ a = ρ b → ¬ S.Same a b →
    S.desc a = some ca → S.desc b = some cb → meet ι S ca cb = some m → Scoped S →
    S.Merge S' a b m.keep m.minted → (∀ v < S.size, ρ' v = ρ v) → Sol ι S' ρ' → I S' ρ'

variable {full : Prop} {I : Store → (VarId → Val) → Prop} {span : Span} {stack : Pending}
  {budget : Budget}

/-- What a step of a solved run does, given enough fuel. -/
theorem solved_step (hI : Guides ι full I) (h : Solved ι I S ρ ((a, b) :: stack))
    (hb : budget.isUnbounded) (span : Span) : ∃ n, ∀ uf, uf.view = S →
      (∃ uf' ρ' stack', unifyStep n uf budget ι span a b stack = .ok (uf', budget, stack') ∧
        Solved ι I uf'.view ρ' stack' ∧ (∀ v < S.size, ρ' v = ρ v) ∧ S.size ≤ uf'.view.size ∧
        toLex (classWeight uf'.view ρ', stack'.length) <
          toLex (classWeight S ρ, ((a, b) :: stack).length)) ∨
      (unifyStep n uf budget ι span a b stack = .error (.diag UnionFind.arenaExceeded) ∧ full) := by
  obtain ⟨hS, hst, hsol, hpairs, hinv⟩ := h
  obtain ⟨halt, hblt⟩ := hst (a, b) (by simp)
  have hab : ρ a = ρ b := hpairs (a, b) (by simp)
  have hac := hsol.acyclic
  -- A solution is acyclic, so that both occurs checks end; their fuels are taken together.
  obtain ⟨n₁, hn₁⟩ := occurs_halts hS (S.root_lt hblt) (fun r _ => hac r) (S.root a)
  obtain ⟨n₂, hn₂⟩ := occurs_halts hS (S.root_lt halt) (fun r _ => hac r) (S.root b)
  have hwalk : ∀ {uf' : UnionFind Content} {var node : VarId} {e : Stop Diagnostic} {n : ℕ},
      n₁ ≤ n → n₂ ≤ n → (var = a ∧ node = b ∨ var = b ∧ node = a) → uf'.view = S →
      occurs n uf' budget (S.root var) (S.root node) ≠ .error e := by
    intro uf' var node e n h₁ h₂ hvn hv he
    have hnode : S.root node < uf'.view.size := by
      rw [hv]
      rcases hvn with ⟨-, rfl⟩ | ⟨-, rfl⟩
      · exact S.root_lt hblt
      · exact S.root_lt halt
    obtain rfl := occurs_error (hv ▸ hS) hnode hb he
    rcases hvn with ⟨rfl, rfl⟩ | ⟨rfl, rfl⟩
    · have hended := hn₁ uf' budget hv
      rw [Run.Ended, (occurs_mono h₁ uf' budget _ _).eq_of_ended hended] at hended
      exact hended he
    · have hended := hn₂ uf' budget hv
      rw [Run.Ended, (occurs_mono h₂ uf' budget _ _).eq_of_ended hended] at hended
      exact hended he
  refine ⟨max n₁ n₂, ?_⟩
  rintro uf rfl
  have hout := unifyStep_outcome ι (max n₁ n₂) budget span stack hS halt hblt
  generalize unifyStep (max n₁ n₂) uf budget ι span a b stack = x at hout
  -- The errors of the step are excluded: a clash or a cycle would be one of the solution.
  cases hout with
  | exhausted hnot _ => exact absurd hb hnot
  | @same uf' budget' hub hsame hv =>
    refine Or.inl ⟨uf', ρ, stack, by rw [hub hb], ?_, fun _ _ => rfl, le_of_eq (by rw [hv]), ?_⟩
    · rw [hv]
      exact ⟨hS, hst.tail, hsol, fun p hp => hpairs p (by simp [hp]), hinv⟩
    · rw [hv]
      exact Prod.Lex.toLex_lt_toLex.2 (Or.inr ⟨rfl, by simp⟩)
  | @met ca cb m uf' budget' hub hne hca hcb hm _ _ hmerge =>
    obtain ⟨vs, hlen, hsol', hpairs', hw⟩ := hsol.forward hmerge hca hcb (meet_inv hm) hS hab
    have hbelow := meet_below hS hca hcb hm
    have hold : ∀ v < uf.view.size, extendBy uf.view.size ρ vs v = ρ v := fun v hv =>
      extendBy_of_lt hv
    refine Or.inl ⟨uf', extendBy uf.view.size ρ vs, m.pairs ++ stack, by rw [hub hb], ?_, hold,
      hmerge.size_le, ?_⟩
    · refine ⟨scoped_of_merge hS hbelow hmerge, inRange_of_merge hst.tail hbelow hmerge, hsol',
        fun p hp => ?_, hI.step hinv hsol hab hne hca hcb hm hS hmerge hold hsol'⟩
      rcases List.mem_append.1 hp with hp | hp
      · exact hpairs' p hp
      · obtain ⟨h₁, h₂⟩ := hst.tail p hp
        rw [hold _ h₁, hold _ h₂]
        exact hpairs p (by simp [hp])
    · exact Prod.Lex.toLex_lt_toLex.2
        (Or.inl (classWeight_lt hmerge hsol hab hne halt hblt hlen hw))
  | clash hne hca hcb hm _ =>
    exact absurd (hsol.gate hab hne hca hcb hm) (hI.gate hinv hsol hab hne hca hcb)
  | cyclic hne hca hcb hg _ _ => exact absurd (hsol.guard hab hne hca hcb hS) hg
  | full _ hca hcb hm hroom =>
    exact Or.inr ⟨rfl, (hI.room hinv hca hcb hm).resolve_left hroom⟩
  | walk _ hvn _ _ hv hub ho =>
    rw [hub hb] at ho
    exact absurd ho (hwalk (le_max_left _ _) (le_max_right _ _) hvn hv)

/-! ### Whole runs -/

/-- A run that follows the solution `ρ` of the store `S` gave the store `F`. -/
structure Follows (ι : Interner) (I : Store → (VarId → Val) → Prop) (S : Store) (ρ : VarId → Val)
    (F : Store) (ρ' : VarId → Val) : Prop where
  solved : Solved ι I F ρ' []
  agree : ∀ v < S.size, ρ' v = ρ v
  size_le : S.size ≤ F.size

/-- A state of a run that follows `ρ`, and its measure. -/
def OnCourse (ι : Interner) (I : Store → (VarId → Val) → Prop) (S : Store) (ρ : VarId → Val)
    (budget : Budget) (x : ℕ ×ₗ ℕ) (st : UnifyState) : Prop :=
  ∃ ρ', x = toLex (classWeight st.1.view ρ', st.2.2.length) ∧ Solved ι I st.1.view ρ' st.2.2 ∧
    st.2.1 = budget ∧ (∀ v < S.size, ρ' v = ρ v) ∧ S.size ≤ st.1.view.size

/-- The run ended with a store that the solution extends to, or `full` holds and the arena has no
room left. -/
def EndsWell (ι : Interner) (I : Store → (VarId → Val) → Prop) (full : Prop) (S : Store)
    (ρ : VarId → Val) (budget : Budget) {ε : Type} (bug : ε)
    (x : Run ε (UnionFind Content × Budget)) : Prop :=
  (∃ uf' ρ', x = .ok (uf', budget) ∧ Follows ι I S ρ uf'.view ρ') ∨ (x = .error (.diag bug) ∧ full)

/-- A run of the unifier over pairs that a solution makes equal succeeds. -/
theorem unify_progress (hI : Guides ι full I) {uf : UnionFind Content} (hb : budget.isUnbounded)
    (h : Solved ι I uf.view ρ [(a, b)]) (span : Span) : ∃ n,
      EndsWell ι I full uf.view ρ budget UnionFind.arenaExceeded
        (unify n uf budget ι span a b) := by
  have hmono : ∀ {n m}, n ≤ m → ∀ st, Approx (unifyRound n ι span st) (unifyRound m ι span st) :=
    fun hnm => unifyRound_mono hnm
  have hloop := loop_halts hmono wellFounded_lt
    (P := OnCourse ι I uf.view ρ budget)
    (Q := EndsWell ι I full uf.view ρ budget UnionFind.arenaExceeded)
    ?_ (s := (uf, budget, [(a, b)])) ⟨ρ, rfl, h, rfl, fun _ _ => rfl, le_rfl⟩
  · obtain ⟨n, -, hn⟩ := hloop
    exact ⟨n, hn⟩
  rintro x ⟨uf₁, budget₁, stack⟩ ⟨ρ₁, rfl, h₁, rfl, hagree, hle⟩
  cases stack with
  | nil =>
    have hround : unifyRound 0 ι span (uf₁, budget₁, []) = .ok (.inr (uf₁, budget₁)) := rfl
    refine ⟨0, fun he => ?_, fun e he => ?_, fun y hy => ?_, fun s' hs' => ?_⟩
    · cases hround.symm.trans he
    · cases hround.symm.trans he
    · cases hround.symm.trans hy
      exact Or.inl ⟨uf₁, ρ₁, rfl, h₁, hagree, hle⟩
    · cases hround.symm.trans hs'
  | cons p stack =>
    obtain ⟨c, d⟩ := p
    obtain ⟨n, hn⟩ := solved_step hI h₁ hb span
    rcases hn uf₁ rfl with ⟨uf₂, ρ₂, stack₂, hstep, h₂, hagree₂, hle₂, hlt⟩ | ⟨hstep, hfull⟩
    · have hround := unifyRound_cons hstep
      refine ⟨n, fun he => ?_, fun e he => ?_, fun y hy => ?_, fun s' hs' => ?_⟩
      · cases hround.symm.trans he
      · cases hround.symm.trans he
      · cases hround.symm.trans hy
      · cases hround.symm.trans hs'
        refine ⟨_, ⟨ρ₂, rfl, h₂, rfl, fun v hv => ?_, hle.trans hle₂⟩, hlt⟩
        rw [hagree₂ v (hv.trans_le hle), hagree v hv]
    · have hround := unifyRound_cons hstep
      refine ⟨n, fun he => ?_, fun e he => ?_, fun y hy => ?_, fun s' hs' => ?_⟩
      · cases hround.symm.trans he
      · cases hround.symm.trans he
        exact Or.inr ⟨rfl, hfull⟩
      · cases hround.symm.trans hy
      · cases hround.symm.trans hs'

theorem Follows.trans {S₁ F : Store} {ρ₁ ρ' : VarId → Val} (h : Follows ι I S ρ S₁ ρ₁)
    (h' : Follows ι I S₁ ρ₁ F ρ') : Follows ι I S ρ F ρ' :=
  ⟨h'.solved, fun v hv => (h'.agree v (hv.trans_le h.size_le)).trans (h.agree v hv),
    h.size_le.trans h'.size_le⟩

theorem EndsWell.ended {ε : Type} {bug : ε} {x : Run ε (UnionFind Content × Budget)}
    (h : EndsWell ι I full S ρ budget bug x) : x.Ended := by
  rcases h with ⟨uf', ρ', rfl, -⟩ | ⟨rfl, -⟩ <;> simp [Run.Ended]

/-- A run of the solver over equations that a solution satisfies succeeds. -/
theorem solve_progress (hI : Guides ι full I) {uf : UnionFind Content} (hb : budget.isUnbounded)
    {cs : List Constraint} (h : Solved ι I uf.view ρ (equations cs)) : ∃ n,
      EndsWell ι I full uf.view ρ budget (.program UnionFind.arenaExceeded)
        (solveAttributed n ι cs uf budget) := by
  induction cs generalizing uf ρ with
  | nil => exact ⟨0, Or.inl ⟨uf, ρ, rfl, h, fun _ _ => rfl, le_rfl⟩⟩
  | cons c cs ih =>
    have htail : ∀ p ∈ equations cs, p ∈ equations (c :: cs) := fun p hp =>
      List.mem_cons_of_mem _ hp
    have hc : Solved ι I uf.view ρ [(c.lhs, c.rhs)] := by
      refine ⟨h.scope, fun p hp => ?_, h.sol, fun p hp => ?_, h.inv⟩ <;>
        rw [List.mem_singleton.1 hp]
      · exact h.range (c.lhs, c.rhs) List.mem_cons_self
      · exact h.pairs (c.lhs, c.rhs) List.mem_cons_self
    obtain ⟨n, hn⟩ := unify_progress hI hb hc c.span
    rcases hn with ⟨uf₁, ρ₁, hu, hf₁⟩ | ⟨hu, hfull⟩
    · have hcs : Solved ι I uf₁.view ρ₁ (equations cs) := by
        refine ⟨hf₁.solved.scope, fun p hp => ?_, hf₁.solved.sol, fun p hp => ?_,
          hf₁.solved.inv⟩ <;> obtain ⟨h₁, h₂⟩ := h.range p (htail p hp)
        · exact ⟨h₁.trans_le hf₁.size_le, h₂.trans_le hf₁.size_le⟩
        · rw [hf₁.agree _ h₁, hf₁.agree _ h₂]
          exact h.pairs p (htail p hp)
      obtain ⟨k, hk⟩ := ih hcs
      refine ⟨max n k, ?_⟩
      have hu' : unify (max n k) uf budget ι c.span c.lhs c.rhs = .ok (uf₁, budget) :=
        ((unify_mono (le_max_left n k) uf budget _ _).eq_of_ended (by simp [Run.Ended, hu])).symm.trans
          hu
      have hrest : solveAttributed (max n k) ι (c :: cs) uf budget =
          solveAttributed k ι cs uf₁ budget := by
        rw [solveAttributed, unifyAt, hu']
        exact ((solveAttributed_mono (le_max_right n k) cs uf₁ budget).eq_of_ended hk.ended).symm
      rw [hrest]
      rcases hk with ⟨uf', ρ', hok, hf⟩ | hfull
      · exact Or.inl ⟨uf', ρ', hok, hf₁.trans hf⟩
      · exact Or.inr hfull
    · refine ⟨n, Or.inr ⟨?_, hfull⟩⟩
      rw [solveAttributed, unifyAt, hu]
      rfl

end IpeLang.Types
