import IpeLang.Types.Fuel
import IpeLang.Types.UnifyRun

/-!
# When unification ends

Without a step budget a run ends unless an occurs walk goes round a cycle: rows mint new variables
only as long as the arena has room for them, and every other step joins two classes or drops a
pair. Merges of functions and of records do not look for cycles, so such a cycle can come up in a
run from an acyclic store (`merge_makes_cycle`).

* `NextWalks`, `NextRoom`: the walk of the next step ends, its new variables fit;
* `Decides`: a run ends with a result or with a refusal;
* `unify_ends_iff`: a run ends exactly when all walks on the way do, and decides exactly when the
  arena has room on the way, too.
-/

namespace IpeLang.Types

open IpeLang.Lib Relation

/-! ### Conditions on the next step -/

/-- When a plain variable is about to be bound to a structure, the occurs walk ends. -/
def NextWalks (S : Store) (a b : VarId) : Prop :=
  ∀ var node flat, (var = a ∧ node = b ∨ var = b ∧ node = a) → S.desc var = some .flex →
    S.desc node = some (.struct flat) → WalkDecides S (S.root var) (S.root node)

/-- When two different classes meet, the arena has room for the new variables. -/
def NextRoom (ι : Interner) (S : Store) (a b : VarId) : Prop :=
  ∀ ca cb m, ¬ S.Same a b → S.desc a = some ca → S.desc b = some cb → meet ι S ca cb = some m →
    Room S m

/-- A result, or a refusal of the pair. -/
def Decides (ι : Interner) (x : DResult (UnionFind Content × Budget)) : Prop :=
  (∃ r, x = .ok r) ∨ ∃ e n S, x = .error e ∧ e ≠ .fuel ∧ Refusal ι n S e

/-- The states that a run from `(a, b)` passes through. -/
def Reached (ι : Interner) (span : Span) (uf : UnionFind Content) (budget : Budget)
    (a b : VarId) (st : UnifyState) : Prop :=
  ∃ n, Visits (unifyRound n ι span) (uf, budget, [(a, b)]) st

section Runs

variable {ι : Interner} {n m : ℕ} {span : Span} {uf uf' : UnionFind Content}
  {budget budget' : Budget} {a b : VarId} {stack : Pending} {st st' : UnifyState}

theorem Decides.ended {x : DResult (UnionFind Content × Budget)} (h : Decides ι x) : x.Ended := by
  rcases h with ⟨r, rfl⟩ | ⟨e, n, S, rfl, he, -⟩
  · simp [Run.Ended]
  · simpa [Run.Ended] using he

theorem Decides.ne_full {x : DResult (UnionFind Content × Budget)} (h : Decides ι x) :
    x ≠ .error (.diag UnionFind.arenaExceeded) := by
  rcases h with ⟨r, rfl⟩ | ⟨e, n, S, rfl, -, hr⟩
  · simp
  · simpa using hr.raised.room

theorem Reached.next (h : Reached ι span uf budget a b st)
    (hn : unifyRound n ι span st = .ok (.inl st')) : Reached ι span uf budget a b st' := by
  obtain ⟨m, hm⟩ := h
  refine ⟨max n m, (hm.mono (unifyRound_mono (le_max_right n m))).next ?_⟩
  exact ((unifyRound_mono (le_max_left n m) st).eq_of_ended (by simp [Run.Ended, hn])).symm.trans hn

/-- What is true of every state of a run without a step budget. -/
structure InRun (budget : Budget) (st : UnifyState) : Prop where
  scope : Scoped st.1.view
  range : InRange st.1.view st.2.2
  budget : st.2.1 = budget

theorem InRun.round (hb : budget.isUnbounded) (h : InRun budget st)
    (hn : unifyRound n ι span st = .ok (.inl st')) : InRun budget st' := by
  obtain ⟨uf, budget, stack⟩ := st
  obtain ⟨hS, hst, rfl⟩ := h
  cases stack with
  | nil => cases hn
  | cons p stack =>
    obtain ⟨c, d⟩ := p
    have hp := hst (c, d) List.mem_cons_self
    have hout := unifyStep_outcome ι n budget span stack hS hp.1 hp.2
    rcases hs : unifyStep n uf budget ι span c d stack with e | st₁
    · cases (unifyRound_cons hs).symm.trans hn
    cases (unifyRound_cons hs).symm.trans hn
    rw [hs] at hout
    cases hout with
    | same hub _ hv => exact ⟨hv ▸ hS, by rw [hv]; exact hst.tail, hub hb⟩
    | met hub _ hca hcb hm _ _ hmerge =>
      have hbelow := meet_below hS hca hcb hm
      exact ⟨scoped_of_merge hS hbelow hmerge, inRange_of_merge hst.tail hbelow hmerge, hub hb⟩

theorem Reached.inRun (h : Reached ι span uf budget a b st) (hb : budget.isUnbounded)
    (hS : Scoped uf.view) (ha : a < uf.view.size) (hb' : b < uf.view.size) : InRun budget st := by
  obtain ⟨n, hn⟩ := h
  exact hn.invariant (P := InRun budget) ⟨hS, by simpa [InRange] using ⟨ha, hb'⟩, rfl⟩
    fun t u ht hu => ht.round hb hu

/-! ### Runs that end -/

/-- The measure of a state: the room that is left in the arena, the number of classes and that of
pending pairs. -/
def roundMeasure (st : UnifyState) : ℕ ×ₗ ℕ ×ₗ ℕ :=
  toLex (2 ^ 32 - st.1.view.size, toLex (st.1.view.classes.card, st.2.2.length))

/-- A merge makes the measure smaller, whatever it adds to the pending pairs. -/
theorem roundMeasure_lt {S : Store} {ca cb : Content} {m : Meet} (hv : uf.view = S)
    (hne : ¬ S.Same a b) (ha : S.desc a = some ca) (hb : S.desc b = some cb) (hroom : Room S m)
    (hmerge : S.Merge uf'.view a b m.keep m.minted) :
    roundMeasure (uf', budget', m.pairs ++ stack) < roundMeasure (uf, budget, (a, b) :: stack) := by
  have hcard := hmerge.card_classes hne (ClassStore.lt_of_desc ha) (ClassStore.lt_of_desc hb)
  have hsize := hmerge.size_eq
  subst hv
  show toLex _ < toLex _
  rw [Prod.Lex.toLex_lt_toLex]
  rcases hroom with hnone | hfits
  · right
    rw [hnone] at hcard hsize
    refine ⟨?_, ?_⟩
    · show 2 ^ 32 - uf'.view.size = 2 ^ 32 - uf.view.size
      rw [hsize, List.length_nil, Nat.add_zero]
    · show toLex _ < toLex _
      rw [Prod.Lex.toLex_lt_toLex]
      exact Or.inl (by simpa using Nat.lt_of_succ_le (le_of_eq hcard))
  · rcases hlen : m.minted.length with _ | k
    · right
      rw [hlen] at hcard hsize
      refine ⟨?_, ?_⟩
      · show 2 ^ 32 - uf'.view.size = 2 ^ 32 - uf.view.size
        rw [hsize, Nat.add_zero]
      · show toLex _ < toLex _
        rw [Prod.Lex.toLex_lt_toLex]
        exact Or.inl (by simpa using Nat.lt_of_succ_le (le_of_eq hcard))
    · left
      show 2 ^ 32 - uf'.view.size < 2 ^ 32 - uf.view.size
      rw [hlen] at hfits hsize
      omega

/-- A round of a run whose next walk ends: given enough fuel it ends, too, with a smaller state, a
refusal, or for want of room in the arena. -/
theorem round_halts (hb : budget.isUnbounded) (h : InRun budget (uf, budget, (a, b) :: stack))
    (hwalk : NextWalks uf.view a b) (span : Span) : ∃ n,
      (∃ st', unifyRound n ι span (uf, budget, (a, b) :: stack) = .ok (.inl st') ∧
        roundMeasure st' < roundMeasure (uf, budget, (a, b) :: stack)) ∨
      (∃ e, unifyRound n ι span (uf, budget, (a, b) :: stack) = .error e ∧ e ≠ .fuel ∧
        Refusal ι n uf.view e) ∨
      (unifyRound n ι span (uf, budget, (a, b) :: stack) =
        .error (.diag UnionFind.arenaExceeded) ∧ ¬ NextRoom ι uf.view a b) := by
  obtain ⟨hS, hst, -⟩ := h
  obtain ⟨halt, hblt⟩ := hst (a, b) List.mem_cons_self
  -- fuel for the walk, when there is one
  obtain ⟨n, hn, hbound⟩ : ∃ n, (∀ var node flat, (var = a ∧ node = b ∨ var = b ∧ node = a) →
      uf.view.desc var = some .flex → uf.view.desc node = some (.struct flat) → ∀ uf' budget,
        uf'.view = uf.view →
          (occurs n uf' budget (uf.view.root var) (uf.view.root node)).Ended) ∧
      zonkBound uf.view ≤ n := by
    by_cases hex : ∃ var node flat, (var = a ∧ node = b ∨ var = b ∧ node = a) ∧
        uf.view.desc var = some .flex ∧ uf.view.desc node = some (.struct flat)
    · obtain ⟨var, node, flat, hvn, hvar, hnode⟩ := hex
      obtain ⟨n, hn⟩ := occurs_halts_of_walkDecides hS
        (uf.view.root_lt (ClassStore.lt_of_desc hnode)) (hwalk var node flat hvn hvar hnode)
      refine ⟨max n (zonkBound uf.view), fun var' node' flat' hvn' hvar' hnode' uf' budget hv => ?_,
        le_max_right _ _⟩
      obtain ⟨rfl, rfl⟩ := eq_of_flex_struct hvn hvn' hvar hnode'
      have hended := hn uf' budget hv
      rwa [(occurs_mono (le_max_left n _) uf' budget _ _).eq_of_ended hended] at hended
    · exact ⟨zonkBound uf.view, fun var node flat hvn hvar hnode => absurd
        ⟨var, node, flat, hvn, hvar, hnode⟩ hex, le_rfl⟩
  refine ⟨n, ?_⟩
  have hout := unifyStep_outcome ι n budget span stack hS halt hblt
  rcases hs : unifyStep n uf budget ι span a b stack with e | st' <;>
    rw [unifyRound_cons hs] <;> rw [hs] at hout
  · right
    cases hout with
    | exhausted hnot _ => exact absurd hb hnot
    | clash _ _ _ _ href => exact Or.inl ⟨e, rfl, href.raised.ended hbound, href⟩
    | cyclic _ _ _ _ _ href => exact Or.inl ⟨e, rfl, href.raised.ended hbound, href⟩
    | full hne hca hcb hm hroom =>
      exact Or.inr ⟨rfl, fun h => hroom (h _ _ _ hne hca hcb hm)⟩
    | @walk var node flat uf' budget' _ _ hvn hvar hnode hv hub ho =>
      rw [hub hb] at ho
      have hended := hn var node flat hvn hvar hnode uf' budget hv
      have hnode' : uf.view.root node < uf'.view.size := by
        rw [hv]
        exact uf.view.root_lt (ClassStore.lt_of_desc hnode)
      obtain rfl := occurs_error (hv ▸ hS) hnode' hb ho
      exact absurd ho hended
  · refine Or.inl ⟨st', rfl, ?_⟩
    cases hout with
    | same hub _ hv =>
      show toLex _ < toLex _
      rw [hv]
      exact Prod.Lex.toLex_lt_toLex.2 (Or.inr ⟨rfl, Prod.Lex.toLex_lt_toLex.2
        (Or.inr ⟨rfl, by simp⟩)⟩)
    | met hub hne hca hcb _ _ hroom hmerge => exact roundMeasure_lt rfl hne hca hcb hroom hmerge

/-- A run all of whose walks end, ends: with a verdict, or for want of room in the arena. -/
theorem unify_halts (hS : Scoped uf.view) (ha : a < uf.view.size) (hb : b < uf.view.size)
    (hbud : budget.isUnbounded) (span : Span)
    (hwalk : ∀ st, Reached ι span uf budget a b st → NextPair NextWalks st) : ∃ n,
      Decides ι (unify n uf budget ι span a b) ∨
      (unify n uf budget ι span a b = .error (.diag UnionFind.arenaExceeded) ∧
        ∃ st, Reached ι span uf budget a b st ∧ ¬ NextPair (NextRoom ι) st) := by
  have hmono : ∀ {n m}, n ≤ m → ∀ st, Approx (unifyRound n ι span st) (unifyRound m ι span st) :=
    fun hnm => unifyRound_mono hnm
  have hloop := loop_halts hmono wellFounded_lt
    (P := fun x st => x = roundMeasure st ∧ Reached ι span uf budget a b st)
    (Q := fun x => Decides ι x ∨ (x = .error (.diag UnionFind.arenaExceeded) ∧
      ∃ st, Reached ι span uf budget a b st ∧ ¬ NextPair (NextRoom ι) st))
    ?_ (s := (uf, budget, [(a, b)])) ⟨rfl, 0, .start⟩
  · obtain ⟨n, -, hn⟩ := hloop
    exact ⟨n, hn⟩
  rintro x ⟨uf₁, budget₁, stack⟩ ⟨rfl, hreach⟩
  obtain rfl : budget₁ = budget := (hreach.inRun hbud hS ha hb).budget
  cases stack with
  | nil =>
    have hround : unifyRound 0 ι span (uf₁, budget₁, []) = .ok (.inr (uf₁, budget₁)) := rfl
    refine ⟨0, fun he => ?_, fun e he => ?_, fun y hy => Or.inl (Or.inl ⟨y, rfl⟩), fun s' hs' => ?_⟩
    · cases hround.symm.trans he
    · cases hround.symm.trans he
    · cases hround.symm.trans hs'
  | cons p stack =>
    obtain ⟨c, d⟩ := p
    have hnext := hwalk _ hreach (c, d) stack rfl
    obtain ⟨n, hn⟩ := round_halts hbud (hreach.inRun hbud hS ha hb) hnext span
    rcases hn with ⟨st', hround, hlt⟩ | ⟨e, hround, he, href⟩ | ⟨hround, hroom⟩
    · refine ⟨n, fun he => ?_, fun e he => ?_, fun y hy => ?_, fun s' hs' => ?_⟩
      · cases hround.symm.trans he
      · cases hround.symm.trans he
      · cases hround.symm.trans hy
      · cases hround.symm.trans hs'
        exact ⟨_, ⟨rfl, hreach.next hround⟩, hlt⟩
    · refine ⟨n, fun hf => ?_, fun e' he' => ?_, fun y hy => ?_, fun s' hs' => ?_⟩
      · cases hround.symm.trans hf
        exact he rfl
      · cases hround.symm.trans he'
        exact Or.inl (Or.inr ⟨e, n, _, rfl, he, href⟩)
      · cases hround.symm.trans hy
      · cases hround.symm.trans hs'
    · refine ⟨n, fun hf => ?_, fun e' he' => ?_, fun y hy => ?_, fun s' hs' => ?_⟩
      · cases hround.symm.trans hf
      · cases hround.symm.trans he'
        exact Or.inr ⟨rfl, _, hreach, fun h => hroom (h (c, d) stack rfl)⟩
      · cases hround.symm.trans hy
      · cases hround.symm.trans hs'

/-! ### Runs that do not end -/

theorem free_root_iff {S : Store} {target v : VarId} : Free S target (S.root v) ↔ Free S target v := by
  rw [Free, Free, S.root_root]

/-- A step that ended had a walk that ends. -/
theorem nextWalks_of_ended (hb : budget.isUnbounded)
    (h : InRun budget (uf, budget, (a, b) :: stack))
    (hend : (unifyStep n uf budget ι span a b stack).Ended) : NextWalks uf.view a b := by
  obtain ⟨hS, hst, -⟩ := h
  obtain ⟨halt, hblt⟩ := hst (a, b) List.mem_cons_self
  intro var node flat hvn hvar hnode
  by_contra hnot
  have hstuck : ∀ {uf₁ : UnionFind Content}, uf₁.view = uf.view →
      occurs n uf₁ budget (uf.view.root var) (uf.view.root node) = .error .fuel := fun hv => by
    refine occurs_eq_fuel (hv ▸ hS) ?_ hb (hv ▸ hnot) n
    rw [hv]
    exact uf.view.root_lt (ClassStore.lt_of_desc hnode)
  have hmeet : ∀ {ca cb}, uf.view.desc a = some ca → uf.view.desc b = some cb →
      meet ι uf.view ca cb = some ⟨.struct flat, [], []⟩ ∧
        (Guard uf.view a b ca cb → WalkDecides uf.view (uf.view.root var) (uf.view.root node)) := by
    intro ca cb hca hcb
    rcases hvn with ⟨rfl, rfl⟩ | ⟨rfl, rfl⟩
    · cases hvar.symm.trans hca
      cases hnode.symm.trans hcb
      exact ⟨rfl, fun hg => Or.inl (free_root_iff.2 hg)⟩
    · cases hvar.symm.trans hcb
      cases hnode.symm.trans hca
      exact ⟨rfl, fun hg => Or.inl (free_root_iff.2 hg)⟩
  have hout := unifyStep_outcome ι n budget span stack hS halt hblt
  generalize unifyStep n uf budget ι span a b stack = x at hend hout
  cases hout with
  | exhausted hne _ => exact hne hb
  | same _ hsame _ =>
    rcases hvn with ⟨rfl, rfl⟩ | ⟨rfl, rfl⟩
    · simp [hsame.desc_eq, hnode] at hvar
    · simp [hsame.symm.desc_eq, hnode] at hvar
  | met _ _ hca hcb _ hg _ _ => exact hnot ((hmeet hca hcb).2 hg)
  | clash _ hca hcb hm _ => cases hm.symm.trans (hmeet hca hcb).1
  | cyclic _ _ _ _ hwalked _ =>
    obtain ⟨uf₁, r, hv, ho⟩ := hwalked hb var node flat hvn hvar hnode
    cases (hstuck hv).symm.trans ho
  | full _ hca hcb hm hroom =>
    cases hm.symm.trans (hmeet hca hcb).1
    exact hroom (Or.inl rfl)
  | walk _ hvn' hvar' hnode' hv hub ho =>
    obtain ⟨rfl, rfl⟩ := eq_of_flex_struct hvn hvn' hvar hnode'
    rw [hub hb] at ho
    cases (hstuck hv).symm.trans ho
    exact hend rfl

/-- Only records mint variables. -/
theorem guard_of_minted {S : Store} {ca cb : Content} {m : Meet} (hm : meet ι S ca cb = some m)
    (hmint : m.minted ≠ []) : Guard S a b ca cb := by
  cases meet_inv hm with
  | flat hf =>
    cases hf with
    | record _ _ => exact fun c hc => by simp [guardedChildren] at hc
    | _ => exact absurd rfl hmint
  | _ => exact absurd rfl hmint

theorem not_flex_of_minted {S : Store} {ca cb : Content} {m : Meet} (hm : meet ι S ca cb = some m)
    (hmint : m.minted ≠ []) : ca ≠ .flex ∧ cb ≠ .flex := by
  cases meet_inv hm with
  | flat _ => exact ⟨by simp, by simp⟩
  | _ => exact absurd rfl hmint

/-- A step without room for its new variables fails. -/
theorem step_of_not_nextRoom (hb : budget.isUnbounded)
    (h : InRun budget (uf, budget, (a, b) :: stack)) (hroom : ¬ NextRoom ι uf.view a b) (n : ℕ)
    (span : Span) :
    unifyStep n uf budget ι span a b stack = .error (.diag UnionFind.arenaExceeded) := by
  obtain ⟨hS, hst, -⟩ := h
  obtain ⟨halt, hblt⟩ := hst (a, b) List.mem_cons_self
  unfold NextRoom at hroom
  push Not at hroom
  obtain ⟨ca, cb, m, hne, hca, hcb, hm, hroom⟩ := hroom
  have hmint : m.minted ≠ [] := fun hnil => hroom (Or.inl hnil)
  have hout := unifyStep_outcome ι n budget span stack hS halt hblt
  generalize unifyStep n uf budget ι span a b stack = x at hout
  cases hout with
  | exhausted hnot _ => exact absurd hb hnot
  | same _ hsame _ => exact absurd hsame hne
  | met _ _ hca' hcb' hm' _ hroom' _ =>
    cases hca.symm.trans hca'
    cases hcb.symm.trans hcb'
    cases hm.symm.trans hm'
    exact absurd hroom' hroom
  | clash _ hca' hcb' hm' _ =>
    cases hca.symm.trans hca'
    cases hcb.symm.trans hcb'
    cases hm.symm.trans hm'
  | cyclic _ hca' hcb' hg _ _ =>
    cases hca.symm.trans hca'
    cases hcb.symm.trans hcb'
    exact absurd (guard_of_minted hm hmint) hg
  | full _ _ _ _ _ => rfl
  | walk _ hvn hvar _ _ _ _ =>
    obtain ⟨h₁, h₂⟩ := not_flex_of_minted hm hmint
    rcases hvn with ⟨rfl, -⟩ | ⟨rfl, -⟩
    · cases hvar.symm.trans hca
      exact absurd rfl h₁
    · cases hvar.symm.trans hcb
      exact absurd rfl h₂

/-- An error of a round of a run is the outcome of the run. -/
theorem Reached.eq_error (h : Reached ι span uf budget a b st) {e : Stop Diagnostic} {n₀ : ℕ}
    (hend : (unify n₀ uf budget ι span a b).Ended) (he : e ≠ .fuel)
    (hround : ∀ n, unifyRound n ι span st = .error e) :
    unify n₀ uf budget ι span a b = .error e := by
  obtain ⟨n, hn⟩ := h
  obtain ⟨k, hk⟩ := hn.loop_eq
  have hloop : loop (unifyRound n ι span) (1 + k) (uf, budget, [(a, b)]) = .error e := by
    rw [hk, loop_succ_error (hround n)]
  have hle : Approx (loop (unifyRound n ι span) (1 + k) (uf, budget, [(a, b)]))
      (unify (max n (1 + k)) uf budget ι span a b) :=
    loop_mono (unifyRound_mono (le_max_left _ _)) (le_max_right _ _) _
  have hmax := (hle.eq_of_ended (by simpa [Run.Ended, hloop] using he)).symm.trans hloop
  exact (unify_unique hend (by simpa [Run.Ended, hmax] using he)).trans hmax

/-- A round of a run that ended has ended. -/
theorem Reached.ended (h : Reached ι span uf budget a b st) {n₀ : ℕ}
    (hend : (unify n₀ uf budget ι span a b).Ended) : ∃ n, (unifyRound n ι span st).Ended := by
  obtain ⟨n, hn⟩ := h
  refine ⟨max n₀ n, loop_ended_of_visits (n := max n₀ n) ?_
    (hn.mono (unifyRound_mono (le_max_right n₀ n)))⟩
  have heq := (@unify_mono ι n₀ (max n₀ n) span (le_max_left n₀ n) uf budget a b).eq_of_ended hend
  show (unify (max n₀ n) uf budget ι span a b).Ended
  rw [← heq]
  exact hend

/-- The walks of a run that ended, end. -/
theorem Reached.nextWalks (h : Reached ι span uf budget a b st) (hS : Scoped uf.view)
    (ha : a < uf.view.size) (hb : b < uf.view.size) (hbud : budget.isUnbounded) {n₀ : ℕ}
    (hend : (unify n₀ uf budget ι span a b).Ended) : NextPair NextWalks st := by
  obtain ⟨uf₁, budget₁, stack₁⟩ := st
  rintro ⟨c, d⟩ stack hstack
  obtain rfl : stack₁ = (c, d) :: stack := hstack
  have hrun := h.inRun hbud hS ha hb
  obtain rfl : budget₁ = budget := hrun.budget
  obtain ⟨n, hn⟩ := h.ended hend
  refine @nextWalks_of_ended ι n span _ _ _ _ _ hbud hrun fun he => hn ?_
  rw [unifyRound_cons he]
  rfl

/-- Without a step budget, a run ends exactly when every occurs walk on the way does, and gives a
verdict exactly when the arena has room for the new variables on the way, too. -/
theorem unify_ends_iff (hS : Scoped uf.view) (ha : a < uf.view.size) (hb : b < uf.view.size)
    (hbud : budget.isUnbounded) (span : Span) :
    ((∃ n, (unify n uf budget ι span a b).Ended) ↔
      ∀ st, Reached ι span uf budget a b st → NextPair NextWalks st) ∧
    ((∃ n, Decides ι (unify n uf budget ι span a b)) ↔
      ∀ st, Reached ι span uf budget a b st →
        NextPair (fun S c d => NextWalks S c d ∧ NextRoom ι S c d) st) := by
  refine ⟨⟨?_, fun h => ?_⟩, ⟨?_, fun h => ?_⟩⟩
  · rintro ⟨n, hend⟩ st hreach
    exact hreach.nextWalks hS ha hb hbud hend
  · obtain ⟨n, hdec | ⟨hfull, -⟩⟩ := unify_halts hS ha hb hbud span h
    · exact ⟨n, hdec.ended⟩
    · exact ⟨n, Run.ended_of_diag hfull⟩
  · rintro ⟨n, hdec⟩ ⟨uf₁, budget₁, stack₁⟩ hreach ⟨c, d⟩ stack hstack
    refine ⟨hreach.nextWalks hS ha hb hbud hdec.ended (c, d) stack hstack, ?_⟩
    obtain rfl : stack₁ = (c, d) :: stack := hstack
    have hrun := hreach.inRun hbud hS ha hb
    obtain rfl : budget₁ = budget := hrun.budget
    by_contra hroom
    refine hdec.ne_full (hreach.eq_error hdec.ended (by simp) fun m => ?_)
    rw [unifyRound_cons (step_of_not_nextRoom hbud hrun hroom m span)]
    rfl
  · obtain ⟨n, hdec | ⟨-, st, hreach, hroom⟩⟩ := unify_halts hS ha hb hbud span
      fun st hst p stack hp => (h st hst p stack hp).1
    · exact ⟨n, hdec⟩
    · exact absurd (fun p stack hp => (h st hreach p stack hp).2) hroom

end Runs

/-! ### A cycle on the way -/

/-- A function and its argument, which is a function, too. -/
def funStore : UnionFind Content :=
  .ofContents [.struct (.fn 1 2), .struct (.fn 3 4), .flex, .flex, .flex]

theorem child_funStore {r v : VarId} (h : Child funStore.view r v) : v < r ∧ r < 5 := by
  obtain ⟨d, hd, c, hc, rfl⟩ := h
  rw [funStore, UnionFind.ofContents_desc] at hd
  rw [funStore, UnionFind.ofContents_root]
  rcases v with _ | _ | _ | _ | _ | v <;> cases hd
  · rcases List.mem_pair.1 hc with rfl | rfl <;> decide
  · rcases List.mem_pair.1 hc with rfl | rfl <;> decide
  all_goals cases hc

theorem acyclic_funStore : Acyclic funStore.view := by
  intro r hr
  have hlt : ∀ {c v : VarId}, TransGen (Child funStore.view) c v → v < c := by
    intro c v h
    induction h with
    | single h => exact (child_funStore h).1
    | tail _ h ih => exact (child_funStore h).1.trans ih
  exact lt_irrefl r (hlt hr)

theorem scoped_funStore : Scoped funStore.view := by
  intro v d hd c hc
  have h := (child_funStore (child_of_mem hd hc)).2
  rw [funStore, UnionFind.ofContents_root] at h
  exact h

/-- A function is unified with its own argument. The merge makes it its own argument, and the occurs
walk for the argument of the argument goes round and round, whatever the fuel. -/
theorem merge_makes_cycle : Scoped funStore.view ∧ Acyclic funStore.view ∧
    ∀ n, unify n funStore .unbounded ⟨[]⟩ .dummy 0 1 = .error .fuel := by
  refine ⟨scoped_funStore, acyclic_funStore, fun n => ?_⟩
  -- the store after the merge, with its two pending pairs
  obtain ⟨uf', hstep, h₀, h₁, h₂, hflex, hroot⟩ : ∃ uf',
      (∀ n, unifyRound n ⟨[]⟩ .dummy (funStore, .unbounded, [(0, 1)]) =
        .ok (.inl (uf', .unbounded, [(1, 3), (2, 4)]))) ∧
      uf'.view.desc 0 = some (.struct (.fn 1 2)) ∧ uf'.view.desc 1 = some (.struct (.fn 1 2)) ∧
      uf'.view.desc 2 = some .flex ∧ uf'.view.desc 3 = some .flex ∧
      uf'.view.root 0 = 0 ∧ uf'.view.root 1 = 0 ∧ uf'.view.root 2 = 2 ∧ uf'.view.root 3 = 3 :=
    ⟨_, fun _ => rfl, rfl, rfl, rfl, rfl, rfl, rfl, rfl, rfl⟩
  obtain ⟨hr₀, hr₁, hr₂, hr₃⟩ := hroot
  have hhit : ∀ v, Hit uf'.view 3 v → ¬ v < 3 := by
    intro v h
    induction h with
    | @here v heq =>
      intro hlt
      rcases v with _ | _ | _ | v
      · cases hr₀.symm.trans heq
      · cases hr₁.symm.trans heq
      · cases hr₂.symm.trans heq
      · exact absurd hlt (Nat.not_lt.2 (Nat.le_add_left 3 v))
    | @deeper v d pre c post hd hkids _ _ ih =>
      intro hlt
      have hc : c ∈ d.children := by
        rw [← List.mem_reverse, hkids]
        simp
      rcases v with _ | _ | _ | v
      · cases h₀.symm.trans hd
        rcases List.mem_pair.1 hc with rfl | rfl <;> exact ih (by decide)
      · cases h₁.symm.trans hd
        rcases List.mem_pair.1 hc with rfl | rfl <;> exact ih (by decide)
      · cases h₂.symm.trans hd
        cases hc
      · exact absurd hlt (Nat.not_lt.2 (Nat.le_add_left 3 v))
  have hwalk : ¬ NextPair NextWalks (uf', .unbounded, [(1, 3), (2, 4)]) := by
    intro h
    have hdec := h (1, 3) [(2, 4)] rfl 3 1 _ (Or.inr ⟨rfl, rfl⟩) hflex h₁
    rw [hr₁, hr₃] at hdec
    rcases hdec with hfree | hh
    · have hself : Child uf'.view 0 0 := ⟨_, h₀, 1, by decide, hr₁⟩
      rw [Free, hr₀] at hfree
      exact not_transGen_of_acc hfree.1 (.single hself)
    · exact hhit 0 hh (by decide)
  by_contra hend
  have hreach : Reached ⟨[]⟩ .dummy funStore .unbounded 0 1 (uf', .unbounded, [(1, 3), (2, 4)]) :=
    ⟨0, .next .start (hstep 0)⟩
  exact hwalk (hreach.nextWalks scoped_funStore (by decide) (by decide) rfl hend)

/-- A variable and the unit type. -/
def bindStore : UnionFind Content := .ofContents [.flex, .struct .unit]

/-- A variable is bound to a type: the run ends, so every walk on its way does. -/
theorem bind_ends : Scoped bindStore.view ∧
    ∀ st, Reached ⟨[]⟩ .dummy bindStore .unbounded 0 1 st → NextPair NextWalks st := by
  have hS : Scoped bindStore.view := by
    intro v d hd c hc
    rw [bindStore, UnionFind.ofContents_desc] at hd
    rcases v with _ | _ | v <;> cases hd <;> cases hc
  have hok : ∃ r, unify 5 bindStore .unbounded ⟨[]⟩ .dummy 0 1 = .ok r := ⟨_, rfl⟩
  obtain ⟨r, hok⟩ := hok
  exact ⟨hS, (unify_ends_iff hS (by decide) (by decide) rfl .dummy).1.1 ⟨5, Run.ended_of_ok hok⟩⟩

end IpeLang.Types
