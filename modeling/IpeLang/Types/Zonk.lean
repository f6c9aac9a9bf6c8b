import IpeLang.Types.UnionFind

/-!
# Reading a variable back

`zonk` of `types/src/constrain/zonk.rs`: a work-stack machine that reads a settled variable back
into a resolved type. A representative that was read before is taken from a cache; every other one
is charged against a node limit, so the machine ends on any store, also on a cyclic one
(`zonk_ended`).

The top of a stack is the head of its list.
-/

namespace IpeLang.Types

open IpeLang.Lib

/-- The stage named in a broken-invariant diagnostic of constraint generation. -/
def CONSTRAIN_STAGE : String := "ipe_types::constrain"

/-- The number of representatives that one read-back may visit. -/
def ZONK_NODE_LIMIT : ℕ := 4096

/-- A task of the work stack. -/
inductive ZonkTask
  | visit (v : VarId)
  | buildFun
  | buildCon (home : List Symbol) (name : Symbol) (arity : ℕ)
  | buildTuple (arity : ℕ)
  | buildRecord (names : List Symbol)
  | memoize (root : VarId)

/-- The state of the machine between two tasks. -/
structure ZonkState where
  uf : UnionFind Content
  budget : Budget
  work : List ZonkTask
  results : List Ty
  memo : SortedMap VarId Ty
  nodesLeft : ℕ

def zonkUnderflow : Diagnostic := .compilerBug CONSTRAIN_STAGE "zonk result stack underflow"

def zonkLimit : Diagnostic := .compilerBug CONSTRAIN_STAGE "type exceeded read-back node limit"

/-- Take the top `arity` results off the stack, in the order in which they were pushed. -/
def splitOff {α : Type} (bug : Diagnostic) (results : List α) (arity : ℕ) :
    DResult (List α × List α) :=
  if arity ≤ results.length then .ok ((results.take arity).reverse, results.drop arity)
  else .error (.diag bug)

/-- The tasks that read a structure back: the children from left to right, then the rebuild, then
the cache. The extension of a record is not read. -/
def zonkTasks (root : VarId) : FlatType → List ZonkTask
  | .fn a b => [.visit a, .visit b, .buildFun, .memoize root]
  | .con home name args => args.map .visit ++ [.buildCon home name args.length, .memoize root]
  | .tuple elems => elems.map .visit ++ [.buildTuple elems.length, .memoize root]
  | .record fields _ => fields.values.map .visit ++ [.buildRecord fields.keys, .memoize root]
  | .unit => []
  | .emptyRecord => []

/-- Cache and push the read-back of a leaf. -/
def ZonkState.leaf (st : ZonkState) (root : VarId) (ty : Ty) : ZonkState :=
  { st with memo := st.memo.insert root ty, results := ty :: st.results }

/-- Read the descriptor of a representative back, or schedule the tasks that will. -/
def ZonkState.read (st : ZonkState) (root : VarId) : Content → ZonkState
  | .flex | .rigid | .super _ _ => st.leaf root (.var (tagSolverVar root))
  | .struct .unit => st.leaf root .unit
  | .struct .emptyRecord => st.leaf root .unit
  | .struct flat => { st with work := zonkTasks root flat ++ st.work }

/-- Read one variable back. -/
def zonkVisit (st : ZonkState) (v : VarId) : DResult ZonkState := do
  let (root, uf) ← st.uf.find v
  let st := { st with uf }
  match st.memo.get? root with
  | some cached => .ok { st with results := cached :: st.results }
  | none =>
    if st.nodesLeft = 0 then .error (.diag zonkLimit)
    else
      let st := { st with nodesLeft := st.nodesLeft - 1 }
      let c ← st.uf.rootContent root
      .ok (st.read root c)

/-- Replace the top results by a rebuilt type. -/
def ZonkState.push (st : ZonkState) (ty : Ty) (rest : List Ty) : ZonkState :=
  { st with results := ty :: rest }

/-- One task of the machine. -/
def zonkStep (st : ZonkState) : DResult (ZonkState ⊕ (Ty × UnionFind Content × Budget)) :=
  match st.work with
  | [] =>
    match st.results with
    | [ty] => .ok (.inr (ty, st.uf, st.budget))
    | _ => .error (.diag zonkUnderflow)
  | task :: work => do
    let st := { st with work }
    match task with
    | .visit v =>
      let budget ← st.budget.tick
      let st ← zonkVisit { st with budget } v
      .ok (.inl st)
    | .memoize root =>
      match st.results with
      | ty :: _ => .ok (.inl { st with memo := st.memo.insert root ty })
      | [] => .error (.diag zonkUnderflow)
    | .buildFun =>
      match st.results with
      | b :: a :: rest => .ok (.inl (st.push (.fn a b) rest))
      | _ => .error (.diag zonkUnderflow)
    | .buildCon home name arity =>
      let (args, rest) ← splitOff zonkUnderflow st.results arity
      .ok (.inl (st.push (.con home name args) rest))
    | .buildTuple arity =>
      let (elems, rest) ← splitOff zonkUnderflow st.results arity
      .ok (.inl (st.push (.tuple elems) rest))
    | .buildRecord names =>
      let (tys, rest) ← splitOff zonkUnderflow st.results names.length
      .ok (.inl (st.push (.record (names.zip tys) .closed) rest))

/-- Read a settled variable back into a resolved type. -/
def zonk (fuel : ℕ) (uf : UnionFind Content) (budget : Budget) (v : VarId) :
    DResult (Ty × UnionFind Content × Budget) :=
  loop zonkStep fuel ⟨uf, budget, [.visit v], [], .empty, ZONK_NODE_LIMIT⟩

/-! ### Ending -/

/-- The most tasks that the structure of one class of the store is read back by. -/
def maxTasks (S : ClassStore Content) : ℕ :=
  (Finset.range S.size).sup fun v =>
    match S.desc v with
    | some (.struct flat) => (zonkTasks v flat).length
    | _ => 0

/-- The tasks that the machine can still do: those on the stack and, for each node that may still
be charged, those of its structure. -/
def ZonkState.left (st : ZonkState) : ℕ :=
  st.nodesLeft * (maxTasks st.uf.view + 1) + st.work.length

theorem length_zonkTasks (r r' : VarId) (flat : FlatType) :
    (zonkTasks r flat).length = (zonkTasks r' flat).length := by
  cases flat <;> simp [zonkTasks]

theorem length_zonkTasks_le {S : ClassStore Content} {v r : VarId} {flat : FlatType}
    (h : S.desc v = some (.struct flat)) : (zonkTasks r flat).length ≤ maxTasks S := by
  have hle := Finset.le_sup (f := fun v => match S.desc v with
    | some (.struct flat) => (zonkTasks v flat).length
    | _ => 0) (Finset.mem_range.2 (ClassStore.lt_of_desc h))
  rw [length_zonkTasks r v, maxTasks]
  simpa only [h] using hle

/-- What may go wrong while a variable is read back: neither the fuel nor the room of the arena. -/
structure ReadError (e : Stop Diagnostic) : Prop where
  ended : e ≠ .fuel
  room : e ≠ .diag UnionFind.arenaExceeded

section Errors

variable {e : Stop Diagnostic}

theorem readError_tick {b : Budget} (h : b.tick = .error e) : ReadError e := by
  rw [Budget.tick_error h]
  exact ⟨by simp, by simp [UnionFind.arenaExceeded]⟩

theorem readError_find {uf : UnionFind Content} {v : VarId} (h : uf.find v = .error e) :
    ReadError e := by
  rw [UnionFind.find_error h]
  exact ⟨by simp, fun he => UnionFind.dangling_ne_arenaExceeded v (Stop.diag.inj he)⟩

theorem readError_rootContent {uf : UnionFind Content} {v : VarId}
    (h : uf.rootContent v = .error e) : ReadError e := by
  rcases UnionFind.rootContent_error h with rfl | rfl
  · exact ⟨by simp, fun he => UnionFind.dangling_ne_arenaExceeded v (Stop.diag.inj he)⟩
  · exact ⟨by simp, by simp [UnionFind.notARoot, UnionFind.arenaExceeded]⟩

theorem readError_stage (detail : String) : ReadError (.diag (.compilerBug CONSTRAIN_STAGE detail)) :=
  ⟨by simp, by simp [CONSTRAIN_STAGE, UnionFind.arenaExceeded, UnionFind.STAGE]⟩

theorem readError_splitOff {α : Type} {results : List α} {arity : ℕ}
    (h : splitOff zonkUnderflow results arity = .error e) : ReadError e := by
  unfold splitOff at h
  split_ifs at h
  cases h
  exact readError_stage _

theorem zonkVisit_error {st : ZonkState} {v : VarId} (h : zonkVisit st v = .error e) :
    ReadError e := by
  rw [zonkVisit, Run.bind_eq_error] at h
  rcases h with h | ⟨⟨root, uf⟩, -, h⟩
  · exact readError_find h
  dsimp only at h
  split at h
  · cases h
  · split_ifs at h
    · cases h
      exact readError_stage _
    rw [Run.bind_eq_error] at h
    rcases h with h | ⟨c, -, h⟩
    · exact readError_rootContent h
    · cases h

theorem zonkStep_error {st : ZonkState} (h : zonkStep st = .error e) : ReadError e := by
  unfold zonkStep at h
  split at h
  · split at h <;> cases h
    exact readError_stage _
  · dsimp only at h
    split at h
    · simp only [Run.bind_eq_error] at h
      rcases h with h | ⟨budget, -, h | ⟨st', -, h⟩⟩
      · exact readError_tick h
      · exact zonkVisit_error h
      · cases h
    · split at h <;> cases h
      exact readError_stage _
    · split at h <;> cases h
      exact readError_stage _
    all_goals
      rw [Run.bind_eq_error] at h
      rcases h with h | ⟨⟨args, rest⟩, -, h⟩
      · exact readError_splitOff h
      · cases h

/-- A read-back never wants for room in the arena. -/
theorem zonk_error {n : ℕ} {uf : UnionFind Content} {budget : Budget} {v : VarId}
    (h : zonk n uf budget v = .error e) : e ≠ .diag UnionFind.arenaExceeded := by
  rcases loop_eq_error h with rfl | ⟨st, hst⟩
  · simp
  · exact (zonkStep_error hst).room

end Errors

/-- A visit leaves the partition alone, and what it adds to the stack is paid for by a node. -/
theorem zonkVisit_left {st st' : ZonkState} {v : VarId} (h : zonkVisit st v = .ok st') :
    st'.uf.view = st.uf.view ∧ st'.left ≤ st.left := by
  simp only [zonkVisit, Run.bind_eq_ok] at h
  obtain ⟨⟨root, uf⟩, hf, h⟩ := h
  obtain ⟨hv, rfl, hview⟩ := UnionFind.find_eq_ok hf
  dsimp only at h
  split at h
  · cases h
    exact ⟨hview, by simp [ZonkState.left, hview]⟩
  split_ifs at h with h0
  obtain ⟨c, hc, h⟩ := Run.bind_eq_ok.1 h
  obtain ⟨d, hd, hdesc⟩ := UnionFind.rootContent_spec (show v < uf.view.size from hview ▸ hv)
  rw [hview] at hd
  cases hd.symm.trans hc
  cases h
  obtain ⟨k, hk⟩ : ∃ k, st.nodesLeft = k + 1 := ⟨st.nodesLeft - 1, by omega⟩
  have hmul : (k + 1) * (maxTasks st.uf.view + 1) =
      k * (maxTasks st.uf.view + 1) + maxTasks st.uf.view + 1 := by ring
  unfold ZonkState.read
  split <;> refine ⟨hview, ?_⟩
  case h_6 flat _ _ =>
    have hlen := length_zonkTasks_le (r := st.uf.view.root v) (hview ▸ hdesc)
    simp only [ZonkState.left, hview, hk, List.length_append, Nat.add_sub_cancel]
    omega
  all_goals
    simp only [ZonkState.left, ZonkState.leaf, hview, hk, Nat.add_sub_cancel]
    omega

theorem zonkStep_left {st st' : ZonkState} (h : zonkStep st = .ok (.inl st')) :
    st'.uf.view = st.uf.view ∧ st'.left < st.left := by
  unfold zonkStep at h
  split at h
  · split at h <;> simp at h
  rename_i task work hwork
  have hleft : st.left = st.nodesLeft * (maxTasks st.uf.view + 1) + (work.length + 1) := by
    simp [ZonkState.left, hwork]
  dsimp only at h
  split at h
  · simp only [Run.bind_eq_ok] at h
    obtain ⟨budget, -, st₁, h₁, h⟩ := h
    cases h
    obtain ⟨hview, hle⟩ := zonkVisit_left h₁
    refine ⟨hview, hle.trans_lt ?_⟩
    rw [hleft]
    simp only [ZonkState.left]
    omega
  · split at h
    · cases h
      exact ⟨rfl, by rw [hleft]; simp only [ZonkState.left]; omega⟩
    · cases h
  · split at h
    · cases h
      exact ⟨rfl, by rw [hleft]; simp only [ZonkState.left, ZonkState.push]; omega⟩
    · cases h
  all_goals
    obtain ⟨⟨args, rest⟩, -, h⟩ := Run.bind_eq_ok.1 h
    cases h
    exact ⟨rfl, by rw [hleft]; simp only [ZonkState.left, ZonkState.push]; omega⟩

/-- Rounds that are enough to read any variable of the store back. -/
def zonkBound (S : ClassStore Content) : ℕ := ZONK_NODE_LIMIT * (maxTasks S + 1) + 2

/-- The read-back ends on every store. -/
theorem zonk_ended {uf : UnionFind Content} {n : ℕ} (h : zonkBound uf.view ≤ n) (budget : Budget)
    (v : VarId) : (zonk n uf budget v).Ended := by
  have key : ∀ n st, st.left < n → (loop zonkStep n st).Ended := by
    intro n
    induction n with
    | zero => exact fun st h => absurd h (Nat.not_lt_zero _)
    | succ n ih =>
      intro st hst
      rcases hs : zonkStep st with e | st' | x
      · rw [Run.Ended, loop_succ_error hs]
        simpa using (zonkStep_error hs).ended
      · rw [loop_succ_inl hs]
        exact ih st' (by have := (zonkStep_left hs).2; omega)
      · rw [Run.Ended, loop_succ_inr hs]
        simp
  refine key n _ ?_
  simp only [ZonkState.left, zonkBound, List.length_singleton] at h ⊢
  omega

theorem zonk_loop_view {n : ℕ} {st : ZonkState} {ty : Ty} {uf' : UnionFind Content}
    {budget' : Budget} (h : loop zonkStep n st = .ok (ty, uf', budget')) :
    uf'.view = st.uf.view := by
  induction n generalizing st with
  | zero => cases h
  | succ n ih =>
    rcases loop_succ_eq_ok h with hs | ⟨st', hs, h⟩
    · unfold zonkStep at hs
      split at hs
      · split at hs <;> cases hs
        rfl
      · dsimp only at hs
        split at hs
        · simp only [Run.bind_eq_ok] at hs
          obtain ⟨_, _, _, _, hs⟩ := hs
          cases hs
        · split at hs <;> cases hs
        · split at hs <;> cases hs
        all_goals
          obtain ⟨_, _, hs⟩ := Run.bind_eq_ok.1 hs
          cases hs
    · rw [ih h, (zonkStep_left hs).1]

/-- Reading back leaves the partition as it was. -/
theorem zonk_view {n : ℕ} {uf uf' : UnionFind Content} {budget budget' : Budget} {v : VarId}
    {ty : Ty} (h : zonk n uf budget v = .ok (ty, uf', budget')) : uf'.view = uf.view :=
  zonk_loop_view h

theorem zonk_mono {n m : ℕ} (h : n ≤ m) (uf : UnionFind Content) (budget : Budget) (v : VarId) :
    Approx (zonk n uf budget v) (zonk m uf budget v) :=
  loop_mono (fun _ => Approx.refl _) h _

end IpeLang.Types
