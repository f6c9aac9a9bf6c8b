import IpeLang.Exhaust.Pattern

/-!
# Usefulness

`useful` of `types/src/exhaust.rs`: the values that a row of patterns matches and no row of a matrix.

* `specialise`, `default_matrix`: the rows that are left below a head, and below all other heads;
* `complete_signature`, `missing_heads`: what a column says of the constructors of its type;
* `useful`: at most `cap` rows of patterns whose values are missed;
* `useful_ended`, `useful_error`, `useful_length_le`: the recursion ends, only the budget stops it, and it
  keeps to `cap`.
-/

namespace IpeLang.Exhaust

open IpeLang.Types (Symbol Span)
open Lib (Str Pat Tree Run)

/-! ### Matrices -/

/-- What a row says of the arguments of a head. -/
def specialiseRow (sigs : Sigs) (c : Head) : Row → Option Row
  | [] => none
  | .Ctor head args :: rest => if head = c then some (args ++ rest) else none
  | .Wild :: rest => some (List.replicate (sigs.arity c) .Wild ++ rest)

def specialise (sigs : Sigs) (matrix : Matrix) (c : Head) : Matrix := matrix.filterMap (specialiseRow sigs c)

/-- What a row says of a value with none of the heads of the column. -/
def defaultRow : Row → Option Row
  | .Wild :: rest => some rest
  | _ => none

def default_matrix (matrix : Matrix) : Matrix := matrix.filterMap defaultRow

/-- The head of the first pattern of a row. -/
def rowHead : Row → Option Head
  | .Ctor head _ :: _ => some head
  | _ => none

/-- The heads of the first column, each once. -/
def column_heads (matrix : Matrix) : List Head :=
  (matrix.filterMap rowHead).foldl (fun seen head => if head ∈ seen then seen else seen ++ [head]) []

/-- The names of the constructors of unions among some heads. -/
def adtNames (roots : List Head) : List Symbol :=
  roots.filterMap fun
    | .Adt _ name => some name
    | _ => none

/-- All heads of the type of a column with their numbers of arguments, if the column has them all. -/
def complete_signature (sigs : Sigs) (roots : List Head) : Option (List (Head × ℕ)) :=
  match roots.head? with
  | none => none
  | some (.Tuple n) => some [(.Tuple n, n)]
  | some (.Bool _) =>
    if .Bool true ∈ roots ∧ .Bool false ∈ roots then some [(.Bool true, 0), (.Bool false, 0)] else none
  | some (.Int _) => none
  | some (.Char _) => none
  | some (.Str _) => none
  | some .Nil => if .Nil ∈ roots ∧ .Cons ∈ roots then some [(.Nil, 0), (.Cons, 2)] else none
  | some .Cons => if .Nil ∈ roots ∧ .Cons ∈ roots then some [(.Nil, 0), (.Cons, 2)] else none
  | some (.Adt h c) =>
    match sigs.unionOf h c with
    | none => none
    | some (uhome, all) =>
      if all.all fun c => (adtNames roots).contains c.1 then some (all.map fun c => (.Adt uhome c.1, c.2))
      else none

/-- A wildcard where nothing is missing. -/
def orWild (out : List UPat) : List UPat := if out.isEmpty then [.Wild] else out

/-- What a column misses. -/
def missing_heads (sigs : Sigs) (roots : List Head) : List UPat :=
  match roots.head? with
  | some (.Bool _) =>
    orWild ((if .Bool true ∈ roots then [] else [.Ctor (.Bool true) []]) ++
      if .Bool false ∈ roots then [] else [.Ctor (.Bool false) []])
  | some (.Adt h c) =>
    match sigs.unionOf h c with
    | none => [.Wild]
    | some (uhome, all) =>
      orWild ((all.filter fun c => !(adtNames roots).contains c.1).map fun c =>
        .Ctor (.Adt uhome c.1) (List.replicate c.2 .Wild))
  | some .Nil =>
    orWild ((if .Nil ∈ roots then [] else [.Ctor .Nil []]) ++
      if .Cons ∈ roots then [] else [.Ctor .Cons [.Wild, .Wild]])
  | some .Cons =>
    orWild ((if .Nil ∈ roots then [] else [.Ctor .Nil []]) ++
      if .Cons ∈ roots then [] else [.Ctor .Cons [.Wild, .Wild]])
  | some (.Int _) => [.Wild]
  | some (.Char _) => [.Wild]
  | some (.Str _) => [.Wild]
  | some (.Tuple _) => [.Wild]
  | none => [.Wild]

/-- Put the arguments of a head back under it. -/
def rebuild (head : Head) (arity : ℕ) (w : Row) : Row := .Ctor head (w.take arity) :: w.drop arity

/-! ### The recursion -/

/-- What is missed below each of some heads in turn. -/
def usefulHeads (use : Matrix → Row → ℕ → ExhaustBudget → DResult (List Row × ExhaustBudget)) (sigs : Sigs)
    (matrix : Matrix) (rest_q : Row) (cap : ℕ) :
    List (Head × ℕ) → List Row → ExhaustBudget → DResult (List Row × ExhaustBudget)
  | [], out, budget => .ok (out, budget)
  | (head, arity) :: signature, out, budget =>
    if cap < out.length then .error (.diag .CapUnderflow)
    else do
      let (ws, budget) ← use (specialise sigs matrix head) (List.replicate arity .Wild ++ rest_q)
        (cap - out.length) budget
      let out := (out ++ ws.map (rebuild head arity)).take cap
      if cap ≤ out.length then .ok (out, budget)
      else usefulHeads use sigs matrix rest_q cap signature out budget

/-- Every head before every tail. -/
def headsTimes (heads : List UPat) (tails : List Row) : List Row :=
  heads.flatMap fun head => tails.map fun tail => head :: tail

/-- The empty row, if there is no row that has it already. -/
def emptyWitness (matrix : Matrix) : List Row := if matrix.isEmpty then [[]] else []

/-- The heads that a column misses before the tails that are missed, at most `cap` rows. -/
def missedRows (heads : List UPat) (tails : List Row) (cap : ℕ) : List Row :=
  if tails.isEmpty then [] else (headsTimes heads tails).take cap

def usefulFuel (sigs : Sigs) : ℕ → Matrix → Row → ℕ → ExhaustBudget → DResult (List Row × ExhaustBudget)
  | 0, _, _, _, _ => .error .fuel
  | fuel + 1, matrix, q, cap, budget => do
    let budget ← budget.charge 1
    if cap = 0 then .ok ([], budget)
    else
      match q with
      | [] => .ok (emptyWitness matrix, budget)
      | .Ctor c args :: rest_q => do
        let (ws, budget) ← usefulFuel sigs fuel (specialise sigs matrix c) (args ++ rest_q) cap budget
        .ok (ws.map (rebuild c (sigs.arity c)), budget)
      | .Wild :: rest_q =>
        match complete_signature sigs (column_heads matrix) with
        | some signature => usefulHeads (usefulFuel sigs fuel) sigs matrix rest_q cap signature [] budget
        | none => do
          let (tails, budget) ← usefulFuel sigs fuel (default_matrix matrix) rest_q cap budget
          .ok (missedRows (missing_heads sigs (column_heads matrix)) tails cap, budget)

/-- The most arguments of a constructor of the type that a head belongs to. -/
def widest (sigs : Sigs) : Head → ℕ
  | .Tuple n => n
  | .Nil => 2
  | .Cons => 2
  | .Adt h c => (((sigs.unionOf h c).map Prod.snd).getD []).foldr (fun c most => max c.2 most) 0
  | _ => 0

mutual

/-- The columns that the heads of a pattern can still open. -/
def weight (sigs : Sigs) : UPat → ℕ
  | .Wild => 0
  | .Ctor h args => 1 + max args.length (widest sigs h) + weightAll sigs args

def weightAll (sigs : Sigs) : Row → ℕ
  | [] => 0
  | p :: ps => weight sigs p + weightAll sigs ps

end

def matrixWeight (sigs : Sigs) (matrix : Matrix) : ℕ := (matrix.map (weightAll sigs)).sum

/-- A bound of the depth of the recursion. -/
def depthBound (sigs : Sigs) (matrix : Matrix) (q : Row) : ℕ := matrixWeight sigs matrix + weightAll sigs q + q.length

/-- Rows of patterns that `q` matches and no row of the matrix, at most `cap` of them. -/
def useful (sigs : Sigs) (matrix : Matrix) (q : Row) (cap : ℕ) (budget : ExhaustBudget) :
    DResult (List Row × ExhaustBudget) :=
  usefulFuel sigs (depthBound sigs matrix q + 1) matrix q cap budget

/-! ### Columns -/

theorem mem_foldl_seen {heads seen : List Head} {head : Head} :
    head ∈ heads.foldl (fun seen head => if head ∈ seen then seen else seen ++ [head]) seen ↔
      head ∈ seen ∨ head ∈ heads := by
  induction heads generalizing seen with
  | nil => simp
  | cons h heads ih =>
    rw [List.foldl_cons, ih, List.mem_cons]
    split_ifs with hmem
    · constructor
      · tauto
      · rintro (h' | rfl | h')
        · exact .inl h'
        · exact .inl hmem
        · exact .inr h'
    · rw [List.mem_append, List.mem_singleton]
      tauto

theorem mem_column_heads {matrix : Matrix} {head : Head} :
    head ∈ column_heads matrix ↔ ∃ args rest, .Ctor head args :: rest ∈ matrix := by
  rw [column_heads, mem_foldl_seen, List.mem_filterMap]
  constructor
  · rintro (h | ⟨row, hrow, hhead⟩)
    · cases h
    · rcases row with _ | ⟨_ | ⟨head', args⟩, rest⟩
      · cases hhead
      · cases hhead
      · cases hhead
        exact ⟨args, rest, hrow⟩
  · rintro ⟨args, rest, hrow⟩
    exact .inr ⟨_, hrow, rfl⟩

/-- A complete column has a head, and no constructor of its type is wider than that says. -/
theorem complete_signature_widest {sigs : Sigs} {roots : List Head} {signature : List (Head × ℕ)}
    (h : complete_signature sigs roots = some signature) :
    ∃ root ∈ roots, ∀ c ∈ signature, c.2 ≤ widest sigs root := by
  unfold complete_signature at h
  cases hroots : roots.head? with
  | none =>
    rw [hroots] at h
    cases h
  | some root =>
    have hmem : root ∈ roots := List.mem_of_head? hroots
    refine ⟨root, hmem, fun c hc => ?_⟩
    rw [hroots] at h
    cases root with
    | Tuple n =>
      cases h
      rw [List.mem_singleton.1 hc]
      exact le_rfl
    | Bool b =>
      simp only at h
      split_ifs at h
      cases h
      simp only [List.mem_cons, List.not_mem_nil, or_false] at hc
      rcases hc with rfl | rfl <;> exact Nat.zero_le _
    | Int n => cases h
    | Char c => cases h
    | Str s => cases h
    | Nil =>
      simp only at h
      split_ifs at h
      cases h
      simp only [List.mem_cons, List.not_mem_nil, or_false] at hc
      rcases hc with rfl | rfl
      · exact Nat.zero_le _
      · exact le_rfl
    | Cons =>
      simp only at h
      split_ifs at h
      cases h
      simp only [List.mem_cons, List.not_mem_nil, or_false] at hc
      rcases hc with rfl | rfl
      · exact Nat.zero_le _
      · exact le_rfl
    | Adt home name =>
      simp only at h
      cases hunion : sigs.unionOf home name with
      | none =>
        rw [hunion] at h
        cases h
      | some u =>
        obtain ⟨uhome, all⟩ := u
        rw [hunion] at h
        simp only at h
        split_ifs at h with hall
        cases h
        obtain ⟨c', hc', rfl⟩ := List.mem_map.1 hc
        simp only [widest, hunion, Option.map_some, Option.getD_some]
        clear hc hunion hall
        induction all with
        | nil => cases hc'
        | cons a all ih =>
          rcases List.mem_cons.1 hc' with rfl | hc'
          · exact le_max_left _ _
          · exact (ih hc').trans (le_max_right _ _)

/-! ### The recursion ends -/

section Ends

variable {sigs : Sigs}

@[simp] theorem weightAll_append (ps qs : Row) : weightAll sigs (ps ++ qs) = weightAll sigs ps + weightAll sigs qs := by
  induction ps with
  | nil => rw [List.nil_append, weightAll, Nat.zero_add]
  | cons p ps ih => rw [List.cons_append, weightAll, weightAll, ih, Nat.add_assoc]

@[simp] theorem weightAll_wilds (n : ℕ) : weightAll sigs (List.replicate n .Wild) = 0 := by
  induction n with
  | zero => rfl
  | succ n ih => rw [List.replicate_succ, weightAll, ih, weight]

theorem weightAll_specialiseRow {c : Head} {row row' : Row} (h : specialiseRow sigs c row = some row') :
    weightAll sigs row' ≤ weightAll sigs row := by
  rcases row with _ | ⟨_ | ⟨head, args⟩, rest⟩
  · cases h
  · cases h
    simp [weightAll, weight]
  · simp only [specialiseRow] at h
    split_ifs at h
    cases h
    simp only [weightAll_append, weightAll, weight]
    omega

theorem matrixWeight_filterMap_le {f : Row → Option Row} {matrix : Matrix}
    (hf : ∀ row row', f row = some row' → weightAll sigs row' ≤ weightAll sigs row) :
    matrixWeight sigs (matrix.filterMap f) ≤ matrixWeight sigs matrix := by
  unfold matrixWeight
  induction matrix with
  | nil => simp
  | cons row matrix ih =>
    rw [List.filterMap_cons]
    cases hrow : f row with
    | none => simp only [List.map_cons, List.sum_cons]; omega
    | some row' =>
      have hle := hf row row' hrow
      simp only [List.map_cons, List.sum_cons]
      omega

theorem matrixWeight_specialise_le (matrix : Matrix) (c : Head) :
    matrixWeight sigs (specialise sigs matrix c) ≤ matrixWeight sigs matrix :=
  matrixWeight_filterMap_le fun _ _ => weightAll_specialiseRow

theorem matrixWeight_default_le (matrix : Matrix) :
    matrixWeight sigs (default_matrix matrix) ≤ matrixWeight sigs matrix := by
  refine matrixWeight_filterMap_le fun row row' h => ?_
  rcases row with _ | ⟨_ | ⟨head, args⟩, rest⟩
  · cases h
  · cases h
    simp [weightAll, weight]
  · cases h

/-- A column loses its heads. -/
theorem matrixWeight_specialise_lt {matrix : Matrix} {root : Head} (h : root ∈ column_heads matrix) (c : Head) :
    matrixWeight sigs (specialise sigs matrix c) + 1 + widest sigs root ≤ matrixWeight sigs matrix := by
  obtain ⟨args, rest, hrow⟩ := mem_column_heads.1 h
  obtain ⟨before, after, rfl⟩ := List.append_of_mem hrow
  have hbefore : matrixWeight sigs (specialise sigs before c) ≤ matrixWeight sigs before :=
    matrixWeight_specialise_le before c
  have hafter : matrixWeight sigs (specialise sigs after c) ≤ matrixWeight sigs after :=
    matrixWeight_specialise_le after c
  have hsplit : matrixWeight sigs (before ++ (.Ctor root args :: rest) :: after) =
      matrixWeight sigs before + (weightAll sigs (.Ctor root args :: rest) + matrixWeight sigs after) := by
    simp [matrixWeight]
  have hhead : weightAll sigs (.Ctor root args :: rest) =
      1 + max args.length (widest sigs root) + weightAll sigs (args ++ rest) := by
    rw [weightAll, weight, weightAll_append]
    omega
  have hspecialise : matrixWeight sigs (specialise sigs (before ++ (.Ctor root args :: rest) :: after) c) ≤
      matrixWeight sigs (specialise sigs before c) +
        (weightAll sigs (args ++ rest) + matrixWeight sigs (specialise sigs after c)) := by
    unfold specialise matrixWeight
    rw [List.filterMap_append, List.filterMap_cons, specialiseRow]
    split_ifs <;> simp
  have hmax := le_max_right args.length (widest sigs root)
  omega

theorem usefulHeads_ended {use : Matrix → Row → ℕ → ExhaustBudget → DResult (List Row × ExhaustBudget)}
    {matrix : Matrix} {rest_q : Row} {cap : ℕ} {signature : List (Head × ℕ)}
    (huse : ∀ c ∈ signature, ∀ cap budget,
      (use (specialise sigs matrix c.1) (List.replicate c.2 .Wild ++ rest_q) cap budget).Ended)
    (out : List Row) (budget : ExhaustBudget) :
    (usefulHeads use sigs matrix rest_q cap signature out budget).Ended := by
  induction signature generalizing out budget with
  | nil => exact Run.ended_of_ok rfl
  | cons c signature ih =>
    obtain ⟨head, arity⟩ := c
    obtain ⟨hhead, hsignature⟩ := List.forall_mem_cons.1 huse
    unfold usefulHeads
    split_ifs
    · exact Run.ended_of_diag rfl
    · intro herror
      rcases Run.bind_eq_error.1 herror with h | ⟨⟨ws, budget'⟩, -, h⟩
      · exact hhead _ _ h
      · simp only at h
        split_ifs at h
        exact ih hsignature _ _ h

theorem usefulFuel_ended {fuel : ℕ} {matrix : Matrix} {q : Row} (hfuel : depthBound sigs matrix q < fuel) (cap : ℕ)
    (budget : ExhaustBudget) : (usefulFuel sigs fuel matrix q cap budget).Ended := by
  induction fuel generalizing matrix q cap budget with
  | zero => exact absurd hfuel (Nat.not_lt_zero _)
  | succ fuel ih =>
    unfold depthBound at hfuel ih
    unfold usefulFuel
    intro herror
    rcases Run.bind_eq_error.1 herror with h | ⟨budget', -, h⟩
    · cases ExhaustBudget.charge_error h
    · split_ifs at h
      rcases q with _ | ⟨_ | ⟨c, args⟩, rest_q⟩
      · cases h
      · simp only at h
        have hwild : weightAll sigs (.Wild :: rest_q) = weightAll sigs rest_q := by
          rw [weightAll, weight, Nat.zero_add]
        rw [hwild, List.length_cons] at hfuel
        cases hsig : complete_signature sigs (column_heads matrix) with
        | some signature =>
          rw [hsig] at h
          obtain ⟨root, hroot, hwidest⟩ := complete_signature_widest hsig
          refine usefulHeads_ended (fun c hc cap budget => ih ?_ cap budget) _ _ h
          have hlt : matrixWeight sigs (specialise sigs matrix c.1) + 1 + widest sigs root ≤ matrixWeight sigs matrix :=
            matrixWeight_specialise_lt hroot c.1
          have hle := hwidest c hc
          simp only [weightAll_append, weightAll_wilds, List.length_append, List.length_replicate]
          omega
        | none =>
          rw [hsig] at h
          rcases Run.bind_eq_error.1 h with h | ⟨⟨tails, budget''⟩, -, h⟩
          · refine ih ?_ _ _ h
            have hle : matrixWeight sigs (default_matrix matrix) ≤ matrixWeight sigs matrix := matrixWeight_default_le matrix
            omega
          · cases h
      · simp only at h
        rcases Run.bind_eq_error.1 h with h | ⟨⟨ws, budget''⟩, -, h⟩
        · refine ih ?_ _ _ h
          have hle : matrixWeight sigs (specialise sigs matrix c) ≤ matrixWeight sigs matrix :=
            matrixWeight_specialise_le matrix c
          have hmax := le_max_left args.length (widest sigs c)
          rw [weightAll, weight, List.length_cons] at hfuel
          rw [weightAll_append, List.length_append]
          omega
        · cases h

/-- The recursion ends. -/
theorem useful_ended (sigs : Sigs) (matrix : Matrix) (q : Row) (cap : ℕ) (budget : ExhaustBudget) :
    (useful sigs matrix q cap budget).Ended :=
  usefulFuel_ended (Nat.lt_succ_self _) cap budget

/-! ### Rows and errors -/

theorem usefulHeads_length_le {use : Matrix → Row → ℕ → ExhaustBudget → DResult (List Row × ExhaustBudget)}
    {matrix : Matrix} {rest_q : Row} {cap : ℕ} {signature : List (Head × ℕ)} {out ws : List Row}
    {budget budget' : ExhaustBudget} (hout : out.length ≤ cap)
    (h : usefulHeads use sigs matrix rest_q cap signature out budget = .ok (ws, budget')) : ws.length ≤ cap := by
  induction signature generalizing out budget with
  | nil =>
    cases h
    exact hout
  | cons c signature ih =>
    unfold usefulHeads at h
    split_ifs at h
    obtain ⟨⟨ws', budget''⟩, -, h⟩ := Run.bind_eq_ok.1 h
    simp only at h
    split_ifs at h
    · cases h
      exact List.length_take_le ..
    · exact ih (List.length_take_le ..) h

theorem usefulFuel_length_le {fuel : ℕ} {matrix : Matrix} {q : Row} {cap : ℕ} {ws : List Row}
    {budget budget' : ExhaustBudget} (h : usefulFuel sigs fuel matrix q cap budget = .ok (ws, budget')) :
    ws.length ≤ cap := by
  induction fuel generalizing matrix q cap ws budget budget' with
  | zero => cases h
  | succ fuel ih =>
    unfold usefulFuel at h
    obtain ⟨budget₁, -, h⟩ := Run.bind_eq_ok.1 h
    split_ifs at h with hcap
    · cases h
      exact Nat.zero_le _
    · rcases q with _ | ⟨_ | ⟨c, args⟩, rest_q⟩
      · cases h
        unfold emptyWitness
        split_ifs
        · exact Nat.one_le_iff_ne_zero.2 hcap
        · exact Nat.zero_le _
      · simp only at h
        cases hsig : complete_signature sigs (column_heads matrix) with
        | some signature =>
          rw [hsig] at h
          exact usefulHeads_length_le (Nat.zero_le _) h
        | none =>
          rw [hsig] at h
          obtain ⟨⟨tails, budget₂⟩, -, h⟩ := Run.bind_eq_ok.1 h
          cases h
          unfold missedRows
          split_ifs
          · exact Nat.zero_le _
          · exact List.length_take_le ..
      · simp only at h
        obtain ⟨⟨ws', budget₂⟩, hws, h⟩ := Run.bind_eq_ok.1 h
        cases h
        rw [List.length_map]
        exact ih hws

/-- At most `cap` rows are returned. -/
theorem useful_length_le {matrix : Matrix} {q : Row} {cap : ℕ} {ws : List Row} {budget budget' : ExhaustBudget}
    (h : useful sigs matrix q cap budget = .ok (ws, budget')) : ws.length ≤ cap :=
  usefulFuel_length_le h

def OnlyBudget (e : Lib.Stop Failure) : Prop := e = .fuel ∨ ∃ limit, e = .diag (.StepBudgetExceeded limit)

theorem usefulHeads_error {use : Matrix → Row → ℕ → ExhaustBudget → DResult (List Row × ExhaustBudget)}
    (huse : ∀ matrix q cap budget e, use matrix q cap budget = .error e → OnlyBudget e) {matrix : Matrix}
    {rest_q : Row} {cap : ℕ} {signature : List (Head × ℕ)} {out : List Row} {budget : ExhaustBudget}
    {e : Lib.Stop Failure} (hout : out.length ≤ cap)
    (h : usefulHeads use sigs matrix rest_q cap signature out budget = .error e) : OnlyBudget e := by
  induction signature generalizing out budget with
  | nil => cases h
  | cons c signature ih =>
    unfold usefulHeads at h
    rw [if_neg (Nat.not_lt.2 hout)] at h
    rcases Run.bind_eq_error.1 h with h | ⟨⟨ws', budget'⟩, -, h⟩
    · exact huse _ _ _ _ _ h
    · simp only at h
      split_ifs at h
      exact ih (List.length_take_le ..) h

theorem usefulFuel_error {fuel : ℕ} {matrix : Matrix} {q : Row} {cap : ℕ} {budget : ExhaustBudget}
    {e : Lib.Stop Failure} (h : usefulFuel sigs fuel matrix q cap budget = .error e) : OnlyBudget e := by
  induction fuel generalizing matrix q cap budget e with
  | zero =>
    cases h
    exact .inl rfl
  | succ fuel ih =>
    unfold usefulFuel at h
    rcases Run.bind_eq_error.1 h with h | ⟨budget₁, -, h⟩
    · exact .inr ⟨_, ExhaustBudget.charge_error h⟩
    · split_ifs at h
      rcases q with _ | ⟨_ | ⟨c, args⟩, rest_q⟩
      · cases h
      · simp only at h
        cases hsig : complete_signature sigs (column_heads matrix) with
        | some signature =>
          rw [hsig] at h
          exact usefulHeads_error (fun _ _ _ _ _ => ih) (Nat.zero_le _) h
        | none =>
          rw [hsig] at h
          rcases Run.bind_eq_error.1 h with h | ⟨⟨tails, budget₂⟩, -, h⟩
          · exact ih h
          · cases h
      · simp only at h
        rcases Run.bind_eq_error.1 h with h | ⟨⟨ws, budget₂⟩, -, h⟩
        · exact ih h
        · cases h

/-- Only the budget stops the recursion: `cap` is never left with less than nothing. -/
theorem useful_error {matrix : Matrix} {q : Row} {cap : ℕ} {budget : ExhaustBudget} {e : Lib.Stop Failure}
    (h : useful sigs matrix q cap budget = .error e) : ∃ limit, e = .diag (.StepBudgetExceeded limit) := by
  rcases usefulFuel_error h with rfl | hlimit
  · exact absurd h (useful_ended sigs matrix q cap budget)
  · exact hlimit

end Ends

end IpeLang.Exhaust
