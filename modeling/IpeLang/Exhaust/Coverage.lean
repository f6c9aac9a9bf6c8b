import IpeLang.Exhaust.Case

/-!
# What the check of a case says

* `RowsOf`: rows of one column that say together what some patterns say;
* `check_case_exhaustive`: a `case` is refused where a value has no arm;
* `check_case_redundant`: which alternatives are reported, and that they can be deleted.
-/

namespace IpeLang.Exhaust

open IpeLang.Types (Symbol Span)
open Lib (Str Pat Tree Signature Run)

section Rows

variable {T S : Type} {ty : Typing T S} {sigs : Sigs} {t : T}

/-- Rows of one column that say together what some patterns say. -/
structure RowsOf (ty : Typing T S) (ps : List Pattern_) (matrix : Matrix) : Prop where
  covers : ∀ v : Tree Head S, Covers matrix [v] ↔ ∃ p ∈ ps, p.accepts v = true
  heads : ∀ head ∈ matrixHeads matrix, head ∈ ps.flatMap Pattern_.heads
  typed : ∀ t, (∀ p ∈ ps, p.Typed ty t) → ∀ row ∈ matrix, ty.signature.AllPatTy [t] row

theorem RowsOf.nil : RowsOf ty [] [] where
  covers v := by simp [Covers]
  heads head hhead := absurd hhead List.not_mem_nil
  typed t _ row hrow := absurd hrow List.not_mem_nil

theorem RowsOf.append {ps ps' : List Pattern_} {matrix matrix' : Matrix} (h : RowsOf ty ps matrix)
    (h' : RowsOf ty ps' matrix') : RowsOf ty (ps ++ ps') (matrix ++ matrix') where
  covers v := by
    have hfirst := h.covers v
    have hrest := h'.covers v
    unfold Covers at hfirst hrest ⊢
    simp only [List.mem_append, or_and_right, exists_or, hfirst, hrest]
  heads head hhead := by
    rw [matrixHeads, List.flatMap_append, List.mem_append] at hhead
    rw [List.flatMap_append, List.mem_append]
    exact hhead.imp (h.heads head) (h'.heads head)
  typed t ht row hrow := by
    obtain ⟨hps, hps'⟩ := List.forall_mem_append.1 ht
    exact (List.mem_append.1 hrow).elim (h.typed t hps row) (h'.typed t hps' row)

theorem Stands.rowsOf {p : Pattern_} {rows : List UPat} (h : Stands ty p rows) : RowsOf ty [p] (columnOf rows) where
  covers v := by
    have hrows := h.accepts v
    simp only [Covers, columnOf, List.mem_map, List.mem_singleton, exists_eq_left, hrows]
    constructor
    · rintro ⟨row, ⟨p, hp, rfl⟩, haccepts⟩
      exact ⟨p, hp, ((Pat.acceptsAll_cons ..).1 haccepts).1⟩
    · rintro ⟨p, hp, haccepts⟩
      exact ⟨[p], ⟨p, hp, rfl⟩, (Pat.acceptsAll_cons ..).2 ⟨haccepts, rfl⟩⟩
  heads head hhead := by
    obtain ⟨row, hrow, hhead⟩ := List.mem_flatMap.1 hhead
    obtain ⟨p', hp', rfl⟩ := List.mem_map.1 hrow
    rw [Pat.headsAll, Pat.headsAll, List.append_nil] at hhead
    rw [List.flatMap_singleton]
    exact h.heads p' hp' head hhead
  typed t ht row hrow := by
    obtain ⟨p', hp', rfl⟩ := List.mem_map.1 hrow
    exact ⟨h.typed t (ht p (List.mem_singleton_self p)) p' hp', trivial⟩

theorem RowsOf.judged {ps : List Pattern_} {matrix : Matrix} (h : RowsOf ty ps matrix) (ht : ∀ p ∈ ps, p.Typed ty t)
    (hknown : ∀ p ∈ ps, ∀ head ∈ p.heads, Known sigs head) : Judged ty sigs [t] matrix := by
  refine ⟨h.typed t ht, fun row hrow head hhead => ?_⟩
  obtain ⟨p, hp, hhead⟩ := List.mem_flatMap.1 (h.heads head (List.mem_flatMap.2 ⟨row, hrow, hhead⟩))
  exact hknown p hp head hhead

theorem Stands.judgedRow {p : Pattern_} {rows : List UPat} (h : Stands ty p rows) (ht : p.Typed ty t)
    (hknown : ∀ head ∈ p.heads, Known sigs head) : ∀ row ∈ rows, JudgedRow ty sigs [t] [row] := by
  refine fun row hrow => ⟨⟨h.typed t ht row hrow, trivial⟩, fun head hhead => hknown head ?_⟩
  rw [Pat.headsAll, Pat.headsAll, List.append_nil] at hhead
  exact h.heads row hrow head hhead

theorem branchRows_rows {B : Type} {branches : List (CaseBranch B)} {budget budget' : ExhaustBudget} {matrix : Matrix}
    (h : branchRows branches budget = .ok (matrix, budget')) : RowsOf ty (branches.map CaseBranch.pat) matrix := by
  induction branches generalizing budget matrix with
  | nil =>
    cases h
    exact .nil
  | cons br branches ih =>
    obtain ⟨⟨rows, budget₁⟩, hrows, h⟩ := Run.bind_eq_ok.1 h
    obtain ⟨⟨matrix, budget₂⟩, hmatrix, h⟩ := Run.bind_eq_ok.1 h
    cases h
    exact (expand_upats_stands ty br.pat hrows).rowsOf.append (ih hmatrix)

theorem branchRows_error {B : Type} {branches : List (CaseBranch B)} {budget : ExhaustBudget} {e : Lib.Stop Failure}
    (h : branchRows branches budget = .error e) : Exceeded e := by
  induction branches generalizing budget with
  | nil => cases h
  | cons br branches ih =>
    rcases Run.bind_eq_error.1 h with h | ⟨⟨rows, budget₁⟩, -, h⟩
    · exact expand_upats_error br.pat h
    · rcases Run.bind_eq_error.1 h with h | ⟨⟨matrix, budget₂⟩, -, h⟩
      · exact ih h
      · cases h

end Rows

/-! ### Alternatives -/

section Units

variable {T S B : Type} {ty : Typing T S} {ctx : Ctx} {t : T}

/-- An arm accepts what one of its alternatives accepts. -/
theorem unitsOf_accepts (br : CaseBranch B) (v : Tree Head S) :
    br.pat.accepts v = (unitsOf br).any fun u => u.pat.accepts v := by
  unfold unitsOf
  cases hpat : br.pat with
  | POr alts =>
    rw [Pattern_.accepts, Pattern_.acceptsSome_eq, List.any_map]
    rfl
  | _ => simp

theorem unitsOf_typed {br : CaseBranch B} (h : br.pat.Typed ty t) : ∀ u ∈ unitsOf br, u.pat.Typed ty t := by
  unfold unitsOf
  cases hpat : br.pat with
  | POr alts =>
    rw [hpat] at h
    intro u hu
    obtain ⟨alt, halt, rfl⟩ := List.mem_map.1 hu
    exact Pattern_.AltsTyped.mem h alt halt
  | _ =>
    rw [hpat] at h
    exact List.forall_mem_singleton.2 h

theorem unitsOf_heads {br : CaseBranch B} : ∀ u ∈ unitsOf br, ∀ head ∈ u.pat.heads, head ∈ br.pat.heads := by
  unfold unitsOf
  cases hpat : br.pat with
  | POr alts =>
    intro u hu head hhead
    obtain ⟨alt, halt, rfl⟩ := List.mem_map.1 hu
    rw [Pattern_.heads, Pattern_.headsAlts_eq]
    exact List.mem_flatMap.2 ⟨alt, halt, hhead⟩
  | _ => exact List.forall_mem_singleton.2 fun head hhead => hhead

theorem unitsOf_product {br : CaseBranch B} (h : isProduct br.pat = false) : ∀ u ∈ unitsOf br, u.is_product = false := by
  unfold unitsOf
  cases hpat : br.pat with
  | POr alts =>
    intro u hu
    obtain ⟨alt, -, rfl⟩ := List.mem_map.1 hu
    rfl
  | _ =>
    rw [hpat] at h
    exact List.forall_mem_singleton.2 h

/-- Rows are covered if the values of all of them are, and only then where it can be told. -/
theorem rowsCovered_iff (hsigs : Describes ctx.sigs ty.view) {prior : Matrix} {rows : List UPat} {covered : Bool}
    {budget budget' : ExhaustBudget} (h : rowsCovered ctx prior rows budget = .ok (covered, budget'))
    (hprior : Judged ty ctx.sigs [t] prior) (hrows : ∀ row ∈ rows, JudgedRow ty ctx.sigs [t] [row]) :
    (covered = true → ∀ v, ty.signature.HasTy t v → (∃ row ∈ rows, row.accepts v = true) → Covers prior [v]) ∧
      (ty.signature.AllInhabited t → Fresh (matrixHeads prior) →
        (∀ v, ty.signature.HasTy t v → (∃ row ∈ rows, row.accepts v = true) → Covers prior [v]) → covered = true) := by
  induction rows generalizing budget with
  | nil =>
    cases h
    refine ⟨fun _ v _ hrow => ?_, fun _ _ _ => rfl⟩
    obtain ⟨row, hrow, -⟩ := hrow
    exact absurd hrow List.not_mem_nil
  | cons row rows ih =>
    obtain ⟨hrow, hrows⟩ := List.forall_mem_cons.1 hrows
    obtain ⟨⟨ws, budget₁⟩, hws, h⟩ := Run.bind_eq_ok.1 h
    have hmissed : ∀ v, Missed ty [t] prior [row] [v] ↔
        ty.signature.HasTy t v ∧ row.accepts v = true ∧ ¬ Covers prior [v] := by
      intro v
      simp [Missed, Signature.AllHaveTy]
    by_cases hempty : ws.isEmpty = true
    · have hcovered : ∀ v, ty.signature.HasTy t v → row.accepts v = true → Covers prior [v] := by
        intro v hv haccepts
        by_contra huncovered
        exact usefulFuel_ne_nil hsigs hws Nat.one_ne_zero hprior hrow ((hmissed v).2 ⟨hv, haccepts, huncovered⟩)
          (List.isEmpty_iff.1 hempty)
      simp only at h
      rw [if_pos hempty] at h
      obtain ⟨hsound, hcomplete⟩ := ih h hrows
      refine ⟨fun hc v hv hrow' => ?_, fun ht hfresh hall => ?_⟩
      · obtain ⟨row', hrow', haccepts⟩ := hrow'
        rcases List.mem_cons.1 hrow' with rfl | hrow'
        · exact hcovered v hv haccepts
        · exact hsound hc v hv ⟨row', hrow', haccepts⟩
      · refine hcomplete ht hfresh fun v hv hrow' => hall v hv ?_
        obtain ⟨row', hrow', haccepts⟩ := hrow'
        exact ⟨row', List.mem_cons_of_mem _ hrow', haccepts⟩
    · simp only at h
      rw [if_neg hempty] at h
      cases h
      refine ⟨fun hc => absurd hc Bool.false_ne_true, fun ht hfresh hall => ?_⟩
      -- the row that is useful has a value that is not covered
      obtain ⟨vs, hvs⟩ := (useful_ne_nil_iff hsigs hws Nat.one_ne_zero hprior hrow
        (List.forall_mem_singleton.2 ht) hfresh).1 fun hnil => hempty (List.isEmpty_iff.2 hnil)
      obtain ⟨v, rfl⟩ : ∃ v, vs = [v] :=
        List.length_eq_one_iff.1 (Signature.length_of_allHaveTy hvs.1).symm
      obtain ⟨hv, haccepts, huncovered⟩ := (hmissed v).1 hvs
      exact absurd (hall v hv ⟨row, List.mem_cons_self .., haccepts⟩) huncovered

theorem rowsCovered_error {prior : Matrix} {rows : List UPat} {budget : ExhaustBudget} {e : Lib.Stop Failure}
    (h : rowsCovered ctx prior rows budget = .error e) : Exceeded e := by
  induction rows generalizing budget with
  | nil => cases h
  | cons row rows ih =>
    rcases Run.bind_eq_error.1 h with h | ⟨⟨ws, budget₁⟩, -, h⟩
    · exact useful_error h
    · simp only at h
      split_ifs at h
      exact ih h

theorem checkUnit_error {unit : CaseUnit} {prior : Matrix} {budget : ExhaustBudget} {e : Lib.Stop Failure}
    (h : checkUnit ctx unit prior budget = .error e) : Exceeded e ∨ Unresolved e := by
  rcases Run.bind_eq_error.1 h with h | ⟨⟨rows, budget₁⟩, -, h⟩
  · exact .inl (expand_upats_error unit.pat h)
  · rcases Run.bind_eq_error.1 h with h | ⟨⟨covered, budget₂⟩, -, h⟩
    · exact .inl (rowsCovered_error h)
    · simp only at h
      split_ifs at h
      rcases Run.bind_eq_error.1 h with h | ⟨label, -, h⟩
      · exact .inr (arm_label_error unit.pat h)
      · cases h

/-- All values of an alternative match one before it. -/
def Repeats (ty : Typing T S) (t : T) (before : List CaseUnit) (u : CaseUnit) : Prop :=
  ∀ v, ty.signature.HasTy t v → u.pat.accepts v = true → ∃ d ∈ before, d.pat.accepts v = true

/-- One alternative is reported if it repeats those before it, and only then where it can be told. -/
theorem checkUnit_ok (hsigs : Describes ctx.sigs ty.view) {unit : CaseUnit} {prior prior' : Matrix}
    {budget budget' : ExhaustBudget} {label : Option Str}
    (h : checkUnit ctx unit prior budget = .ok (label, prior', budget')) {before : List CaseUnit}
    (hprior : RowsOf ty (before.map CaseUnit.pat) prior) (htyped : ∀ u ∈ before, u.pat.Typed ty t)
    (hknown : ∀ u ∈ before, ∀ head ∈ u.pat.heads, Known ctx.sigs head) (hunit : unit.pat.Typed ty t)
    (hunitKnown : ∀ head ∈ unit.pat.heads, Known ctx.sigs head) :
    RowsOf ty ((before ++ [unit]).map CaseUnit.pat) prior' ∧ (label.isSome = true → Repeats ty t before unit) ∧
      (ty.signature.AllInhabited t → Fresh (before.flatMap fun u => u.pat.heads) → unit.is_product = false →
        Repeats ty t before unit → label.isSome = true) := by
  obtain ⟨⟨rows, budget₁⟩, hrows, h⟩ := Run.bind_eq_ok.1 h
  obtain ⟨⟨covered, budget₂⟩, hcovered, h⟩ := Run.bind_eq_ok.1 h
  have hstands := expand_upats_stands ty unit.pat hrows
  have hjudged : Judged ty ctx.sigs [t] prior :=
    hprior.judged (List.forall_mem_map.2 htyped) (List.forall_mem_map.2 hknown)
  obtain ⟨hsound, hcomplete⟩ := rowsCovered_iff hsigs hcovered hjudged (hstands.judgedRow hunit hunitKnown)
  have hnext : RowsOf ty ((before ++ [unit]).map CaseUnit.pat) (prior ++ columnOf rows) := by
    rw [List.map_append, List.map_singleton]
    exact hprior.append hstands.rowsOf
  have hrepeats : Repeats ty t before unit ↔
      ∀ v, ty.signature.HasTy t v → (∃ row ∈ rows, row.accepts v = true) → Covers prior [v] := by
    have hbefore : ∀ v : Tree Head S, Covers prior [v] ↔ ∃ d ∈ before, d.pat.accepts v = true := fun v => by
      rw [hprior.covers v]
      simp
    simp only [Repeats, hstands.accepts, hbefore]
  simp only at h
  by_cases hreport : (!unit.is_product && covered) = true
  · rw [if_pos hreport] at h
    obtain ⟨text, -, h⟩ := Run.bind_eq_ok.1 h
    cases h
    exact ⟨hnext, fun _ => hrepeats.2 (hsound (Bool.and_eq_true_iff.1 hreport).2), fun _ _ _ _ => rfl⟩
  · rw [if_neg hreport] at h
    cases h
    refine ⟨hnext, fun hsome => absurd hsome Bool.false_ne_true, fun ht hfresh hproduct hrep => ?_⟩
    refine absurd ?_ hreport
    rw [hproduct, hcomplete ht (hfresh.mono fun head hhead => ?_) (hrepeats.1 hrep)]
    · rfl
    · have hmem := hprior.heads head hhead
      rwa [List.flatMap_map] at hmem

/-- The places of the alternatives that are reported. -/
def redundantSpans (found : List Finding) : List Span :=
  found.filterMap fun
    | .RedundantCaseBranch span _ => some span
    | .WildcardCoversKnownConstructors _ _ => none

/-- The places of the alternatives that are flagged. -/
def flaggedSpans (units : List CaseUnit) (flags : List Bool) : List Span :=
  ((units.zip flags).filter Prod.snd).map fun u => u.1.span

theorem redundantSpans_append (found found' : List Finding) :
    redundantSpans (found ++ found') = redundantSpans found ++ redundantSpans found' := List.filterMap_append ..

theorem checkUnits_ok (hsigs : Describes ctx.sigs ty.view) {units before : List CaseUnit} {prior prior' : Matrix}
    {budget budget' : ExhaustBudget} {warnings found : List Finding}
    (h : checkUnits ctx units prior budget warnings = (found, .ok (prior', budget')))
    (hprior : RowsOf ty (before.map CaseUnit.pat) prior) (htyped : ∀ u ∈ before ++ units, u.pat.Typed ty t)
    (hknown : ∀ u ∈ before ++ units, ∀ head ∈ u.pat.heads, Known ctx.sigs head) :
    ∃ flags : List Bool, flags.length = units.length ∧
      redundantSpans found = redundantSpans warnings ++ flaggedSpans units flags ∧
      ∀ start u rest, units = start ++ u :: rest →
        (flags[start.length]? = some true → Repeats ty t (before ++ start) u) ∧
        (ty.signature.AllInhabited t → Fresh ((before ++ units).flatMap fun u => u.pat.heads) → u.is_product = false →
          Repeats ty t (before ++ start) u → flags[start.length]? = some true) := by
  induction units generalizing before prior budget warnings with
  | nil =>
    cases h
    refine ⟨[], rfl, (List.append_nil _).symm, fun start u rest hsplit => ?_⟩
    exact absurd hsplit.symm (List.append_ne_nil_of_right_ne_nil _ (List.cons_ne_nil _ _))
  | cons unit units ih =>
    unfold checkUnits at h
    cases hunit : checkUnit ctx unit prior budget with
    | error e =>
      rw [hunit] at h
      cases h
    | ok result =>
      obtain ⟨label, prior₁, budget₁⟩ := result
      rw [hunit] at h
      obtain ⟨htbefore, htunits⟩ := List.forall_mem_append.1 htyped
      obtain ⟨hkbefore, hkunits⟩ := List.forall_mem_append.1 hknown
      obtain ⟨htunit, -⟩ := List.forall_mem_cons.1 htunits
      obtain ⟨hkunit, -⟩ := List.forall_mem_cons.1 hkunits
      obtain ⟨hnext, hsound, hcomplete⟩ := checkUnit_ok hsigs hunit hprior htbefore hkbefore htunit hkunit
      have hmove : before ++ unit :: units = before ++ [unit] ++ units := by
        rw [List.append_assoc, List.singleton_append]
      obtain ⟨flags, hlen, hspans, hflags⟩ := ih h hnext (hmove ▸ htyped) (hmove ▸ hknown)
      refine ⟨label.isSome :: flags, congrArg (· + 1) hlen, ?_, fun start u rest hsplit => ?_⟩
      · rw [hspans, redundantSpans_append, List.append_assoc]
        cases label <;> rfl
      · rcases start with _ | ⟨first, start⟩
        · cases hsplit
          rw [List.append_nil]
          refine ⟨fun hflag => hsound (Option.some.inj hflag), fun ht hfresh hproduct hrep => ?_⟩
          refine congrArg some (hcomplete ht (hfresh.mono fun head hhead => ?_) hproduct hrep)
          rw [List.flatMap_append]
          exact List.mem_append_left _ hhead
        · cases hsplit
          have hstep := hflags start u rest rfl
          rw [hmove, List.append_cons]
          exact hstep

theorem checkUnits_error {units : List CaseUnit} {prior : Matrix} {budget : ExhaustBudget}
    {warnings found : List Finding} {e : Lib.Stop Failure}
    (h : checkUnits ctx units prior budget warnings = (found, .error e)) : Exceeded e ∨ Unresolved e := by
  induction units generalizing prior budget warnings with
  | nil => cases h
  | cons unit units ih =>
    unfold checkUnits at h
    cases hunit : checkUnit ctx unit prior budget with
    | error e' =>
      rw [hunit] at h
      cases h
      exact checkUnit_error hunit
    | ok result =>
      rw [hunit] at h
      exact ih h

end Units

/-! ### Deleting alternatives -/

section Delete

/-- Of the elements with a property, the first of a list is never flagged. -/
def FirstKept {α : Type} (P : α → Bool) (l : List α) (flags : List Bool) : Prop :=
  ∀ before u after, l = before ++ u :: after → flags[before.length]? = some true → P u = true →
    ∃ d ∈ before, P d = true

/-- The elements that are not flagged. -/
def kept {α : Type} (l : List α) (flags : List Bool) : List α :=
  ((l.zip flags).filter fun a => !a.2).map Prod.fst

variable {α : Type} {P : α → Bool} {l l' : List α} {flags : List Bool}

theorem FirstKept.append_left (h : FirstKept P (l ++ l') flags) : FirstKept P l (flags.take l.length) := by
  intro before u after hsplit hflag hu
  refine h before u (after ++ l') ?_ ?_ hu
  · rw [hsplit, List.append_assoc, List.cons_append]
  · rw [hsplit] at hflag
    rwa [List.getElem?_take_of_lt (by simp)] at hflag

theorem FirstKept.append_right (h : FirstKept P (l ++ l') flags) (hl : l.any P = false) :
    FirstKept P l' (flags.drop l.length) := by
  intro before u after hsplit hflag hu
  rw [List.getElem?_drop] at hflag
  obtain ⟨d, hd, hPd⟩ := h (l ++ before) u after (by rw [hsplit, List.append_assoc]) (by
    rwa [List.length_append]) hu
  rcases List.mem_append.1 hd with hd | hd
  · exact absurd hPd (List.any_eq_false.1 hl d hd)
  · exact ⟨d, hd, hPd⟩

/-- Some element that is kept has the property if an element has it. -/
theorem kept_any (h : FirstKept P l flags) (hlen : flags.length = l.length) : (kept l flags).any P = l.any P := by
  induction l generalizing flags with
  | nil => rfl
  | cons a l ih =>
    rcases flags with _ | ⟨flag, flags⟩
    · cases hlen
    · rw [List.any_cons]
      cases hP : P a with
      | true =>
        cases flag with
        | true =>
          obtain ⟨d, hd, -⟩ := h [] a l rfl rfl hP
          exact absurd hd List.not_mem_nil
        | false => simp [kept, hP]
      | false =>
        have hrest : FirstKept P l flags :=
          FirstKept.append_right (l := [a]) h (by simp [hP])
        rw [Bool.false_or, ← ih hrest (Nat.succ.inj hlen)]
        cases flag with
        | true => rfl
        | false => simp [kept, hP]

end Delete

section Select

variable {B S : Type}

/-- An arm without its flagged alternatives. -/
def keepArm (br : CaseBranch B) (flags : List Bool) : List (CaseBranch B) :=
  match br.pat with
  | .POr alts => if (kept alts flags).isEmpty then [] else [{ br with pat := .POr (kept alts flags) }]
  | _ => if flags.head? = some true then [] else [br]

/-- The arms without the flagged alternatives. -/
def deleteFlagged : List (CaseBranch B) → List Bool → List (CaseBranch B)
  | [], _ => []
  | br :: branches, flags =>
    keepArm br (flags.take (unitsOf br).length) ++ deleteFlagged branches (flags.drop (unitsOf br).length)

theorem select_cons (br : CaseBranch B) (branches : List (CaseBranch B)) (v : Tree Head S) :
    select (br :: branches) v = if br.pat.accepts v then some br.body else select branches v := by
  unfold select
  rw [List.find?_cons]
  cases br.pat.accepts v <;> rfl

theorem kept_map {α β : Type} (f : α → β) (l : List α) (flags : List Bool) :
    kept (l.map f) flags = (kept l flags).map f := by
  induction l generalizing flags with
  | nil => rfl
  | cons a l ih =>
    rcases flags with _ | ⟨_ | _, flags⟩
    · rfl
    · exact congrArg (f a :: ·) (ih flags)
    · exact ih flags

/-- An arm without alternatives is kept or deleted as a whole. -/
theorem unitsOf_cases (br : CaseBranch B) :
    (∃ alts, br.pat = .POr alts) ∨ unitsOf br = [⟨br.span, br.pat, isProduct br.pat⟩] ∧
      ∀ flags, keepArm br flags = if flags.head? = some true then [] else [br] := by
  cases hpat : br.pat with
  | POr alts => exact .inl ⟨alts, rfl⟩
  | _ =>
    refine .inr ⟨?_, fun flags => ?_⟩
    · simp only [unitsOf, hpat]
    · simp only [keepArm, hpat]

/-- What is kept of an arm accepts what the arm accepts. -/
theorem select_keepArm {br : CaseBranch B} {flags : List Bool} {v : Tree Head S} (rest : List (CaseBranch B))
    (hfirst : FirstKept (fun u => u.pat.accepts v) (unitsOf br) flags) (hlen : flags.length = (unitsOf br).length) :
    select (keepArm br flags ++ rest) v = if br.pat.accepts v then some br.body else select rest v := by
  rcases unitsOf_cases br with ⟨alts, hpat⟩ | ⟨hunits, hkeep⟩
  · have hkept : ((kept alts flags).any fun alt => alt.2.accepts v) = br.pat.accepts v := by
      rw [unitsOf_accepts, ← kept_any hfirst hlen, unitsOf, hpat]
      simp only [kept_map, List.any_map]
      rfl
    rw [← hkept]
    simp only [keepArm, hpat]
    by_cases hempty : (kept alts flags).isEmpty = true
    · rw [if_pos hempty, List.nil_append, List.isEmpty_iff.1 hempty]
      rfl
    · rw [if_neg hempty, List.singleton_append, select_cons, Pattern_.accepts, Pattern_.acceptsSome_eq]
  · rw [hkeep]
    rw [hunits] at hfirst
    by_cases hflag : flags.head? = some true
    · have hrefused : br.pat.accepts v ≠ true := by
        intro haccepts
        obtain ⟨d, hd, -⟩ := hfirst [] _ [] rfl ((List.head?_eq_getElem? ..).symm.trans hflag) haccepts
        exact List.not_mem_nil hd
      rw [if_pos hflag, if_neg hrefused, List.nil_append]
    · rw [if_neg hflag, List.singleton_append, select_cons]

/-- Deleting alternatives that are flagged only after others accept their values changes no selection. -/
theorem select_deleteFlagged {branches : List (CaseBranch B)} {flags : List Bool} {v : Tree Head S}
    (hfirst : FirstKept (fun u => u.pat.accepts v) (branches.flatMap unitsOf) flags)
    (hlen : flags.length = (branches.flatMap unitsOf).length) :
    select (deleteFlagged branches flags) v = select branches v := by
  induction branches generalizing flags with
  | nil => rfl
  | cons br branches ih =>
    rw [List.flatMap_cons] at hfirst hlen
    rw [List.length_append] at hlen
    have htake : (flags.take (unitsOf br).length).length = (unitsOf br).length := by
      rw [List.length_take]
      omega
    rw [deleteFlagged, select_keepArm _ hfirst.append_left htake, select_cons]
    cases haccepts : br.pat.accepts v with
    | true => rfl
    | false =>
      have hdrop : (flags.drop (unitsOf br).length).length = (branches.flatMap unitsOf).length := by
        rw [List.length_drop]
        omega
      have hrest := ih (hfirst.append_right ((unitsOf_accepts br v).symm.trans haccepts)) hdrop
      rw [if_neg Bool.false_ne_true, if_neg Bool.false_ne_true, hrest]

end Select

/-! ### The check -/

section Check

variable {T S B : Type} (ty : Typing T S) {ctx : Ctx} {exhaust_union_ctors : List (Symbol × List (Symbol × ℕ))}
  {module_unions extra_unions : List Union} {t : T} {branches : List (CaseBranch B)} {scrut : Span}
  {budget : ExhaustBudget}

/-- No work is left undone, and all names have texts. -/
structure Completed (result : DResult Unit) : Prop where
  budget : ∀ limit, result ≠ .error (.diag (.StepBudgetExceeded limit))
  resolved : ∀ sym, result ≠ .error (.diag (.UnresolvedSymbol sym))

theorem Completed.not_stopped {result : DResult Unit} (h : Completed result) {e : Lib.Stop Failure}
    (he : Exceeded e ∨ Unresolved e) : result ≠ .error e := by
  rcases he with ⟨limit, rfl⟩ | ⟨sym, rfl⟩
  · exact h.budget limit
  · exact h.resolved sym

theorem checkMissing_error {matrix : Matrix} {e : Lib.Stop Failure} (h : checkMissing ctx scrut matrix budget = .error e) :
    (∃ ws budget' missing, useful ctx.sigs matrix [.Wild] WITNESS_CAP budget = .ok (ws, budget') ∧ ws ≠ [] ∧
      e = .diag (.NonExhaustiveCase scrut missing)) ∨ Exceeded e ∨ Unresolved e := by
  rcases Run.bind_eq_error.1 h with h | ⟨⟨ws, budget'⟩, hws, h⟩
  · exact .inr (.inl (useful_error h))
  · simp only at h
    split_ifs at h with hempty
    rcases Run.bind_eq_error.1 h with h | ⟨missing, -, h⟩
    · exact .inr (.inr (renderAll_error _ h))
    · cases h
      exact .inl ⟨ws, budget', _, hws, fun hnil => hempty (List.isEmpty_iff.2 hnil), rfl⟩

theorem checkMissing_ok {matrix : Matrix} (h : checkMissing ctx scrut matrix budget = .ok ()) :
    ∃ budget', useful ctx.sigs matrix [.Wild] WITNESS_CAP budget = .ok ([], budget') := by
  obtain ⟨⟨ws, budget'⟩, hws, h⟩ := Run.bind_eq_ok.1 h
  simp only at h
  split_ifs at h with hempty
  · rw [List.isEmpty_iff.1 hempty] at hws
    exact ⟨budget', hws⟩
  · obtain ⟨missing, -, h⟩ := Run.bind_eq_ok.1 h
    cases h

theorem closedUnion_error {e : Lib.Stop Failure} (h : closedUnion ctx scrut branches = .error e) : Unresolved e := by
  unfold closedUnion at h
  split at h
  · split at h
    · cases h
    · simp only at h
      split_ifs at h
      rcases Run.bind_eq_error.1 h with h | ⟨ctors, -, h⟩
      · exact renderAll_error _ h
      · cases h
  · cases h

theorem closedUnion_spans {found : List Finding} (h : closedUnion ctx scrut branches = .ok found) :
    redundantSpans found = [] := by
  unfold closedUnion at h
  split at h
  · split at h
    · cases h
      rfl
    · simp only at h
      split_ifs at h
      · cases h
        rfl
      · obtain ⟨ctors, -, h⟩ := Run.bind_eq_ok.1 h
        cases h
        rfl
  · cases h
    rfl

/-- The parts of a check that is completed. -/
theorem check_case_completed (hknown : ∀ br ∈ branches, pattern_uses_unknown_ctor ctx.sigs br.pat = false)
    (hdone : Completed (check_case ctx scrut branches budget).2) :
    ∃ warnings prior budget₁ matrix budget₂ ws budget₃,
      checkUnits ctx (branches.flatMap unitsOf) [] budget [] = (warnings, .ok (prior, budget₁)) ∧
      branchRows branches budget₁ = .ok (matrix, budget₂) ∧
      useful ctx.sigs matrix [.Wild] WITNESS_CAP budget₂ = .ok (ws, budget₃) ∧
      redundantSpans (check_case ctx scrut branches budget).1 = redundantSpans warnings ∧
      (ws ≠ [] ↔ ∃ missing, (check_case ctx scrut branches budget).2 = .error (.diag (.NonExhaustiveCase scrut missing))) := by
  have hjudged : ¬ (branches.any fun br => pattern_uses_unknown_ctor ctx.sigs br.pat) = true := by
    rw [Bool.not_eq_true, List.any_eq_false]
    exact fun br hbr => by rw [hknown br hbr]; exact Bool.false_ne_true
  unfold check_case at hdone ⊢
  rw [if_neg hjudged] at hdone ⊢
  rcases hunits : checkUnits ctx (branches.flatMap unitsOf) [] budget [] with ⟨warnings, e | ⟨prior, budget₁⟩⟩
  · rw [hunits] at hdone
    exact absurd rfl (hdone.not_stopped (checkUnits_error hunits))
  · rw [hunits] at hdone
    simp only at hdone ⊢
    cases hmatrix : branchRows branches budget₁ with
    | error e =>
      rw [hmatrix] at hdone
      exact absurd rfl (hdone.not_stopped (.inl (branchRows_error hmatrix)))
    | ok result =>
      obtain ⟨matrix, budget₂⟩ := result
      rw [hmatrix] at hdone
      simp only [Run.ok_bind] at hdone ⊢
      cases hmissing : checkMissing ctx scrut matrix budget₂ with
      | error e =>
        rw [hmissing] at hdone
        rcases checkMissing_error hmissing with ⟨ws, budget₃, missing, hws, hne, rfl⟩ | hstopped
        · exact ⟨warnings, prior, budget₁, matrix, budget₂, ws, budget₃, rfl, hmatrix, hws, rfl,
            fun _ => ⟨missing, rfl⟩, fun _ => hne⟩
        · exact absurd rfl (hdone.not_stopped hstopped)
      | ok result =>
        obtain ⟨budget₃, hws⟩ := checkMissing_ok hmissing
        rw [hmissing] at hdone
        simp only [Run.ok_bind] at hdone ⊢
        cases hclosed : closedUnion ctx scrut branches with
        | error e =>
          rw [hclosed] at hdone
          exact absurd rfl (hdone.not_stopped (.inr (closedUnion_error hclosed)))
        | ok found =>
          refine ⟨warnings, prior, budget₁, matrix, budget₂, [], budget₃, rfl, hmatrix, hws, ?_, ?_⟩
          · rw [redundantSpans_append, closedUnion_spans hclosed, List.append_nil]
          · simp

/-- A completed check refuses a `case` exactly where a value has no arm. -/
theorem check_case_exhaustive (hsigs : ctx.sigs = Sigs.build exhaust_union_ctors module_unions extra_unions)
    (hdecls : ∀ d ∈ declarations exhaust_union_ctors module_unions extra_unions, d ∈ ty.unions)
    (htyped : ∀ br ∈ branches, br.pat.Typed ty t)
    (hknown : ∀ br ∈ branches, pattern_uses_unknown_ctor ctx.sigs br.pat = false)
    (ht : ty.signature.AllInhabited t) (hfresh : Fresh (branches.flatMap fun br => br.pat.heads))
    (hdone : Completed (check_case ctx scrut branches budget).2) :
    (∃ missing, (check_case ctx scrut branches budget).2 = .error (.diag (.NonExhaustiveCase scrut missing))) ↔
      ∃ v, ty.signature.HasTy t v ∧ ∀ br ∈ branches, br.pat.accepts v = false := by
  obtain ⟨warnings, prior, budget₁, matrix, budget₂, ws, budget₃, -, hmatrix, hws, -, hrefused⟩ :=
    check_case_completed hknown hdone
  have hdescribes : Describes ctx.sigs ty.view := hsigs ▸ build_describes ty hdecls
  have hrows : RowsOf ty (branches.map CaseBranch.pat) matrix := branchRows_rows hmatrix
  have hjudged : Judged ty ctx.sigs [t] matrix := by
    refine hrows.judged (List.forall_mem_map.2 htyped) (List.forall_mem_map.2 fun br hbr => ?_)
    exact pattern_known br.pat (hknown br hbr)
  have hquery : JudgedRow ty ctx.sigs [t] [.Wild] :=
    ⟨⟨trivial, trivial⟩, fun head hhead => absurd hhead List.not_mem_nil⟩
  have hheads : Fresh (matrixHeads matrix) := by
    refine hfresh.mono fun head hhead => ?_
    have hmem := hrows.heads head hhead
    rwa [List.flatMap_map] at hmem
  have huseful := useful_ne_nil_iff hdescribes hws (by decide) hjudged hquery (List.forall_mem_singleton.2 ht) hheads
  have hmissed : ∀ v, Missed ty [t] matrix [.Wild] [v] ↔
      ty.signature.HasTy t v ∧ ∀ br ∈ branches, br.pat.accepts v = false := by
    intro v
    simp [Missed, Signature.AllHaveTy, hrows.covers v]
  rw [← hrefused, huseful]
  constructor
  · rintro ⟨vs, hvs⟩
    obtain ⟨v, rfl⟩ : ∃ v, vs = [v] := List.length_eq_one_iff.1 (Signature.length_of_allHaveTy hvs.1).symm
    exact ⟨v, (hmissed v).1 hvs⟩
  · rintro ⟨v, hv⟩
    exact ⟨[v], (hmissed v).2 hv⟩

/-- A program that only has built-in types. -/
def bare : Ctx := ⟨Sigs.build [] [] [], fun _ => none, ⟨[]⟩, id⟩

theorem flags_inhabited : flags.signature.AllInhabited () := fun _ _ => ⟨.node (.Bool true) [], [], rfl, trivial⟩

/-- A `case` with an arm for `True` is refused, so a value has no arm. -/
theorem true_alone_exhaustive : ∃ v : Tree Head Empty, flags.signature.HasTy () v ∧
    ∀ br ∈ [(⟨⟨0, 4⟩, .PBool true, ()⟩ : CaseBranch Unit)], br.pat.accepts v = false := by
  have hrefused : (check_case bare ⟨0, 0⟩ [(⟨⟨0, 4⟩, .PBool true, ()⟩ : CaseBranch Unit)] .unbounded).2 =
      .error (.diag (.NonExhaustiveCase ⟨0, 0⟩ ["False".toList])) := rfl
  refine (check_case_exhaustive flags rfl (fun d hd => absurd hd List.not_mem_nil) ?_ ?_ flags_inhabited ?_ ?_).1
    ⟨_, hrefused⟩
  · exact List.forall_mem_singleton.2 rfl
  · exact List.forall_mem_singleton.2 rfl
  · exact ⟨⟨0, by decide⟩, ⟨'a', by decide⟩⟩
  · rw [hrefused]
    constructor <;> intro _ h <;> cases h

/-- A program that only has the type of characters. -/
def characters : Typing Unit Empty where
  view _ := .char
  leaf _ _ := False
  unions := []
  distinct := flags.distinct
  declared := fun _ _ _ _ h => nomatch h

def charArms (cs : List Char) : List (CaseBranch Unit) := cs.map fun c => ⟨⟨0, 0⟩, .PChar [c], ()⟩

theorem expand_char (c : Char) : expand_upats (.PChar [c]) .unbounded = .ok ([.Ctor (.Char [c]) []], .unbounded) := rfl

theorem useful_char (sigs : Sigs) (matrix : Matrix) (head : Head) :
    ∃ ws, useful sigs matrix [.Ctor head []] 1 .unbounded = .ok (ws, .unbounded) := by
  obtain ⟨k, hk⟩ : ∃ k, depthBound sigs matrix [.Ctor head []] = k + 1 := ⟨_, rfl⟩
  refine ⟨(emptyWitness (specialise sigs matrix head)).map (rebuild head (sigs.arity head)), ?_⟩
  rw [useful, hk]
  rfl

theorem checkUnits_chars (cs : List Char) (prior : Matrix) (warnings : List Finding) :
    ∃ found prior', checkUnits bare ((charArms cs).flatMap unitsOf) prior .unbounded warnings =
      (found, .ok (prior', .unbounded)) := by
  induction cs generalizing prior warnings with
  | nil => exact ⟨warnings, prior, rfl⟩
  | cons c cs ih =>
    obtain ⟨ws, hws⟩ := useful_char bare.sigs prior (.Char [c])
    obtain ⟨label, hlabel⟩ : ∃ label, checkUnit bare ⟨⟨0, 0⟩, .PChar [c], false⟩ prior .unbounded =
        .ok (label, prior ++ columnOf [.Ctor (.Char [c]) []], .unbounded) := by
      have hcovered : rowsCovered bare prior [.Ctor (.Char [c]) []] .unbounded = .ok (ws.isEmpty, .unbounded) := by
        rw [rowsCovered, hws, Run.ok_bind]
        cases hempty : ws.isEmpty <;> simp only [hempty] <;> rfl
      unfold checkUnit
      rw [expand_char, Run.ok_bind]
      simp only [hcovered, Run.ok_bind]
      cases hempty : ws.isEmpty
      · exact ⟨_, rfl⟩
      · exact ⟨_, rfl⟩
    obtain ⟨found, prior', hfound⟩ := ih (prior ++ columnOf [.Ctor (.Char [c]) []])
      (warnings ++ label.toList.map fun label => .RedundantCaseBranch ⟨0, 0⟩ label)
    refine ⟨found, prior', ?_⟩
    change checkUnits bare (⟨⟨0, 0⟩, .PChar [c], false⟩ :: (charArms cs).flatMap unitsOf) prior .unbounded warnings = _
    rw [checkUnits, hlabel]
    exact hfound

theorem branchRows_chars (cs : List Char) :
    branchRows (charArms cs) .unbounded = .ok (columnOf (cs.map fun c => .Ctor (.Char [c]) []), .unbounded) := by
  induction cs with
  | nil => rfl
  | cons c cs ih =>
    change (branchRows (charArms cs) .unbounded >>= fun result =>
      Except.ok (columnOf [.Ctor (.Char [c]) []] ++ result.1, result.2)) = _
    rw [ih]
    rfl

theorem useful_chars (sigs : Sigs) (cs : List Char) :
    useful sigs (columnOf (cs.map fun c => .Ctor (.Char [c]) [])) [.Wild] WITNESS_CAP .unbounded =
      .ok ([[.Wild]], .unbounded) := by
  have hdefault : default_matrix (columnOf (cs.map fun c => .Ctor (.Char [c]) [])) = [] := by
    unfold default_matrix columnOf
    rw [List.map_map, List.filterMap_map]
    exact List.filterMap_eq_nil_iff.2 fun _ _ => rfl
  have hheads : ∀ head ∈ column_heads (columnOf (cs.map fun c => .Ctor (.Char [c]) [])), ∃ c, head = .Char c := by
    intro head hhead
    obtain ⟨args, rest, hrow⟩ := mem_column_heads.1 hhead
    obtain ⟨row, hrow, heq⟩ := List.mem_map.1 hrow
    obtain ⟨c, -, rfl⟩ := List.mem_map.1 hrow
    cases heq
    exact ⟨[c], rfl⟩
  generalize hroots : column_heads (columnOf (cs.map fun c => .Ctor (.Char [c]) [])) = roots at hheads
  have hopen : complete_signature sigs roots = none ∧ missing_heads sigs roots = [.Wild] := by
    rcases roots with _ | ⟨root, roots⟩
    · exact ⟨rfl, rfl⟩
    · obtain ⟨c, rfl⟩ := hheads root (List.mem_cons_self ..)
      exact ⟨rfl, rfl⟩
  obtain ⟨k, hk⟩ : ∃ k, depthBound sigs (columnOf (cs.map fun c => .Ctor (.Char [c]) [])) [.Wild] = k + 1 := ⟨_, rfl⟩
  rw [useful, hk, usefulFuel, ExhaustBudget.charge_unbounded, Run.ok_bind]
  simp only [hroots, hopen, hdefault]
  rfl

/-- A `case` over characters without a catch-all arm is refused, whatever characters it names. -/
theorem check_case_chars (cs : List Char) : ∃ found, check_case bare ⟨0, 0⟩ (charArms cs) .unbounded =
    (found, .error (.diag (.NonExhaustiveCase ⟨0, 0⟩ ["_".toList]))) := by
  have hjudged : ((charArms cs).any fun br => pattern_uses_unknown_ctor bare.sigs br.pat) = false := by
    rw [charArms, List.any_map]
    exact List.any_eq_false.2 fun _ _ => Bool.false_ne_true
  obtain ⟨found, prior, hunits⟩ := checkUnits_chars cs [] []
  refine ⟨found, ?_⟩
  unfold check_case
  rw [hjudged, if_neg Bool.false_ne_true, hunits]
  simp only [branchRows_chars, Run.ok_bind, checkMissing, useful_chars]
  rfl

def everyChar : List Char := (List.range 0x110000).map Char.ofNat

theorem mem_everyChar (c : Char) : c ∈ everyChar := by
  refine List.mem_map.2 ⟨c.toNat, List.mem_range.2 ?_, Char.ofNat_toNat c⟩
  rcases c.valid with h | h
  · exact lt_trans h (by norm_num)
  · exact h.2

/-- An arm for every character is not enough, although all values have one. -/
theorem every_char_refused :
    (∀ br ∈ charArms everyChar, br.pat.Typed characters () ∧ pattern_uses_unknown_ctor bare.sigs br.pat = false) ∧
      characters.signature.AllInhabited () ∧
      Completed (check_case bare ⟨0, 0⟩ (charArms everyChar) .unbounded).2 ∧
      (check_case bare ⟨0, 0⟩ (charArms everyChar) .unbounded).2 =
        .error (.diag (.NonExhaustiveCase ⟨0, 0⟩ ["_".toList])) ∧
      ∀ v, characters.signature.HasTy () v → ∃ br ∈ charArms everyChar, br.pat.accepts v = true := by
  obtain ⟨found, hrefused⟩ := check_case_chars everyChar
  refine ⟨fun br hbr => ?_, fun _ _ => ⟨.node (.Char ['a']) [], [], rfl, trivial⟩, ?_, ?_, fun v hv => ?_⟩
  · obtain ⟨c, -, rfl⟩ := List.mem_map.1 hbr
    exact ⟨rfl, rfl⟩
  · rw [hrefused]
    constructor <;> intro _ h <;> cases h
  · rw [hrefused]
  · rcases v with ⟨head, args⟩ | s
    · obtain ⟨ts, hts, hargs⟩ := hv
      change headArgs characters.view () head = some ts at hts
      cases head with
      | Char c =>
        obtain ⟨-, rfl⟩ := headArgs_char hts
        obtain rfl : args = [] := List.length_eq_zero_iff.1 (Signature.length_of_allHaveTy hargs).symm
        obtain ⟨c, rfl⟩ : ∃ d, c = [d] := by
          refine List.length_eq_one_iff.1 ?_
          by_contra hlen
          simp [headArgs, characters, hlen] at hts
        refine ⟨_, List.mem_map_of_mem (mem_everyChar c), ?_⟩
        simp [Pattern_.accepts]
      | _ => cases hts
    · exact absurd hv.2 not_false

/-- The alternatives that a completed check reports can be deleted, and they are all that can be said to
repeat others. -/
theorem check_case_redundant (hsigs : ctx.sigs = Sigs.build exhaust_union_ctors module_unions extra_unions)
    (hdecls : ∀ d ∈ declarations exhaust_union_ctors module_unions extra_unions, d ∈ ty.unions)
    (htyped : ∀ br ∈ branches, br.pat.Typed ty t)
    (hdone : Completed (check_case ctx scrut branches budget).2) :
    ∃ flags : List Bool, flags.length = (branches.flatMap unitsOf).length ∧
      redundantSpans (check_case ctx scrut branches budget).1 = flaggedSpans (branches.flatMap unitsOf) flags ∧
      (∀ before u after, branches.flatMap unitsOf = before ++ u :: after → flags[before.length]? = some true →
        Repeats ty t before u) ∧
      (∀ v, ty.signature.HasTy t v → select (deleteFlagged branches flags) v = select branches v) ∧
      ((∀ br ∈ branches, isProduct br.pat = false) →
        (∀ br ∈ branches, pattern_uses_unknown_ctor ctx.sigs br.pat = false) → ty.signature.AllInhabited t →
        Fresh (branches.flatMap fun br => br.pat.heads) →
        ∀ before u after, branches.flatMap unitsOf = before ++ u :: after → Repeats ty t before u →
          flags[before.length]? = some true) := by
  by_cases hany : (branches.any fun br => pattern_uses_unknown_ctor ctx.sigs br.pat) = true
  · -- nothing is judged
    have hflags : ∀ i : ℕ, (List.replicate (branches.flatMap unitsOf).length false)[i]? ≠ some true := by
      intro i hi
      obtain ⟨-, hfalse⟩ := List.mem_replicate.1 (List.mem_of_getElem? hi)
      exact absurd hfalse.symm Bool.false_ne_true
    refine ⟨List.replicate (branches.flatMap unitsOf).length false, List.length_replicate, ?_,
      fun before u after _ hflag => absurd hflag (hflags _), fun v _ => ?_, fun _ hknown => ?_⟩
    · have hnone : flaggedSpans (branches.flatMap unitsOf) (List.replicate (branches.flatMap unitsOf).length false) = [] := by
        unfold flaggedSpans
        rw [List.map_eq_nil_iff, List.filter_eq_nil_iff]
        intro pair hpair
        rw [(List.mem_replicate.1 (List.of_mem_zip hpair).2).2]
        exact Bool.false_ne_true
      rw [check_case, if_pos hany, hnone]
      rfl
    · exact select_deleteFlagged (fun before u after _ hflag _ => absurd hflag (hflags _)) List.length_replicate
    · obtain ⟨br, hbr, hunknown⟩ := List.any_eq_true.1 hany
      rw [hknown br hbr] at hunknown
      exact absurd hunknown Bool.false_ne_true
  · have hknown : ∀ br ∈ branches, pattern_uses_unknown_ctor ctx.sigs br.pat = false := by
      intro br hbr
      have hbr' := List.any_eq_false.1 (Bool.not_eq_true _ ▸ hany) br hbr
      exact Bool.eq_false_iff.2 hbr'
    obtain ⟨warnings, prior, budget₁, matrix, budget₂, ws, budget₃, hunits, -, -, hspans, -⟩ :=
      check_case_completed hknown hdone
    have hdescribes : Describes ctx.sigs ty.view := hsigs ▸ build_describes ty hdecls
    have hunitsTyped : ∀ u ∈ branches.flatMap unitsOf, u.pat.Typed ty t := fun u hu => by
      obtain ⟨br, hbr, hu⟩ := List.mem_flatMap.1 hu
      exact unitsOf_typed (htyped br hbr) u hu
    have hunitsKnown : ∀ u ∈ branches.flatMap unitsOf, ∀ head ∈ u.pat.heads, Known ctx.sigs head :=
      fun u hu head hhead => by
        obtain ⟨br, hbr, hu⟩ := List.mem_flatMap.1 hu
        exact pattern_known br.pat (hknown br hbr) head (unitsOf_heads u hu head hhead)
    have hstart : RowsOf ty (([] : List CaseUnit).map CaseUnit.pat) [] := .nil
    obtain ⟨flags, hlen, hfound, hflags⟩ := checkUnits_ok hdescribes hunits hstart hunitsTyped hunitsKnown
    refine ⟨flags, hlen, hspans.trans hfound, fun before u after hsplit => (hflags before u after hsplit).1,
      fun v hv => ?_, fun hproduct _ ht hfresh before u after hsplit => ?_⟩
    · refine select_deleteFlagged (fun before u after hsplit hflag hu => ?_) hlen
      exact (hflags before u after hsplit).1 hflag v hv hu
    · have hu : u ∈ branches.flatMap unitsOf := by
        rw [hsplit]
        exact List.mem_append_right _ (List.mem_cons_self ..)
      obtain ⟨br, hbr, hu⟩ := List.mem_flatMap.1 hu
      refine (hflags before u after hsplit).2 ht (hfresh.mono fun head hhead => ?_)
        (unitsOf_product (hproduct br hbr) u hu)
      obtain ⟨u', hu', hhead⟩ := List.mem_flatMap.1 hhead
      obtain ⟨br', hbr', hu'⟩ := List.mem_flatMap.1 hu'
      exact List.mem_flatMap.2 ⟨br', hbr', unitsOf_heads u' hu' head hhead⟩

/-- Arms for `True` or `False`, and for `False`. -/
def truthArms : List (CaseBranch ℕ) :=
  [⟨⟨0, 12⟩, .POr [(⟨0, 4⟩, .PBool true), (⟨7, 12⟩, .PBool false)], 1⟩, ⟨⟨20, 25⟩, .PBool false, 2⟩]

/-- The second arm for `False` is reported, and it can be deleted. -/
theorem truth_arms_redundant : redundantSpans (check_case bare ⟨0, 0⟩ truthArms .unbounded).1 = [⟨20, 25⟩] ∧
    ∃ found : List Bool, flaggedSpans (truthArms.flatMap unitsOf) found = [⟨20, 25⟩] ∧
      ∀ v, flags.signature.HasTy () v → select (deleteFlagged truthArms found) v = select truthArms v := by
  have haccepted : check_case bare ⟨0, 0⟩ truthArms .unbounded =
      ([.RedundantCaseBranch ⟨20, 25⟩ "False".toList], .ok ()) := rfl
  have hdone : Completed (check_case bare ⟨0, 0⟩ truthArms .unbounded).2 := by
    rw [haccepted]
    constructor <;> intro _ h <;> cases h
  have htyped : ∀ br ∈ truthArms, br.pat.Typed flags () := by
    simp [truthArms, Pattern_.Typed, Pattern_.AltsTyped, headArgs, flags]
  obtain ⟨found, -, hspans, -, hselect, -⟩ :=
    check_case_redundant flags rfl (fun d hd => absurd hd List.not_mem_nil) htyped hdone
  rw [haccepted] at hspans ⊢
  exact ⟨rfl, found, hspans.symm, hselect⟩

/-- A program with `type Single = Single`. -/
def single : Typing Unit Empty where
  view _ := .union [] 0 [(1, [])]
  leaf _ _ := False
  unions := [(([], 0), [(1, 0)])]
  distinct := by
    refine ⟨fun d hd d' hd' _ => ?_, fun d hd d' hd' _ _ _ _ _ _ => ?_, fun d hd => ?_⟩
    · rw [List.mem_singleton.1 hd, List.mem_singleton.1 hd']
    · rw [List.mem_singleton.1 hd, List.mem_singleton.1 hd']
    · rw [List.mem_singleton.1 hd]
      exact List.nodup_singleton 1
  declared := by
    intro t home name ctors h
    cases h
    exact List.mem_singleton_self _

/-- Two arms for the constructor of a union that is not in the tables. -/
def unknownArms : List (CaseBranch ℕ) :=
  [⟨⟨0, 6⟩, .PCtor [] 0 1 0 [], 1⟩, ⟨⟨10, 16⟩, .PCtor [] 0 1 0 [], 2⟩]

/-- A `case` with an unknown constructor is not judged, so the second of two equal arms is not reported. -/
theorem unknown_not_reported :
    (∀ br ∈ unknownArms, br.pat.Typed single () ∧ isProduct br.pat = false) ∧
      check_case bare ⟨0, 0⟩ unknownArms .unbounded = ([], .ok ()) ∧
      unknownArms.flatMap unitsOf =
        [⟨⟨0, 6⟩, .PCtor [] 0 1 0 [], false⟩] ++ ⟨⟨10, 16⟩, .PCtor [] 0 1 0 [], false⟩ :: [] ∧
      Repeats single () [⟨⟨0, 6⟩, .PCtor [] 0 1 0 [], false⟩] ⟨⟨10, 16⟩, .PCtor [] 0 1 0 [], false⟩ := by
  refine ⟨?_, rfl, rfl, fun v _ haccepts => ⟨_, List.mem_singleton_self _, haccepts⟩⟩
  refine List.forall_mem_cons.2 ⟨⟨⟨[], rfl, trivial⟩, rfl⟩, List.forall_mem_singleton.2 ⟨⟨[], rfl, trivial⟩, rfl⟩⟩

end Check

end IpeLang.Exhaust
