import IpeLang.Exhaust.Typing

/-!
# Witnesses

The rows that `useful` returns are patterns of values that are missed, and it returns some if there are any.

* `Found`: the rows that the recursion can return;
* `Found.typed`, `Found.missed`, `Found.all_missed`: such a row is typed, some value of it is missed, and
  without literals all its values are;
* `useful_ne_nil`: a row is returned if a value is missed;
* `useful_witnesses`: all of this about the rows of one call.
-/

namespace IpeLang.Exhaust

open IpeLang.Types (Symbol Span)
open Lib (Str Pat Tree Signature Run)

/-- Some row of a matrix accepts the values. -/
def Covers {S : Type} (matrix : Matrix) (vs : List (Tree Head S)) : Prop :=
  ∃ row ∈ matrix, Pat.acceptsAll row vs = true

theorem covers_nil {S : Type} {vs : List (Tree Head S)} : ¬ Covers [] vs := by
  rintro ⟨row, hrow, -⟩
  exact List.not_mem_nil hrow

/-! ### The rows that are returned -/

inductive Found (sigs : Sigs) : Matrix → Row → Row → Prop
  | nil : Found sigs [] [] []
  | ctor {matrix : Matrix} {c : Head} {args rest_q w : Row} : Found sigs (specialise sigs matrix c) (args ++ rest_q) w →
      Found sigs matrix (.Ctor c args :: rest_q) (rebuild c (sigs.arity c) w)
  | head {matrix : Matrix} {rest_q w : Row} {signature : List (Head × ℕ)} {c : Head × ℕ} :
      complete_signature sigs (column_heads matrix) = some signature → c ∈ signature →
      Found sigs (specialise sigs matrix c.1) (List.replicate c.2 .Wild ++ rest_q) w →
      Found sigs matrix (.Wild :: rest_q) (rebuild c.1 c.2 w)
  | missing {matrix : Matrix} {rest_q tail : Row} {w : UPat} :
      complete_signature sigs (column_heads matrix) = none → w ∈ missing_heads sigs (column_heads matrix) →
      Found sigs (default_matrix matrix) rest_q tail → Found sigs matrix (.Wild :: rest_q) (w :: tail)

section Found

variable {sigs : Sigs}

theorem usefulHeads_found {use : Matrix → Row → ℕ → ExhaustBudget → DResult (List Row × ExhaustBudget)}
    (huse : ∀ matrix q cap budget ws budget', use matrix q cap budget = .ok (ws, budget') →
      ∀ w ∈ ws, Found sigs matrix q w)
    {matrix : Matrix} {rest_q : Row} {cap : ℕ} {signature all : List (Head × ℕ)} {out ws : List Row}
    {budget budget' : ExhaustBudget} (hall : complete_signature sigs (column_heads matrix) = some all)
    (hsub : ∀ c ∈ signature, c ∈ all) (hout : ∀ w ∈ out, Found sigs matrix (.Wild :: rest_q) w)
    (h : usefulHeads use sigs matrix rest_q cap signature out budget = .ok (ws, budget')) :
    ∀ w ∈ ws, Found sigs matrix (.Wild :: rest_q) w := by
  induction signature generalizing out budget with
  | nil =>
    cases h
    exact hout
  | cons c signature ih =>
    obtain ⟨hc, hsub⟩ := List.forall_mem_cons.1 hsub
    unfold usefulHeads at h
    split_ifs at h
    obtain ⟨⟨ws', budget''⟩, hws', h⟩ := Run.bind_eq_ok.1 h
    have hnext : ∀ w ∈ (out ++ ws'.map (rebuild c.1 c.2)).take cap, Found sigs matrix (.Wild :: rest_q) w := by
      intro w hw
      rcases List.mem_append.1 (List.mem_of_mem_take hw) with hw | hw
      · exact hout w hw
      · obtain ⟨w', hw', rfl⟩ := List.mem_map.1 hw
        exact .head hall hc (huse _ _ _ _ _ _ hws' w' hw')
    simp only at h
    split_ifs at h
    · cases h
      exact hnext
    · exact ih hsub hnext h

theorem usefulFuel_found {fuel : ℕ} {matrix : Matrix} {q : Row} {cap : ℕ} {ws : List Row}
    {budget budget' : ExhaustBudget} (h : usefulFuel sigs fuel matrix q cap budget = .ok (ws, budget')) :
    ∀ w ∈ ws, Found sigs matrix q w := by
  induction fuel generalizing matrix q cap ws budget budget' with
  | zero => cases h
  | succ fuel ih =>
    unfold usefulFuel at h
    obtain ⟨budget₁, -, h⟩ := Run.bind_eq_ok.1 h
    split_ifs at h
    · cases h
      exact fun w hw => absurd hw List.not_mem_nil
    · rcases q with _ | ⟨_ | ⟨c, args⟩, rest_q⟩
      · cases h
        intro w hw
        unfold emptyWitness at hw
        split_ifs at hw with hempty
        · rw [List.isEmpty_iff.1 hempty, List.mem_singleton.1 hw]
          exact .nil
        · cases hw
      · simp only at h
        cases hsig : complete_signature sigs (column_heads matrix) with
        | some signature =>
          rw [hsig] at h
          exact usefulHeads_found (fun _ _ _ _ _ _ => ih) hsig (fun _ hc => hc)
            (fun w hw => absurd hw List.not_mem_nil) h
        | none =>
          rw [hsig] at h
          obtain ⟨⟨tails, budget₂⟩, htails, h⟩ := Run.bind_eq_ok.1 h
          cases h
          intro w hw
          unfold missedRows at hw
          split_ifs at hw
          · cases hw
          · obtain ⟨head, hhead, hw⟩ := List.mem_flatMap.1 (List.mem_of_mem_take hw)
            obtain ⟨tail, htail, rfl⟩ := List.mem_map.1 hw
            exact .missing hsig hhead (ih htails tail htail)
      · simp only at h
        obtain ⟨⟨ws', budget₂⟩, hws', h⟩ := Run.bind_eq_ok.1 h
        cases h
        intro w hw
        obtain ⟨w', hw', rfl⟩ := List.mem_map.1 hw
        exact .ctor (ih hws' w' hw')

end Found

/-! ### Matrices below a head -/

section Below

variable {T S : Type} {ty : Typing T S} {sigs : Sigs} {t : T} {ts : List T} {matrix : Matrix}

/-- A matrix over the columns of some types, whose heads are all known. -/
structure Judged (ty : Typing T S) (sigs : Sigs) (ts : List T) (matrix : Matrix) : Prop where
  typed : ∀ row ∈ matrix, ty.signature.AllPatTy ts row
  known : ∀ row ∈ matrix, ∀ head ∈ Pat.headsAll row, Known sigs head

theorem Judged.column (h : Judged ty sigs (t :: ts) matrix) : Column ty sigs t (column_heads matrix) := by
  intro root hroot
  obtain ⟨args, rest, hrow⟩ := mem_column_heads.1 hroot
  obtain ⟨⟨us, hus, -⟩, -⟩ := h.typed _ hrow
  refine ⟨h.known _ hrow root ?_, us, hus⟩
  rw [Pat.headsAll, Pat.heads]
  simp

theorem specialiseRow_heads {c : Head} {row row' : Row} (h : specialiseRow sigs c row = some row') :
    ∀ head ∈ Pat.headsAll row', head ∈ Pat.headsAll row := by
  intro head hhead
  rcases row with _ | ⟨_ | ⟨c', args⟩, rest⟩
  · cases h
  · cases h
    rw [Pat.headsAll_append, Pat.headsAll_wilds] at hhead
    rw [Pat.headsAll]
    exact List.mem_append_right _ hhead
  · simp only [specialiseRow] at h
    split_ifs at h
    cases h
    rw [Pat.headsAll_append] at hhead
    rw [Pat.headsAll, Pat.heads, List.cons_append]
    exact List.mem_cons_of_mem _ hhead

theorem defaultRow_eq {row row' : Row} (h : defaultRow row = some row') : row = .Wild :: row' := by
  rcases row with _ | ⟨_ | ⟨c, args⟩, rest⟩
  · cases h
  · cases h
    rfl
  · cases h

theorem specialise_heads {c : Head} {row' : Row} (h : row' ∈ specialise sigs matrix c) :
    ∃ row ∈ matrix, ∀ head ∈ Pat.headsAll row', head ∈ Pat.headsAll row := by
  obtain ⟨row, hrow, hspecialise⟩ := List.mem_filterMap.1 h
  exact ⟨row, hrow, specialiseRow_heads hspecialise⟩

theorem default_heads {row' : Row} (h : row' ∈ default_matrix matrix) :
    ∃ row ∈ matrix, ∀ head ∈ Pat.headsAll row', head ∈ Pat.headsAll row := by
  obtain ⟨row, hrow, hdefault⟩ := List.mem_filterMap.1 h
  refine ⟨row, hrow, fun head hhead => ?_⟩
  rw [defaultRow_eq hdefault, Pat.headsAll]
  exact List.mem_append_right _ hhead

theorem Judged.specialise (h : Judged ty sigs (t :: ts) matrix) {c : Head} {us : List T}
    (hargs : headArgs ty.view t c = some us) (harity : sigs.arity c = us.length) :
    Judged ty sigs (us ++ ts) (specialise sigs matrix c) := by
  refine ⟨fun row' hrow' => ?_, fun row' hrow' head hhead => ?_⟩
  · obtain ⟨row, hrow, hspecialise⟩ := List.mem_filterMap.1 hrow'
    have htyped := h.typed row hrow
    rcases row with _ | ⟨_ | ⟨c', args⟩, rest⟩
    · cases hspecialise
    · cases hspecialise
      rw [harity]
      exact Signature.allPatTy_append (Signature.allPatTy_wilds us) htyped.2
    · simp only [specialiseRow] at hspecialise
      split_ifs at hspecialise with hc
      cases hspecialise
      obtain ⟨⟨us', hus', hargs'⟩, hrest⟩ := htyped
      have hsame : us' = us := by
        rw [hc] at hus'
        exact Option.some.inj (hus'.symm.trans hargs)
      rw [hsame] at hargs'
      exact Signature.allPatTy_append hargs' hrest
  · obtain ⟨row, hrow, hsub⟩ := specialise_heads hrow'
    exact h.known row hrow head (hsub head hhead)

theorem Judged.default (h : Judged ty sigs (t :: ts) matrix) : Judged ty sigs ts (default_matrix matrix) := by
  refine ⟨fun row' hrow' => ?_, fun row' hrow' head hhead => ?_⟩
  · obtain ⟨row, hrow, hdefault⟩ := List.mem_filterMap.1 hrow'
    have htyped := h.typed row hrow
    rw [defaultRow_eq hdefault] at htyped
    exact htyped.2
  · obtain ⟨row, hrow, hsub⟩ := default_heads hrow'
    exact h.known row hrow head (hsub head hhead)

/-- Values below a head are covered by the rows below the head. -/
theorem covers_specialise (h : Judged ty sigs (t :: ts) matrix) {c : Head} {us : List T}
    (hargs : headArgs ty.view t c = some us) (harity : sigs.arity c = us.length) {as vs : List (Tree Head S)}
    (has : as.length = us.length) :
    Covers matrix (.node c as :: vs) ↔ Covers (Exhaust.specialise sigs matrix c) (as ++ vs) := by
  have hrow : ∀ row ∈ matrix, (Pat.acceptsAll row (.node c as :: vs) = true ↔
      ∃ row', specialiseRow sigs c row = some row' ∧ Pat.acceptsAll row' (as ++ vs) = true) := by
    intro row hmem
    have htyped := h.typed row hmem
    rcases row with _ | ⟨_ | ⟨c', args⟩, rest⟩
    · exact absurd htyped id
    · have hwilds : (List.replicate (sigs.arity c) (.Wild : UPat)).length = as.length := by
        rw [List.length_replicate, harity, has]
      simp only [specialiseRow, Option.some.injEq, exists_eq_left', Pat.acceptsAll_cons, Pat.accepts_wild, true_and,
        Pat.acceptsAll_append hwilds]
      rw [harity, ← has]
      simp
    · simp only [specialiseRow, Pat.acceptsAll_cons, Pat.accepts_ctor]
      by_cases hc : c' = c
      · rw [if_pos hc]
        obtain ⟨⟨us', hus', hargs'⟩, -⟩ := htyped
        rw [hc] at hus'
        have hlen : args.length = as.length := by
          rw [← Signature.length_of_allPatTy hargs', has, Option.some.inj (hus'.symm.trans hargs)]
        simp [hc, Pat.acceptsAll_append hlen]
      · simp [hc]
  constructor
  · rintro ⟨row, hmem, haccepts⟩
    obtain ⟨row', hspecialise, haccepts'⟩ := (hrow row hmem).1 haccepts
    exact ⟨row', List.mem_filterMap.2 ⟨row, hmem, hspecialise⟩, haccepts'⟩
  · rintro ⟨row', hmem', haccepts'⟩
    obtain ⟨row, hmem, hspecialise⟩ := List.mem_filterMap.1 hmem'
    exact ⟨row, hmem, (hrow row hmem).2 ⟨row', hspecialise, haccepts'⟩⟩

theorem covers_of_default {v : Tree Head S} {vs : List (Tree Head S)} (h : Covers (default_matrix matrix) vs) :
    Covers matrix (v :: vs) := by
  obtain ⟨row', hmem', haccepts⟩ := h
  obtain ⟨row, hmem, hdefault⟩ := List.mem_filterMap.1 hmem'
  rw [defaultRow_eq hdefault] at hmem
  exact ⟨_, hmem, (Pat.acceptsAll_cons ..).2 ⟨Pat.accepts_wild v, haccepts⟩⟩

/-- A value with another head than those of the column is covered by rows that start with a wildcard. -/
theorem default_of_covers {v : Tree Head S} {vs : List (Tree Head S)} (hv : MissedBy (column_heads matrix) v)
    (h : Covers matrix (v :: vs)) : Covers (default_matrix matrix) vs := by
  obtain ⟨row, hmem, haccepts⟩ := h
  rcases row with _ | ⟨_ | ⟨c, args⟩, rest⟩
  · cases haccepts
  · exact ⟨rest, List.mem_filterMap.2 ⟨_, hmem, rfl⟩, ((Pat.acceptsAll_cons ..).1 haccepts).2⟩
  · obtain ⟨as, rfl, -⟩ := Pat.accepts_ctor_iff.1 ((Pat.acceptsAll_cons ..).1 haccepts).1
    exact absurd (mem_column_heads.2 ⟨args, rest, hmem⟩) (hv c as rfl)

theorem rebuild_accepts {c : Head} {w : Row} {as bs : List (Tree Head S)} {n : ℕ} (has : as.length = n) :
    Pat.acceptsAll (rebuild c n w) (.node c as :: bs) = true ↔ Pat.acceptsAll w (as ++ bs) = true := by
  rw [rebuild, Pat.acceptsAll_cons, Pat.accepts_ctor]
  by_cases hlen : n ≤ w.length
  · have htake : (w.take n).length = as.length := by rw [List.length_take, Nat.min_eq_left hlen, has]
    conv_rhs => rw [← List.take_append_drop n w]
    rw [Pat.acceptsAll_append htake]
    simp
  · have htake : (w.take n).length ≠ as.length := by
      rw [List.length_take, has]
      omega
    have hw : w.length ≠ (as ++ bs).length := by
      rw [List.length_append, has]
      omega
    constructor
    · exact fun h => absurd (Pat.length_of_acceptsAll h.1.2) htake
    · exact fun h => absurd (Pat.length_of_acceptsAll h) hw

theorem rebuild_typed {c : Head} {w : Row} {us : List T} (hargs : headArgs ty.view t c = some us)
    (hw : ty.signature.AllPatTy (us ++ ts) w) : ty.signature.AllPatTy (t :: ts) (rebuild c us.length w) := by
  obtain ⟨as, bs, rfl, hlen, has, hbs⟩ := Signature.allPatTy_append_inv hw
  rw [rebuild, ← hlen, List.take_left, List.drop_left]
  exact ⟨⟨us, hargs, has⟩, hbs⟩

end Below

/-! ### What is found -/

section Found

variable {T S : Type} {ty : Typing T S} {sigs : Sigs} {matrix : Matrix} {q w : Row} {ts : List T}

/-- A row of the query, whose heads are all known. -/
structure JudgedRow (ty : Typing T S) (sigs : Sigs) (ts : List T) (q : Row) : Prop where
  typed : ty.signature.AllPatTy ts q
  known : ∀ head ∈ Pat.headsAll q, Known sigs head

theorem JudgedRow.ctor {t : T} {c : Head} {args rest_q : Row} (h : JudgedRow ty sigs (t :: ts) (.Ctor c args :: rest_q)) :
    ∃ us, headArgs ty.view t c = some us ∧ Known sigs c ∧ args.length = us.length ∧
      JudgedRow ty sigs (us ++ ts) (args ++ rest_q) := by
  obtain ⟨⟨us, hus, hargs⟩, hrest⟩ := h.typed
  have hheads : Pat.headsAll (.Ctor c args :: rest_q) = c :: Pat.headsAll (args ++ rest_q) := by
    rw [Pat.headsAll, Pat.heads, Pat.headsAll_append]
    rfl
  have hknown := h.known
  rw [hheads, List.forall_mem_cons] at hknown
  exact ⟨us, hus, hknown.1, (Signature.length_of_allPatTy hargs).symm, Signature.allPatTy_append hargs hrest,
    hknown.2⟩

theorem JudgedRow.wild {t : T} {rest_q : Row} (h : JudgedRow ty sigs (t :: ts) (.Wild :: rest_q)) :
    JudgedRow ty sigs ts rest_q := by
  refine ⟨h.typed.2, fun head hhead => h.known head ?_⟩
  rw [Pat.headsAll]
  exact List.mem_append_right _ hhead

theorem JudgedRow.wilds {rest_q : Row} (h : JudgedRow ty sigs ts rest_q) (us : List T) :
    JudgedRow ty sigs (us ++ ts) (List.replicate us.length .Wild ++ rest_q) := by
  refine ⟨Signature.allPatTy_append (Signature.allPatTy_wilds us) h.typed, fun head hhead => h.known head ?_⟩
  rwa [Pat.headsAll_append, Pat.headsAll_wilds] at hhead

/-- A row that is found is one of patterns of the types. -/
theorem Found.typed (hsigs : Describes sigs ty.view) (h : Found sigs matrix q w) (hm : Judged ty sigs ts matrix)
    (hq : JudgedRow ty sigs ts q) : ty.signature.AllPatTy ts w := by
  induction h generalizing ts with
  | nil =>
    cases ts with
    | nil => trivial
    | cons t ts => exact absurd hq.typed id
  | ctor _ ih =>
    cases ts with
    | nil => exact absurd hq.typed id
    | cons t ts =>
      obtain ⟨us, hus, hknown, hargs, hq'⟩ := hq.ctor
      have harity := arity_eq hsigs hknown hus
      rw [harity]
      exact rebuild_typed hus (ih (hm.specialise hus harity) hq')
  | head hsig hc _ ih =>
    cases ts with
    | nil => exact absurd hq.typed id
    | cons t ts =>
      obtain ⟨hknown, us, hus, hlen⟩ := (complete_signature_heads hsigs hm.column hsig).1 _ hc
      rw [← hlen]
      rw [← hlen] at ih
      exact rebuild_typed hus (ih (hm.specialise hus (arity_eq hsigs hknown hus)) (hq.wild.wilds us))
  | missing hsig hw _ ih =>
    cases ts with
    | nil => exact absurd hq.typed id
    | cons t ts => exact ⟨missing_heads_typed hsigs hm.column hsig hw, ih hm.default hq.wild⟩

/-- All heads of a matrix. -/
def matrixHeads (matrix : Matrix) : List Head := matrix.flatMap Pat.headsAll

theorem Fresh.mono {l l' : List Head} (h : Fresh l') (hsub : ∀ head ∈ l, head ∈ l') : Fresh l := by
  obtain ⟨⟨n, hn⟩, ⟨c, hc⟩⟩ := h
  exact ⟨⟨n, fun hmem => hn (hsub _ hmem)⟩, ⟨c, fun hmem => hc (hsub _ hmem)⟩⟩

theorem column_sub {matrix : Matrix} : ∀ head ∈ column_heads matrix, head ∈ matrixHeads matrix := by
  intro head hhead
  obtain ⟨args, rest, hrow⟩ := mem_column_heads.1 hhead
  refine List.mem_flatMap.2 ⟨_, hrow, ?_⟩
  rw [Pat.headsAll, Pat.heads]
  simp

theorem specialise_sub {matrix : Matrix} {c : Head} :
    ∀ head ∈ matrixHeads (specialise sigs matrix c), head ∈ matrixHeads matrix := by
  intro head hhead
  obtain ⟨row', hrow', hhead⟩ := List.mem_flatMap.1 hhead
  obtain ⟨row, hrow, hsub⟩ := specialise_heads hrow'
  exact List.mem_flatMap.2 ⟨row, hrow, hsub head hhead⟩

theorem default_sub {matrix : Matrix} : ∀ head ∈ matrixHeads (default_matrix matrix), head ∈ matrixHeads matrix := by
  intro head hhead
  obtain ⟨row', hrow', hhead⟩ := List.mem_flatMap.1 hhead
  obtain ⟨row, hrow, hsub⟩ := default_heads hrow'
  exact List.mem_flatMap.2 ⟨row, hrow, hsub head hhead⟩

/-- Values of a row that no row of a matrix accepts, and the query does. -/
def Missed (ty : Typing T S) (ts : List T) (matrix : Matrix) (q : Row) (vs : List (Tree Head S)) : Prop :=
  ty.signature.AllHaveTy ts vs ∧ Pat.acceptsAll q vs = true ∧ ¬ Covers matrix vs

/-- Values below a head are missed as the values of the head are. -/
theorem missed_node (hsigs : Describes sigs ty.view) {t : T} (hm : Judged ty sigs (t :: ts) matrix) {c : Head}
    {us : List T} (hknown : Known sigs c) (hus : headArgs ty.view t c = some us) {q' : Row} {as vs : List (Tree Head S)}
    (has : as.length = us.length)
    (hq : Pat.acceptsAll q (.node c as :: vs) = true ↔ Pat.acceptsAll q' (as ++ vs) = true)
    (htyped : ty.signature.AllHaveTy us as) (hvs : ty.signature.AllHaveTy ts vs) :
    Missed ty (t :: ts) matrix q (.node c as :: vs) ↔ Missed ty (us ++ ts) (specialise sigs matrix c) q' (as ++ vs) := by
  unfold Missed
  rw [covers_specialise hm hus (arity_eq hsigs hknown hus) has, hq]
  have hleft : ty.signature.AllHaveTy (t :: ts) (.node c as :: vs) := ⟨⟨us, hus, htyped⟩, hvs⟩
  simp [hleft, Signature.allHaveTy_append htyped hvs]

theorem acceptsAll_ctor {c : Head} {args rest_q : Row} {as vs : List (Tree Head S)} (hlen : args.length = as.length) :
    Pat.acceptsAll (.Ctor c args :: rest_q) (.node c as :: vs) = true ↔
      Pat.acceptsAll (args ++ rest_q) (as ++ vs) = true := by
  rw [Pat.acceptsAll_cons, Pat.accepts_ctor, Pat.acceptsAll_append hlen]
  simp

theorem acceptsAll_wild {rest_q : Row} {v : Tree Head S} {as vs : List (Tree Head S)} {n : ℕ} (hlen : as.length = n) :
    Pat.acceptsAll (.Wild :: rest_q) (v :: vs) = true ↔
      Pat.acceptsAll (List.replicate n .Wild ++ rest_q) (as ++ vs) = true := by
  have hwilds : (List.replicate n (.Wild : UPat)).length = as.length := by rw [List.length_replicate, hlen]
  rw [Pat.acceptsAll_cons, Pat.acceptsAll_append hwilds, ← hlen]
  simp

/-- Some value of a row that is found is missed. -/
theorem Found.missed (hsigs : Describes sigs ty.view) (h : Found sigs matrix q w) (hm : Judged ty sigs ts matrix)
    (hq : JudgedRow ty sigs ts q) (hts : ∀ t ∈ ts, ty.signature.AllInhabited t) (hfresh : Fresh (matrixHeads matrix)) :
    ∃ vs, Missed ty ts matrix q vs ∧ Pat.acceptsAll w vs = true := by
  induction h generalizing ts with
  | nil =>
    cases ts with
    | nil => exact ⟨[], ⟨trivial, rfl, covers_nil⟩, rfl⟩
    | cons t ts => exact absurd hq.typed id
  | @ctor matrix c args rest_q w _ ih =>
    cases ts with
    | nil => exact absurd hq.typed id
    | cons t ts =>
      obtain ⟨us, hus, hknown, hargs, hq'⟩ := hq.ctor
      have harity := arity_eq hsigs hknown hus
      obtain ⟨ht, hts⟩ := List.forall_mem_cons.1 hts
      have hall : ∀ u ∈ us ++ ts, ty.signature.AllInhabited u := fun u hu =>
        (List.mem_append.1 hu).elim (fun hu => ht.part hus hu) (hts u)
      obtain ⟨vs, hmissed, hw⟩ := ih (hm.specialise hus harity) hq' hall (hfresh.mono specialise_sub)
      obtain ⟨as, bs, rfl, has, hbs⟩ := Signature.allHaveTy_append_inv hmissed.1
      have hlen : as.length = us.length := (Signature.length_of_allHaveTy has).symm
      refine ⟨.node c as :: bs, ?_, ?_⟩
      · exact (missed_node hsigs hm hknown hus hlen (acceptsAll_ctor (hargs.trans hlen.symm)) has hbs).2 hmissed
      · exact (rebuild_accepts (hlen.trans harity.symm)).2 hw
  | @head matrix rest_q w signature c hsig hc _ ih =>
    cases ts with
    | nil => exact absurd hq.typed id
    | cons t ts =>
      obtain ⟨hknown, us, hus, hlen⟩ := (complete_signature_heads hsigs hm.column hsig).1 _ hc
      obtain ⟨ht, hts⟩ := List.forall_mem_cons.1 hts
      have hall : ∀ u ∈ us ++ ts, ty.signature.AllInhabited u := fun u hu =>
        (List.mem_append.1 hu).elim (fun hu => ht.part hus hu) (hts u)
      rw [← hlen] at ih ⊢
      obtain ⟨vs, hmissed, hw⟩ := ih (hm.specialise hus (arity_eq hsigs hknown hus)) (hq.wild.wilds us) hall
        (hfresh.mono specialise_sub)
      obtain ⟨as, bs, rfl, has, hbs⟩ := Signature.allHaveTy_append_inv hmissed.1
      have hlen' : as.length = us.length := (Signature.length_of_allHaveTy has).symm
      refine ⟨.node c.1 as :: bs, ?_, (rebuild_accepts hlen').2 hw⟩
      exact (missed_node hsigs hm hknown hus hlen' (acceptsAll_wild hlen') has hbs).2 hmissed
  | missing hsig hw _ ih =>
    cases ts with
    | nil => exact absurd hq.typed id
    | cons t ts =>
      obtain ⟨ht, hts⟩ := List.forall_mem_cons.1 hts
      obtain ⟨vs, ⟨hvs, hrest, huncovered⟩, htail⟩ := ih hm.default hq.wild hts (hfresh.mono default_sub)
      obtain ⟨v, hv, haccepts, hmissed⟩ :=
        missing_heads_missed hsigs hm.column hsig ht (hfresh.mono column_sub) hw
      refine ⟨v :: vs, ⟨⟨hv, hvs⟩, ?_, fun hcovers => huncovered (default_of_covers hmissed hcovers)⟩, ?_⟩
      · exact (Pat.acceptsAll_cons ..).2 ⟨Pat.accepts_wild v, hrest⟩
      · exact (Pat.acceptsAll_cons ..).2 ⟨haccepts, htail⟩

/-- Without literals in the matrix all values of a row that is found are missed. -/
theorem Found.all_missed (hsigs : Describes sigs ty.view) (h : Found sigs matrix q w) (hm : Judged ty sigs ts matrix)
    (hq : JudgedRow ty sigs ts q) (hliterals : ∀ head ∈ matrixHeads matrix, isLiteral head = false)
    {vs : List (Tree Head S)} (hvs : ty.signature.AllHaveTy ts vs) (hw : Pat.acceptsAll w vs = true) :
    Missed ty ts matrix q vs := by
  induction h generalizing ts vs with
  | nil =>
    cases vs with
    | nil => exact ⟨hvs, rfl, covers_nil⟩
    | cons v vs => cases hw
  | ctor _ ih =>
    cases ts with
    | nil => exact absurd hq.typed id
    | cons t ts =>
      cases vs with
      | nil => cases hw
      | cons v vs =>
        obtain ⟨us, hus, hknown, hargs, hq'⟩ := hq.ctor
        have harity := arity_eq hsigs hknown hus
        obtain ⟨as, rfl, -⟩ := Pat.accepts_ctor_iff.1 ((Pat.acceptsAll_cons ..).1 hw).1
        obtain ⟨⟨us', hus', has⟩, hvs⟩ := hvs
        obtain rfl : us = us' := Option.some.inj (hus.symm.trans hus')
        have hlen : as.length = us.length := (Signature.length_of_allHaveTy has).symm
        refine (missed_node hsigs hm hknown hus hlen (acceptsAll_ctor (hargs.trans hlen.symm)) has hvs).2 ?_
        refine ih (hm.specialise hus harity) hq' (fun head hhead => hliterals head (specialise_sub head hhead))
          (Signature.allHaveTy_append has hvs) ?_
        exact (rebuild_accepts (hlen.trans harity.symm)).1 hw
  | head hsig hc _ ih =>
    cases ts with
    | nil => exact absurd hq.typed id
    | cons t ts =>
      cases vs with
      | nil => cases hw
      | cons v vs =>
        obtain ⟨hknown, us, hus, hlen⟩ := (complete_signature_heads hsigs hm.column hsig).1 _ hc
        rw [← hlen] at ih hw
        obtain ⟨as, rfl, -⟩ := Pat.accepts_ctor_iff.1 ((Pat.acceptsAll_cons ..).1 hw).1
        obtain ⟨⟨us', hus', has⟩, hvs⟩ := hvs
        obtain rfl : us = us' := Option.some.inj (hus.symm.trans hus')
        have hlen' : as.length = us.length := (Signature.length_of_allHaveTy has).symm
        refine (missed_node hsigs hm hknown hus hlen' (acceptsAll_wild hlen') has hvs).2 ?_
        exact ih (hm.specialise hus (arity_eq hsigs hknown hus)) (hq.wild.wilds us)
          (fun head hhead => hliterals head (specialise_sub head hhead)) (Signature.allHaveTy_append has hvs)
          ((rebuild_accepts hlen').1 hw)
  | missing hsig hw' _ ih =>
    cases ts with
    | nil => exact absurd hq.typed id
    | cons t ts =>
      cases vs with
      | nil => cases hw
      | cons v vs =>
        obtain ⟨hv, htail⟩ := (Pat.acceptsAll_cons ..).1 hw
        obtain ⟨-, hrest, huncovered⟩ :=
          ih hm.default hq.wild (fun head hhead => hliterals head (default_sub head hhead)) hvs.2 htail
        have hmissed := missing_heads_all_missed hsigs hm.column hsig
          (fun root hroot => hliterals root (column_sub root hroot)) hw' hv
        refine ⟨hvs, ?_, fun hcovers => huncovered (default_of_covers hmissed hcovers)⟩
        exact (Pat.acceptsAll_cons ..).2 ⟨Pat.accepts_wild v, hrest⟩

/-! ### Nothing is overlooked -/

theorem take_ne_nil {α : Type} {l : List α} {n : ℕ} (hl : l ≠ []) (hn : n ≠ 0) : l.take n ≠ [] := by
  rw [Ne, List.take_eq_nil_iff]
  exact not_or.2 ⟨hn, hl⟩

theorem usefulHeads_ne_nil {use : Matrix → Row → ℕ → ExhaustBudget → DResult (List Row × ExhaustBudget)}
    {rest_q : Row} {cap : ℕ} {signature : List (Head × ℕ)} {c : Head × ℕ} {out ws : List Row}
    {budget budget' : ExhaustBudget}
    (huse : ∀ cap budget ws budget', cap ≠ 0 →
      use (specialise sigs matrix c.1) (List.replicate c.2 .Wild ++ rest_q) cap budget = .ok (ws, budget') → ws ≠ [])
    (hc : c ∈ signature ∨ out ≠ []) (hout : out.length < cap)
    (h : usefulHeads use sigs matrix rest_q cap signature out budget = .ok (ws, budget')) : ws ≠ [] := by
  induction signature generalizing out budget with
  | nil =>
    cases h
    exact hc.resolve_left List.not_mem_nil
  | cons c' signature ih =>
    have hcap : cap ≠ 0 := by omega
    unfold usefulHeads at h
    rw [if_neg (Nat.not_lt.2 hout.le)] at h
    obtain ⟨⟨ws', budget''⟩, hws', h⟩ := Run.bind_eq_ok.1 h
    have hnext : c ∈ signature ∨ (out ++ ws'.map (rebuild c'.1 c'.2)).take cap ≠ [] := by
      rcases hc with hc | hne
      · rcases List.mem_cons.1 hc with rfl | hc
        · have hws : ws' ≠ [] := huse _ _ _ _ (by omega) hws'
          refine .inr (take_ne_nil (fun hnil => hws ?_) hcap)
          exact List.map_eq_nil_iff.1 (List.append_eq_nil_iff.1 hnil).2
        · exact .inl hc
      · exact .inr (take_ne_nil (fun hnil => hne (List.append_eq_nil_iff.1 hnil).1) hcap)
    simp only at h
    split_ifs at h with hfull
    · cases h
      intro hnil
      rw [hnil] at hfull
      exact hcap (Nat.le_zero.1 hfull)
    · exact ih hnext (Nat.lt_of_not_le hfull) h

/-- Where values are missed some row is found. -/
theorem usefulFuel_ne_nil (hsigs : Describes sigs ty.view) {fuel cap : ℕ} {ws : List Row}
    {budget budget' : ExhaustBudget} (h : usefulFuel sigs fuel matrix q cap budget = .ok (ws, budget')) (hcap : cap ≠ 0)
    (hm : Judged ty sigs ts matrix) (hq : JudgedRow ty sigs ts q) {vs : List (Tree Head S)}
    (hvs : Missed ty ts matrix q vs) : ws ≠ [] := by
  induction fuel generalizing matrix q cap ws budget budget' ts vs with
  | zero => cases h
  | succ fuel ih =>
    unfold usefulFuel at h
    obtain ⟨budget₁, -, h⟩ := Run.bind_eq_ok.1 h
    rw [if_neg hcap] at h
    rcases q with _ | ⟨p, rest_q⟩
    · cases h
      unfold emptyWitness
      split_ifs with hempty
      · exact List.cons_ne_nil _ _
      · -- a row of no patterns accepts no values
        obtain ⟨hts, haccepts, huncovered⟩ := hvs
        obtain rfl : vs = [] := List.length_eq_zero_iff.1 (Pat.length_of_acceptsAll haccepts).symm
        obtain ⟨row, hrow⟩ := List.exists_mem_of_ne_nil _ (fun hnil => hempty (List.isEmpty_iff.2 hnil))
        have hlen := (Signature.length_of_allPatTy (hm.typed row hrow)).symm.trans (Signature.length_of_allHaveTy hts)
        obtain rfl : row = [] := List.length_eq_zero_iff.1 hlen
        exact absurd ⟨[], hrow, rfl⟩ huncovered
    · cases ts with
      | nil => exact absurd hq.typed id
      | cons t ts =>
        rcases vs with _ | ⟨v, vs⟩
        · exact absurd hvs.2.1 Bool.false_ne_true
        · rcases p with _ | ⟨c, args⟩
          · simp only at h
            cases hsig : complete_signature sigs (column_heads matrix) with
            | some signature =>
              rw [hsig] at h
              obtain ⟨c, hc, as, rfl⟩ := (complete_signature_heads hsigs hm.column hsig).2 v hvs.1.1
              obtain ⟨hknown, us, hus, hlen⟩ := (complete_signature_heads hsigs hm.column hsig).1 c hc
              obtain ⟨⟨us', hus', has⟩, hvsTy⟩ := hvs.1
              obtain rfl : us = us' := Option.some.inj (hus.symm.trans hus')
              have hlen' : as.length = us.length := (Signature.length_of_allHaveTy has).symm
              have hbelow := (missed_node hsigs hm hknown hus hlen' (acceptsAll_wild hlen') has hvsTy).1 hvs
              refine usefulHeads_ne_nil (fun cap budget ws budget' hcap h' => ?_) (.inl hc) (Nat.pos_of_ne_zero hcap) h
              rw [← hlen] at h'
              exact ih h' hcap (hm.specialise hus (arity_eq hsigs hknown hus)) (hq.wild.wilds us) hbelow
            | none =>
              rw [hsig] at h
              obtain ⟨⟨tails, budget₂⟩, htails, h⟩ := Run.bind_eq_ok.1 h
              cases h
              have hrest : Missed ty ts (default_matrix matrix) rest_q vs :=
                ⟨hvs.1.2, ((Pat.acceptsAll_cons ..).1 hvs.2.1).2, fun hcovers => hvs.2.2 (covers_of_default hcovers)⟩
              have hne := ih htails hcap hm.default hq.wild hrest
              unfold missedRows
              rw [if_neg fun hempty => hne (List.isEmpty_iff.1 hempty)]
              refine take_ne_nil (fun hnil => ?_) hcap
              obtain ⟨tail, htail⟩ := List.exists_mem_of_ne_nil _ hne
              obtain ⟨head, hhead⟩ := List.exists_mem_of_ne_nil _ (missing_heads_ne_nil sigs (column_heads matrix))
              have hmem : head :: tail ∈ headsTimes (missing_heads sigs (column_heads matrix)) tails :=
                List.mem_flatMap.2 ⟨head, hhead, List.mem_map_of_mem htail⟩
              rw [hnil] at hmem
              exact List.not_mem_nil hmem
          · simp only at h
            obtain ⟨⟨ws', budget₂⟩, hws', h⟩ := Run.bind_eq_ok.1 h
            cases h
            obtain ⟨us, hus, hknown, hargs, hq'⟩ := hq.ctor
            obtain ⟨as, rfl, -⟩ := Pat.accepts_ctor_iff.1 ((Pat.acceptsAll_cons ..).1 hvs.2.1).1
            obtain ⟨⟨us', hus', has⟩, hvsTy⟩ := hvs.1
            obtain rfl : us = us' := Option.some.inj (hus.symm.trans hus')
            have hlen : as.length = us.length := (Signature.length_of_allHaveTy has).symm
            have hbelow := (missed_node hsigs hm hknown hus hlen (acceptsAll_ctor (hargs.trans hlen.symm)) has hvsTy).1 hvs
            have hne := ih hws' hcap (hm.specialise hus (arity_eq hsigs hknown hus)) hq' hbelow
            exact fun hnil => hne (List.map_eq_nil_iff.1 hnil)

/-- A row is returned if values are missed, and only then where literals are left and types have values. -/
theorem useful_ne_nil_iff (hsigs : Describes sigs ty.view) {cap : ℕ} {ws : List Row} {budget budget' : ExhaustBudget}
    (h : useful sigs matrix q cap budget = .ok (ws, budget')) (hcap : cap ≠ 0) (hm : Judged ty sigs ts matrix)
    (hq : JudgedRow ty sigs ts q) (hts : ∀ t ∈ ts, ty.signature.AllInhabited t) (hfresh : Fresh (matrixHeads matrix)) :
    ws ≠ [] ↔ ∃ vs, Missed ty ts matrix q vs := by
  constructor
  · intro hne
    obtain ⟨w, hw⟩ := List.exists_mem_of_ne_nil _ hne
    obtain ⟨vs, hmissed, -⟩ := (usefulFuel_found h w hw).missed hsigs hm hq hts hfresh
    exact ⟨vs, hmissed⟩
  · rintro ⟨vs, hvs⟩
    exact usefulFuel_ne_nil hsigs h hcap hm hq hvs

end Found

/-! ### One call -/

section Call

variable {T S : Type} (ty : Typing T S) {exhaust_union_ctors : List (Symbol × List (Symbol × ℕ))}
  {module_unions extra_unions : List Union}

theorem build_describes (hdecls : ∀ d ∈ declarations exhaust_union_ctors module_unions extra_unions, d ∈ ty.unions) :
    Describes (Sigs.build exhaust_union_ctors module_unions extra_unions) ty.view := by
  rw [build_eq]
  exact ofDecls_describes ty hdecls

/-- What the rows of a call say, over the tables of the unions of a program. -/
theorem useful_witnesses
    (hdecls : ∀ d ∈ declarations exhaust_union_ctors module_unions extra_unions, d ∈ ty.unions) {ts : List T}
    {matrix : Matrix} {q : Row} (hm : Judged ty (Sigs.build exhaust_union_ctors module_unions extra_unions) ts matrix)
    (hq : JudgedRow ty (Sigs.build exhaust_union_ctors module_unions extra_unions) ts q) (cap : ℕ)
    (budget : ExhaustBudget) :
    (∀ e, useful (Sigs.build exhaust_union_ctors module_unions extra_unions) matrix q cap budget = .error e →
      ∃ limit, e = .diag (.StepBudgetExceeded limit)) ∧
    ∀ ws budget', useful (Sigs.build exhaust_union_ctors module_unions extra_unions) matrix q cap budget =
        .ok (ws, budget') →
      ws.length ≤ cap ∧ ∀ w ∈ ws,
        w.length = q.length ∧ ty.signature.AllPatTy ts w ∧
        ((∀ t ∈ ts, ty.signature.AllInhabited t) → Fresh (matrixHeads matrix) →
          ∃ vs, ty.signature.AllHaveTy ts vs ∧ Pat.acceptsAll w vs = true ∧ Pat.acceptsAll q vs = true ∧
            ¬ Covers matrix vs) ∧
        ((∀ head ∈ matrixHeads matrix, isLiteral head = false) →
          ∀ vs, ty.signature.AllHaveTy ts vs → Pat.acceptsAll w vs = true →
            Pat.acceptsAll q vs = true ∧ ¬ Covers matrix vs) := by
  have hsigs := build_describes ty hdecls
  refine ⟨fun e he => useful_error he, fun ws budget' h => ⟨useful_length_le h, fun w hw => ?_⟩⟩
  have hfound := usefulFuel_found h w hw
  have htyped := hfound.typed hsigs hm hq
  refine ⟨?_, htyped, fun hts hfresh => ?_, fun hliterals vs hvs haccepts => ?_⟩
  · rw [← Signature.length_of_allPatTy htyped, Signature.length_of_allPatTy hq.typed]
  · obtain ⟨vs, ⟨hvs, hquery, huncovered⟩, haccepts⟩ := hfound.missed hsigs hm hq hts hfresh
    exact ⟨vs, hvs, haccepts, hquery, huncovered⟩
  · exact (hfound.all_missed hsigs hm hq hliterals hvs haccepts).2

end Call

/-- A program that only has the type of truth values. -/
def flags : Typing Unit Empty where
  view _ := .bool
  leaf _ _ := False
  unions := []
  distinct := ⟨fun _ hd => absurd hd List.not_mem_nil, fun _ hd => absurd hd List.not_mem_nil,
    fun _ hd => absurd hd List.not_mem_nil⟩
  declared := fun _ _ _ _ h => nomatch h

/-- After an arm for `True` a value is missed, and `False` says which. -/
theorem useful_flags : ∃ ws budget',
    useful (Sigs.build [] [] []) [[.Ctor (.Bool true) []]] [.Wild] 32 .unbounded = .ok (ws, budget') ∧
      ws = [[.Ctor (.Bool false) []]] ∧ ∀ w ∈ ws, w.length = 1 ∧ flags.signature.AllPatTy [()] w := by
  have hm : Judged flags (Sigs.build [] [] []) [()] [[.Ctor (.Bool true) []]] := by
    constructor
    · intro row hrow
      rw [List.mem_singleton.1 hrow]
      exact ⟨⟨[], rfl, trivial⟩, trivial⟩
    · intro row hrow head hhead
      rw [List.mem_singleton.1 hrow] at hhead
      rw [List.mem_singleton.1 hhead]
      trivial
  have hq : JudgedRow flags (Sigs.build [] [] []) [()] [.Wild] :=
    ⟨⟨trivial, trivial⟩, fun head hhead => absurd hhead List.not_mem_nil⟩
  have hwitnesses := useful_witnesses flags (fun d hd => absurd hd List.not_mem_nil) hm hq 32 .unbounded
  refine ⟨[[.Ctor (.Bool false) []]], .unbounded, rfl, rfl, fun w hw => ?_⟩
  obtain ⟨hlen, htyped, -⟩ := (hwitnesses.2 _ _ rfl).2 w hw
  exact ⟨hlen, htyped⟩

/-- A program with `type Loop = Loop Loop`, which has no values. -/
def endless : Typing Unit Empty where
  view _ := .union [] 0 [(1, [()])]
  leaf _ _ := False
  unions := [(([], 0), [(1, 1)])]
  distinct := by
    constructor <;> intro d hd <;> obtain rfl := List.mem_singleton.1 hd
    · exact fun d' hd' _ => (List.mem_singleton.1 hd').symm
    · exact fun d' hd' _ _ _ _ _ _ => (List.mem_singleton.1 hd').symm
    · exact List.nodup_singleton 1
  declared := by
    intro t home name ctors h
    cases h
    exact List.mem_singleton_self _

theorem endless_empty (v : Tree Head Empty) : ¬ endless.signature.HasTy () v := by
  rcases v with ⟨head, args⟩ | s
  · rintro ⟨ts, hts, hargs⟩
    have hself : ts = [()] := by
      change headArgs endless.view () head = some ts at hts
      cases head with
      | Adt h c =>
        obtain ⟨name, ctors, hview, hlookup⟩ := headArgs_adt hts
        cases hview
        exact (Prod.mk.inj (List.mem_singleton.1 (mem_of_lookup hlookup))).2
      | _ => cases hts
    subst hself
    rcases args with _ | ⟨arg, args⟩
    · exact hargs
    · exact endless_empty arg hargs.1
  · exact fun h => h.2

/-- A row is returned of a type that has no values. -/
theorem useful_endless :
    Judged endless (Sigs.build [(0, [(1, 1)])] [] []) [()] [] ∧
      JudgedRow endless (Sigs.build [(0, [(1, 1)])] [] []) [()] [.Wild] ∧
      useful (Sigs.build [(0, [(1, 1)])] [] []) [] [.Wild] 1 .unbounded = .ok ([[.Wild]], .unbounded) ∧
      ∀ vs : List (Tree Head Empty), ¬ endless.signature.AllHaveTy [()] vs := by
  refine ⟨⟨fun _ hrow => absurd hrow List.not_mem_nil, fun _ hrow => absurd hrow List.not_mem_nil⟩,
    ⟨⟨trivial, trivial⟩, fun head hhead => absurd hhead List.not_mem_nil⟩, rfl, fun vs hvs => ?_⟩
  rcases vs with _ | ⟨v, vs⟩
  · exact hvs
  · exact endless_empty v hvs.1

end IpeLang.Exhaust
