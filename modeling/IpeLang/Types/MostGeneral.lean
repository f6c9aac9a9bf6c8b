import IpeLang.Types.Acyclic
import IpeLang.Types.Instance
import IpeLang.Types.Progress
import IpeLang.Types.ReadBack

/-!
# Most general unifiers

On stores without records and without super-typed variables, unification is first-order
unification. A constructor of the empty home may stand for those of several homes, so a
substitution (`Subst`) also says for which one each class stands; `inst hS θ v` is the type of `v`
under it.

* `unify_most_general`: a pair unifies when some substitution makes it equal, the new types are the
  old ones under such a substitution, and every other one factors through it;
* `compatible_homes_differ`: comparing the homes pair by pair instead would not be transitive.
-/

namespace IpeLang.Types

open IpeLang.Lib Relation

/-! ### The fragment -/

/-- A descriptor of first-order unification. -/
def Content.isPlain : Content → Bool
  | .flex | .rigid => true
  | .super _ _ => false
  | .struct (.record _ _) => false
  | .struct .emptyRecord => false
  | .struct _ => true

/-- No class is super-typed or a record. -/
def Plain (S : Store) : Prop := ∀ v d, S.desc v = some d → d.isPlain = true

section Plain

variable {ι : Interner} {S S' F : Store} {a b v w : VarId} {ca cb d : Content} {m : Meet}
  {stack : Pending} {P : Store → VarId → VarId → Prop}

theorem Meets.plain (h : Meets ι S ca cb m) (ha : ca.isPlain = true) (hb : cb.isPlain = true) :
    m.keep.isPlain = true ∧ m.minted = [] := by
  cases h with
  | bindLeft => exact ⟨hb, rfl⟩
  | bindRight => exact ⟨ha, rfl⟩
  | pinLeft _ => cases ha
  | pinRight _ => cases hb
  | flat hf =>
    cases hf with
    | record _ _ => cases ha
    | emptyRecord => cases ha
    | _ => exact ⟨rfl, rfl⟩
  | join _ _ hj =>
    refine ⟨?_, rfl⟩
    cases ca with
    | super _ _ => cases ha
    | _ =>
      cases cb with
      | super _ _ => cases hb
      | _ => cases hj <;> rfl

theorem plain_of_merge (hS : Plain S) (hmerge : S.Merge S' a b m.keep m.minted)
    (ha : S.desc a = some ca) (hb : S.desc b = some cb) (hmeet : Meets ι S ca cb m) : Plain S' := by
  obtain ⟨hkeep, hmint⟩ := hmeet.plain (hS a ca ha) (hS b cb hb)
  intro v d hd
  by_cases hv : v < S.size
  · rw [hmerge.desc_old hv] at hd
    split_ifs at hd
    · cases hd
      exact hkeep
    · exact hS v d hd
  · obtain ⟨i, rfl⟩ := Nat.exists_eq_add_of_le (not_lt.1 hv)
    rw [hmerge.desc_new, hmint] at hd
    cases hd

theorem Plain.tailsOk (h : Plain S) : TailsOk S := by
  intro v d hd
  have hp := h v d hd
  cases d with
  | struct f =>
    cases f with
    | record _ _ => cases hp
    | _ => trivial
  | _ => trivial

/-- Nothing is pinned in a run over a plain store. -/
theorem Solves.of_plain (h : Solves ι P S stack F) (hS : Plain S) :
    Solves ι PinSafe S stack F ∧ Plain F := by
  induction h with
  | done => exact ⟨.done, hS⟩
  | same hsame _ ih => exact ⟨.same hsame (ih hS).1, (ih hS).2⟩
  | met _ hne ha hb hm hguard hroom hmerge _ ih =>
    obtain ⟨hrun, hF⟩ := ih (plain_of_merge hS hmerge ha hb (meet_inv hm))
    refine ⟨.met ?_ hne ha hb hm hguard hroom hmerge hrun, hF⟩
    intro var node bounds flat _ hvar
    cases hS _ _ hvar

/-- A plain store guides a run. -/
theorem guides_plain (ι : Interner) : Guides ι False fun S _ => Plain S where
  gate hS _ _ _ ha hb hg := by
    cases hg with
    | dispatch _ _ => cases hS _ _ ha
    | headLeft _ => cases hS _ _ ha
    | headRight _ => cases hS _ _ hb
  room hS ha hb hm := Or.inl (Or.inl ((meet_inv hm).plain (hS _ _ ha) (hS _ _ hb)).2)
  step hS _ _ _ ha hb hm _ hmerge _ _ := plain_of_merge hS hmerge ha hb (meet_inv hm)

/-- The rigid classes after a run are those before it. -/
theorem Solves.rigid_iff (h : Solves ι P S stack F) :
    (∀ {v d}, S.desc v = some d → d.isRigid = true →
      ∃ d', F.desc v = some d' ∧ d'.isRigid = true) ∧
    ∀ {v d}, F.desc v = some d → d.isRigid = true →
      ∃ u d', S.desc u = some d' ∧ d'.isRigid = true ∧ F.Same v u := by
  induction h with
  | done => exact ⟨fun hd hr => ⟨_, hd, hr⟩, fun hd hr => ⟨_, _, hd, hr, ClassStore.Same.refl _ _⟩⟩
  | same _ _ ih => exact ih
  | met _ _ ha hb hm _ _ hmerge hrun ih =>
    have hmeet := meet_inv hm
    refine ⟨fun hd hr => ?_, fun hd hr => ?_⟩
    · obtain ⟨d', hd', hr'⟩ := rigid_of_before hmerge ha hb hmeet hd hr
      exact ih.1 hd' hr'
    · obtain ⟨u, d', hd', hr', hvu⟩ := ih.2 hd hr
      obtain ⟨w, d'', hd'', hr'', huw⟩ := rigid_of_after hmerge ha hb hmeet hd' hr'
      exact ⟨w, d'', hd'', hr'', hvu.trans (hrun.same_mono huw)⟩

end Plain

/-! ### The types of a store -/

mutual

/-- The resolved type of a value. -/
def Val.toTy : Val → Ty
  | .atom n => .var (tagSolverVar n)
  | .fn arg result => .fn arg.toTy result.toTy
  | .con home name args => .con home name (Val.toTys args)
  | .unit => .unit
  | .tuple elems => .tuple (Val.toTys elems)
  | .row fields _ => .record (Val.toFields fields) .closed
  | .bare _ => .record [] .closed
  | .emptyRecord => .unit

def Val.toTys : List Val → List Ty
  | [] => []
  | v :: vs => v.toTy :: Val.toTys vs

def Val.toFields : List (Symbol × Val) → List (Symbol × Ty)
  | [] => []
  | (k, v) :: es => (k, v.toTy) :: Val.toFields es

end

theorem Val.toTys_eq (vs : List Val) : toTys vs = vs.map toTy := by
  induction vs with
  | nil => rfl
  | cons v vs ih => rw [toTys, ih, List.map_cons]

section Main

variable {ι : Interner} {S : Store} {name : VarId → ℕ} {v : VarId}

/-- A read-back is the type under the substitution that names each class after its root. -/
theorem readBack_eq_inst (hS : WellFounded (Child S)) (hplain : Plain S) (v : VarId) :
    readBack hS v = (inst hS (.named S id) v).toTy := by
  induction v using hS.induction with
  | _ v ih =>
    rcases hd : S.desc v with _ | d
    · rw [readBack_eq, readWith, inst_eq, instWith, hd]
      rfl
    cases d with
    | struct flat =>
      have hkids : ∀ c ∈ flat.children, readBack hS c = (inst hS (.named S id) c).toTy :=
        fun c hc => by rw [← readBack_root, ih _ ⟨_, hd, c, hc, rfl⟩, inst_root]
      rw [readBack_struct hS hd, inst_struct hS hd,
        List.map_congr_left fun c hc => hkids c (readChildren_subset flat c hc)]
      cases flat with
      | con home n args =>
        show Ty.con home n _ = Ty.con _ n _
        rw [Subst.home_named hd, Val.toTys_eq, List.map_map]
        rfl
      | tuple elems =>
        show Ty.tuple _ = Ty.tuple _
        rw [Val.toTys_eq, List.map_map]
        rfl
      | record fields ext => cases hplain v _ hd
      | _ => rfl
    | _ => rw [readBack_var hS hd rfl, inst_var hS hd rfl]; rfl

/-- The rigid variables of a final store, named after the rigid classes that they come from. -/
theorem exists_rigid_name {P : Store → VarId → VarId → Prop} {stack : Pending} {F : Store}
    (h : Solves ι P S stack F) : ∃ name : VarId → ℕ, ∀ {v d}, F.desc v = some d →
      d.isRigid = true → ∃ u d', S.desc u = some d' ∧ d'.isRigid = true ∧ F.Same v u ∧
        name (F.root v) = S.root u := by
  classical
  let Origin : VarId → VarId → Prop := fun r u =>
    ∃ d, S.desc u = some d ∧ d.isRigid = true ∧ F.root u = r
  refine ⟨fun r => if hr : ∃ u, Origin r u then S.root hr.choose else 0, fun {v d} hd hr => ?_⟩
  obtain ⟨u, d', hd', hr', hvu⟩ := h.rigid_iff.2 hd hr
  have hex : ∃ u, Origin (F.root v) u := ⟨u, d', hd', hr', hvu.symm⟩
  obtain ⟨d'', hd'', hr'', hroot⟩ := hex.choose_spec
  exact ⟨hex.choose, d'', hd'', hr'', hroot.symm, dif_pos hex⟩

/-- The final store of a run over a plain store gives a substitution that leaves the rigid variables
as they are. -/
theorem exists_fixing {F : Store} {a b : VarId} (h : Solves ι (fun _ _ _ => True) S [(a, b)] F)
    (hS : WellFounded (Child S)) (hF : WellFounded (Child F)) (hplain : Plain S) :
    ∃ θ : Subst, θ.Admissible ι S ∧ θ.Fixes S ∧ inst hS θ a = inst hS θ b := by
  obtain ⟨name, hname⟩ := exists_rigid_name h
  have hadm : (Subst.named F name).Admissible ι F := by
    refine Subst.admissible_named fun hv hw hr hr' heq => ?_
    obtain ⟨u, _, -, -, hvu, hnu⟩ := hname hv hr
    obtain ⟨u', _, -, -, hwu', hnu'⟩ := hname hw hr'
    have huu' : S.Same u u' := hnu.symm.trans (heq.trans hnu')
    exact hvu.trans ((h.same_mono huu').trans hwu'.symm)
  obtain ⟨hsol, hpair⟩ := h.backward hplain.tailsOk (hadm.sol hF)
  refine ⟨.ofSol hsol, Subst.admissible_ofSol hsol, fun v d hd hr => ?_, ?_⟩
  · obtain ⟨d', hd', hr'⟩ := h.rigid_iff.1 hd hr
    obtain ⟨u, d'', hu, hru, hvu, hnu⟩ := hname hd' hr'
    have hns : d'.isStructure = false := by
      cases d' <;> first | rfl | cases hr'
    have hval : inst hF (.named F name) (S.root v) = .atom (S.root u) := by
      rw [hsol.same (S.root_root v), inst_var hF hd' hns]
      exact congrArg Val.atom hnu
    have hsame : S.Same v u := hsol.apart hd hu hr hru ((hadm.sol hF).same hvu)
    show inst hF (.named F name) (S.root v) = .atom (S.root v)
    rw [hval, show S.root v = S.root u from hsame]
  · rw [inst_ofSol, inst_ofSol]
    exact hpair (a, b) (by simp)

section Runs

variable {uf : UnionFind Content} {budget : Budget} {a b : VarId} {θ : Subst}

/-- A pair that an admissible substitution makes equal unifies, and the substitution factors through
the final store. -/
theorem unify_of_unifier (hS : Scoped uf.view) (hac : WellFounded (Child uf.view))
    (hplain : Plain uf.view) (ha : a < uf.view.size) (hb : b < uf.view.size)
    (hbud : budget.isUnbounded) (span : Span) (hθ : θ.Admissible ι uf.view)
    (hab : inst hac θ a = inst hac θ b) : ∃ n uf',
      unify n uf budget ι span a b = .ok (uf', budget) ∧
        ∀ hF : WellFounded (Child uf'.view), ∃ τ : Subst, τ.Admissible ι uf'.view ∧
          ∀ v < uf.view.size, inst hac θ v = inst hF τ v := by
  have hsolved : Solved ι (fun S _ => Plain S) uf.view (inst hac θ) [(a, b)] :=
    ⟨hS, by simpa [InRange] using ⟨ha, hb⟩, hθ.sol hac, by simpa using hab, hplain⟩
  obtain ⟨n, ⟨uf', ρ', hok, hfollows⟩ | ⟨-, hfalse⟩⟩ :=
    unify_progress (guides_plain ι) hbud hsolved span
  · refine ⟨n, uf', hok, fun hF => ⟨.ofSol hfollows.solved.sol, Subst.admissible_ofSol _,
      fun v hv => ?_⟩⟩
    rw [inst_ofSol, hfollows.agree v hv]
  · exact hfalse.elim

/-- Unification succeeds exactly when a substitution that leaves the rigid variables as they are
makes the pair equal. The new types are then the old ones under an admissible substitution that
makes the pair equal, and every other one factors through the new store. -/
theorem unify_most_general (hS : Scoped uf.view) (hac : WellFounded (Child uf.view))
    (hplain : Plain uf.view) (ha : a < uf.view.size) (hb : b < uf.view.size)
    (hbud : budget.isUnbounded) (span : Span) :
    ((∃ n uf' budget', unify n uf budget ι span a b = .ok (uf', budget')) ↔
      ∃ θ : Subst, θ.Admissible ι uf.view ∧ θ.Fixes uf.view ∧ inst hac θ a = inst hac θ b) ∧
    ∀ n uf' budget', unify n uf budget ι span a b = .ok (uf', budget') →
      ∃ hF : WellFounded (Child uf'.view),
        (∃ θ : Subst, θ.Admissible ι uf.view ∧ inst hac θ a = inst hac θ b ∧
          ∀ v < uf.view.size, readBack hF v = (inst hac θ v).toTy ∧
            ((readClasses uf'.view v).card ≤ ZONK_NODE_LIMIT → ∃ n uf'' budget'',
              zonk n uf' budget v = .ok ((inst hac θ v).toTy, uf'', budget''))) ∧
        ∀ θ : Subst, θ.Admissible ι uf.view → inst hac θ a = inst hac θ b →
          ∃ τ : Subst, τ.Admissible ι uf'.view ∧
            ∀ v < uf.view.size, inst hac θ v = inst hF τ v := by
  have hst : InRange uf.view [(a, b)] := by simpa [InRange] using ⟨ha, hb⟩
  have hfinal : ∀ {n uf' budget'}, unify n uf budget ι span a b = .ok (uf', budget') →
      Solves ι (fun _ _ _ => True) uf.view [(a, b)] uf'.view ∧ Scoped uf'.view ∧
        WellFounded (Child uf'.view) := by
    intro n uf' budget' hok
    have hrun := unify_solves (P := fun _ _ _ => True) hS ha hb (fun _ _ _ _ _ => trivial) hok
    have hF := (hrun.scoped hS hst).1
    have hsafe := (hrun.of_plain hplain).1
    exact ⟨hrun, hF, (acyclic_iff hF).1 (hsafe.acyclic hS hst ((acyclic_iff hS).2 hac))⟩
  refine ⟨⟨?_, ?_⟩, fun n uf' budget' hok => ?_⟩
  · rintro ⟨n, uf', budget', hok⟩
    obtain ⟨hrun, -, hF⟩ := hfinal hok
    exact exists_fixing hrun hac hF hplain
  · rintro ⟨θ, hθ, -, hab⟩
    obtain ⟨n, uf', hok, -⟩ := unify_of_unifier hS hac hplain ha hb hbud span hθ hab
    exact ⟨n, uf', budget, hok⟩
  obtain ⟨hrun, hscope, hF⟩ := hfinal hok
  refine ⟨hF, ?_, fun θ hθ hab => ?_⟩
  · obtain ⟨hsol, hpair⟩ := hrun.backward hplain.tailsOk (sol_named hF)
    have hread : ∀ v, readBack hF v = (inst hac (.ofSol hsol) v).toTy := fun v => by
      rw [inst_ofSol, readBack_eq_inst hF (hrun.of_plain hplain).2]
    refine ⟨.ofSol hsol, Subst.admissible_ofSol hsol, ?_, fun v hv => ⟨hread v, fun hlimit => ?_⟩⟩
    · rw [inst_ofSol, inst_ofSol]
      exact hpair (a, b) (by simp)
    · rw [← hread v]
      exact zonk_eq_readBack hscope hF (hv.trans_le (hrun.scoped hS hst).2) hbud hlimit
  · obtain ⟨k, uf'', hok', hτ⟩ := unify_of_unifier hS hac hplain ha hb hbud span hθ hab
    have hsame := unify_unique (Run.ended_of_ok hok) (Run.ended_of_ok hok')
    cases (hok.symm.trans hsame).trans hok'
    exact hτ hF

end Runs

end Main

/-! ### Comparing the homes pair by pair -/

/-- The types agree when the homes of constructors are compared at each place by itself. -/
inductive Agree (ι : Interner) : Ty → Ty → Prop
  | var {raw} : Agree ι (.var raw) (.var raw)
  | fn {a a' r r'} : Agree ι a a' → Agree ι r r' → Agree ι (.fn a r) (.fn a' r')
  | con {m m' n n' as as'} : conHeadsCompatible ι m n m' n' = true → List.Forall₂ (Agree ι) as as' →
      Agree ι (.con m n as) (.con m' n' as')
  | unit : Agree ι .unit .unit
  | tuple {es es'} : List.Forall₂ (Agree ι) es es' → Agree ι (.tuple es) (.tuple es')

/-- The names of a constructor, of the root of the standard library and of two of its modules. -/
def homesInterner : Interner := ⟨["T", "Ipe", "A", "B"]⟩

/-- A pair of one constructor of the empty home with itself, and a pair of the constructors of that
name of two homes. -/
def homesStore : UnionFind Content :=
  .ofContents [.struct (.con [] 0 []), .struct (.con [1, 2] 0 []), .struct (.con [1, 3] 0 []),
    .struct (.tuple [0, 0]), .struct (.tuple [1, 2])]

theorem child_homesStore {r v : VarId} (h : Child homesStore.view r v) : r < 3 ∧ 3 ≤ v := by
  obtain ⟨d, hd, c, hc, rfl⟩ := h
  rw [homesStore, UnionFind.ofContents_desc] at hd
  rw [homesStore, UnionFind.ofContents_root]
  rcases v with _ | _ | _ | _ | _ | v <;> cases hd
  · cases hc
  · cases hc
  · cases hc
  · exact ⟨by rcases List.mem_pair.1 hc with rfl | rfl <;> decide, by decide⟩
  · exact ⟨by rcases List.mem_pair.1 hc with rfl | rfl <;> decide, by decide⟩

theorem wellFounded_homesStore : WellFounded (Child homesStore.view) := by
  refine wellFounded_of_acyclic (n := 3) (fun c v h => (child_homesStore h).1) fun v hv => ?_
  obtain ⟨c, -, hc⟩ := TransGen.tail'_iff.1 hv
  obtain ⟨d, hd, -⟩ := TransGen.head'_iff.1 hv
  exact absurd (child_homesStore hd).1 (Nat.not_lt.2 (child_homesStore hc).2)

theorem scoped_homesStore : Scoped homesStore.view := by
  intro v d hd c hc
  have h := (child_homesStore (child_of_mem hd hc)).1
  rw [homesStore, UnionFind.ofContents_root] at h
  exact h.trans (by decide)

theorem plain_homesStore : Plain homesStore.view := by
  intro v d hd
  rw [homesStore, UnionFind.ofContents_desc] at hd
  rcases v with _ | _ | _ | _ | _ | v <;> cases hd <;> rfl

/-- A constructor of the empty home unifies with the one of another home, so some substitution makes
the two equal. -/
theorem homes_unify : ∃ θ : Subst, θ.Admissible homesInterner homesStore.view ∧
    θ.Fixes homesStore.view ∧
    inst wellFounded_homesStore θ 0 = inst wellFounded_homesStore θ 1 := by
  have h := @unify_most_general homesInterner homesStore .unbounded 0 1 scoped_homesStore
    wellFounded_homesStore plain_homesStore (by decide) (by decide) rfl .dummy
  exact h.1.1 ⟨5, _, _, rfl⟩

/-- The types of the two pairs agree place by place, without any variable to substitute for, but do
not unify: the shared constructor would have to stand for those of two homes. -/
theorem compatible_homes_differ : Scoped homesStore.view ∧ Plain homesStore.view ∧
    (∃ hac : WellFounded (Child homesStore.view),
      Agree homesInterner (readBack hac 3) (readBack hac 4)) ∧
    ∀ n r, unify n homesStore .unbounded homesInterner .dummy 3 4 ≠ .ok r := by
  have hac := wellFounded_homesStore
  refine ⟨scoped_homesStore, plain_homesStore, ⟨hac, ?_⟩, fun n r hok => ?_⟩
  · have hcon : ∀ {v home}, homesStore.view.desc v = some (.struct (.con home 0 [])) →
        readBack hac v = .con home 0 [] := fun hd => readBack_struct hac hd
    have htuple : ∀ {v c c'}, homesStore.view.desc v = some (.struct (.tuple [c, c'])) →
        readBack hac v = .tuple [readBack hac c, readBack hac c'] := fun hd => readBack_struct hac hd
    have h₀ := hcon (v := 0) rfl
    have h₁ := hcon (v := 1) rfl
    have h₂ := hcon (v := 2) rfl
    have h₃ := htuple (v := 3) rfl
    have h₄ := htuple (v := 4) rfl
    rw [h₃, h₄, h₀, h₁, h₂]
    exact .tuple (.cons (.con (by decide) .nil) (.cons (.con (by decide) .nil) .nil))
  · obtain ⟨e, he⟩ : ∃ e, unify 5 homesStore .unbounded homesInterner .dummy 3 4 =
      .error (.diag e) := ⟨_, rfl⟩
    have hsame := unify_unique (Run.ended_of_ok hok) (Run.ended_of_diag he)
    cases (hok.symm.trans hsame).trans he

end IpeLang.Types
