import IpeLang.Types.Solution

/-!
# Substitutions

A solution of an acyclic store is the store read under a substitution, which says what each variable
stands for. A constructor of the empty home may stand for those of several homes, so it also says
for which one each constructor does.

* `inst hS θ v`: the type of `v` under the substitution `θ`;
* `Subst.Admissible.sol`, `Subst.admissible_ofSol`: the admissible substitutions are the solutions;
* `Subst.named`: every acyclic store has a solution, in which a variable stands for itself.
-/

namespace IpeLang.Types

open IpeLang.Lib Relation

/-! ### Substitutions -/

/-- A substitution: the type of each variable, and the home that each constructor stands for. -/
structure Subst where
  val : VarId → Val
  home : VarId → List Symbol
  canonical : ∀ v, (val v).Canonical

/-- A structure over the types of its children. -/
def FlatType.over (home : List Symbol) (ρ : VarId → Val) : FlatType → Val
  | .fn a r => .fn (ρ a) (ρ r)
  | .con _ name args => .con home name (args.map ρ)
  | .unit => .unit
  | .tuple elems => .tuple (elems.map ρ)
  | .record fields ext => .recordOf (fields.mapValues ρ) (ρ ext)
  | .emptyRecord => .emptyRecord

/-- The type of `v` under a substitution, given the types of its children. -/
def instWith (S : Store) (θ : Subst) (ρ : VarId → Val) (v : VarId) : Val :=
  match S.desc v with
  | some (.struct flat) => flat.over (θ.home (S.root v)) ρ
  | _ => θ.val (S.root v)

/-- The home that a constructor stands for. -/
def Val.head : Val → List Symbol
  | .con home _ _ => home
  | _ => []

instance : Inhabited Val := ⟨.unit⟩

/-- The type of `v` under a substitution. -/
noncomputable def inst {S : Store} (hS : WellFounded (Child S)) (θ : Subst) (v : VarId) : Val :=
  unfold hS (fun ρ v => instWith S θ (fun c => ρ (S.root c)) v) v

/-- The homes are ones that the constructors may stand for, the types are ones that the descriptors
of the variables allow, and distinct rigid variables stand for distinct atoms. -/
structure Subst.Admissible (ι : Interner) (S : Store) (θ : Subst) : Prop where
  home : ∀ {v home name args}, S.desc v = some (.struct (.con home name args)) →
    HomeOf ι name home (θ.home (S.root v))
  var : ∀ {v d}, S.desc v = some d → d.isStructure = false → Models ι θ.val d (θ.val (S.root v))
  apart : ∀ {v w d d'}, S.desc v = some d → S.desc w = some d' → d.isRigid = true →
    d'.isRigid = true → θ.val (S.root v) = θ.val (S.root w) → S.Same v w

/-- The substitution leaves the rigid variables as they are. -/
def Subst.Fixes (S : Store) (θ : Subst) : Prop :=
  ∀ v d, S.desc v = some d → d.isRigid = true → θ.val (S.root v) = .atom (S.root v)

section Inst

variable {ι : Interner} {S : Store} {θ : Subst} {v w : VarId} {d : Content} {flat : FlatType}
  {ρ ρ' : VarId → Val} {home : List Symbol}

theorem FlatType.over_congr (h : ∀ c ∈ flat.children, ρ c = ρ' c) :
    flat.over home ρ = flat.over home ρ' := by
  cases flat with
  | fn a r =>
    show Val.fn (ρ a) (ρ r) = Val.fn (ρ' a) (ρ' r)
    rw [h a (by simp [children]), h r (by simp [children])]
  | con m name args => exact congrArg (Val.con home name) (List.map_congr_left h)
  | tuple elems => exact congrArg Val.tuple (List.map_congr_left h)
  | record fields ext =>
    show Val.recordOf (fields.mapValues ρ) (ρ ext) = Val.recordOf (fields.mapValues ρ') (ρ' ext)
    rw [h ext (by simp [children]), mapValues_congr fun c hc => h c (by simp [children, hc])]
  | unit => rfl
  | emptyRecord => rfl

theorem instWith_determined (S : Store) (θ : Subst) :
    Determined (Child S) fun ρ v => instWith S θ (fun c => ρ (S.root c)) v := by
  intro v f g h
  rcases hd : S.desc v with _ | ⟨_ | _ | _ | flat⟩ <;> simp only [instWith, hd]
  exact FlatType.over_congr fun c hc => h _ ⟨_, hd, c, hc, rfl⟩

theorem inst_root (hS : WellFounded (Child S)) (θ : Subst) (v : VarId) :
    inst hS θ (S.root v) = inst hS θ v := by
  have h : ∀ ρ, instWith S θ ρ (S.root v) = instWith S θ ρ v := fun ρ => by
    simp only [instWith, S.desc_root, S.root_root]
  rw [inst, inst, unfold_eq hS (instWith_determined S θ), h,
    ← unfold_eq hS (instWith_determined S θ)]

/-- The recursion. -/
theorem inst_eq (hS : WellFounded (Child S)) (θ : Subst) (v : VarId) :
    inst hS θ v = instWith S θ (inst hS θ) v := by
  have h : (fun c => inst hS θ (S.root c)) = inst hS θ := funext (inst_root hS θ)
  conv_lhs => rw [inst, unfold_eq hS (instWith_determined S θ)]
  exact congrArg (fun ρ => instWith S θ ρ v) h

theorem inst_struct (hS : WellFounded (Child S)) (hd : S.desc v = some (.struct flat)) :
    inst hS θ v = flat.over (θ.home (S.root v)) (inst hS θ) := by
  rw [inst_eq, instWith, hd]

theorem inst_var (hS : WellFounded (Child S)) (hd : S.desc v = some d)
    (hns : d.isStructure = false) : inst hS θ v = θ.val (S.root v) := by
  rw [inst_eq, instWith, hd]
  cases d with
  | struct flat => cases hns
  | _ => rfl

/-! ### Substitutions and solutions -/

theorem FlatType.reads_over
    (h : ∀ {m name args}, flat = .con m name args → HomeOf ι name m home) :
    Reads ι ρ flat (flat.over home ρ) := by
  cases flat with
  | con m name args => exact ⟨home, h rfl, rfl⟩
  | _ => rfl

theorem Reads.eq_over {x : Val} (h : Reads ι ρ flat x) : x = flat.over x.head ρ := by
  cases flat with
  | con m name args =>
    obtain ⟨m', -, rfl⟩ := h
    rfl
  | _ => exact h

theorem FlatType.isAtom_over : (flat.over home ρ).isAtom = false := by
  cases flat with
  | record fields ext =>
    show (Val.recordOf (fields.mapValues ρ) (ρ ext)).isAtom = false
    unfold Val.recordOf
    split_ifs with hfs
    · rfl
    · rw [Val.record_of_nonempty (by simpa using hfs)]
      rfl
  | _ => rfl

theorem FlatType.canonical_over (h : ∀ c ∈ flat.children, (ρ c).Canonical) :
    (flat.over home ρ).Canonical := by
  cases flat with
  | record fields ext => exact Val.canonical_recordOf (h ext (by simp [children])) _
  | _ => exact Val.canonical_of_not_row rfl

theorem canonical_inst (hS : WellFounded (Child S)) (θ : Subst) (v : VarId) :
    (inst hS θ v).Canonical := by
  induction v using hS.induction with
  | _ v ih =>
    rcases hd : S.desc v with _ | d
    · rw [inst_eq, instWith, hd]
      exact θ.canonical _
    cases d with
    | struct flat =>
      rw [inst_struct hS hd]
      refine FlatType.canonical_over fun c hc => ?_
      rw [← inst_root]
      exact ih _ ⟨_, hd, c, hc, rfl⟩
    | _ =>
      rw [inst_var hS hd rfl]
      exact θ.canonical _

/-- The types under an admissible substitution solve the store. -/
theorem Subst.Admissible.sol (hS : WellFounded (Child S)) (h : θ.Admissible ι S) :
    Sol ι S (inst hS θ) := by
  have hrigid : ∀ {v d}, S.desc v = some d → d.isRigid = true →
      inst hS θ v = θ.val (S.root v) := fun hd hr => by
    refine inst_var hS hd ?_
    cases ‹Content› <;> first | rfl | cases hr
  refine ⟨canonical_inst hS θ, fun {v w} hvw => ?_, fun {v d} hd => ?_,
    fun {v w d d'} hv hw hr hr' heq => h.apart hv hw hr hr' ?_⟩
  · rw [← inst_root hS θ v, show S.root v = S.root w from hvw, inst_root]
  · by_cases hst : d.isStructure = false
    · rw [inst_var hS hd hst]
      refine (h.var hd hst).congr fun c hc => ?_
      rw [Content.children_of_not_isStructure hst] at hc
      cases hc
    cases d with
    | struct flat =>
      rw [Models, inst_struct hS hd]
      exact FlatType.reads_over fun he => h.home (he ▸ hd)
    | _ => exact absurd rfl hst
  · rw [← hrigid hv hr, ← hrigid hw hr', heq]

/-- The substitution of a solution. -/
def Subst.ofSol (h : Sol ι S ρ) : Subst := ⟨ρ, fun v => (ρ v).head, h.canonical⟩

theorem inst_ofSol (hS : WellFounded (Child S)) (h : Sol ι S ρ) (v : VarId) :
    inst hS (.ofSol h) v = ρ v := by
  have hroot : ∀ v, ρ (S.root v) = ρ v := fun v => h.same (S.root_root v)
  induction v using hS.induction with
  | _ v ih =>
    rcases hd : S.desc v with _ | d
    · rw [inst_eq, instWith, hd]
      exact hroot v
    cases d with
    | struct flat =>
      have hkids : ∀ c ∈ flat.children, inst hS (.ofSol h) c = ρ c := fun c hc => by
        rw [← inst_root, ih _ ⟨_, hd, c, hc, rfl⟩, hroot]
      rw [inst_struct hS hd, FlatType.over_congr hkids]
      show flat.over (ρ (S.root v)).head ρ = ρ v
      rw [hroot]
      exact (Reads.eq_over (h.models hd)).symm
    | _ =>
      rw [inst_var hS hd rfl]
      exact hroot v

theorem Subst.admissible_ofSol (h : Sol ι S ρ) : (Subst.ofSol h).Admissible ι S := by
  have hroot : ∀ v, ρ (S.root v) = ρ v := fun v => h.same (S.root_root v)
  refine ⟨fun {v home name args} hd => ?_, fun {v d} hd _ => ?_,
    fun {v w d d'} hv hw hr hr' heq => h.apart hv hw hr hr' ?_⟩
  · show HomeOf ι name home (ρ (S.root v)).head
    obtain ⟨m, hm, hv⟩ := h.models hd
    rw [hroot, hv]
    exact hm
  · show Models ι ρ d (ρ (S.root v))
    rw [hroot]
    exact h.models hd
  · rw [← hroot v, ← hroot w]
    exact heq

end Inst

/-! ### Variables that stand for themselves -/

/-- The substitution that gives each class the atom that `name` says, and each constructor the home
that it is written with. -/
def Subst.named (S : Store) (name : VarId → ℕ) : Subst where
  val v := .atom (name v)
  home v :=
    match S.desc v with
    | some (.struct (.con home _ _)) => home
    | _ => []
  canonical _ := Val.canonical_of_not_row rfl

section Named

variable {ι : Interner} {S : Store} {name : VarId → ℕ}

theorem Subst.home_named {v : VarId} {home : List Symbol} {n : Symbol} {args : List VarId}
    (hd : S.desc v = some (.struct (.con home n args))) :
    (Subst.named S name).home (S.root v) = home := by
  simp only [named, S.desc_root, hd]

/-- A substitution by atoms is admissible when it keeps the rigid variables apart. -/
theorem Subst.admissible_named (h : ∀ {v w d d'}, S.desc v = some d → S.desc w = some d' →
    d.isRigid = true → d'.isRigid = true → name (S.root v) = name (S.root w) → S.Same v w) :
    (Subst.named S name).Admissible ι S := by
  refine ⟨fun hd => Or.inl (home_named hd), fun {v d} _ hst => ?_,
    fun hv hw hr hr' heq => h hv hw hr hr' (Val.atom.inj heq)⟩
  cases d with
  | struct flat => cases hst
  | super r bounds => cases r <;> rfl
  | _ => trivial

/-- The solution of an acyclic store in which every variable stands for itself. -/
theorem sol_named (hS : WellFounded (Child S)) : Sol ι S (inst hS (.named S id)) := by
  refine Subst.Admissible.sol hS (Subst.admissible_named fun {v w _ _} _ _ _ _ heq => ?_)
  exact heq

/-- The acyclic stores are those with a solution. -/
theorem acyclic_iff_exists_sol (ι : Interner) (hS : Scoped S) : Acyclic S ↔ ∃ ρ, Sol ι S ρ :=
  ⟨fun h => ⟨_, sol_named ((acyclic_iff hS).1 h)⟩, fun h => h.choose_spec.acyclic⟩

end Named

end IpeLang.Types
