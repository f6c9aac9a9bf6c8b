import IpeLang.Types.Instance
import IpeLang.Types.Progress

/-!
# The order of the constraints

Whether a list of constraints can be solved depends on their order in four ways
(`order_matters`): a variable that is super-typed and flexible is pinned without an occurs check, a
table of primitives knows only the empty home, an open record without fields is the same as its
extension, and a rigid variable takes up the obligations of the first super-typed class that it
meets, but refuses a second one when there are obligations that need a concrete type. Without
these the order does not matter (`solve_order_independent`).

* `Tracks S₀ S`: how the descriptors of a store of a run from `S₀` come from those of `S₀`;
* `Undispatched S₀ S`: what every store of a run that goes on satisfies;
* `Uncontended S F`: no rigid variable takes up a second class.
-/

namespace IpeLang.Types

open IpeLang.Lib Relation

/-! ### Obligations that need a concrete type -/

/-- Whether a variable owes an operation that is chosen by its concrete type. -/
def TyBounds.owes (b : TyBounds) : Bool := b.hasNumber || b.hasAppend

theorem TyBounds.owes_union (b c : TyBounds) : (b.union c).owes = (b.owes || c.owes) := by
  simp only [owes, hasNumber, hasAppend, has_union]
  cases b.has (ADD ||| SUB ||| MUL) <;> cases c.has (ADD ||| SUB ||| MUL) <;>
    cases b.has APPEND <;> rfl

theorem joinContent_super {r₁ r₂ : Bool} {b₁ b₂ : TyBounds} {keep : Content}
    (h : joinContent (.super r₁ b₁) (.super r₂ b₂) = some keep) :
    keep = .super (r₁ || r₂) (b₁.union b₂) ∧ (r₁ && r₂) = false ∧
      (r₁ ≠ r₂ → b₁.owes = false ∧ b₂.owes = false) := by
  simp only [joinContent] at h
  split_ifs at h with hc
  cases h
  simp only [Bool.and_eq_true, Bool.not_eq_true', Bool.or_eq_true, beq_iff_eq] at hc
  refine ⟨rfl, hc.1, fun hne => ?_⟩
  have hd := hc.2.resolve_left hne
  simp only [TyBounds.owes, Bool.or_eq_false_iff] at hd ⊢
  exact ⟨⟨hd.1.1.1, hd.1.2⟩, hd.1.1.2, hd.2⟩

/-! ### Where descriptors come from -/

/-- The descriptor of a class that holds a variable of the bounds `b`, rigid when `r` is. -/
def Content.Bears (r : Bool) (b : TyBounds) : Content → Prop
  | .struct _ => r = false
  | .super r' b' => (r = true → r' = true) ∧ (b.owes = true → b'.owes = true)
  | _ => False

/-- The class of `v` holds a class that had the descriptor `d` in the store `S₀`. -/
def Holds (S₀ S : Store) (v : VarId) (d : Content) : Prop :=
  ∃ u, S.Same u v ∧ S₀.desc u = some d

/-- What the class of `v` must hold for its descriptor to be this one. -/
def Origin (S₀ S : Store) (v : VarId) : Content → Prop
  | .rigid => Holds S₀ S v .rigid
  | .super r b =>
    (b.owes = true → ∃ r₀ b₀, b₀.owes = true ∧ Holds S₀ S v (.super r₀ b₀)) ∧
      (r = false → ∃ b₀, Holds S₀ S v (.super false b₀)) ∧
      (r = true → (∃ b₀, Holds S₀ S v (.super true b₀)) ∨
        Holds S₀ S v .rigid ∧ ∃ b₀, Holds S₀ S v (.super false b₀))
  | _ => True

/-- How the descriptors of `S` come from those of `S₀`. -/
structure Tracks (S₀ S : Store) : Prop where
  same : ∀ {u v}, S₀.Same u v → S.Same u v
  bears : ∀ {u r b}, S₀.desc u = some (.super r b) → ∃ d, S.desc u = some d ∧ d.Bears r b
  origin : ∀ {v d}, S.desc v = some d → Origin S₀ S v d

/-- A rigid super-typed variable and a flexible one are in one class only if no variable of it owes
an operation that needs a concrete type. -/
def Undispatched (S₀ S : Store) : Prop :=
  ∀ {u₁ u₂ u₃ b₁ b₂ r₃ b₃}, S₀.desc u₁ = some (.super true b₁) →
    S₀.desc u₂ = some (.super false b₂) → S₀.desc u₃ = some (.super r₃ b₃) → b₃.owes = true →
    S.Same u₁ u₂ → ¬ S.Same u₁ u₃

section Tracks

variable {ι : Interner} {S₀ S S' F : Store} {a b v w : VarId} {ca cb d : Content} {m : Meet}
  {r r₁ r₂ : Bool} {b₁ b₂ : TyBounds} {stack : Pending} {P : Store → VarId → VarId → Prop}

theorem Holds.mono (h : Holds S₀ S v d) (hmono : ∀ {u w}, S.Same u w → S'.Same u w)
    (hvw : S'.Same v w) : Holds S₀ S' w d := by
  obtain ⟨u, hu, hd⟩ := h
  exact ⟨u, (hmono hu).trans hvw, hd⟩

theorem Origin.mono (h : Origin S₀ S v d) (hmono : ∀ {u w}, S.Same u w → S'.Same u w)
    (hvw : S'.Same v w) : Origin S₀ S' w d := by
  have lift : ∀ {d}, Holds S₀ S v d → Holds S₀ S' w d := fun h => h.mono hmono hvw
  cases d with
  | rigid => exact lift h
  | super r b =>
    obtain ⟨howes, hflex, hrigid⟩ := h
    refine ⟨fun ho => ?_, fun hr => ?_, fun hr => ?_⟩
    · obtain ⟨r₀, b₀, hb₀, hh⟩ := howes ho
      exact ⟨r₀, b₀, hb₀, lift hh⟩
    · obtain ⟨b₀, hh⟩ := hflex hr
      exact ⟨b₀, lift hh⟩
    · rcases hrigid hr with ⟨b₀, hh⟩ | ⟨hh, b₀, hh'⟩
      · exact Or.inl ⟨b₀, lift hh⟩
      · exact Or.inr ⟨lift hh, b₀, lift hh'⟩
  | _ => trivial

/-- The merged descriptor comes from the two. -/
theorem Meets.origin (h : Meets ι S ca cb m) (ha : Origin S₀ S' v ca) (hb : Origin S₀ S' v cb) :
    Origin S₀ S' v m.keep := by
  cases h with
  | flat hf =>
    cases hf with
    | record _ _ =>
      unfold rowsMeet
      split <;> trivial
    | _ => trivial
  | bindLeft => trivial
  | bindRight => trivial
  | pinLeft _ => trivial
  | pinRight _ => trivial
  | join hca hcb hj =>
    cases ca with
    | struct f => cases hca
    | flex =>
      cases cb with
      | struct f => cases hcb
      | _ =>
        cases hj
        exact hb
    | rigid =>
      cases cb with
      | flex =>
        cases hj
        exact ha
      | super r b =>
        cases r <;> cases hj
        exact ⟨hb.1, by simp, fun _ => Or.inr ⟨ha, hb.2.1 rfl⟩⟩
      | _ => cases hj
    | super r₁ b₁ =>
      cases cb with
      | struct f => cases hcb
      | flex =>
        cases r₁ <;> cases hj <;> exact ha
      | rigid =>
        cases r₁ <;> cases hj
        exact ⟨ha.1, by simp, fun _ => Or.inr ⟨hb, ha.2.1 rfl⟩⟩
      | super r₂ b₂ =>
        obtain ⟨hkeep, -, -⟩ := joinContent_super hj
        rw [hkeep]
        refine ⟨fun ho => ?_, fun hr => ?_, fun hr => ?_⟩
        · rw [TyBounds.owes_union, Bool.or_eq_true] at ho
          exact ho.elim ha.1 hb.1
        · exact ha.2.1 (Bool.or_eq_false_iff.1 hr).1
        · exact ((Bool.or_eq_true _ _).mp hr).elim ha.2.2 hb.2.2

theorem Meets.origin_minted (h : Meets ι S ca cb m) : ∀ d ∈ m.minted, Origin S₀ S' v d := by
  cases h with
  | flat hf =>
    cases hf with
    | record _ _ =>
      unfold rowsMeet
      split <;> simp [Origin]
    | _ => simp
  | _ => simp

/-- The merged descriptor bears what the two bore. -/
theorem Meets.bears (h : Meets ι S ca cb m) (hx : ca.Bears r b₁ ∨ cb.Bears r b₁) :
    m.keep.Bears r b₁ := by
  have hstruct : ∀ {r' : Bool} {b' : TyBounds}, r' = false →
      Content.Bears r b₁ (.super r' b') → r = false := by
    rintro r' b' rfl hb
    cases r
    · rfl
    · exact absurd (hb.1 rfl) (by simp)
  cases h with
  | flat hf =>
    have hr : r = false := by
      rcases hx with hx | hx <;> exact hx
    cases hf with
    | record _ _ =>
      unfold rowsMeet
      split <;> exact hr
    | _ => exact hr
  | bindLeft =>
    rcases hx with hx | hx
    · exact hx.elim
    · exact hx
  | bindRight =>
    rcases hx with hx | hx
    · exact hx
    · exact hx.elim
  | pinLeft _ =>
    rcases hx with hx | hx
    · exact hstruct rfl hx
    · exact hx
  | pinRight _ =>
    rcases hx with hx | hx
    · exact hx
    · exact hstruct rfl hx
  | join hca hcb hj =>
    cases ca with
    | struct f => cases hca
    | flex =>
      cases cb with
      | struct f => cases hcb
      | super r₂ b₂ =>
        cases hj
        exact hx.resolve_left id
      | _ => exact (hx.elim id id).elim
    | rigid =>
      cases cb with
      | struct f => cases hcb
      | super r₂ b₂ =>
        cases r₂ <;> cases hj
        exact ⟨fun _ => rfl, (hx.resolve_left id).2⟩
      | _ => exact (hx.elim id id).elim
    | super r₁ b₁ =>
      cases cb with
      | struct f => cases hcb
      | flex =>
        cases r₁ <;> cases hj <;> exact hx.resolve_right id
      | rigid =>
        cases r₁ <;> cases hj
        exact ⟨fun _ => rfl, (hx.resolve_right id).2⟩
      | super r₂ b₂ =>
        obtain ⟨hkeep, -, -⟩ := joinContent_super hj
        rw [hkeep]
        rcases hx with hx | hx
        · exact ⟨fun hr => by simp [hx.1 hr], fun ho => by simp [TyBounds.owes_union, hx.2 ho]⟩
        · exact ⟨fun hr => by simp [hx.1 hr], fun ho => by simp [TyBounds.owes_union, hx.2 ho]⟩

/-- A class with a rigid super-typed variable meets one with a super-typed variable only if neither
owes anything that needs a concrete type. -/
theorem Meets.not_owes (h : Meets ι S ca cb m)
    (hx : ca.Bears true b₁ ∧ cb.Bears r b₂ ∨ cb.Bears true b₁ ∧ ca.Bears r b₂) :
    (∀ {r b}, ca.Bears r b → b.owes = false) ∧ ∀ {r b}, cb.Bears r b → b.owes = false := by
  have hsuper : ∀ {r₁ r₂ : Bool} {b₁ b₂ : TyBounds} {keep : Content},
      joinContent (.super r₁ b₁) (.super r₂ b₂) = some keep → r₁ = true ∨ r₂ = true →
      b₁.owes = false ∧ b₂.owes = false := by
    intro r₁ r₂ b₁ b₂ keep hj hr
    obtain ⟨-, hboth, hne⟩ := joinContent_super hj
    refine hne ?_
    rintro rfl
    rcases hr with rfl | rfl <;> cases hboth
  cases h with
  | flat _ => rcases hx with ⟨hx, -⟩ | ⟨hx, -⟩ <;> cases hx
  | bindLeft => rcases hx with ⟨hx, -⟩ | ⟨hx, -⟩ <;> cases hx
  | bindRight => rcases hx with ⟨hx, -⟩ | ⟨hx, -⟩ <;> cases hx
  | pinLeft _ =>
    rcases hx with ⟨hx, -⟩ | ⟨hx, -⟩
    · cases hx.1 rfl
    · cases hx
  | pinRight _ =>
    rcases hx with ⟨hx, -⟩ | ⟨hx, -⟩
    · cases hx
    · cases hx.1 rfl
  | join hca hcb hj =>
    cases ca with
    | struct f => cases hca
    | super r₁ bs₁ =>
      cases cb with
      | struct f => cases hcb
      | super r₂ bs₂ =>
        obtain ⟨h₁, h₂⟩ := hsuper hj
          (hx.imp (fun hx => hx.1.1 rfl) fun hx => hx.1.1 rfl)
        refine ⟨fun hb => ?_, fun hb => ?_⟩
        · exact Bool.eq_false_iff.2 fun ho => by simp [hb.2 ho] at h₁
        · exact Bool.eq_false_iff.2 fun ho => by simp [hb.2 ho] at h₂
      | _ => rcases hx with ⟨-, hx⟩ | ⟨hx, -⟩ <;> exact hx.elim
    | _ => rcases hx with ⟨hx, -⟩ | ⟨-, hx⟩ <;> exact hx.elim

theorem Tracks.refl (S : Store) : Tracks S S := by
  refine ⟨id, fun hu => ⟨_, hu, id, id⟩, fun {v d} hd => ?_⟩
  have hself : Holds S S v d := ⟨v, ClassStore.Same.refl S v, hd⟩
  cases d with
  | rigid => exact hself
  | super r b =>
    refine ⟨fun ho => ⟨r, b, ho, hself⟩, ?_, ?_⟩
    · rintro rfl
      exact ⟨b, hself⟩
    · rintro rfl
      exact Or.inl ⟨b, hself⟩
  | _ => trivial

theorem undispatched_refl (S : Store) : Undispatched S S := by
  intro u₁ u₂ u₃ b₁ b₂ r₃ b₃ h₁ h₂ _ _ h₁₂
  rw [h₁₂.desc_eq, h₂] at h₁
  cases h₁

section Step

variable (hmerge : S.Merge S' a b m.keep m.minted) (ha : S.desc a = some ca)
  (hb : S.desc b = some cb) (hmeet : Meets ι S ca cb m)
include hmerge ha hb hmeet

theorem Tracks.step (h : Tracks S₀ S) : Tracks S₀ S' := by
  refine ⟨fun huv => hmerge.same_mono (h.same huv), fun {u r bs} hu => ?_, fun {v d} hd => ?_⟩
  · obtain ⟨d, hd, hbears⟩ := h.bears hu
    have hlt := ClassStore.lt_of_desc hd
    by_cases hua : S.Same u a
    · cases (hua.desc_eq.symm.trans hd).symm.trans ha
      exact ⟨_, hmerge.desc_merged hlt (Or.inl hua), hmeet.bears (Or.inl hbears)⟩
    by_cases hub : S.Same u b
    · cases (hub.desc_eq.symm.trans hd).symm.trans hb
      exact ⟨_, hmerge.desc_merged hlt (Or.inr hub), hmeet.bears (Or.inr hbears)⟩
    · exact ⟨d, (hmerge.desc_of_ne hlt hua hub).trans hd, hbears⟩
  · by_cases hv : v < S.size
    · by_cases hc : S.Same v a ∨ S.Same v b
      · cases (hmerge.desc_merged hv hc).symm.trans hd
        have hva : S'.Same a v :=
          (hmerge.same_iff.2 (Or.inr ⟨hc, Or.inl (ClassStore.Same.refl S a)⟩)).symm
        exact hmeet.origin ((h.origin ha).mono hmerge.same_mono hva)
          ((h.origin hb).mono hmerge.same_mono (hmerge.same_ab.symm.trans hva))
      · have hc' := not_or.1 hc
        rw [hmerge.desc_of_ne hv hc'.1 hc'.2] at hd
        exact (h.origin hd).mono hmerge.same_mono (ClassStore.Same.refl S' v)
    · obtain ⟨i, rfl⟩ := Nat.exists_eq_add_of_le (not_lt.1 hv)
      rw [hmerge.desc_new] at hd
      exact hmeet.origin_minted d (List.mem_of_getElem? hd)

theorem undispatched_of_merge (h : Tracks S₀ S) (hu : Undispatched S₀ S) : Undispatched S₀ S' := by
  intro u₁ u₂ u₃ b₁ b₂ r₃ b₃ h₁ h₂ h₃ ho h₁₂ h₁₃
  -- the side that a variable of the merged class is on, and what the descriptor of that side bears
  have hside : ∀ {u r bs}, S₀.desc u = some (.super r bs) → S.Same u a ∨ S.Same u b →
      S.Same u a ∧ ca.Bears r bs ∨ S.Same u b ∧ cb.Bears r bs := by
    intro u r bs hu hin
    obtain ⟨d, hd, hbears⟩ := h.bears hu
    rcases hin with hua | hub
    · cases (hua.desc_eq.symm.trans hd).symm.trans ha
      exact Or.inl ⟨hua, hbears⟩
    · cases (hub.desc_eq.symm.trans hd).symm.trans hb
      exact Or.inr ⟨hub, hbears⟩
  have hin : ∀ {x y}, S'.Same x y → ¬ S.Same x y → S.Same x a ∨ S.Same x b := fun hxy hne =>
    ((hmerge.same_iff.1 hxy).resolve_left hne).1
  have hin' : ∀ {x y}, S'.Same x y → S.Same x a ∨ S.Same x b → S.Same y a ∨ S.Same y b := by
    intro x y hxy hx
    rcases hmerge.same_iff.1 hxy with hs | ⟨-, hy⟩
    · exact hx.imp hs.symm.trans hs.symm.trans
    · exact hy
  have hin₁ : S.Same u₁ a ∨ S.Same u₁ b := by
    by_cases hs : S.Same u₁ u₂
    · exact hin h₁₃ (hu h₁ h₂ h₃ ho hs)
    · exact hin h₁₂ hs
  have hboth : ∀ {x}, (S.Same u₁ x ∧ S.Same u₂ x ∧ S.Same u₃ x) → False := fun hx =>
    hu h₁ h₂ h₃ ho (hx.1.trans hx.2.1.symm) (hx.1.trans hx.2.2.symm)
  have hno : ∀ {r b}, (ca.Bears true b₁ ∧ cb.Bears r b ∨ cb.Bears true b₁ ∧ ca.Bears r b) →
      ca.Bears r₃ b₃ ∨ cb.Bears r₃ b₃ → False := by
    intro r b hx h₃'
    obtain ⟨ho₁, ho₂⟩ := hmeet.not_owes hx
    rcases h₃' with h₃' | h₃'
    · simp [ho₁ h₃'] at ho
    · simp [ho₂ h₃'] at ho
  rcases hside h₁ hin₁ with ⟨s₁, t₁⟩ | ⟨s₁, t₁⟩ <;>
    rcases hside h₂ (hin' h₁₂ hin₁) with ⟨s₂, t₂⟩ | ⟨s₂, t₂⟩ <;>
    rcases hside h₃ (hin' h₁₃ hin₁) with ⟨s₃, t₃⟩ | ⟨s₃, t₃⟩
  · exact hboth ⟨s₁, s₂, s₃⟩
  · exact hno (Or.inl ⟨t₁, t₃⟩) (Or.inr t₃)
  · exact hno (Or.inl ⟨t₁, t₂⟩) (Or.inl t₃)
  · exact hno (Or.inl ⟨t₁, t₂⟩) (Or.inr t₃)
  · exact hno (Or.inr ⟨t₁, t₂⟩) (Or.inl t₃)
  · exact hno (Or.inr ⟨t₁, t₂⟩) (Or.inr t₃)
  · exact hno (Or.inr ⟨t₁, t₃⟩) (Or.inl t₃)
  · exact hboth ⟨s₁, s₂, s₃⟩

end Step

/-- What a run that ends well leaves behind. -/
theorem Solves.tracks (h : Solves ι P S stack F) (ht : Tracks S₀ S) (hu : Undispatched S₀ S) :
    Tracks S₀ F ∧ Undispatched S₀ F := by
  induction h with
  | done => exact ⟨ht, hu⟩
  | same _ _ ih => exact ih ht hu
  | met _ _ ha hb hm _ _ hmerge _ ih =>
    have hmeet := meet_inv hm
    exact ih (ht.step hmerge ha hb hmeet) (undispatched_of_merge hmerge ha hb hmeet ht hu)

end Tracks

/-! ### The tables of primitives -/

/-- Whether a table knows a constructor of this name and number of arguments. -/
def isTabled (ι : Interner) (name : Symbol) : ℕ → Bool
  | 0 => primSatisfies ORD_BORROW (ι.resolve name)
  | 1 => ι.resolve name == some "List"
  | _ => false

/-- A constructor that a table knows has the empty home. -/
def FlatType.HomeTabled (ι : Interner) : FlatType → Prop
  | .con home name args => isTabled ι name args.length = true → home = []
  | _ => True

/-- The constructors that a table knows have the empty home. -/
def HomesTabled (ι : Interner) (S : Store) : Prop :=
  ∀ v flat, S.desc v = some (.struct flat) → flat.HomeTabled ι

section Tables

variable {ι : Interner} {S S' : Store} {a b : VarId} {ca cb : Content} {m : Meet}
  {ρ : VarId → Val} {flat : FlatType} {x : Val} {bounds : TyBounds}

theorem primSatisfies_mono {table : List String} {prim : Option String}
    (hsub : ∀ s ∈ table, s ∈ ORD_BORROW) (h : primSatisfies table prim = true) :
    primSatisfies ORD_BORROW prim = true := by
  cases prim with
  | none => cases h
  | some s =>
    have hs : s ∈ table := by simpa [primSatisfies] using h
    simpa [primSatisfies] using hsub s hs

/-- A structure that may stand for a super-typed variable is one that it can be pinned to. -/
theorem superConcreteOk_of_headOk (hr : Reads ι ρ flat x) (hok : x.headOk ι bounds = true)
    (hhome : flat.HomeTabled ι) : superConcreteOk ι bounds flat = true := by
  have hsub : ∀ table ∈ [NUMBER, ORD_BORROW, COMPARABLE_KEY, APPEND_PRIM], ∀ s ∈ table,
      s ∈ ORD_BORROW := by decide
  have hfalse : ∀ {prim : Option String}, primSatisfies ORD_BORROW prim = false → ∀ table ∈
      [NUMBER, ORD_BORROW, COMPARABLE_KEY, APPEND_PRIM], primSatisfies table prim = false := by
    intro prim hp table ht
    refine Bool.eq_false_iff.2 fun h => ?_
    simp [primSatisfies_mono (hsub table ht) h] at hp
  cases flat with
  | fn a r =>
    rw [Reads] at hr
    rw [hr] at hok
    cases hok
  | con home name args =>
    obtain ⟨h, -, rfl⟩ := hr
    rcases home with _ | ⟨sym, home⟩
    · rcases args with _ | ⟨c, _ | ⟨c', args⟩⟩ <;>
        simpa [superConcreteOk, bareName, isBuiltinList, Val.headOk, Val.bareName, Val.isList]
          using hok
    · -- no table knows a constructor of this home
      have hnot : isTabled ι name args.length = false :=
        Bool.eq_false_iff.2 fun ht => by cases hhome ht
      rcases args with _ | ⟨c, _ | ⟨c', args⟩⟩
      · have hnone := hfalse (show primSatisfies ORD_BORROW (ι.resolve name) = false from hnot)
        have hn := hnone NUMBER (by simp)
        have ho := hnone ORD_BORROW (by simp)
        have hk := hnone COMPARABLE_KEY (by simp)
        have hp := hnone APPEND_PRIM (by simp)
        simp only [Val.headOk, Val.bareName, Val.isList, List.map_nil, hn, ho, hk, hp] at hok
        simpa [superConcreteOk, bareName, isBuiltinList, primSatisfies] using hok
      · have hl : (ι.resolve name == some "List") = false := hnot
        simpa [superConcreteOk, bareName, isBuiltinList, Val.headOk, Val.bareName, Val.isList,
          hl, primSatisfies] using hok
      · simpa [superConcreteOk, bareName, isBuiltinList, Val.headOk, Val.bareName, Val.isList,
          primSatisfies] using hok
  | record fields ext =>
    rw [Reads, Val.recordOf] at hr
    split_ifs at hr with hfs
    · rw [hr] at hok
      exact hok
    · rw [hr, Val.record_of_nonempty (by simpa using hfs)] at hok
      exact hok
  | _ =>
    rw [Reads] at hr
    rw [hr] at hok
    exact hok

theorem homesTabled_of_merge (hmerge : S.Merge S' a b m.keep m.minted) (ha : S.desc a = some ca)
    (hb : S.desc b = some cb) (hmeet : Meets ι S ca cb m) (h : HomesTabled ι S) :
    HomesTabled ι S' := by
  have hkeep : ∀ {flat}, m.keep = .struct flat → flat.HomeTabled ι := by
    intro flat hk
    cases hmeet with
    | bindLeft =>
      cases hk
      exact h b _ hb
    | bindRight =>
      cases hk
      exact h a _ ha
    | pinLeft _ =>
      cases hk
      exact h b _ hb
    | pinRight _ =>
      cases hk
      exact h a _ ha
    | join _ _ hj =>
      have hns := joinContent_isStructure hj
      dsimp only at hk
      rw [hk] at hns
      cases hns
    | flat hf =>
      cases hf with
      | @con m₁ m₂ n as₁ as₂ hc hlen =>
        cases hk
        intro ht
        have h₁ : m₁ = [] := h a _ ha ht
        have h₂ : m₂ = [] := h b _ hb (hlen ▸ ht)
        simp [h₁, h₂]
      | record _ _ =>
        unfold rowsMeet at hk
        split at hk <;> cases hk <;> trivial
      | _ =>
        cases hk
        trivial
  have hmint : ∀ {flat}, .struct flat ∈ m.minted → flat.HomeTabled ι := by
    intro flat hmem
    cases hmeet with
    | flat hf =>
      cases hf with
      | record _ _ =>
        unfold rowsMeet at hmem
        split at hmem <;> simp at hmem
        · rw [hmem]
          trivial
        · rw [hmem]
          trivial
        · rcases hmem with rfl | rfl <;> trivial
      | _ => cases hmem
    | _ => cases hmem
  intro v flat hd
  by_cases hv : v < S.size
  · rw [hmerge.desc_old hv] at hd
    split_ifs at hd
    · exact hkeep (Option.some.inj hd)
    · exact h v flat hd
  · obtain ⟨i, rfl⟩ := Nat.exists_eq_add_of_le (not_lt.1 hv)
    rw [hmerge.desc_new] at hd
    exact hmint (List.mem_of_getElem? hd)

end Tables

/-! ### Another order -/

/-- No class of `F` holds a rigid variable of `S` without obligations and two super-typed classes of
`S` that are flexible, when one of its variables owes an operation that needs a concrete type. -/
def Uncontended (S F : Store) : Prop :=
  ∀ {r f f' o b b' ro bo}, S.desc r = some .rigid → S.desc f = some (.super false b) →
    S.desc f' = some (.super false b') → S.desc o = some (.super ro bo) → bo.owes = true →
    F.Same r f → F.Same r f' → F.Same r o → S.Same f f'

/-- What a run in another order keeps, next to the solution `ρ₀` that it follows. -/
structure Ordered (ι : Interner) (S₀ : Store) (ρ₀ : VarId → Val) (S : Store) (ρ : VarId → Val) :
    Prop where
  tracks : Tracks S₀ S
  homes : HomesTabled ι S
  agree : ∀ v < S₀.size, ρ v = ρ₀ v
  size_le : S₀.size ≤ S.size

section Order

variable {ι : Interner} {S₀ S F : Store} {ρ₀ ρ : VarId → Val} {v w : VarId}

/-- A solution in which equal atoms are in one class of `F`. -/
def Generic (F : Store) (ρ : VarId → Val) : Prop :=
  ∀ {v w}, (ρ v).isAtom = true → ρ v = ρ w → F.Same v w

theorem generic_named (hF : WellFounded (Child F)) : Generic F (inst hF (.named F id)) := by
  have hatom : ∀ {v}, (inst hF (.named F id) v).isAtom = true →
      inst hF (.named F id) v = .atom (F.root v) := by
    intro v hv
    rcases hd : F.desc v with _ | d
    · rw [inst_eq, instWith, hd]
      rfl
    cases d with
    | struct flat =>
      rw [inst_struct hF hd, FlatType.isAtom_over] at hv
      cases hv
    | _ =>
      rw [inst_var hF hd rfl]
      rfl
  intro v w hv hvw
  have hw : (inst hF (.named F id) w).isAtom = true := hvw ▸ hv
  rw [hatom hv, hatom hw] at hvw
  exact Val.atom.inj hvw

/-- What the class of `v` holds has the value of `v`. -/
theorem Holds.value {d : Content} (h : Holds S₀ S v d) (hsol : Sol ι S ρ)
    (hagree : ∀ v < S₀.size, ρ v = ρ₀ v) : ∃ u, S.Same u v ∧ S₀.desc u = some d ∧ ρ₀ u = ρ v := by
  obtain ⟨u, hu, hd⟩ := h
  exact ⟨u, hu, hd, (hagree u (ClassStore.lt_of_desc hd)).symm.trans (hsol.same hu)⟩

/-- Two super-typed classes of one value, one rigid and one not, owe nothing that needs a concrete
type. -/
theorem Ordered.not_dispatch (h : Ordered ι S₀ ρ₀ S ρ) (hsol : Sol ι S ρ)
    (hF : Undispatched S₀ F) (hun : Uncontended S₀ F) (hgen : Generic F ρ₀) {x y : VarId}
    {bx by' : TyBounds} (hxy : ρ x = ρ y) (hne : ¬ S.Same x y)
    (hx : S.desc x = some (.super true bx)) (hy : S.desc y = some (.super false by')) :
    bx.owes = false ∧ by'.owes = false := by
  have hatom : (ρ x).isAtom = true := hsol.models hx
  have hvalue : ∀ {d z}, Holds S₀ S z d → ρ z = ρ x →
      ∃ u, S.Same u z ∧ S₀.desc u = some d ∧ ρ₀ u = ρ x := by
    intro d z hh hz
    obtain ⟨u, hu, hd, hv⟩ := hh.value hsol h.agree
    exact ⟨u, hu, hd, hv.trans hz⟩
  have hsame : ∀ {u u'}, ρ₀ u = ρ x → ρ₀ u' = ρ x → F.Same u u' := fun hu hu' =>
    hgen (hu ▸ hatom) (hu.trans hu'.symm)
  obtain ⟨howesx, -, hrigid⟩ := h.tracks.origin hx
  obtain ⟨howesy, hflex, -⟩ := h.tracks.origin hy
  obtain ⟨b₂, hh₂⟩ := hflex rfl
  obtain ⟨u₂, hs₂, hd₂, hv₂⟩ := hvalue hh₂ hxy.symm
  have hnone : ∀ {r₀ b₀ z}, b₀.owes = true → Holds S₀ S z (.super r₀ b₀) → ρ z = ρ x → False := by
    intro r₀ b₀ z ho hh hz
    obtain ⟨u₃, -, hd₃, hv₃⟩ := hvalue hh hz
    rcases hrigid rfl with ⟨b₁, hh₁⟩ | ⟨hh₁, b₁, hh₁'⟩
    · obtain ⟨u₁, -, hd₁, hv₁⟩ := hvalue hh₁ rfl
      exact hF hd₁ hd₂ hd₃ ho (hsame hv₁ hv₂) (hsame hv₁ hv₃)
    · obtain ⟨u₁, -, hd₁, hv₁⟩ := hvalue hh₁ rfl
      obtain ⟨w, hsw, hdw, hvw⟩ := hvalue hh₁' rfl
      have hfresh := hun hd₁ hdw hd₂ hd₃ ho (hsame hv₁ hvw) (hsame hv₁ hv₂) (hsame hv₁ hv₃)
      exact hne (hsw.symm.trans ((h.tracks.same hfresh).trans hs₂))
  refine ⟨Bool.eq_false_iff.2 fun ho => ?_, Bool.eq_false_iff.2 fun ho => ?_⟩
  · obtain ⟨r₀, b₀, hb₀, hh⟩ := howesx ho
    exact hnone hb₀ hh rfl
  · obtain ⟨r₀, b₀, hb₀, hh⟩ := howesy ho
    exact hnone hb₀ hh hxy.symm

/-- A run in another order that follows the solution is not refused. -/
theorem guides_ordered (hF : Undispatched S₀ F) (hun : Uncontended S₀ F) (hgen : Generic F ρ₀) :
    Guides ι True (Ordered ι S₀ ρ₀) where
  gate h hsol hab hne ha hb hg := by
    cases hg with
    | @dispatch r₁ r₂ b₁ b₂ hr hd =>
      have howes : b₁.owes = false → b₂.owes = false → False := by
        intro h₁ h₂
        simp only [TyBounds.owes, Bool.or_eq_false_iff] at h₁ h₂
        simp [h₁, h₂] at hd
      cases r₁ <;> cases r₂
      · exact hr rfl
      · obtain ⟨h₂, h₁⟩ := h.not_dispatch hsol hF hun hgen hab.symm (fun hs => hne hs.symm) hb ha
        exact howes h₁ h₂
      · obtain ⟨h₁, h₂⟩ := h.not_dispatch hsol hF hun hgen hab hne ha hb
        exact howes h₁ h₂
      · exact hr rfl
    | headLeft hok =>
      have := superConcreteOk_of_headOk (hsol.models hb) (hab ▸ hsol.models ha) (h.homes _ _ hb)
      rw [hok] at this
      cases this
    | headRight hok =>
      have := superConcreteOk_of_headOk (hsol.models ha) (hab ▸ hsol.models hb) (h.homes _ _ ha)
      rw [hok] at this
      cases this
  room _ _ _ _ := Or.inr trivial
  step h _ _ _ ha hb hm _ hmerge hold _ :=
    ⟨h.tracks.step hmerge ha hb (meet_inv hm), homesTabled_of_merge hmerge ha hb (meet_inv hm) h.homes,
      fun v hv => (hold v (hv.trans_le h.size_le)).trans (h.agree v hv),
      h.size_le.trans hmerge.size_le⟩

theorem Ordered.refl (h : HomesTabled ι S₀) : Ordered ι S₀ ρ₀ S₀ ρ₀ :=
  ⟨Tracks.refl S₀, h, fun _ _ => rfl, le_rfl⟩

/-- Equal values of a run that follows the solution come from one class of `F`. -/
theorem Ordered.uncontended (h : Ordered ι S₀ ρ₀ S ρ) (hsol : Sol ι S ρ)
    (hrigid : ∀ {v}, S₀.desc v = some .rigid → (ρ₀ v).isAtom = true) (hgen : Generic F ρ₀)
    (hun : Uncontended S₀ F) : Uncontended S₀ S := by
  intro r f f' o b b' ro bo hr hf hf' ho howes hrf hrf' hro
  have hlift : ∀ {v d}, S₀.desc v = some d → S.Same r v → F.Same r v := fun hv hrv => by
    refine hgen (hrigid hr) ?_
    rw [← h.agree r (ClassStore.lt_of_desc hr), ← h.agree _ (ClassStore.lt_of_desc hv)]
    exact hsol.same hrv
  exact hun hr hf hf' ho howes (hlift hf hrf) (hlift hf' hrf') (hlift ho hro)

/-- A list of constraints that can be solved can be solved in every order, unless the arena is too
small: when no table knows a constructor of another home than the empty one, no record is open and
without fields, the final store is acyclic and no rigid variable is contended for. The final store
of the other order is as good. -/
theorem solve_order_independent {uf uf' : UnionFind Content} {budget budget' : Budget}
    {cs cs' : List Constraint} {n : ℕ} (hS : Scoped uf.view) (ht : TailsOk uf.view)
    (hh : HomesTabled ι uf.view) (hb : budget.isUnbounded) (hcs : InRange uf.view (equations cs))
    (hperm : cs.Perm cs') (hok : solveAttributed n ι cs uf budget = .ok (uf', budget'))
    (hac : Acyclic uf'.view) (hun : Uncontended uf.view uf'.view) : ∃ m,
      (∃ uf'', solveAttributed m ι cs' uf budget = .ok (uf'', budget) ∧ Acyclic uf''.view ∧
        Uncontended uf.view uf''.view) ∨
      solveAttributed m ι cs' uf budget = .error (.diag (.program UnionFind.arenaExceeded)) := by
  have hrun := solve_solves hS hcs (everyRound_true n cs uf budget) hok
  obtain ⟨hF, -⟩ := hrun.scoped hS hcs
  have hwf := (acyclic_iff hF).1 hac
  obtain ⟨-, hdis⟩ := hrun.tracks (Tracks.refl uf.view) (undispatched_refl uf.view)
  -- the final store read back is a solution of the first one, and the other order follows it
  obtain ⟨hsol, hpairs⟩ := hrun.backward ht (sol_named hwf)
  have hgen : Generic uf'.view (inst hwf (.named uf'.view id)) := generic_named hwf
  have hmem : ∀ p ∈ equations cs', p ∈ equations cs := fun p hp =>
    (hperm.map fun c => (c.lhs, c.rhs)).mem_iff.2 hp
  have hstart : Solved ι (Ordered ι uf.view (inst hwf (.named uf'.view id))) uf.view
      (inst hwf (.named uf'.view id)) (equations cs') :=
    ⟨hS, fun p hp => hcs p (hmem p hp), hsol, fun p hp => hpairs p (hmem p hp), Ordered.refl hh⟩
  obtain ⟨m, ⟨uf'', ρ, hok', hfollows⟩ | ⟨hfull, -⟩⟩ :=
    solve_progress (guides_ordered hdis hun hgen) hb hstart
  · refine ⟨m, Or.inl ⟨uf'', hok', hfollows.solved.sol.acyclic, ?_⟩⟩
    exact hfollows.solved.inv.uncontended hfollows.solved.sol (fun hv => hsol.models hv) hgen hun
  · exact ⟨m, Or.inr hfull⟩

end Order

/-! ### Where the order matters -/

/-- An equation of the module with the first symbol. -/
def eqn (lhs rhs : VarId) : Constraint := ⟨.dummy, lhs, rhs, ⟨[0], List.cons_ne_nil 0 []⟩⟩

/-- Two numbers, a variable and the unit type. -/
def unitStore : UnionFind Content :=
  .ofContents [.super false ⟨TyBounds.ADD⟩, .super false ⟨TyBounds.ADD⟩, .flex, .struct .unit]

theorem children_unitStore {v : VarId} {d : Content} (h : unitStore.view.desc v = some d) :
    d.children = [] ∧ d ≠ .rigid ∧ ∀ flat, d = .struct flat → flat = .unit := by
  rw [unitStore, UnionFind.ofContents_desc] at h
  rcases v with _ | _ | _ | _ | v <;> cases h
  all_goals exact ⟨rfl, by simp, by simp⟩

/-- Two equations without a variable in common. -/
theorem unit_order_independent : ∃ m,
    (∃ uf'', solveAttributed m ⟨[]⟩ [eqn 2 3, eqn 0 1] unitStore .unbounded =
        .ok (uf'', .unbounded) ∧ Acyclic uf''.view ∧ Uncontended unitStore.view uf''.view) ∨
      solveAttributed m ⟨[]⟩ [eqn 2 3, eqn 0 1] unitStore .unbounded =
        .error (.diag (.program UnionFind.arenaExceeded)) := by
  obtain ⟨uf', hok, hchild⟩ : ∃ uf', solveAttributed 5 ⟨[]⟩ [eqn 0 1, eqn 2 3] unitStore
      .unbounded = .ok (uf', .unbounded) ∧ ∀ v d, uf'.view.desc v = some d → d.children = [] := by
    refine ⟨_, rfl, fun v d hd => ?_⟩
    rcases v with _ | _ | _ | _ | v <;> cases hd <;> rfl
  have hrange : InRange unitStore.view (equations [eqn 0 1, eqn 2 3]) := by
    simp [InRange, equations, eqn, unitStore, UnionFind.ofContents_size]
  refine solve_order_independent ?_ ?_ ?_ rfl hrange (.swap _ _ _) hok ?_ ?_
  · intro v d hd c hc
    rw [(children_unitStore hd).1] at hc
    cases hc
  · intro v d hd
    cases d with
    | struct flat =>
      rw [(children_unitStore hd).2.2 flat rfl]
      trivial
    | _ => trivial
  · intro v flat hd
    rw [(children_unitStore hd).2.2 flat rfl]
    trivial
  · intro r hr
    obtain ⟨c, -, d, hd, x, hx, -⟩ := TransGen.tail'_iff.1 hr
    rw [hchild _ d hd] at hx
    cases hx
  · intro r f f' o b b' ro bo hr
    exact absurd rfl (children_unitStore hr).2.1

/-- The constraints can be solved in one order, and in the other with no fuel. -/
def OrderMatters (ι : Interner) (uf : UnionFind Content) (cs cs' : List Constraint) : Prop :=
  cs.Perm cs' ∧ (∃ n r, solveAttributed n ι cs uf .unbounded = .ok r) ∧
    ∀ n r, solveAttributed n ι cs' uf .unbounded ≠ .ok r

theorem orderMatters_of_error {ι : Interner} {uf : UnionFind Content} {cs cs' : List Constraint}
    {n : ℕ} {r : UnionFind Content × Budget} {e : InferError} (hperm : cs.Perm cs')
    (hok : solveAttributed n ι cs uf .unbounded = .ok r)
    (he : solveAttributed n ι cs' uf .unbounded = .error (.diag e)) : OrderMatters ι uf cs cs' := by
  refine ⟨hperm, ⟨n, r, hok⟩, fun m r' hm => ?_⟩
  have hsame := solveAttributed_unique (Run.ended_of_ok hm) (Run.ended_of_diag he)
  cases (hm.symm.trans hsame).trans he

/-- Two numbers and a rigid variable. -/
def rigidStore : UnionFind Content :=
  .ofContents [.super false ⟨TyBounds.ADD⟩, .super false ⟨TyBounds.ADD⟩, .rigid]

/-- A number and the two spellings of `Int`. -/
def intStore : UnionFind Content :=
  .ofContents [.super false ⟨TyBounds.ADD⟩, .struct (.con [] 0 []), .struct (.con [1] 0 [])]

/-- An element, a list of it and a variable. -/
def listStore : UnionFind Content :=
  .ofContents [.super false ⟨TyBounds.EQ⟩, .struct (.con [] 0 [0]), .flex]

/-- An open record without fields, its extension, and a record with a field. -/
def bareStore : UnionFind Content :=
  .ofContents [.struct (.record .empty 1), .flex,
    .struct (.record (SortedMap.empty.insert 0 3) 4), .flex, .flex]

theorem scoped_listStore : Scoped listStore.view := by
  intro v d hd c hc
  rw [listStore, UnionFind.ofContents_desc] at hd
  rw [listStore, UnionFind.ofContents_size]
  rcases v with _ | _ | _ | v <;> cases hd
  · cases hc
  · rw [List.mem_singleton.1 hc]
    decide
  · cases hc

/-- The element is pinned to the list of itself, and the occurs walk of the variable never ends. -/
theorem listStore_not_solved {n : ℕ} {r : UnionFind Content × Budget}
    (h : solveAttributed n ⟨["List"]⟩ [eqn 0 1, eqn 2 1] listStore .unbounded = .ok r) : False := by
  have hrange : InRange listStore.view (equations [eqn 0 1, eqn 2 1]) := by
    simp [InRange, equations, eqn, listStore, UnionFind.ofContents_size]
  have hrun := solve_solves scoped_listStore hrange (everyRound_true n _ _ _) h
  cases hrun with
  | same hs _ => cases hs
  | @met _ S' _ _ _ _ _ _ _ _ _ ha hb hm _ _ hmerge hrest =>
    cases ha
    cases hb
    cases hm
    have h₁ : S'.desc 1 = some (.struct (.con [] 0 [0])) :=
      hmerge.desc_merged (by decide) (Or.inr rfl)
    have h₂ : S'.desc 2 = some .flex := hmerge.desc_of_ne (by decide) (by decide) (by decide)
    cases hrest with
    | same hs _ =>
      have heq := hs.desc_eq.symm.trans h₂
      cases h₁.symm.trans heq
    | met _ _ ha hb _ hguard =>
      cases h₂.symm.trans ha
      cases h₁.symm.trans hb
      -- the class of the list is its own child
      have hself : Child S' (S'.root 1) (S'.root 1) :=
        ⟨_, (S'.desc_root 1).trans h₁, 0, List.mem_singleton.2 rfl, hmerge.same_ab⟩
      exact not_transGen_of_acc hguard.1 (.single hself)

/-- The four ways in which the order matters. -/
theorem order_matters :
    OrderMatters ⟨[]⟩ rigidStore [eqn 0 1, eqn 1 2] [eqn 1 2, eqn 0 1] ∧
    OrderMatters ⟨["Int", "Ipe"]⟩ intStore [eqn 0 1, eqn 1 2] [eqn 1 2, eqn 0 1] ∧
    OrderMatters ⟨["List"]⟩ listStore [eqn 2 1, eqn 0 1] [eqn 0 1, eqn 2 1] ∧
    OrderMatters ⟨["a"]⟩ bareStore [eqn 0 2, eqn 1 0] [eqn 1 0, eqn 0 2] := by
  refine ⟨?_, ?_, ?_, ?_⟩
  · exact orderMatters_of_error (n := 5) (.swap _ _ _) rfl rfl
  · exact orderMatters_of_error (n := 5) (.swap _ _ _) rfl rfl
  · exact ⟨.swap _ _ _, ⟨5, _, rfl⟩, fun n r hr => listStore_not_solved hr⟩
  · exact orderMatters_of_error (n := 8) (.swap _ _ _) rfl rfl

end IpeLang.Types
