import IpeLang.Types.Instance
import IpeLang.Types.ReadBack

/-!
# Acyclicity

Only the binding of a plain flexible variable looks for a cycle all the way down. A merge of two
structures looks one level down or not at all, so a run passes through stores that are cyclic; what
makes the final store acyclic is that a cycle has nowhere to come from. Read a run backwards from
its final store `F`: in every store of the run, a class is accessible in `F` when the children of
its descriptor are (`Settled`). For the class of a plain variable that says that it is accessible,
which is what the occurs check of its binding gives.

A super-typed variable that is pinned to a structure is not checked at all (`pin_makes_cycle`), so
the result is about runs whose pins are safe (`PinSafe`).
-/

namespace IpeLang.Types

open IpeLang.Lib Relation

/-! ### What the children of two structures that meet have in common -/

section Children

variable {ι : Interner} {S : Store} {fa fb : FlatType} {m : Meet} {G : VarId → Prop}
  {fs₁ fs₂ only₁ only₂ : SortedMap Symbol VarId}

theorem forall_mem_values {fs : SortedMap Symbol VarId} :
    (∀ c ∈ fs.values, G c) ↔ ∀ k c, fs.get? k = some c → G c := by
  simp only [SortedMap.mem_values]
  exact ⟨fun h k c hc => h c ⟨k, hc⟩, fun h c ⟨k, hc⟩ => h k c hc⟩

theorem forall_mem_zip {as bs : List VarId} (hlen : as.length = bs.length)
    (h : ∀ p ∈ as.zip bs, G p.1 ↔ G p.2) : (∀ c ∈ as, G c) ↔ ∀ c ∈ bs, G c := by
  induction as generalizing bs with
  | nil => simp [List.length_eq_zero_iff.1 hlen.symm]
  | cons a as ih =>
    cases bs with
    | nil => cases hlen
    | cons b bs =>
      simp only [List.zip_cons_cons, List.mem_cons, forall_eq_or_imp] at h ⊢
      rw [h.1, ih (by simpa using hlen) h.2]

/-- The fields of a record are those it shares with another one and those of its own. -/
theorem forall_fields_left :
    (∀ c ∈ fs₁.values, G c) ↔ (∀ p ∈ fs₁.shared fs₂, G p.1) ∧
      ∀ c ∈ (fs₁.filterKeys fun k => !fs₂.contains k).values, G c := by
  simp only [forall_mem_values, SortedMap.get?_filterKeys]
  constructor
  · refine fun h => ⟨?_, fun k c hc => ?_⟩
    · rintro ⟨x, y⟩ hp
      obtain ⟨k, hx, -⟩ := SortedMap.mem_shared.1 hp
      exact h k x hx
    · split_ifs at hc
      exact h k c hc
  · rintro ⟨hsh, honly⟩ k c hc
    by_cases hk : fs₂.contains k = true
    · obtain ⟨y, hy⟩ := SortedMap.contains_iff.1 hk
      exact hsh (c, y) (SortedMap.mem_shared.2 ⟨k, hc, hy⟩)
    · exact honly k c (by simp [hk, hc])

theorem forall_fields_right (hpairs : ∀ p ∈ fs₁.shared fs₂, G p.1 ↔ G p.2) :
    (∀ c ∈ fs₂.values, G c) ↔ (∀ p ∈ fs₁.shared fs₂, G p.1) ∧
      ∀ c ∈ (fs₂.filterKeys fun k => !fs₁.contains k).values, G c := by
  have hswap : (∀ p ∈ fs₂.shared fs₁, G p.1) ↔ ∀ p ∈ fs₁.shared fs₂, G p.1 := by
    constructor
    · rintro h ⟨x, y⟩ hp
      obtain ⟨k, hx, hy⟩ := SortedMap.mem_shared.1 hp
      exact (hpairs _ hp).2 (h (y, x) (SortedMap.mem_shared.2 ⟨k, hy, hx⟩))
    · rintro h ⟨y, x⟩ hp
      obtain ⟨k, hy, hx⟩ := SortedMap.mem_shared.1 hp
      have hp' := SortedMap.mem_shared.2 ⟨k, hx, hy⟩
      exact (hpairs (x, y) hp').1 (h (x, y) hp')
  rw [@forall_fields_left G fs₂ fs₁, hswap]

theorem forall_fields_merged :
    (∀ c ∈ (fs₁.insertAll (fs₂.filterKeys fun k => !fs₁.contains k)).values, G c) ↔
      (∀ c ∈ fs₁.values, G c) ∧
        ∀ c ∈ (fs₂.filterKeys fun k => !fs₁.contains k).values, G c := by
  simp only [forall_mem_values, SortedMap.get?_insertAll]
  constructor
  · refine fun h => ⟨fun k c hc => h k c ?_, fun k c hc => h k c (by rw [hc]; rfl)⟩
    have hk : fs₁.contains k = true := SortedMap.contains_iff.2 ⟨c, hc⟩
    simp [hk, hc]
  · rintro ⟨h₁, h₂⟩ k c hc
    rcases Option.or_eq_some_iff.1 hc with hc | ⟨-, hc⟩
    · exact h₂ k c hc
    · exact h₁ k c hc

theorem forall_values_of_isEmpty {fs : SortedMap Symbol VarId} (h : fs.isEmpty = true) :
    ∀ c ∈ fs.values, G c := by
  rw [forall_mem_values]
  intro k c hc
  rw [SortedMap.isEmpty_iff.1 h k] at hc
  cases hc

/-- `FlatMeet.forall_children` for two rows, `H` being what holds of the shared fields. -/
theorem rowsMeet_forall_children {n : ℕ} {ext₁ ext₂ : VarId} {shared : Pending} {H : Prop}
    (h₁ : (∀ c ∈ fs₁.values, G c) ↔ H ∧ ∀ c ∈ only₁.values, G c)
    (h₂ : (∀ c ∈ fs₂.values, G c) ↔ H ∧ ∀ c ∈ only₂.values, G c)
    (hmerged : (∀ c ∈ (fs₁.insertAll only₂).values, G c) ↔
      (∀ c ∈ fs₁.values, G c) ∧ ∀ c ∈ only₂.values, G c)
    (hpairs : ∀ p ∈ (rowsMeet n fs₁ ext₁ ext₂ only₁ only₂ shared).pairs, G p.1 ↔ G p.2)
    (hminted : ∀ i d, (rowsMeet n fs₁ ext₁ ext₂ only₁ only₂ shared).minted[i]? = some d →
      (G (n + i) ↔ ∀ c ∈ d.children, G c)) :
    ((∀ c ∈ (FlatType.record fs₁ ext₁).children, G c) ↔
        ∀ c ∈ (rowsMeet n fs₁ ext₁ ext₂ only₁ only₂ shared).keep.children, G c) ∧
      ((∀ c ∈ (FlatType.record fs₂ ext₂).children, G c) ↔
        ∀ c ∈ (rowsMeet n fs₁ ext₁ ext₂ only₁ only₂ shared).keep.children, G c) := by
  have hrec : ∀ (fs : SortedMap Symbol VarId) ext,
      (∀ c ∈ fs.values ++ [ext], G c) ↔ (∀ c ∈ fs.values, G c) ∧ G ext := by
    intro fs ext
    simp only [List.mem_append, List.mem_singleton, or_imp, forall_and, forall_eq]
  rcases e₁ : only₁.isEmpty with _ | _ <;> rcases e₂ : only₂.isEmpty with _ | _ <;>
    simp only [rowsMeet, e₁, e₂, Content.children, FlatType.children, hrec, hmerged, h₁, h₂,
      List.mem_cons, forall_eq_or_imp] at hpairs hminted ⊢
  · -- both tails take fields, over the new tail `n`
    have hn := hminted 0 _ rfl
    have ht₁ := hminted 1 _ rfl
    have ht₂ := hminted 2 _ rfl
    simp only [List.not_mem_nil, false_imp_iff, implies_true, iff_true, Nat.add_zero, hrec]
      at hn ht₁ ht₂
    rw [hpairs.1, hpairs.2.1, ht₁, ht₂]
    generalize (∀ c ∈ only₁.values, G c) = A₁, (∀ c ∈ only₂.values, G c) = A₂
    clear * -
    tauto
  · have ht := hminted 0 _ rfl
    have he := forall_values_of_isEmpty (G := G) e₂
    simp only [hrec, Nat.add_zero] at ht
    rw [hpairs.1, ht]
    generalize (∀ c ∈ only₁.values, G c) = A₁, (∀ c ∈ only₂.values, G c) = A₂ at he ⊢
    clear * - he
    tauto
  · have ht := hminted 0 _ rfl
    have he := forall_values_of_isEmpty (G := G) e₁
    simp only [hrec, Nat.add_zero] at ht
    rw [hpairs.1, ht]
    generalize (∀ c ∈ only₁.values, G c) = A₁, (∀ c ∈ only₂.values, G c) = A₂ at he ⊢
    clear * - he
    tauto
  · have he₁ := forall_values_of_isEmpty (G := G) e₁
    have he₂ := forall_values_of_isEmpty (G := G) e₂
    rw [hpairs.1]
    generalize (∀ c ∈ only₁.values, G c) = A₁, (∀ c ∈ only₂.values, G c) = A₂ at he₁ he₂ ⊢
    clear * - he₁ he₂
    tauto

/-- A property that holds of a minted class when it holds of its children, and that agrees on the
pairs that are left, holds of the children of either structure when it holds of the children of the
merged one. -/
theorem FlatMeet.forall_children (h : FlatMeet ι S fa fb m)
    (hpairs : ∀ p ∈ m.pairs, G p.1 ↔ G p.2)
    (hminted : ∀ i d, m.minted[i]? = some d → (G (S.size + i) ↔ ∀ c ∈ d.children, G c)) :
    ((∀ c ∈ fa.children, G c) ↔ ∀ c ∈ m.keep.children, G c) ∧
      ((∀ c ∈ fb.children, G c) ↔ ∀ c ∈ m.keep.children, G c) := by
  cases h with
  | unit => exact ⟨Iff.rfl, Iff.rfl⟩
  | emptyRecord => exact ⟨Iff.rfl, Iff.rfl⟩
  | fn =>
    refine ⟨Iff.rfl, ?_⟩
    simp only [List.mem_cons, List.not_mem_nil, or_false, forall_eq_or_imp, forall_eq] at hpairs
    simp [FlatType.children, Content.children, hpairs.1, hpairs.2]
  | con _ hlen => exact ⟨Iff.rfl, (forall_mem_zip hlen hpairs).symm⟩
  | tuple hlen => exact ⟨Iff.rfl, (forall_mem_zip hlen hpairs).symm⟩
  | @record fs₁ ext₁ fs₂ ext₂ _ _ =>
    have hshared : ∀ p ∈ fs₁.shared fs₂, G p.1 ↔ G p.2 := fun p hp =>
      hpairs p (mem_rowsMeet_pairs (List.mem_reverse.2 hp))
    exact rowsMeet_forall_children forall_fields_left (forall_fields_right hshared)
      forall_fields_merged hpairs hminted

end Children

/-! ### Reading a run backwards -/

section Runs

variable {ι : Interner} {P : Store → VarId → VarId → Prop} {S S' F : Store} {stack : Pending}
  {a b v w : VarId} {ca cb d : Content} {m : Meet}

/-- The class of `v` is accessible: nothing infinite starts there. -/
def Good (F : Store) (v : VarId) : Prop := Acc (Child F) (F.root v)

theorem Good.congr (h : F.Same v w) : Good F v ↔ Good F w := by
  rw [Good, Good, h]

theorem good_iff (hd : F.desc v = some d) : Good F v ↔ ∀ c ∈ d.children, Good F c := by
  constructor
  · exact fun h c hc => h.inv (child_of_mem hd hc)
  · refine fun h => ⟨_, fun r hr => ?_⟩
    obtain ⟨d', hd', c, hc, rfl⟩ := child_root_iff.1 hr
    cases hd.symm.trans hd'
    exact h c hc

/-- What a store of a run knows about the final store `F`: its classes stay together, its pending
pairs end up together, and each class is good when the children of its descriptor are. -/
structure Settled (S : Store) (stack : Pending) (F : Store) : Prop where
  same : ∀ {v w}, S.Same v w → F.Same v w
  pairs : ∀ p ∈ stack, F.Same p.1 p.2
  good : ∀ {v d}, S.desc v = some d → (Good F v ↔ ∀ c ∈ d.children, Good F c)

theorem Settled.final (F : Store) : Settled F [] F := ⟨id, by simp, good_iff⟩

/-- A structure in which the class of `a` does not occur is good once every other class is
settled. -/
theorem good_of_free (hS : Scoped S) (hfree : Free S (S.root a) b) (hb : b < S.size)
    (h : ∀ {v d}, ¬ S.Same v a → S.desc v = some d → (Good F v ↔ ∀ c ∈ d.children, Good F c)) :
    Good F b := by
  obtain ⟨hacc, hne⟩ := hfree
  have key : ∀ r, Acc (Child S) r → ∀ v, S.root v = r → v < S.size →
      ReflTransGen (Child S) r (S.root b) → Good F v := by
    intro r hr
    induction hr with
    | intro r _ ih =>
      rintro v rfl hv hreach
      obtain ⟨d, hd⟩ := ClassStore.exists_desc hv
      refine (h (fun hs => hne _ hreach hs) hd).2 fun c hc => ?_
      have hchild := child_of_mem hd hc
      exact ih _ hchild c rfl (hS v d hd c hc) (ReflTransGen.head hchild hreach)
  exact key _ hacc b rfl hb ReflTransGen.refl

/-- The two classes of a step, once the other classes are settled. -/
theorem good_of_meets (hS : Scoped S) (ha : S.desc a = some ca) (hb : S.desc b = some cb)
    (hmeet : Meets ι S ca cb m)
    (hleft : ca.isStructure = false → cb.isStructure = true → Free S (S.root a) b)
    (hright : cb.isStructure = false → ca.isStructure = true → Free S (S.root b) a)
    (hab : Good F a ↔ Good F b) (hkeep : Good F a ↔ ∀ c ∈ m.keep.children, Good F c)
    (hpairs : ∀ p ∈ m.pairs, F.Same p.1 p.2)
    (hminted : ∀ i d, m.minted[i]? = some d →
      (Good F (S.size + i) ↔ ∀ c ∈ d.children, Good F c))
    (hsame : ∀ {v w}, S.Same v w → F.Same v w)
    (hother : ∀ {v d}, ¬ S.Same v a → ¬ S.Same v b → S.desc v = some d →
      (Good F v ↔ ∀ c ∈ d.children, Good F c)) :
    (Good F a ↔ ∀ c ∈ ca.children, Good F c) ∧ (Good F b ↔ ∀ c ∈ cb.children, Good F c) := by
  -- one side is settled and the other one is a variable that does not occur in it
  have hbind : ∀ {x y : VarId} {d}, S.desc x = some d → (Good F x ↔ ∀ c ∈ d.children, Good F c) →
      (∀ {v}, ¬ S.Same v x → ¬ S.Same v y → ¬ S.Same v a ∧ ¬ S.Same v b) →
      Free S (S.root y) x → Good F x := by
    intro x y d hx hgood hxy hfree
    refine good_of_free hS hfree (ClassStore.lt_of_desc hx) fun {v d'} hy hv => ?_
    by_cases hvx : S.Same v x
    · cases (hvx.desc_eq.symm.trans hv).symm.trans hx
      rw [Good.congr (hsame hvx)]
      exact hgood
    · obtain ⟨h₁, h₂⟩ := hxy hvx hy
      exact hother h₁ h₂ hv
  cases hmeet with
  | bindLeft =>
    have hgb := hab.symm.trans hkeep
    have := hbind hb hgb (fun h₁ h₂ => ⟨h₂, h₁⟩) (hleft rfl rfl)
    exact ⟨by simpa [Content.children] using hab.2 this, hgb⟩
  | bindRight =>
    have := hbind ha hkeep (fun h₁ h₂ => ⟨h₁, h₂⟩) (hright rfl rfl)
    exact ⟨hkeep, by simpa [Content.children] using hab.1 this⟩
  | pinLeft _ =>
    have hgb := hab.symm.trans hkeep
    have := hbind hb hgb (fun h₁ h₂ => ⟨h₂, h₁⟩) (hleft rfl rfl)
    exact ⟨by simpa [Content.children] using hab.2 this, hgb⟩
  | pinRight _ =>
    have := hbind ha hkeep (fun h₁ h₂ => ⟨h₁, h₂⟩) (hright rfl rfl)
    exact ⟨hkeep, by simpa [Content.children] using hab.1 this⟩
  | flat hf =>
    obtain ⟨h₁, h₂⟩ := hf.forall_children (fun p hp => Good.congr (hpairs p hp)) hminted
    exact ⟨hkeep.trans h₁.symm, hab.symm.trans (hkeep.trans h₂.symm)⟩
  | join hca hcb hj =>
    have hk := Content.children_of_not_isStructure (joinContent_isStructure hj)
    rw [Content.children_of_not_isStructure hca, Content.children_of_not_isStructure hcb]
    rw [hk] at hkeep
    exact ⟨hkeep, hab.symm.trans hkeep⟩

/-- What is known before a step. -/
theorem Settled.back (hS : Scoped S) (ha : S.desc a = some ca) (hb : S.desc b = some cb)
    (hmeet : Meets ι S ca cb m) (hmerge : S.Merge S' a b m.keep m.minted)
    (hleft : ca.isStructure = false → cb.isStructure = true → Free S (S.root a) b)
    (hright : cb.isStructure = false → ca.isStructure = true → Free S (S.root b) a)
    (h : Settled S' (m.pairs ++ stack) F) : Settled S ((a, b) :: stack) F := by
  have halt := ClassStore.lt_of_desc ha
  have hab : F.Same a b := h.same hmerge.same_ab
  have hsame : ∀ {v w}, S.Same v w → F.Same v w := fun hvw => h.same (hmerge.same_mono hvw)
  have hother : ∀ {v d}, ¬ S.Same v a → ¬ S.Same v b → S.desc v = some d →
      (Good F v ↔ ∀ c ∈ d.children, Good F c) := fun h₁ h₂ hd =>
    h.good (hmerge.desc_of_ne (ClassStore.lt_of_desc hd) h₁ h₂ ▸ hd)
  obtain ⟨hga, hgb⟩ := good_of_meets hS ha hb hmeet hleft hright (Good.congr hab)
    (h.good (hmerge.desc_merged halt (Or.inl (ClassStore.Same.refl S a))))
    (fun p hp => h.pairs p (by simp [hp]))
    (fun i d hd => h.good ((hmerge.desc_new i).trans hd)) hsame hother
  refine ⟨hsame, fun p hp => ?_, fun {v d} hd => ?_⟩
  · rcases List.mem_cons.1 hp with rfl | hp
    · exact hab
    · exact h.pairs p (by simp [hp])
  · by_cases hva : S.Same v a
    · cases (hva.desc_eq.symm.trans hd).symm.trans ha
      rw [Good.congr (hsame hva)]
      exact hga
    · by_cases hvb : S.Same v b
      · cases (hvb.desc_eq.symm.trans hd).symm.trans hb
        rw [Good.congr (hsame hvb)]
        exact hgb
      · exact hother hva hvb hd

/-- When a super-typed variable is about to be pinned to a structure, no cycle can be reached from
the structure and the variable does not occur in it. -/
def PinSafe (S : Store) (a b : VarId) : Prop :=
  ∀ var node bounds flat, (var = a ∧ node = b ∨ var = b ∧ node = a) →
    S.desc var = some (.super false bounds) → S.desc node = some (.struct flat) →
    ReachesNoCycle S node ∧ ¬ Inside S var node

theorem free_iff (hS : Scoped S) :
    Free S (S.root v) w ↔ ReachesNoCycle S w ∧ ¬ Inside S v w := by
  rw [Free, reachesNoCycle_iff hS]
  refine and_congr_right fun _ => ⟨fun h hin => h _ hin rfl, ?_⟩
  rintro h r hr rfl
  exact h hr

/-- Every step of a safe run binds a variable to a structure in which it does not occur. -/
theorem free_of_step (hS : Scoped S) (ha : S.desc a = some ca) (hb : S.desc b = some cb)
    (hmeet : Meets ι S ca cb m) (hguard : Guard S a b ca cb) (hpin : PinSafe S a b) :
    (ca.isStructure = false → cb.isStructure = true → Free S (S.root a) b) ∧
      (cb.isStructure = false → ca.isStructure = true → Free S (S.root b) a) := by
  cases hmeet with
  | bindLeft => exact ⟨fun _ _ => hguard, by simp [Content.isStructure]⟩
  | bindRight => exact ⟨by simp [Content.isStructure], fun _ _ => hguard⟩
  | pinLeft _ =>
    exact ⟨fun _ _ => (free_iff hS).2 (hpin a b _ _ (Or.inl ⟨rfl, rfl⟩) ha hb),
      by simp [Content.isStructure]⟩
  | pinRight _ =>
    exact ⟨by simp [Content.isStructure],
      fun _ _ => (free_iff hS).2 (hpin b a _ _ (Or.inr ⟨rfl, rfl⟩) hb ha)⟩
  | flat _ => simp [Content.isStructure]
  | join hca hcb _ => simp [hca, hcb]

/-- A safe run settles every store it passes through. -/
theorem Solves.settled (h : Solves ι PinSafe S stack F) (hS : Scoped S) (hst : InRange S stack) :
    Settled S stack F := by
  induction h with
  | done => exact .final _
  | same hsame _ ih =>
    have hset := ih hS hst.tail
    refine ⟨hset.same, fun p hp => ?_, hset.good⟩
    rcases List.mem_cons.1 hp with rfl | hp
    · exact hset.same hsame
    · exact hset.pairs p hp
  | met hpin _ ha hb hm hguard _ hmerge _ ih =>
    have hbelow := meet_below hS ha hb hm
    have hmeet := meet_inv hm
    obtain ⟨hleft, hright⟩ := free_of_step hS ha hb hmeet hguard hpin
    exact Settled.back hS ha hb hmeet hmerge hleft hright
      (ih (scoped_of_merge hS hbelow hmerge) (inRange_of_merge hst.tail hbelow hmerge))

/-- A minted structure has old children, or the minted tail among them. -/
theorem meets_minted_children (hS : Scoped S) (ha : S.desc a = some ca) (hb : S.desc b = some cb)
    (hmeet : Meets ι S ca cb m) (hd : d ∈ m.minted) {c : VarId} (hc : c ∈ d.children) :
    c < S.size ∨ c = S.size ∧ m.minted[0]? = some .flex := by
  cases hmeet with
  | flat hf =>
    cases hf with
    | @record fs₁ ext₁ fs₂ ext₂ _ _ =>
      have hsa := hS a _ ha
      have hsb := hS b _ hb
      simp only [Content.children, FlatType.children, List.mem_append, List.mem_singleton, or_imp,
        forall_and, forall_eq] at hsa hsb
      have h₁ := filterKeys_below (p := fun k => !fs₂.contains k) hsa.1
      have h₂ := filterKeys_below (p := fun k => !fs₁.contains k) hsb.1
      unfold rowsMeet at hd ⊢
      generalize (fs₁.filterKeys fun k => !fs₂.contains k) = only₁ at *
      generalize (fs₂.filterKeys fun k => !fs₁.contains k) = only₂ at *
      split at hd <;>
        simp only [List.mem_cons, List.not_mem_nil, or_false] at hd
      · rcases hd with rfl
        simp only [Content.children, FlatType.children, List.mem_append, List.mem_singleton] at hc
        rcases hc with hc | rfl
        · exact Or.inl (h₂ c hc)
        · exact Or.inl hsb.2
      · rcases hd with rfl
        simp only [Content.children, FlatType.children, List.mem_append, List.mem_singleton] at hc
        rcases hc with hc | rfl
        · exact Or.inl (h₁ c hc)
        · exact Or.inl hsa.2
      · rcases hd with rfl | rfl | rfl
        · cases hc
        all_goals
          simp only [Content.children, FlatType.children, List.mem_append, List.mem_singleton] at hc
          rcases hc with hc | rfl
        · exact Or.inl (h₂ c hc)
        · exact Or.inr ⟨rfl, rfl⟩
        · exact Or.inl (h₁ c hc)
        · exact Or.inr ⟨rfl, rfl⟩
    | _ => cases hd
  | _ => cases hd

/-- When every class of a store of a safe run is good, so is every class of the final store. -/
theorem Solves.all_good (h : Solves ι PinSafe S stack F) (hS : Scoped S) (hst : InRange S stack)
    (hgood : ∀ v < S.size, Good F v) : ∀ v < F.size, Good F v := by
  induction h with
  | done => exact hgood
  | same _ _ ih => exact ih hS hst.tail hgood
  | @met S S' F a b ca cb m stack _ _ ha hb hm _ _ hmerge hrun ih =>
    have hbelow := meet_below hS ha hb hm
    have hS' := scoped_of_merge hS hbelow hmerge
    have hst' := inRange_of_merge hst.tail hbelow hmerge
    have hset := hrun.settled hS' hst'
    refine ih hS' hst' fun v hv => ?_
    by_cases hold : v < S.size
    · exact hgood v hold
    obtain ⟨i, rfl⟩ := Nat.exists_eq_add_of_le (not_lt.1 hold)
    obtain ⟨d, hd⟩ := ClassStore.exists_desc hv
    have hmem : d ∈ m.minted := List.mem_of_getElem? ((hmerge.desc_new i).symm.trans hd)
    refine (hset.good hd).2 fun c hc => ?_
    rcases meets_minted_children hS ha hb (meet_inv hm) hmem hc with hlt | ⟨rfl, hflex⟩
    · exact hgood c hlt
    · exact (hset.good ((hmerge.desc_new 0).trans hflex)).2 (by simp [Content.children])

/-- A safe run keeps a store acyclic. -/
theorem Solves.acyclic (h : Solves ι PinSafe S stack F) (hS : Scoped S) (hst : InRange S stack)
    (hac : Acyclic S) : Acyclic F := by
  have hset := h.settled hS hst
  have hwf := (acyclic_iff hS).1 hac
  have hgood : ∀ v < S.size, Good F v := by
    intro v hv
    have key : ∀ r v, S.root v = r → v < S.size → Good F v := by
      intro r
      induction r using hwf.induction with
      | _ r ih =>
        rintro v rfl hv
        obtain ⟨d, hd⟩ := ClassStore.exists_desc hv
        exact (hset.good hd).2 fun c hc => ih _ (child_of_mem hd hc) c rfl (hS v d hd c hc)
    exact key _ v rfl hv
  exact acyclic_of_acc (h.all_good hS hst hgood)

end Runs

/-! ### Settled stores -/

section Settled

variable {ι : Interner} {fuel : ℕ} {S S' : Store} {uf uf' : UnionFind Content}
  {budget budget' : Budget} {a b v w : VarId} {keep : Content} {flat : FlatType}

/-- The walks over a store end: an occurs walk with a verdict or for want of budget, a read-back
with a type unless it has too many classes to read. -/
structure WalksEnd (S : Store) : Prop where
  occurs : ∀ {v : VarId}, v < S.size → ∀ target, ∃ n, ∀ uf budget, uf.view = S →
    (occurs n uf budget target v).Ended
  zonk : ∀ {uf : UnionFind Content} {v : VarId} {budget : Budget}, uf.view = S → v < S.size →
    budget.isUnbounded → (readClasses S v).card ≤ ZONK_NODE_LIMIT →
    ∃ n ty uf' budget', zonk n uf budget v = .ok (ty, uf', budget')

theorem walksEnd_of_acyclic (hS : Scoped S) (hac : Acyclic S) : WalksEnd S := by
  have hwf := (acyclic_iff hS).1 hac
  constructor
  · exact fun hv target => occurs_halts hS hv (fun r _ => hac r) target
  · rintro uf v budget rfl hv hb hlimit
    obtain ⟨n, uf', budget', h⟩ := zonk_eq_readBack hS hwf hv hb hlimit
    exact ⟨n, _, uf', budget', h⟩

/-- A merge under a structure keeps the paths of the structure graph, when the class that loses its
descriptor has no children. -/
theorem transGen_of_merge (hmerge : S.Merge S' v w (.struct flat) [])
    (hv : ∃ d, S.desc v = some d ∧ d.children = []) (hw : S.desc w = some (.struct flat))
    {x y : VarId} (h : TransGen (Child S) x y) : TransGen (Child S') (S'.root x) (S'.root y) := by
  obtain ⟨dv, hdv, hnil⟩ := hv
  refine h.lift S'.root fun r u hru => ?_
  obtain ⟨d, hd, c, hc, rfl⟩ := hru
  have hu := ClassStore.lt_of_desc hd
  have hdesc : S'.desc u = some d := by
    by_cases huv : S.Same u v
    · cases (huv.desc_eq.symm.trans hd).symm.trans hdv
      simp [hnil] at hc
    · by_cases huw : S.Same u w
      · rw [hmerge.desc_merged hu (Or.inr huw), ← hw, ← hd, huw.desc_eq]
      · rw [hmerge.desc_of_ne hu huv huw, hd]
  show Child S' (S'.root (S.root c)) (S'.root u)
  rw [show S'.root (S.root c) = S'.root c from hmerge.same_mono (S.same_root c).symm]
  exact child_of_mem hdesc hc

/-- A pin of a super-typed variable to a structure that contains it leaves a cycle behind. -/
theorem not_acyclic_of_pin {bounds : TyBounds} (hvar : S.desc v = some (.super false bounds))
    (hnode : S.desc w = some (.struct flat)) (hin : Inside S v w)
    (hmerge : S.Merge S' v w (.struct flat) []) : ¬ Acyclic S' := by
  have hne : S.root w ≠ S.root v := by
    intro h
    have := ClassStore.Same.desc_eq h
    simp [hvar, hnode] at this
  have hpath : TransGen (Child S) (S.root v) (S.root w) :=
    (reflTransGen_iff_eq_or_transGen.1 hin).resolve_left hne
  have hcycle := transGen_of_merge hmerge ⟨_, hvar, rfl⟩ hnode hpath
  have hroot : S'.root (S.root v) = S'.root (S.root w) :=
    (hmerge.same_mono (S.same_root v).symm).trans
      (hmerge.same_ab.trans (hmerge.same_mono (S.same_root w)))
  rw [hroot] at hcycle
  exact fun h => h _ hcycle

/-- The condition on pins is tight: the store after an unsafe pin of an acyclic store is cyclic. -/
theorem not_acyclic_of_unsafe (hS : Scoped uf.view) (hac : Acyclic uf.view)
    (ha : a < uf.view.size) (hb : b < uf.view.size) (hpin : ¬ PinSafe uf.view a b) {span : Span}
    {stack : Pending} {st : UnifyState} (h : unifyStep fuel uf budget ι span a b stack = .ok st) :
    ¬ Acyclic st.1.view := by
  unfold PinSafe at hpin
  push Not at hpin
  obtain ⟨var, node, bounds, flat, hvn, hvar, hnode, hin⟩ := hpin
  replace hin : Inside uf.view var node := hin fun r _ => hac r
  have hout := unifyStep_outcome ι fuel budget span stack hS ha hb
  rw [h] at hout
  cases hout with
  | same _ hsame _ =>
    rcases hvn with ⟨rfl, rfl⟩ | ⟨rfl, rfl⟩
    · simp [hsame.desc_eq, hnode] at hvar
    · simp [hsame.symm.desc_eq, hnode] at hvar
  | met _ _ hca hcb hm _ _ hmerge =>
    rcases hvn with ⟨rfl, rfl⟩ | ⟨rfl, rfl⟩
    · cases hvar.symm.trans hca
      cases hnode.symm.trans hcb
      obtain ⟨-, -, rfl⟩ := meetSuper_eq_some hm
      exact not_acyclic_of_pin hvar hnode hin hmerge
    · cases hvar.symm.trans hcb
      cases hnode.symm.trans hca
      obtain ⟨-, -, rfl⟩ := meetSuper_eq_some hm
      exact not_acyclic_of_pin hvar hnode hin hmerge.swap

/-- The stores of a run that ends with an acyclic store are acyclic. -/
theorem Solves.acyclic_before {P : Store → VarId → VarId → Prop} {stack : Pending} {F : Store}
    (h : Solves ι P S stack F) (hS : Scoped S) (hst : InRange S stack) (ht : TailsOk S)
    (hF : Acyclic F) : Acyclic S := by
  obtain ⟨ρ, hρ⟩ := (acyclic_iff_exists_sol ι (h.scoped hS hst).1).1 hF
  exact (h.backward ht hρ).1.acyclic

/-- A state from which the loop goes on to a given result. -/
structure Leads (fuel : ℕ) (ι : Interner) (span : Span) (res : UnionFind Content × Budget)
    (st : UnifyState) : Prop where
  scope : Scoped st.1.view
  range : InRange st.1.view st.2.2
  tails : TailsOk st.1.view
  rest : ∃ n, loop (unifyRound fuel ι span) n st = .ok res

/-- A round that a loop survives. -/
theorem Leads.round {span : Span} {stack : Pending} {res : UnionFind Content × Budget}
    (h : Leads fuel ι span res (uf, budget, (a, b) :: stack)) :
    ∃ st, unifyStep fuel uf budget ι span a b stack = .ok st ∧ Leads fuel ι span res st := by
  obtain ⟨hS, hst, ht, n, hn⟩ := h
  have hp := hst (a, b) List.mem_cons_self
  have hout := unifyStep_outcome ι fuel budget span stack hS hp.1 hp.2
  cases n with
  | zero => cases hn
  | succ n =>
  rcases hs : unifyStep fuel uf budget ι span a b stack with e | st
  · rw [loop_succ_error (unifyRound_cons hs)] at hn
    cases hn
  rw [loop_succ_inl (unifyRound_cons hs)] at hn
  rw [hs] at hout
  refine ⟨st, rfl, ?_⟩
  cases hout with
  | same _ _ hv => exact ⟨hv ▸ hS, by rw [hv]; exact hst.tail, hv ▸ ht, n, hn⟩
  | met _ _ hca hcb hm _ _ hmerge =>
    have hbelow := meet_below hS hca hcb hm
    exact ⟨scoped_of_merge hS hbelow hmerge, inRange_of_merge hst.tail hbelow hmerge,
      tailsOk_of_merge hmerge hca hcb (meet_inv hm) ht, n, hn⟩

theorem Leads.acyclic {span : Span} {st : UnifyState} (h : Leads fuel ι span (uf', budget') st)
    (hF : Acyclic uf'.view) : Acyclic st.1.view := by
  obtain ⟨uf, budget, stack⟩ := st
  obtain ⟨hS, hst, ht, n, hn⟩ := h
  have hrun := unify_loop_solves (P := fun _ _ _ => True) hS hst (fun _ _ _ _ _ => trivial) hn
  exact hrun.acyclic_before hS hst ht hF

/-- A run that ends with an acyclic store has only safe pins. -/
theorem pins_of_acyclic {span : Span} (hS : Scoped uf.view) (ht : TailsOk uf.view)
    (ha : a < uf.view.size) (hb : b < uf.view.size)
    (h : unify fuel uf budget ι span a b = .ok (uf', budget')) (hF : Acyclic uf'.view) {st}
    (hst : Visits (unifyRound fuel ι span) (uf, budget, [(a, b)]) st) : NextPair PinSafe st := by
  have hstart : Leads fuel ι span (uf', budget') (uf, budget, [(a, b)]) :=
    ⟨hS, by simpa [InRange] using ⟨ha, hb⟩, ht, fuel, h⟩
  have hleads := hst.invariant (P := Leads fuel ι span (uf', budget')) hstart ?_
  · obtain ⟨uf₁, budget₁, stack₁⟩ := st
    rintro ⟨c, d⟩ stack hstack
    obtain rfl : stack₁ = (c, d) :: stack := hstack
    obtain ⟨st', hstep, hleads'⟩ := hleads.round
    obtain ⟨hc, hd⟩ := hleads.range (c, d) List.mem_cons_self
    by_contra hpin
    exact not_acyclic_of_unsafe hleads.scope (hleads.acyclic hF) hc hd hpin hstep (hleads'.acyclic hF)
  · rintro ⟨uf₁, budget₁, stack₁⟩ u ht hu
    cases stack₁ with
    | nil => cases hu
    | cons p stack =>
      obtain ⟨st', hstep, hleads'⟩ := ht.round
      cases (unifyRound_cons hstep).symm.trans hu
      exact hleads'

/-- From an acyclic store, a run all of whose pins are safe keeps the store acyclic and every later
walk ends. An unsafe pin leaves a cycle at once, and when no record is open and without fields, no
later step removes it. -/
theorem safe_pins_keep_acyclic (hS : Scoped uf.view) (hac : Acyclic uf.view) :
    (∀ span a b uf' budget', a < uf.view.size → b < uf.view.size →
      (∀ st, Visits (unifyRound fuel ι span) (uf, budget, [(a, b)]) st → NextPair PinSafe st) →
      unify fuel uf budget ι span a b = .ok (uf', budget') → Acyclic uf'.view) ∧
    (∀ cs uf' budget', InRange uf.view (equations cs) → EveryRound fuel ι PinSafe cs uf budget →
      solveAttributed fuel ι cs uf budget = .ok (uf', budget') →
      Acyclic uf'.view ∧ WalksEnd uf'.view) ∧
    (∀ span a b stack st, a < uf.view.size → b < uf.view.size → ¬ PinSafe uf.view a b →
      unifyStep fuel uf budget ι span a b stack = .ok st → ¬ Acyclic st.1.view) ∧
    ∀ span a b uf' budget', TailsOk uf.view → a < uf.view.size → b < uf.view.size →
      unify fuel uf budget ι span a b = .ok (uf', budget') →
      (Acyclic uf'.view ↔ ∀ st, Visits (unifyRound fuel ι span) (uf, budget, [(a, b)]) st →
        NextPair PinSafe st) := by
  refine ⟨fun span a b uf' budget' ha hb hpins h => ?_, fun cs uf' budget' hcs hpins h => ?_,
    fun span a b stack st ha hb hpin h => not_acyclic_of_unsafe hS hac ha hb hpin h,
    fun span a b uf' budget' ht ha hb h => ⟨fun hF st hst => pins_of_acyclic hS ht ha hb h hF hst,
      fun hpins => ?_⟩⟩
  · exact (unify_solves hS ha hb hpins h).acyclic hS (by simpa [InRange] using ⟨ha, hb⟩) hac
  · have hrun := solve_solves hS hcs hpins h
    have hF := hrun.acyclic hS hcs hac
    exact ⟨hF, walksEnd_of_acyclic (hrun.scoped hS hcs).1 hF⟩
  · exact (unify_solves hS ha hb hpins h).acyclic hS (by simpa [InRange] using ⟨ha, hb⟩) hac

/-- An equatable variable `0` that is pinned to a list at `1`. -/
def pinStore (elem : VarId) : UnionFind Content :=
  .ofContents [.super false ⟨TyBounds.EQ⟩, .struct (.con [] 0 [elem]), .flex]

/-- The equation between an element and the list of it. -/
def pinConstraint : Constraint := ⟨.dummy, 0, 1, ⟨[0], by simp⟩⟩

theorem child_pinStore {elem r v : VarId} (h : Child (pinStore elem).view r v) :
    v = 1 ∧ r = elem := by
  obtain ⟨d, hd, c, hc, rfl⟩ := h
  rw [pinStore, UnionFind.ofContents_desc] at hd
  rw [pinStore, UnionFind.ofContents_root]
  rcases v with _ | _ | _ | v
  · cases hd
    cases hc
  · cases hd
    exact ⟨rfl, by simpa [Content.children, FlatType.children] using hc⟩
  · cases hd
    cases hc
  · cases hd

theorem acyclic_pinStore {elem : VarId} (h : elem ≠ 1) : Acyclic (pinStore elem).view := by
  intro r hr
  obtain ⟨c, -, hc⟩ := TransGen.tail'_iff.1 hr
  obtain ⟨d, hd, -⟩ := TransGen.head'_iff.1 hr
  exact h ((child_pinStore hd).2.symm.trans (child_pinStore hc).1)

theorem scoped_pinStore {elem : VarId} (h : elem < 3) : Scoped (pinStore elem).view := by
  intro v d hd c hc
  have hroot := (child_pinStore (child_of_mem hd hc)).2
  rw [pinStore, UnionFind.ofContents_root] at hroot
  rw [hroot]
  exact h

/-- A pin that is not checked: the equation succeeds and closes a cycle, and the occurs walk for the
variable `2` goes round it. -/
theorem pin_makes_cycle : Scoped (pinStore 0).view ∧ Acyclic (pinStore 0).view ∧
    ∃ uf', unify 5 (pinStore 0) .unbounded ⟨["List"]⟩ .dummy 0 1 = .ok (uf', .unbounded) ∧
      solveAttributed 5 ⟨["List"]⟩ [pinConstraint] (pinStore 0) .unbounded =
        .ok (uf', .unbounded) ∧
      ¬ Acyclic uf'.view ∧ ∀ n, occurs n uf' .unbounded 2 0 = .error .fuel := by
  refine ⟨scoped_pinStore (by decide), acyclic_pinStore (by decide), _, rfl, rfl, fun h => ?_,
    fun n => loop_eq_fuel_of_closed (P := fun st => st = (_, .unbounded, [0])) ?_ n rfl⟩
  · exact h 0 (.single ⟨.struct (.con [] 0 [0]), rfl, 0, by decide, rfl⟩)
  · rintro _ rfl
    exact ⟨_, rfl, rfl⟩

/-- A safe run: the element type of the list is another variable. -/
theorem safe_pin_run : Acyclic (pinStore 2).view ∧
    ∃ uf', solveAttributed 5 ⟨["List"]⟩ [pinConstraint] (pinStore 2) .unbounded =
      .ok (uf', .unbounded) ∧ Acyclic uf'.view ∧ WalksEnd uf'.view := by
  have hac : Acyclic (pinStore 2).view := acyclic_pinStore (by decide)
  have hchild : ∀ {r v : VarId}, Child (pinStore 2).view r v → v = 1 ∧ r = 2 := child_pinStore
  obtain ⟨uf', h⟩ : ∃ uf', solveAttributed 5 ⟨["List"]⟩ [pinConstraint] (pinStore 2) .unbounded =
    .ok (uf', .unbounded) := ⟨_, rfl⟩
  refine ⟨hac, uf', h, ?_⟩
  refine (safe_pins_keep_acyclic (scoped_pinStore (by decide)) hac).2.1 [pinConstraint] uf'
    .unbounded (by simp [InRange, equations, pinConstraint, pinStore, UnionFind.ofContents_size])
    ⟨?_, fun _ _ _ => trivial⟩ h
  intro st hst
  -- the state after the only step has nothing pending
  have hinv := hst.invariant (P := fun st => st = (pinStore 2, .unbounded, [(0, 1)]) ∨ st.2.2 = [])
    (Or.inl rfl) ?_
  · rcases hinv with rfl | hnil
    · rintro p stack hp var node bounds flat hvn hvar hnode
      cases hp
      rcases hvn with ⟨rfl, rfl⟩ | ⟨rfl, rfl⟩
      · refine ⟨fun r _ => hac r, fun hin => ?_⟩
        rcases ReflTransGen.cases_tail hin with h | ⟨c, hc, h⟩
        · cases h
        · obtain rfl := (hchild h).2
          rcases ReflTransGen.cases_tail hc with h | ⟨c, -, h⟩
          · cases h
          · cases (hchild h).1
      · cases hvar
    · intro p stack hp
      cases hnil.symm.trans hp
  · rintro t u (rfl | hnil) hu
    · cases hu
      exact Or.inr rfl
    · obtain ⟨uf, budget, stack⟩ := t
      obtain rfl : stack = [] := hnil
      cases hu

end Settled

end IpeLang.Types
