import Mathlib.Tactic
import Mathlib.Logic.Relation
import Mathlib.Data.Fintype.Card

/-!
# Finite graphs

A relation on the naturals whose left sides are bounded is a finite graph, `r c v` saying that `c`
is a child of `v`. Being accessible is then the same as reaching no cycle, and a function that is
determined at a node by its values at the children exists on every graph without a cycle.

* `acc_iff_reaches_no_cycle`, `wellFounded_of_acyclic`;
* `unfold`, `unfold_eq`: a function defined by recursion over the children.
-/

namespace IpeLang.Lib

open Relation

variable {r : ℕ → ℕ → Prop} {n v : ℕ}

theorem not_transGen_of_acc (h : Acc r v) : ¬ TransGen r v v := by
  induction h with
  | intro v _ ih =>
    intro hv
    obtain ⟨c, hvc, hcv⟩ := TransGen.tail'_iff.1 hv
    rcases reflTransGen_iff_eq_or_transGen.1 hvc with rfl | hvc
    · exact ih c hcv hv
    · exact ih c hcv (TransGen.head hcv hvc)

theorem acc_of_reflTransGen {c : ℕ} (h : Acc r v) (hc : ReflTransGen r c v) : Acc r c := by
  induction hc using ReflTransGen.head_induction_on with
  | refl => exact h
  | head hab _ ih => exact ih.inv hab

/-- A finite graph without a cycle is well-founded. -/
theorem wellFounded_of_acyclic (hb : ∀ c v, r c v → c < n) (h : ∀ v, ¬ TransGen r v v) :
    WellFounded r := by
  let s : Fin n → Fin n → Prop := fun x y => TransGen r x y
  have : IsTrans (Fin n) s := ⟨fun _ _ _ => TransGen.trans⟩
  have : Std.Irrefl s := ⟨fun x => h x⟩
  have hs : WellFounded s := Finite.wellFounded_of_trans_of_irrefl s
  have hacc : ∀ x : Fin n, Acc r x := by
    intro x
    induction x using hs.induction with
    | _ x ih => exact Acc.intro x.1 fun c hc => ih ⟨c, hb c x hc⟩ (TransGen.single hc)
  exact ⟨fun v => ⟨v, fun c hc => hacc ⟨c, hb c v hc⟩⟩⟩

/-- In a finite graph a node is accessible when no cycle can be reached from it. -/
theorem acc_iff_reaches_no_cycle (hb : ∀ c v, r c v → c < n) :
    Acc r v ↔ ∀ u, ReflTransGen r u v → ¬ TransGen r u u := by
  refine ⟨fun h u hu => not_transGen_of_acc (acc_of_reflTransGen h hu), fun h => ?_⟩
  -- the part of the graph that `v` reaches has no cycle
  let r' : ℕ → ℕ → Prop := fun c u => r c u ∧ ReflTransGen r u v
  have hr' : ∀ {c u}, TransGen r' c u → TransGen r c u ∧ ReflTransGen r u v := by
    intro c u hcu
    refine ⟨hcu.lift id fun _ _ h => h.1, ?_⟩
    obtain ⟨_, _, hu⟩ := TransGen.tail'_iff.1 hcu
    exact hu.2
  have hwf : WellFounded r' := by
    refine wellFounded_of_acyclic (fun c u hcu => hb c u hcu.1) fun u hu => ?_
    exact h u (hr' hu).2 (hr' hu).1
  have key : ∀ u, ReflTransGen r u v → Acc r u := by
    intro u
    induction u using hwf.induction with
    | _ u ih =>
      intro hu
      exact ⟨u, fun c hc => ih c ⟨hc, hu⟩ (ReflTransGen.head hc hu)⟩
  exact key v ReflTransGen.refl

/-! ### Recursion over the children -/

variable {α : Type}

/-- `F` determines the value at a node from the values at its children. -/
def Determined (r : ℕ → ℕ → Prop) (F : (ℕ → α) → ℕ → α) : Prop :=
  ∀ v f g, (∀ c, r c v → f c = g c) → F f v = F g v

open Classical in
/-- The function that `F` defines on a graph without infinite descent. -/
noncomputable def unfold [Inhabited α] (hr : WellFounded r) (F : (ℕ → α) → ℕ → α) : ℕ → α :=
  hr.fix fun v rec => F (fun c => if h : r c v then rec c h else default) v

theorem unfold_eq [Inhabited α] (hr : WellFounded r) {F : (ℕ → α) → ℕ → α} (hF : Determined r F)
    (v : ℕ) : unfold hr F v = F (unfold hr F) v := by
  rw [unfold, hr.fix_eq]
  exact hF v _ _ fun c hc => dif_pos hc

end IpeLang.Lib
