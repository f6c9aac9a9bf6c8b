import Mathlib.Tactic
import Mathlib.Data.Finset.Card
import Mathlib.Algebra.BigOperators.Group.Finset.Basic

/-!
# Partitions with descriptors

What a union-find arena stands for: the ids below `size` fall into classes, each class has a
representative, and all ids of a class share one descriptor. Links, ranks and path compression
are not visible here.

* `Mint S S' cs`: `S'` has one new class of its own for each descriptor of `cs`;
* `Merge S S' a b keep cs`: `S'` joins the classes of `a` and `b` under the descriptor `keep`, and
  has the new classes of `cs`;
* `ClassStore.classes`: the representatives, one less after a merge.
-/

namespace IpeLang.Lib

/-- A partition of the ids below `size`, with a descriptor for each class. -/
structure ClassStore (T : Type) where
  size : ℕ
  root : ℕ → ℕ
  desc : ℕ → Option T
  root_lt : ∀ {v}, v < size → root v < size
  root_of_le : ∀ {v}, size ≤ v → root v = v
  root_root : ∀ v, root (root v) = root v
  desc_root : ∀ v, desc (root v) = desc v
  desc_isSome : ∀ v, (desc v).isSome ↔ v < size

namespace ClassStore

variable {T : Type} {S S' : ClassStore T} {a b v w : ℕ} {keep : T} {cs : List T}

attribute [simp] root_root desc_root

theorem ext_view (hsize : S.size = S'.size) (hroot : ∀ v, S.root v = S'.root v)
    (hdesc : ∀ v, S.desc v = S'.desc v) : S = S' := by
  obtain ⟨n, r, d, _, _, _, _, _⟩ := S
  obtain ⟨n', r', d', _, _, _, _, _⟩ := S'
  obtain rfl : n = n' := hsize
  obtain rfl : r = r' := funext hroot
  obtain rfl : d = d' := funext hdesc
  rfl

theorem root_lt_iff : S.root v < S.size ↔ v < S.size := by
  constructor
  · intro h
    by_contra hv
    rw [S.root_of_le (not_lt.1 hv)] at h
    exact hv h
  · exact S.root_lt

theorem exists_desc (h : v < S.size) : ∃ d, S.desc v = some d :=
  Option.isSome_iff_exists.1 ((S.desc_isSome v).2 h)

theorem lt_of_desc {d : T} (h : S.desc v = some d) : v < S.size :=
  (S.desc_isSome v).1 (by rw [h]; rfl)

/-- The two ids are in one class. -/
def Same (S : ClassStore T) (v w : ℕ) : Prop := S.root v = S.root w

instance : DecidableRel S.Same := fun v w => inferInstanceAs (Decidable (S.root v = S.root w))

theorem Same.refl (S : ClassStore T) (v : ℕ) : S.Same v v := rfl

theorem Same.symm (h : S.Same v w) : S.Same w v := Eq.symm h

theorem Same.trans {u : ℕ} (h : S.Same u v) (h' : S.Same v w) : S.Same u w := Eq.trans h h'

theorem same_root (S : ClassStore T) (v : ℕ) : S.Same v (S.root v) := (S.root_root v).symm

theorem Same.desc_eq (h : S.Same v w) : S.desc v = S.desc w := by
  rw [← S.desc_root v, ← S.desc_root w, h]

theorem Same.lt (h : S.Same v w) (hv : v < S.size) : w < S.size := by
  rw [← root_lt_iff, ← h]
  exact S.root_lt hv

theorem not_same_of_le (hw : w < S.size) (hv : S.size ≤ v) : ¬ S.Same v w := by
  intro h
  have := h.symm.lt hw
  omega

theorem desc_of_le (hv : S.size ≤ v) : S.desc v = none := by
  have : ¬ (S.desc v).isSome := by
    rw [S.desc_isSome]
    omega
  simpa using this

/-! ### New classes -/

/-- `S'` adds a class of its own for each descriptor of `cs`. -/
structure Mint (S S' : ClassStore T) (cs : List T) : Prop where
  size_eq : S'.size = S.size + cs.length
  root_eq : ∀ v, S'.root v = S.root v
  desc_old : ∀ {v}, v < S.size → S'.desc v = S.desc v
  desc_new : ∀ i, S'.desc (S.size + i) = cs[i]?

/-! ### Merging two classes -/

/-- `S'` joins the classes of `a` and `b`, under the representative of one of them, and adds a class
of its own for each descriptor of `cs`. -/
structure Merge (S S' : ClassStore T) (a b : ℕ) (keep : T) (cs : List T) : Prop where
  size_eq : S'.size = S.size + cs.length
  root_left : S'.root a = S.root a ∨ S'.root a = S.root b
  root_eq : ∀ v, S'.root v = if S.Same v a ∨ S.Same v b then S'.root a else S.root v
  desc_old : ∀ {v}, v < S.size →
    S'.desc v = if S.Same v a ∨ S.Same v b then some keep else S.desc v
  desc_new : ∀ i, S'.desc (S.size + i) = cs[i]?

/-- Minting before a merge. -/
theorem Mint.merge {S₁ : ClassStore T} (h : Mint S S₁ cs) (h' : Merge S₁ S' a b keep [])
    (ha : a < S.size) (hb : b < S.size) : Merge S S' a b keep cs := by
  have hsame : ∀ v w, S₁.Same v w ↔ S.Same v w := fun v w => by
    unfold Same
    rw [h.root_eq, h.root_eq]
  have hsize : S'.size = S.size + cs.length := by simpa [h.size_eq] using h'.size_eq
  refine ⟨hsize, ?_, fun v => ?_, fun {v} hv => ?_, fun i => ?_⟩
  · simpa only [h.root_eq] using h'.root_left
  · simpa only [h.root_eq, hsame] using h'.root_eq v
  · have := h'.desc_old (v := v) (by rw [h.size_eq]; omega)
    simpa only [h.desc_old hv, hsame] using this
  · by_cases hi : i < cs.length
    · rw [h'.desc_old (by rw [h.size_eq]; omega), ← h.desc_new, if_neg]
      rintro (hs | hs)
      · exact not_same_of_le ha (by omega) ((hsame _ _).1 hs)
      · exact not_same_of_le hb (by omega) ((hsame _ _).1 hs)
    · rw [desc_of_le (by omega), List.getElem?_eq_none_iff.2 (by omega)]

/-- Minting after a merge. -/
theorem Merge.mint {S'' : ClassStore T} {c : T} (h : Merge S S' a b keep cs)
    (h' : Mint S' S'' [c]) : Merge S S'' a b keep (cs ++ [c]) where
  size_eq := by simp [h'.size_eq, h.size_eq, Nat.add_assoc]
  root_left := by simpa only [h'.root_eq] using h.root_left
  root_eq v := by simpa only [h'.root_eq] using h.root_eq v
  desc_old {v} hv := by rw [h'.desc_old (by rw [h.size_eq]; omega), h.desc_old hv]
  desc_new i := by
    by_cases hi : i < cs.length
    · rw [h'.desc_old (by rw [h.size_eq]; omega), h.desc_new, List.getElem?_append_left hi]
    · have hnew := h'.desc_new (i - cs.length)
      rw [List.getElem?_append_right (by omega), ← hnew, h.size_eq]
      congr 1
      omega

/-- A merge of two representatives is a merge of any members of their classes. -/
theorem Merge.of_root (h : Merge S S' (S.root a) (S.root b) keep cs) : Merge S S' a b keep cs := by
  have hsame : ∀ u w, S.Same u (S.root w) ↔ S.Same u w := fun u w => by
    unfold Same
    rw [S.root_root]
  have hroot : S'.root a = S'.root (S.root a) := by
    rw [h.root_eq a, if_pos (Or.inl (S.same_root a))]
  refine ⟨h.size_eq, ?_, fun v => ?_, fun {v} hv => ?_, h.desc_new⟩
  · simpa only [hroot, S.root_root] using h.root_left
  · simpa only [hroot, hsame] using h.root_eq v
  · simpa only [hsame] using h.desc_old hv

namespace Merge

variable (h : Merge S S' a b keep cs)
include h

theorem same_iff : S'.Same v w ↔
    S.Same v w ∨ (S.Same v a ∨ S.Same v b) ∧ (S.Same w a ∨ S.Same w b) := by
  have hne : ∀ u, ¬ (S.Same u a ∨ S.Same u b) → S'.root a ≠ S.root u := by
    intro u hu heq
    rcases h.root_left with h' | h'
    · exact hu (Or.inl (heq.symm.trans h'))
    · exact hu (Or.inr (heq.symm.trans h'))
  unfold Same at *
  rw [h.root_eq v, h.root_eq w]
  unfold Same
  by_cases hv : S.root v = S.root a ∨ S.root v = S.root b
  · by_cases hw : S.root w = S.root a ∨ S.root w = S.root b
    · simp [hv, hw]
    · have hvw : S.root v ≠ S.root w := fun heq => hw (heq ▸ hv)
      simp only [hv, hw, if_true, if_false, and_false, or_false]
      exact ⟨fun heq => absurd heq (hne w hw), fun heq => absurd heq hvw⟩
  · by_cases hw : S.root w = S.root a ∨ S.root w = S.root b
    · have hvw : S.root v ≠ S.root w := fun heq => hv (heq ▸ hw)
      simp only [hv, hw, if_true, if_false, false_and, or_false]
      exact ⟨fun heq => absurd heq.symm (hne v hv), fun heq => absurd heq hvw⟩
    · simp [hv, hw]

theorem same_mono (hvw : S.Same v w) : S'.Same v w := h.same_iff.2 (Or.inl hvw)

theorem same_ab : S'.Same a b :=
  h.same_iff.2 (Or.inr ⟨Or.inl (Same.refl S a), Or.inr (Same.refl S b)⟩)

theorem size_le : S.size ≤ S'.size := by
  rw [h.size_eq]
  omega

/-- The two classes of a merge in the other order. -/
theorem swap : Merge S S' b a keep cs := by
  have hroot : S'.root b = S'.root a := h.same_ab.symm
  refine ⟨h.size_eq, by rw [hroot]; exact h.root_left.symm, fun v => ?_, fun {v} hv => ?_,
    h.desc_new⟩
  · simpa only [hroot, or_comm] using h.root_eq v
  · simpa only [or_comm] using h.desc_old hv

theorem desc_merged (hv : v < S.size) (hab : S.Same v a ∨ S.Same v b) :
    S'.desc v = some keep := by
  rw [h.desc_old hv, if_pos hab]

theorem desc_of_ne (hv : v < S.size) (ha : ¬ S.Same v a) (hb : ¬ S.Same v b) :
    S'.desc v = S.desc v := by
  rw [h.desc_old hv, if_neg (not_or.2 ⟨ha, hb⟩)]

end Merge

/-! ### Counting classes -/

/-- The representatives. -/
def classes (S : ClassStore T) : Finset ℕ := (Finset.range S.size).filter fun v => S.root v = v

theorem mem_classes : v ∈ S.classes ↔ v < S.size ∧ S.root v = v := by simp [classes]

/-- A merge takes one of the two representatives away and adds those that it mints. -/
theorem Merge.classes_eq (h : Merge S S' a b keep cs) (hne : ¬ S.Same a b) (ha : a < S.size)
    (hb : b < S.size) : ∃ l ∈ S.classes, (S.Same l a ∨ S.Same l b) ∧
      S'.classes =
        S.classes.erase l ∪ (Finset.range cs.length).map (addLeftEmbedding S.size) := by
  -- `w` is the representative that stays and `l` the one that goes
  obtain ⟨w, l, hwl, hl, hw, hroot, hcov⟩ : ∃ w l, w ≠ l ∧ l ∈ S.classes ∧ w ∈ S.classes ∧
      S'.root a = w ∧ ∀ v, S.Same v a ∨ S.Same v b ↔ S.root v = w ∨ S.root v = l := by
    have hra : S.root a ∈ S.classes := mem_classes.2 ⟨S.root_lt ha, S.root_root a⟩
    have hrb : S.root b ∈ S.classes := mem_classes.2 ⟨S.root_lt hb, S.root_root b⟩
    rcases h.root_left with h' | h'
    · exact ⟨_, _, hne, hrb, hra, h', fun v => Iff.rfl⟩
    · exact ⟨_, _, Ne.symm hne, hra, hrb, h', fun v => or_comm⟩
  have hww := mem_classes.1 hw
  have hll := mem_classes.1 hl
  refine ⟨l, hl, (hcov l).2 (Or.inr hll.2), ?_⟩
  ext v
  have hroot' := h.root_eq v
  simp only [hcov] at hroot'
  simp only [Finset.mem_union, Finset.mem_erase, mem_classes, h.size_eq, hroot', hroot,
    Finset.mem_map, Finset.mem_range, addLeftEmbedding_apply]
  constructor
  · rintro ⟨hv, hr⟩
    by_cases hlt : v < S.size
    · left
      split_ifs at hr with hc
      · exact hr ▸ ⟨hwl, hww⟩
      · exact ⟨fun hvl => hc (Or.inr (hvl ▸ hll.2)), hlt, hr⟩
    · exact Or.inr ⟨v - S.size, by omega, by omega⟩
  · rintro (⟨hvl, hv, hr⟩ | ⟨i, hi, rfl⟩)
    · refine ⟨by omega, ?_⟩
      split_ifs with hc
      · rcases hc with hc | hc
        · exact hc.symm.trans hr
        · exact absurd (hr.symm.trans hc) hvl
      · exact hr
    · have hr := S.root_of_le (v := S.size + i) (by omega)
      refine ⟨by omega, ?_⟩
      rw [hr, if_neg]
      rintro (hc | hc) <;> omega

/-- A sum over the classes, before and after a merge. -/
theorem Merge.sum_classes (h : Merge S S' a b keep cs) (hne : ¬ S.Same a b) (ha : a < S.size)
    (hb : b < S.size) (f : ℕ → ℕ) : ∃ l, (S.Same l a ∨ S.Same l b) ∧
      ∑ v ∈ S'.classes, f v + f l =
        ∑ v ∈ S.classes, f v + ∑ i ∈ Finset.range cs.length, f (S.size + i) := by
  obtain ⟨l, hl, hsame, heq⟩ := h.classes_eq hne ha hb
  refine ⟨l, hsame, ?_⟩
  have hdisj : Disjoint (S.classes.erase l)
      ((Finset.range cs.length).map (addLeftEmbedding S.size)) := by
    rw [Finset.disjoint_left]
    intro v hv hv'
    obtain ⟨i, -, rfl⟩ := Finset.mem_map.1 hv'
    have := (mem_classes.1 (Finset.mem_of_mem_erase hv)).1
    simp at this
  rw [heq, Finset.sum_union hdisj, Finset.sum_map, ← Finset.sum_erase_add _ _ hl]
  simp only [addLeftEmbedding_apply]
  ring

theorem Merge.card_classes (h : Merge S S' a b keep cs) (hne : ¬ S.Same a b) (ha : a < S.size)
    (hb : b < S.size) : S'.classes.card + 1 = S.classes.card + cs.length := by
  obtain ⟨_, -, hsum⟩ := h.sum_classes hne ha hb fun _ => 1
  simpa using hsum

end ClassStore

end IpeLang.Lib
