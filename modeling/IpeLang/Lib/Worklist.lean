import Mathlib.Tactic
import Mathlib.Logic.Relation

/-!
# Worklists

Keys are taken from a queue. A key that a store does not have yet is looked up, added to the store, and
what it asks for goes to the end of the queue.

* `Source.walk`: the loop, on any store;
* `walk_spec`: the keys that it adds are those that the queue leads to past keys that the store had not.
-/

namespace IpeLang.Lib.Worklist

variable {K V S : Type}

/-- What is known of keys, and what they ask for: keys of a pool. -/
structure Source (K V : Type) where
  find : K → Option (V × List K)
  pool : List K
  closed : ∀ k v asked, find k = some (v, asked) → asked ⊆ pool

/-- A store to which keys are added. -/
structure Store (S K V : Type) where
  has : S → K → Bool
  add : S → K → V → S
  has_add : ∀ s k v k', has (add s k v) k' = true ↔ k' = k ∨ has s k' = true

variable (σ : Store S K V) (src : Source K V)

/-- The keys of the pool that a store does not have. -/
def missing [DecidableEq K] (s : S) : Finset K := src.pool.toFinset.filter fun k => σ.has s k = false

theorem missing_add_lt [DecidableEq K] {s : S} {k : K} {v : V} (hk : k ∈ src.pool) (hhas : σ.has s k = false) :
    (missing σ src (σ.add s k v)).card < (missing σ src s).card := by
  refine Finset.card_lt_card ((Finset.ssubset_iff_of_subset fun k' hk' => ?_).2
    ⟨k, Finset.mem_filter.2 ⟨List.mem_toFinset.2 hk, hhas⟩, fun hmem => ?_⟩)
  · obtain ⟨hpool, hnot⟩ := Finset.mem_filter.1 hk'
    refine Finset.mem_filter.2 ⟨hpool, Bool.eq_false_iff.2 fun hhad => ?_⟩
    rw [(σ.has_add s k v k').2 (.inr hhad)] at hnot
    cases hnot
  · have hnot := (Finset.mem_filter.1 hmem).2
    rw [(σ.has_add s k v k).2 (.inl rfl)] at hnot
    cases hnot

/-- What a key asks for and the store still does not have. -/
def news (s : S) (asked : List K) : List K := asked.filter fun k => σ.has s k = false

theorem append_news_subset {k : K} {v : V} {asked work : List K} {s : S}
    (hfind : src.find k = some (v, asked)) (h : k :: work ⊆ src.pool) :
    work ++ news σ s asked ⊆ src.pool :=
  List.append_subset.2 ⟨fun _ hmem => h (List.mem_cons_of_mem _ hmem),
    fun _ hmem => src.closed k v asked hfind (List.mem_of_mem_filter hmem)⟩

def Source.walk [DecidableEq K] : (work : List K) → work ⊆ src.pool → S → S
  | [], _, s => s
  | k :: work, h, s =>
    if _hhas : σ.has s k = true then walk work (List.subset_of_cons_subset h) s
    else
      match hfind : src.find k with
      | none => walk work (List.subset_of_cons_subset h) s
      | some (v, asked) =>
        walk (work ++ news σ (σ.add s k v) asked) (append_news_subset σ src hfind h) (σ.add s k v)
termination_by work _ s => ((missing σ src s).card, work.length)
decreasing_by
  · exact .right _ (by simp)
  · exact .right _ (by simp)
  · exact .left _ _ (missing_add_lt σ src (h (List.mem_cons_self ..)) (by simpa using _hhas))

/-! ### What a walk adds -/

section

variable {σ : Store S K V} {src : Source K V}

/-- The way of a walk from one key to the next, past a key that the store had not. -/
def Leads (σ : Store S K V) (src : Source K V) (s : S) (k k' : K) : Prop :=
  σ.has s k = false ∧ ∃ v asked, src.find k = some (v, asked) ∧ k' ∈ asked

/-- A known key that the store had not, and that these keys lead to. -/
def Found (σ : Store S K V) (src : Source K V) (s : S) (work : List K) (k : K) : Prop :=
  σ.has s k = false ∧ (src.find k).isSome ∧ ∃ w ∈ work, Relation.ReflTransGen (Leads σ src s) w k

theorem has_add_false {s : S} {k : K} {v : V} {x : K} :
    σ.has (σ.add s k v) x = false ↔ x ≠ k ∧ σ.has s x = false := by
  rw [← Bool.not_eq_true, σ.has_add, not_or, Bool.not_eq_true]

theorem Leads.of_add {s : S} {k x y : K} {v : V} (h : Leads σ src (σ.add s k v) x y) :
    Leads σ src s x y :=
  ⟨(has_add_false.1 h.1).2, h.2⟩

/-- The way from a key that the store has, or that is not known, ends at once. -/
theorem eq_of_stuck {s : S} {k x : K} (hstuck : σ.has s k = true ∨ src.find k = none)
    (hpath : Relation.ReflTransGen (Leads σ src s) k x) : x = k := by
  rcases hpath.cases_head with heq | ⟨y, ⟨hnot, v, asked, hfind, -⟩, -⟩
  · exact heq.symm
  · rcases hstuck with hhas | hnone
    · rw [hhas] at hnot
      cases hnot
    · rw [hnone] at hfind
      cases hfind

theorem found_of_stuck {s : S} {k : K} {work : List K} {x : K}
    (hstuck : σ.has s k = true ∨ src.find k = none) :
    Found σ src s (k :: work) x ↔ Found σ src s work x := by
  refine ⟨fun ⟨hnot, hsome, w, hw, hpath⟩ => ?_,
    fun ⟨hnot, hsome, w, hw, hpath⟩ => ⟨hnot, hsome, w, List.mem_cons_of_mem _ hw, hpath⟩⟩
  rcases List.mem_cons.1 hw with rfl | hw
  · obtain rfl := eq_of_stuck hstuck hpath
    rcases hstuck with hhas | hnone
    · rw [hhas] at hnot
      cases hnot
    · rw [hnone] at hsome
      cases hsome
  · exact ⟨hnot, hsome, w, hw, hpath⟩

/-- A way past the added key is a way around it, from what it asks for. -/
theorem path_add {s : S} {k : K} {v : V} {asked : List K} (hfind : src.find k = some (v, asked))
    {w x : K} (hpath : Relation.ReflTransGen (Leads σ src s) w x) :
    Relation.ReflTransGen (Leads σ src (σ.add s k v)) w x ∨
      ∃ a ∈ asked, Relation.ReflTransGen (Leads σ src (σ.add s k v)) a x := by
  induction hpath using Relation.ReflTransGen.head_induction_on with
  | refl => exact .inl .refl
  | @head y y' hlead _ ih =>
    rcases ih with hpath | hasked
    · by_cases hyk : y = k
      · obtain ⟨-, v', asked', hfind', hmem⟩ := hlead
        rw [hyk, hfind] at hfind'
        obtain ⟨-, rfl⟩ := Prod.mk.inj (Option.some.inj hfind')
        exact .inr ⟨y', hmem, hpath⟩
      · exact .inl (hpath.head ⟨has_add_false.2 ⟨hyk, hlead.1⟩, hlead.2⟩)
    · exact .inr hasked

theorem found_add {s : S} {k : K} {v : V} {asked work : List K}
    (hhas : σ.has s k = false) (hfind : src.find k = some (v, asked)) (x : K) :
    Found σ src s (k :: work) x ↔
      x = k ∨ Found σ src (σ.add s k v) (work ++ news σ (σ.add s k v) asked) x := by
  constructor
  · rintro ⟨hnot, hsome, w, hw, hpath⟩
    by_cases hxk : x = k
    · exact .inl hxk
    have hnot' := (has_add_false (σ := σ) (v := v)).2 ⟨hxk, hnot⟩
    refine .inr ⟨hnot', hsome, ?_⟩
    -- A key from which the way goes on is not one that the store has.
    have hnews : ∀ a ∈ asked, Relation.ReflTransGen (Leads σ src (σ.add s k v)) a x →
        a ∈ news σ (σ.add s k v) asked := by
      intro a ha hax
      refine List.mem_filter.2 ⟨ha, ?_⟩
      by_contra hcon
      have hadd : σ.has (σ.add s k v) a = true := by simpa using hcon
      obtain rfl := eq_of_stuck (.inl hadd) hax
      rw [hadd] at hnot'
      cases hnot'
    rcases path_add hfind hpath with hpath | ⟨a, ha, hpath⟩
    · rcases List.mem_cons.1 hw with rfl | hw
      · have hstuck : σ.has (σ.add s w v) w = true := (σ.has_add s w v w).2 (.inl rfl)
        exact absurd (eq_of_stuck (.inl hstuck) hpath) hxk
      · exact ⟨w, List.mem_append_left _ hw, hpath⟩
    · exact ⟨a, List.mem_append_right _ (hnews a ha hpath), hpath⟩
  · rintro (rfl | ⟨hnot, hsome, w, hw, hpath⟩)
    · exact ⟨hhas, by rw [hfind]; rfl, x, List.mem_cons_self .., .refl⟩
    · have hpath := Relation.ReflTransGen.mono (fun _ _ => Leads.of_add) _ _ hpath
      refine ⟨(has_add_false.1 hnot).2, hsome, ?_⟩
      rcases List.mem_append.1 hw with hw | hw
      · exact ⟨w, List.mem_cons_of_mem _ hw, hpath⟩
      · exact ⟨k, List.mem_cons_self ..,
          hpath.head ⟨hhas, v, asked, hfind, List.mem_of_mem_filter hw⟩⟩

end

/-- What a walk adds: each found key once, with what is known of it. -/
structure Adds (s : S) (work : List K) (added : List (K × V)) : Prop where
  nodup : (added.map Prod.fst).Nodup
  known : ∀ p ∈ added, ∃ asked, src.find p.1 = some (p.2, asked)
  mem : ∀ k, k ∈ added.map Prod.fst ↔ Found σ src s work k

theorem walk_spec [DecidableEq K] (work : List K) (h : work ⊆ src.pool) (s : S) :
    ∃ added, src.walk σ work h s = added.foldl (fun s p => σ.add s p.1 p.2) s ∧
      Adds σ src s work added := by
  induction work, h, s using Source.walk.induct σ src with
  | case1 h s _ =>
    rw [Source.walk]
    exact ⟨[], rfl, List.nodup_nil, by simp, fun k => by simp [Found]⟩
  | case2 k work h s hhas _ ih =>
    rw [Source.walk, dif_pos hhas]
    obtain ⟨added, heq, hnodup, hknown, hmem⟩ := ih
    exact ⟨added, heq, hnodup, hknown, fun x => by rw [hmem, found_of_stuck (.inl hhas)]⟩
  | case3 k work h s hhas hfind _ ih =>
    rw [Source.walk, dif_neg hhas]
    obtain ⟨added, heq, hnodup, hknown, hmem⟩ := ih
    split
    · exact ⟨added, heq, hnodup, hknown, fun x => by rw [hmem, found_of_stuck (.inr hfind)]⟩
    · simp_all
  | case4 k work h s hhas v asked hfind _ ih =>
    rw [Source.walk, dif_neg hhas]
    obtain ⟨added, heq, hnodup, hknown, hmem⟩ := ih
    have hhas : σ.has s k = false := by simpa using hhas
    have hadds : Adds σ src s (k :: work) ((k, v) :: added) := by
      refine ⟨List.nodup_cons.2 ⟨fun hin => ?_, hnodup⟩, ?_, fun x => ?_⟩
      · exact (has_add_false.1 ((hmem k).1 hin).1).1 rfl
      · rintro p hp
        rcases List.mem_cons.1 hp with rfl | hp
        · exact ⟨asked, hfind⟩
        · exact hknown p hp
      · rw [List.map_cons, List.mem_cons, hmem, found_add hhas hfind]
    split
    · simp_all
    · rename_i v' asked' hfind'
      obtain ⟨rfl, rfl⟩ := Prod.mk.inj (Option.some.inj (hfind.symm.trans hfind'))
      exact ⟨(k, v) :: added, by rw [heq]; rfl, hadds⟩

end IpeLang.Lib.Worklist
