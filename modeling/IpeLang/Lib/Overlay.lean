import Mathlib.Tactic

/-!
# Overlays

Sites are made with a content and read through an overlay, which may replace the content that a site
was made with. From time to time the sites should have other contents. Each of those that differ from
what their site was made with is then registered under that.

* `Site`: what a site was made with, and what it should have;
* `registerAll`: the overlay after some rounds of registering;
* `read_eq_iff`: exactly when every site is then read as it should be.
-/

namespace IpeLang.Lib.Overlay

variable {K : Type} [BEq K]

/-- The content that a site was made with, and the content that it should have. -/
abbrev Site (K : Type) := K × K

/-- The content that is read at a site that was made with `k`. The latest entry comes first. -/
def read (overlay : List (K × K)) (k : K) : K := (overlay.lookup k).getD k

/-- The sites that should not have the content that they were made with. -/
def changed (sites : List (Site K)) : List (Site K) := sites.filter fun s => s.1 != s.2

/-- Register every changed site. -/
def register (overlay : List (K × K)) (sites : List (Site K)) : List (K × K) :=
  (changed sites).foldl (fun overlay s => s :: overlay) overlay

/-- Register one round after the other. -/
def registerAll (rounds : List (List (Site K))) : List (K × K) := rounds.foldl register []

/-- Sites that were made alike should be alike in the end, and none of them should have in the end
what it was made with after another one like it was changed in some round. -/
structure Steady (rounds : List (List (Site K))) (last : List (Site K)) : Prop where
  alike : ∀ s ∈ last, ∀ s' ∈ last, s'.1 = s.1 → s'.2 = s.2
  kept : ∀ s ∈ last, s.2 = s.1 → ∀ sites ∈ rounds, ∀ s' ∈ sites, s'.1 = s.1 → s'.2 = s'.1

theorem register_eq (overlay : List (K × K)) (sites : List (Site K)) :
    register overlay sites = (changed sites).reverse ++ overlay :=
  List.foldl_flip_cons_eq_append'

theorem registerAll_concat (rounds : List (List (Site K))) (sites : List (Site K)) :
    registerAll (rounds ++ [sites]) = (changed sites).reverse ++ registerAll rounds := by
  unfold registerAll
  rw [List.foldl_append, List.foldl_cons, List.foldl_nil, register_eq]

variable [LawfulBEq K]

@[simp] theorem mem_changed {sites : List (Site K)} {s : Site K} :
    s ∈ changed sites ↔ s ∈ sites ∧ s.1 ≠ s.2 := by
  simp [changed]

theorem mem_registerAll {rounds : List (List (Site K))} {s : Site K} :
    s ∈ registerAll rounds ↔ ∃ sites ∈ rounds, s ∈ changed sites := by
  induction rounds using List.reverseRecOn with
  | nil => simp [registerAll]
  | append_singleton rounds sites ih =>
    rw [registerAll_concat, List.mem_append, List.mem_reverse, ih]
    constructor
    · rintro (h | ⟨sites', hmem, h⟩)
      · exact ⟨sites, by simp, h⟩
      · exact ⟨sites', by simp [hmem], h⟩
    · rintro ⟨sites', hmem, h⟩
      rcases List.mem_append.1 hmem with hmem | hmem
      · exact .inr ⟨sites', hmem, h⟩
      · rw [List.mem_singleton.1 hmem] at h
        exact .inl h

theorem mem_of_lookup {l : List (K × K)} {k v : K} (h : l.lookup k = some v) : (k, v) ∈ l := by
  induction l with
  | nil => cases h
  | cons p l ih =>
    rw [List.lookup_cons] at h
    by_cases hk : k = p.1
    · rw [beq_iff_eq.2 hk] at h
      cases h
      exact hk ▸ List.mem_cons_self
    · rw [beq_eq_false_iff_ne.2 hk] at h
      exact List.mem_cons_of_mem _ (ih h)

theorem lookup_of_mem {l : List (K × K)} {p : K × K} (h : p ∈ l) :
    ∃ v, l.lookup p.1 = some v := by
  cases hv : l.lookup p.1 with
  | some v => exact ⟨v, rfl⟩
  | none =>
    have := List.lookup_eq_none_iff.1 hv p h
    simp at this

theorem lookup_map {V W : Type} (f : K → V → W) (l : List (K × V)) (k : K) :
    (l.map fun p => (p.1, f p.1 p.2)).lookup k = (l.lookup k).map (f k) := by
  induction l with
  | nil => rfl
  | cons p l ih =>
    rw [List.map_cons, List.lookup_cons, List.lookup_cons, ih]
    by_cases hk : k = p.1
    · rw [hk, beq_self_eq_true]
      rfl
    · rw [beq_eq_false_iff_ne.2 hk]

/-- What is read where nothing is registered. -/
theorem read_of_forall {overlay : List (K × K)} {k : K} (h : ∀ p ∈ overlay, p.1 ≠ k) :
    read overlay k = k := by
  have hnone : overlay.lookup k = none :=
    List.lookup_eq_none_iff.2 fun p hp => by simpa using (h p hp).symm
  rw [read, hnone, Option.getD_none]

/-- What is read where something is registered was registered there. -/
theorem read_of_mem {overlay : List (K × K)} {p : K × K} (h : p ∈ overlay) :
    (p.1, read overlay p.1) ∈ overlay := by
  obtain ⟨v, hv⟩ := lookup_of_mem h
  rw [read, hv]
  exact mem_of_lookup hv

theorem read_append_of_mem {l l' : List (K × K)} {p : K × K} (h : p ∈ l) :
    read (l ++ l') p.1 = read l p.1 := by
  obtain ⟨v, hv⟩ := lookup_of_mem h
  rw [read, read, List.lookup_append, hv]
  rfl

/-- Every site is read as it should be in the end, exactly when the rounds are steady. -/
theorem read_eq_iff {rounds : List (List (Site K))} {last : List (Site K)}
    (hlast : rounds.getLast? = some last) :
    (∀ s ∈ last, read (registerAll rounds) s.1 = s.2) ↔ Steady rounds last := by
  obtain ⟨before, rfl⟩ := List.getLast?_eq_some_iff.1 hlast
  constructor
  · intro h
    refine ⟨fun s hs s' hs' hkey => ?_, fun s hs hsame sites hsites s' hs' hkey => ?_⟩
    · rw [← h s hs, ← h s' hs', hkey]
    · by_contra hne
      have hmem : s' ∈ registerAll (before ++ [last]) :=
        mem_registerAll.2 ⟨sites, hsites, mem_changed.2 ⟨hs', fun heq => hne heq.symm⟩⟩
      obtain ⟨sites', -, hread⟩ := mem_registerAll.1 (read_of_mem hmem)
      rw [hkey, h s hs, hsame] at hread
      exact (mem_changed.1 hread).2 rfl
  · rintro ⟨halike, hkept⟩ s hs
    by_cases hsame : s.2 = s.1
    · rw [hsame]
      refine read_of_forall fun p hp hkey => ?_
      obtain ⟨sites, hsites, hp⟩ := mem_registerAll.1 hp
      obtain ⟨hp, hne⟩ := mem_changed.1 hp
      exact hne (hkept s hs hsame sites hsites p hp hkey).symm
    · have hmem : s ∈ (changed last).reverse :=
        List.mem_reverse.2 (mem_changed.2 ⟨hs, fun heq => hsame heq.symm⟩)
      have hread := read_of_mem hmem
      rw [registerAll_concat, read_append_of_mem hmem]
      exact halike s hs _ (mem_changed.1 (List.mem_reverse.1 hread)).1 rfl

end IpeLang.Lib.Overlay
