import Mathlib.Tactic

/-!
# Runs of a machine

A machine takes one input at a time and answers each with an output: `f s i` is the output and the
next state. A run is given by its inputs alone, so what may happen in any order is an input.

* `moves f s is`: the moves of the run from `s` on the inputs `is`, `runTo f s is`: where it ends;
* `moves_invariant`: what every move preserves holds all along a run;
* `moves_iff`: a property of moves that is equivalent to a condition as long as it held before.
-/

namespace IpeLang.Lib

variable {σ ι ω : Type}

/-- One move of a run. -/
structure Move (σ ι ω : Type) where
  before : σ
  input : ι
  output : ω
  after : σ

/-- The move of `f` from `s` on `i`. -/
def moveOf (f : σ → ι → ω × σ) (s : σ) (i : ι) : Move σ ι ω := ⟨s, i, (f s i).1, (f s i).2⟩

/-- The moves of a run, in their order. -/
def moves (f : σ → ι → ω × σ) : σ → List ι → List (Move σ ι ω)
  | _, [] => []
  | s, i :: is => moveOf f s i :: moves f (f s i).2 is

/-- The last state of a run. -/
def runTo (f : σ → ι → ω × σ) (s : σ) (is : List ι) : σ := is.foldl (fun s i => (f s i).2) s

variable {f : σ → ι → ω × σ} {s : σ} {is : List ι}

@[simp] theorem moves_nil : moves f s [] = [] := rfl

@[simp] theorem moves_cons (i : ι) :
    moves f s (i :: is) = moveOf f s i :: moves f (f s i).2 is := rfl

@[simp] theorem runTo_nil : runTo f s [] = s := rfl

@[simp] theorem runTo_cons (i : ι) : runTo f s (i :: is) = runTo f (f s i).2 is := rfl

theorem runTo_append (is' : List ι) : runTo f s (is ++ is') = runTo f (runTo f s is) is' := by
  unfold runTo
  rw [List.foldl_append]

/-- The moves of a run up to one of them are those of a shorter run. -/
theorem moves_eq_append {a b : List (Move σ ι ω)} (h : moves f s is = a ++ b) :
    ∃ is₁ is₂, is = is₁ ++ is₂ ∧ a = moves f s is₁ ∧ b = moves f (runTo f s is₁) is₂ := by
  induction a generalizing s is with
  | nil => exact ⟨[], is, rfl, rfl, h.symm⟩
  | cons m a ih =>
    cases is with
    | nil => cases h
    | cons i is =>
      obtain ⟨rfl, hrest⟩ := List.cons.inj h
      obtain ⟨is₁, is₂, rfl, rfl, rfl⟩ := ih hrest
      exact ⟨i :: is₁, is₂, rfl, rfl, rfl⟩

/-- The first move of a run. -/
theorem moves_eq_cons {m : Move σ ι ω} {a : List (Move σ ι ω)} (h : moves f s is = m :: a) :
    ∃ is', is = m.input :: is' ∧ m = moveOf f s m.input ∧ a = moves f m.after is' := by
  cases is with
  | nil => cases h
  | cons i is =>
    obtain ⟨rfl, rfl⟩ := List.cons.inj h
    exact ⟨is, rfl, rfl, rfl⟩

/-- Two moves of a run, and the runs before, between and after them. -/
theorem moves_eq_between {m q : Move σ ι ω} {a b c : List (Move σ ι ω)}
    (h : moves f s is = a ++ m :: (b ++ q :: c)) :
    ∃ is₁ is₂ is₃, is = is₁ ++ m.input :: (is₂ ++ q.input :: is₃) ∧ a = moves f s is₁ ∧
      m = moveOf f (runTo f s is₁) m.input ∧ b = moves f m.after is₂ ∧
      q = moveOf f (runTo f m.after is₂) q.input := by
  obtain ⟨is₁, is', rfl, ha, htail⟩ := moves_eq_append h
  obtain ⟨is'', rfl, hm, hrest⟩ := moves_eq_cons htail.symm
  obtain ⟨is₂, is₄, rfl, hb, hlast⟩ := moves_eq_append hrest.symm
  obtain ⟨is₃, rfl, hq, -⟩ := moves_eq_cons hlast.symm
  exact ⟨is₁, is₂, is₃, rfl, ha, hm, hb, hq⟩

theorem map_input_moves : (moves f s is).map Move.input = is := by
  induction is generalizing s with
  | nil => rfl
  | cons i is ih => rw [moves_cons, List.map_cons, ih]; rfl

/-- What the moves that meet a condition preserve holds all along a run of such moves. -/
theorem moves_invariant {P : σ → Prop} {C : Move σ ι ω → Prop}
    (hstep : ∀ s i, P s → C (moveOf f s i) → P (f s i).2) (hs : P s)
    (hC : ∀ m ∈ moves f s is, C m) :
    (∀ m ∈ moves f s is, P m.before ∧ P m.after) ∧ P (runTo f s is) := by
  induction is generalizing s with
  | nil => exact ⟨by simp, hs⟩
  | cons i is ih =>
    have hC' := List.forall_mem_cons.1 hC
    have hnext := hstep s i hs hC'.1
    obtain ⟨hmoves, hlast⟩ := ih hnext hC'.2
    exact ⟨List.forall_mem_cons.2 ⟨⟨hs, hnext⟩, hmoves⟩, hlast⟩

/-- What every move preserves holds all along a run. -/
theorem runTo_invariant {P : σ → Prop} (hstep : ∀ s i, P s → P (f s i).2) (hs : P s) :
    P (runTo f s is) :=
  (moves_invariant (C := fun _ => True) (fun s i h _ => hstep s i h) hs fun _ _ => trivial).2

/-- What holds at the end of a run held at its start, or a move of the run brought it about. -/
theorem runTo_cause {I P : σ → Prop} {R : Move σ ι ω → Prop} (hI : ∀ s i, I s → I (f s i).2)
    (hstep : ∀ s i, I s → P (f s i).2 → P s ∨ R (moveOf f s i)) (hs : I s) (h : P (runTo f s is)) :
    P s ∨ ∃ m ∈ moves f s is, R m := by
  induction is generalizing s with
  | nil => exact .inl h
  | cons i is ih =>
    rcases ih (hI s i hs) h with hnext | ⟨m, hm, hR⟩
    · rcases hstep s i hs hnext with hnow | hR
      · exact .inl hnow
      · exact .inr ⟨_, List.mem_cons_self, hR⟩
    · exact .inr ⟨m, List.mem_cons_of_mem _ hm, hR⟩

/-- A property of moves that carries over to the next state, and that a move from such a state has
exactly when it meets a condition: a run has it all along exactly when all its moves meet the
condition. -/
theorem moves_iff {P : σ → Prop} {G C : Move σ ι ω → Prop} (hP : ∀ s i, G (moveOf f s i) → P (f s i).2)
    (hG : ∀ s i, P s → (G (moveOf f s i) ↔ C (moveOf f s i))) (hs : P s) :
    (∀ m ∈ moves f s is, G m) ↔ ∀ m ∈ moves f s is, C m := by
  induction is generalizing s with
  | nil => simp
  | cons i is ih =>
    rw [moves_cons, List.forall_mem_cons, List.forall_mem_cons, hG s i hs]
    exact and_congr_right fun hC => ih (hP s i ((hG s i hs).2 hC))

end IpeLang.Lib
