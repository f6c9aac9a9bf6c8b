import Mathlib.Tactic
import Mathlib.Order.WellFounded

/-!
# Loops cut off by fuel

A `while` loop of a fallible program is a step function `step : σ → Run ε (σ ⊕ ρ)`: it goes on
with a new state (`inl`), leaves the loop with a result (`inr`) or stops. Such a loop need not
end, so `loop step n` runs it for at most `n` rounds, and `Stop.fuel` says that the rounds ran
out; every other outcome is an outcome of the program.

* `Approx`: more fuel changes an outcome only where the fuel had run out (`loop_mono`);
* `Visits`: the states that a loop passes through;
* `loop_eq_fuel_of_closed`: a loop that never leaves a set of states never ends;
* `loop_halts`: a loop whose steps descend a well-founded relation ends.
-/

namespace IpeLang.Lib

variable {ε σ ρ α β : Type}

/-- Why a run gave no result: an error of the program, or the fuel of the model ran out. -/
inductive Stop (ε : Type)
  | diag (d : ε)
  | fuel
  deriving DecidableEq, Repr

/-- A fallible run. -/
abbrev Run (ε α : Type) := Except (Stop ε) α

/-- Running out of fuel. -/
def Run.outOfFuel : Run ε α := .error .fuel

/-- An error of the program. -/
def Run.fail (d : ε) : Run ε α := .error (.diag d)

/-- The run ended, with a result or with an error of the program. -/
def Run.Ended (x : Run ε α) : Prop := x ≠ .error .fuel

namespace Run

theorem ended_of_ok {x : Run ε α} {a : α} (h : x = .ok a) : x.Ended := by
  simp [Ended, h]

theorem ended_of_diag {x : Run ε α} {d : ε} (h : x = .error (.diag d)) : x.Ended := by
  simp [Ended, h]

@[simp] theorem pure_eq_ok (a : α) : (pure a : Run ε α) = .ok a := rfl

@[simp] theorem ok_bind (a : α) (f : α → Run ε β) :
    ((.ok a : Run ε α) >>= f) = f a := rfl

@[simp] theorem error_bind (e : Stop ε) (f : α → Run ε β) :
    ((.error e : Run ε α) >>= f) = .error e := rfl

/-- Peel the first part off a computation that gave a result. -/
theorem bind_eq_ok {x : Run ε α} {f : α → Run ε β} {b : β} :
    (x >>= f) = .ok b ↔ ∃ a, x = .ok a ∧ f a = .ok b := by
  cases x with
  | error e => simp
  | ok a => simp

/-- The error of a computation comes from one of its two parts. -/
theorem bind_eq_error {ε : Type} {x : Except ε α} {f : α → Except ε β} {e : ε} :
    (x >>= f) = .error e ↔ x = .error e ∨ ∃ a, x = .ok a ∧ f a = .error e := by
  cases x with
  | error e' =>
    show Except.error e' = Except.error e ↔ _
    simp
  | ok a =>
    show f a = .error e ↔ _
    simp

/-- A computation ends if its parts do. -/
theorem ended_bind {x : Run ε α} {f : α → Run ε β} (hx : x.Ended)
    (hf : ∀ a, x = .ok a → (f a).Ended) : (x >>= f).Ended := by
  intro h
  rcases bind_eq_error.1 h with h | ⟨a, ha, h⟩
  · exact hx h
  · exact hf a ha h

end Run

/-! ### More fuel -/

/-- `y` is the outcome `x`, unless `x` ran out of fuel. -/
def Approx (x y : Run ε α) : Prop := x = .error .fuel ∨ x = y

theorem Approx.refl (x : Run ε α) : Approx x x := Or.inr rfl

theorem Approx.trans {x y z : Run ε α} (h₁ : Approx x y) (h₂ : Approx y z) : Approx x z := by
  rcases h₁ with h₁ | rfl
  · exact Or.inl h₁
  · exact h₂

theorem Approx.eq_of_ended {x y : Run ε α} (h : Approx x y) (hx : x.Ended) : x = y :=
  h.resolve_left hx

theorem Approx.bind {x y : Run ε α} {f g : α → Run ε β} (h : Approx x y)
    (hf : ∀ a, Approx (f a) (g a)) : Approx (x >>= f) (y >>= g) := by
  rcases h with rfl | rfl
  · exact Or.inl rfl
  · cases x with
    | error e => exact Or.inr rfl
    | ok a => exact hf a

/-- The outcome does not depend on the fuel, once there is enough. -/
theorem eq_of_ended_of_ended {f : ℕ → Run ε α} {n m : ℕ}
    (hf : ∀ {n m}, n ≤ m → Approx (f n) (f m)) (hn : (f n).Ended) (hm : (f m).Ended) :
    f n = f m := by
  rcases le_total n m with h | h
  · exact (hf h).eq_of_ended hn
  · exact ((hf h).eq_of_ended hm).symm

/-- Run a loop for at most `n` rounds. -/
def loop (step : σ → Run ε (σ ⊕ ρ)) : ℕ → σ → Run ε ρ
  | 0, _ => .error .fuel
  | n + 1, s => do
    match ← step s with
    | .inl s' => loop step n s'
    | .inr r => pure r

@[simp] theorem loop_zero (step : σ → Run ε (σ ⊕ ρ)) (s : σ) :
    loop step 0 s = .error .fuel := rfl

theorem loop_succ_inl {step : σ → Run ε (σ ⊕ ρ)} {s s' : σ} (h : step s = .ok (.inl s')) (n : ℕ) :
    loop step (n + 1) s = loop step n s' := by
  simp [loop, h]

theorem loop_succ_inr {step : σ → Run ε (σ ⊕ ρ)} {s : σ} {r : ρ} (h : step s = .ok (.inr r))
    (n : ℕ) : loop step (n + 1) s = .ok r := by
  simp [loop, h]

theorem loop_succ_error {step : σ → Run ε (σ ⊕ ρ)} {s : σ} {e : Stop ε} (h : step s = .error e)
    (n : ℕ) : loop step (n + 1) s = .error e := by
  simp [loop, h]

/-- A loop that gave a result gave it at once or after a step. -/
theorem loop_succ_eq_ok {step : σ → Run ε (σ ⊕ ρ)} {s : σ} {r : ρ} {n : ℕ}
    (h : loop step (n + 1) s = .ok r) :
    step s = .ok (.inr r) ∨ ∃ s', step s = .ok (.inl s') ∧ loop step n s' = .ok r := by
  rcases hs : step s with e | s' | r'
  · simp [loop, hs] at h
  · rw [loop_succ_inl hs] at h
    exact Or.inr ⟨s', rfl, h⟩
  · rw [loop_succ_inr hs] at h
    cases h
    exact Or.inl rfl

/-- A loop goes wrong where a step does. -/
theorem loop_eq_error {step : σ → Run ε (σ ⊕ ρ)} {n : ℕ} {s : σ} {e : Stop ε}
    (h : loop step n s = .error e) : e = .fuel ∨ ∃ t, step t = .error e := by
  induction n generalizing s with
  | zero =>
    cases h
    exact Or.inl rfl
  | succ n ih =>
    rcases hs : step s with e' | s' | r
    · rw [loop_succ_error hs] at h
      cases h
      exact Or.inr ⟨s, hs⟩
    · rw [loop_succ_inl hs] at h
      exact ih h
    · rw [loop_succ_inr hs] at h
      cases h

theorem loop_mono {step step' : σ → Run ε (σ ⊕ ρ)} (h : ∀ s, Approx (step s) (step' s))
    {n m : ℕ} (hnm : n ≤ m) (s : σ) : Approx (loop step n s) (loop step' m s) := by
  induction n generalizing m s with
  | zero => exact Or.inl rfl
  | succ n ih =>
    obtain ⟨m, rfl⟩ : ∃ k, m = k + 1 := ⟨m - 1, by omega⟩
    refine (h s).bind fun x => ?_
    cases x with
    | inl s' => exact ih (by omega) s'
    | inr r => exact Approx.refl _

/-! ### The states of a run -/

/-- The loop started in `s` passes through `t`. -/
inductive Visits (step : σ → Run ε (σ ⊕ ρ)) (s : σ) : σ → Prop
  | start : Visits step s s
  | next {t u : σ} : Visits step s t → step t = .ok (.inl u) → Visits step s u

theorem Visits.head {step : σ → Run ε (σ ⊕ ρ)} {s s' t : σ} (h : step s = .ok (.inl s'))
    (ht : Visits step s' t) : Visits step s t := by
  induction ht with
  | start => exact .next .start h
  | next _ hu ih => exact ih.next hu

theorem Visits.trans {step : σ → Run ε (σ ⊕ ρ)} {s t u : σ} (h : Visits step s t)
    (h' : Visits step t u) : Visits step s u := by
  induction h' with
  | start => exact h
  | next _ hu ih => exact ih.next hu

/-- More fuel for the steps passes through the same states. -/
theorem Visits.mono {step step' : σ → Run ε (σ ⊕ ρ)} {s t : σ} (h : Visits step s t)
    (hstep : ∀ s, Approx (step s) (step' s)) : Visits step' s t := by
  induction h with
  | start => exact .start
  | @next t u _ hu ih => exact ih.next (((hstep t).eq_of_ended (Run.ended_of_ok hu)).symm.trans hu)

/-- The outcome of a run is the outcome of the rest of it. -/
theorem Visits.loop_eq {step : σ → Run ε (σ ⊕ ρ)} {s t : σ} (h : Visits step s t) :
    ∃ k, ∀ n, loop step (n + k) s = loop step n t := by
  induction h with
  | start => exact ⟨0, fun _ => rfl⟩
  | next _ hu ih =>
    obtain ⟨k, hk⟩ := ih
    refine ⟨k + 1, fun n => ?_⟩
    rw [show n + (k + 1) = (n + 1) + k by omega, hk, loop_succ_inl hu]

/-- What holds at the start and is kept by every step holds in every state of the run. -/
theorem Visits.invariant {step : σ → Run ε (σ ⊕ ρ)} {s t : σ} {P : σ → Prop}
    (ht : Visits step s t) (hs : P s) (hstep : ∀ t u, P t → step t = .ok (.inl u) → P u) :
    P t := by
  induction ht with
  | start => exact hs
  | next _ hu ih => exact hstep _ _ ih hu

/-- A loop that never leaves a set of states never ends. -/
theorem loop_eq_fuel_of_closed {step : σ → Run ε (σ ⊕ ρ)} {P : σ → Prop}
    (hP : ∀ s, P s → ∃ s', step s = .ok (.inl s') ∧ P s') (n : ℕ) {s : σ} (hs : P s) :
    loop step n s = .error .fuel := by
  induction n generalizing s with
  | zero => rfl
  | succ n ih =>
    obtain ⟨s', h, hs'⟩ := hP s hs
    rw [loop_succ_inl h]
    exact ih hs'

/-- A run that ended did not pass through a state in which a step runs out of fuel. -/
theorem loop_ended_of_visits {step : σ → Run ε (σ ⊕ ρ)} {s t : σ} {n : ℕ}
    (hn : (loop step n s).Ended) (ht : Visits step s t) : (step t).Ended := by
  have key : ∀ t, Visits step s t → ∃ m, (loop step m t).Ended := by
    intro t ht
    refine ht.invariant (P := fun t => ∃ m, (loop step m t).Ended) ⟨n, hn⟩ ?_
    rintro t u ⟨m, hm⟩ hu
    cases m with
    | zero => exact absurd rfl hm
    | succ m => exact ⟨m, by rwa [loop_succ_inl hu] at hm⟩
  obtain ⟨m, hm⟩ := key t ht
  intro hfuel
  cases m with
  | zero => exact hm rfl
  | succ m => exact hm (loop_succ_error hfuel m)

/-- A loop whose steps descend a well-founded relation ends, in a way that satisfies `Q` when each
way to leave it does. The step may itself be cut off by fuel, so it only has to end with enough of
it. -/
theorem loop_halts {step : ℕ → σ → Run ε (σ ⊕ ρ)}
    (mono : ∀ {n m : ℕ}, n ≤ m → ∀ s, Approx (step n s) (step m s))
    {r : α → α → Prop} (hr : WellFounded r) {P : α → σ → Prop} {Q : Run ε ρ → Prop}
    (hstep : ∀ x s, P x s → ∃ n, (step n s).Ended ∧ (∀ e, step n s = .error e → Q (.error e)) ∧
      (∀ y, step n s = .ok (.inr y) → Q (.ok y)) ∧
      ∀ s', step n s = .ok (.inl s') → ∃ x', P x' s' ∧ r x' x) {x : α} {s : σ} (hs : P x s) :
    ∃ n, (loop (step n) n s).Ended ∧ Q (loop (step n) n s) := by
  induction x using hr.induction generalizing s with
  | _ x ih =>
    obtain ⟨n, hn, herr, hret, hnext⟩ := hstep x s hs
    rcases h : step n s with e | s' | y
    · have he : e ≠ .fuel := fun hf => hn (by rw [h, hf])
      have h' : step (n + 1) s = .error e :=
        ((mono (Nat.le_succ n) s).eq_of_ended hn).symm.trans h
      refine ⟨n + 1, ?_⟩
      rw [Run.Ended, loop_succ_error h']
      exact ⟨by simpa using he, herr e h⟩
    · obtain ⟨x', hs', hlt⟩ := hnext s' h
      obtain ⟨m, hm, hq⟩ := ih x' hlt hs'
      have h' : step (max n m + 1) s = .ok (.inl s') :=
        ((mono (by omega) s).eq_of_ended hn).symm.trans h
      have hm' : Approx (loop (step m) m s') (loop (step (max n m + 1)) (max n m) s') :=
        loop_mono (fun t => mono (by omega) t) (by omega) s'
      refine ⟨max n m + 1, ?_⟩
      rw [Run.Ended, loop_succ_inl h', ← hm'.eq_of_ended hm]
      exact ⟨hm, hq⟩
    · have h' : step (n + 1) s = .ok (.inr y) :=
        ((mono (Nat.le_succ n) s).eq_of_ended hn).symm.trans h
      refine ⟨n + 1, ?_⟩
      rw [Run.Ended, loop_succ_inr h']
      exact ⟨by simp, hret y h⟩

end IpeLang.Lib
