import Mathlib.Tactic

/-!
# Replaying inputs

A history is the list of the inputs of a run, each with the state that followed it. `replay f s is`
is the history of the run of `f` from `s` on the inputs `is`, and `IsReplay f s h` says that a
history is one: that the states in it are those that its inputs lead to.

* `IsReplay.concat`: a history that ends in a state goes on from there;
* `IsReplay.take`, `IsReplay.drop`: so do its beginnings, and its ends from the state before them;
* `IsReplay.foldl_take`: folding the inputs up to a step gives the state after that step.
-/

namespace IpeLang.Lib

variable {ι σ : Type}

/-- The history of the run from a state. -/
def replay (f : ι → σ → σ) : σ → List ι → List (ι × σ)
  | _, [] => []
  | s, i :: is => (i, f i s) :: replay f (f i s) is

/-- The state that a history from `s` ends in. -/
def endOf (s : σ) (h : List (ι × σ)) : σ := (h.getLast?.map Prod.snd).getD s

@[simp] theorem endOf_nil (s : σ) : endOf s ([] : List (ι × σ)) = s := rfl

@[simp] theorem endOf_concat (s : σ) (h : List (ι × σ)) (e : ι × σ) : endOf s (h ++ [e]) = e.2 := by
  simp [endOf]

@[simp] theorem endOf_cons (s : σ) (e : ι × σ) (h : List (ι × σ)) :
    endOf s (e :: h) = endOf e.2 h := by
  cases h with
  | nil => rfl
  | cons e' h => simp [endOf, List.getLast?_cons]

/-- The states of a history are those that its inputs lead to. -/
def IsReplay (f : ι → σ → σ) (s : σ) (h : List (ι × σ)) : Prop := replay f s (h.map Prod.fst) = h

variable {f : ι → σ → σ} {s : σ} {h : List (ι × σ)}

@[simp] theorem isReplay_nil : IsReplay f s [] := rfl

theorem isReplay_cons {e : ι × σ} : IsReplay f s (e :: h) ↔ e.2 = f e.1 s ∧ IsReplay f e.2 h := by
  obtain ⟨i, t⟩ := e
  simp only [IsReplay, List.map_cons, replay, List.cons.injEq, Prod.mk.injEq, true_and]
  constructor
  · rintro ⟨rfl, hrest⟩
    exact ⟨rfl, hrest⟩
  · rintro ⟨rfl, hrest⟩
    exact ⟨rfl, hrest⟩

theorem isReplay_append {h' : List (ι × σ)} :
    IsReplay f s (h ++ h') ↔ IsReplay f s h ∧ IsReplay f (endOf s h) h' := by
  induction h generalizing s with
  | nil => simp
  | cons e h ih => rw [List.cons_append, isReplay_cons, isReplay_cons, ih, endOf_cons, and_assoc]

/-- One more input, from the state that the history ends in. -/
theorem IsReplay.concat (hh : IsReplay f s h) (i : ι) :
    IsReplay f s (h ++ [(i, f i (endOf s h))]) :=
  isReplay_append.2 ⟨hh, rfl⟩

theorem IsReplay.take (hh : IsReplay f s h) (n : ℕ) : IsReplay f s (h.take n) := by
  rw [← List.take_append_drop n h, isReplay_append] at hh
  exact hh.1

theorem IsReplay.drop (hh : IsReplay f s h) (n : ℕ) :
    IsReplay f (endOf s (h.take n)) (h.drop n) := by
  rw [← List.take_append_drop n h, isReplay_append] at hh
  exact hh.2

theorem IsReplay.foldl (hh : IsReplay f s h) :
    (h.map Prod.fst).foldl (fun s i => f i s) s = endOf s h := by
  induction h generalizing s with
  | nil => rfl
  | cons e h ih =>
    obtain ⟨he, hrest⟩ := isReplay_cons.1 hh
    rw [List.map_cons, List.foldl_cons, ← he, ih hrest, endOf_cons]

theorem endOf_take_succ {n : ℕ} {e : ι × σ} (he : h[n]? = some e) : endOf s (h.take (n + 1)) = e.2 := by
  rw [List.take_add_one, he]
  exact endOf_concat s _ e

/-- Folding the inputs up to a step gives the state after it. -/
theorem IsReplay.foldl_take (hh : IsReplay f s h) {n : ℕ} {e : ι × σ} (he : h[n]? = some e) :
    ((h.take (n + 1)).map Prod.fst).foldl (fun s i => f i s) s = e.2 := by
  rw [(hh.take (n + 1)).foldl, endOf_take_succ he]

end IpeLang.Lib
