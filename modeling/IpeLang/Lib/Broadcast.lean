import Mathlib.Tactic

/-!
# Broadcast channels

A channel keeps the last messages that were sent on it, up to a capacity, for any number of
receivers, each with its own position. A receiver that falls behind by more than the capacity is
told how many messages it lost and goes on with the oldest one that is kept.

* `Channel.send`, `Channel.subscribe`, `Channel.recv`: the operations;
* `recv_ok`, `recv_lagged`, `recv_empty`: what a receiver finds.
-/

namespace IpeLang.Lib

variable {α : Type}

/-- The messages that were ever sent, and the number of receivers. -/
structure Channel (α : Type) where
  log : List α
  rx_cnt : ℕ

/-- What a receiver finds. -/
inductive Received (α : Type)
  | ok (a : α)
  | lagged (missed : ℕ)
  | empty

namespace Channel

def new : Channel α := ⟨[], 0⟩

def send (c : Channel α) (a : α) : Channel α := { c with log := c.log ++ [a] }

/-- A receiver finds what is sent from now on. -/
def subscribe (c : Channel α) : Channel α := { c with rx_cnt := c.rx_cnt + 1 }

def unsubscribe (c : Channel α) : Channel α := { c with rx_cnt := c.rx_cnt - 1 }

/-- The next message of a receiver at a position, and its position after it. -/
def recv (cap : ℕ) (c : Channel α) (next : ℕ) : Received α × ℕ :=
  if next + cap < c.log.length then (.lagged (c.log.length - cap - next), c.log.length - cap)
  else
    match c.log[next]? with
    | some a => (.ok a, next + 1)
    | none => (.empty, next)

variable {cap : ℕ} {c : Channel α} {next next' : ℕ}

theorem recv_le (hnext : next ≤ c.log.length) : (c.recv cap next).2 ≤ c.log.length := by
  unfold recv
  split_ifs
  · exact Nat.sub_le ..
  · split
    · rename_i a ha
      exact (List.getElem?_eq_some_iff.1 ha).1
    · exact hnext

/-- A message that is taken is the next one that was sent. -/
theorem recv_ok {a : α} (h : c.recv cap next = (.ok a, next')) :
    next' = next + 1 ∧ c.log[next]? = some a := by
  unfold recv at h
  split_ifs at h
  · cases h
  split at h
  · rename_i b hb
    cases h
    exact ⟨rfl, hb⟩
  · cases h

/-- A receiver that lags goes on at a later position. -/
theorem recv_lagged {n : ℕ} (h : c.recv cap next = (.lagged n, next')) : next < next' := by
  unfold recv at h
  split_ifs at h with hlag
  · cases h
    omega
  · split at h <;> cases h

/-- A receiver that finds nothing has passed everything. -/
theorem recv_empty (h : c.recv cap next = (.empty, next')) (hnext : next ≤ c.log.length) :
    next' = next ∧ next = c.log.length := by
  unfold recv at h
  split_ifs at h
  · cases h
  split at h
  · cases h
  · rename_i hnone
    cases h
    exact ⟨rfl, le_antisymm hnext (List.getElem?_eq_none_iff.1 hnone)⟩

end Channel

end IpeLang.Lib
