import IpeLang.Lib.Machine
import IpeLang.Lib.Saturating
import IpeLang.Lib.SortedMap
import IpeLang.Lib.Text
import Mathlib.Data.List.Lex
import Mathlib.Data.Char

/-!
# Revoked subjects and sessions

A running web app keeps the subjects and the sessions that have been revoked, each with the time from
which on no token of it is valid. Both maps are bounded: a revocation that finds its map full first
drops the entries whose time has passed, and is refused when there are none.

* `insert_bounded`: record one revocation;
* `step`: one call at a reading of the clock;
* `revocation_kept`: in every run a revocation is answered until its time has passed.
-/

namespace IpeLang.Runtime.Revocation

open Lib (Str SortedMap Move moves moveOf runTo saturating_add)

inductive Verdict
  | Active
  | Revoked
  | Unknown
  deriving DecidableEq, Repr

inductive RevocationError
  | Unavailable
  | AtCapacity
  deriving DecidableEq, Repr

/-- The revoked identifiers with their times, no more than `capacity` of them. -/
structure RevokedMap (capacity : ℕ) where
  entries : SortedMap Str ℤ
  size_le : entries.size ≤ capacity

structure RevocationStore (capacity : ℕ) where
  subjects : RevokedMap capacity
  sessions : RevokedMap capacity

variable {capacity : ℕ}

namespace RevokedMap

def new : RevokedMap capacity := ⟨SortedMap.empty, Nat.zero_le _⟩

/-- The time of an identifier. -/
def expiry? (m : RevokedMap capacity) (id : Str) : Option ℤ := m.entries.get? id

def contains_key (m : RevokedMap capacity) (id : Str) : Bool := (m.expiry? id).isSome

def remove (m : RevokedMap capacity) (id : Str) : RevokedMap capacity :=
  ⟨m.entries.erase id, (SortedMap.size_erase_le ..).trans m.size_le⟩

/-- Drop the entries whose time has passed. -/
def sweep (m : RevokedMap capacity) (now : ℤ) : RevokedMap capacity :=
  ⟨m.entries.retain fun _ exp => now < exp, (SortedMap.size_retain_le ..).trans m.size_le⟩

/-- Give an identifier that has a time another one. -/
def replace (m : RevokedMap capacity) {id : Str} {existing : ℤ} (h : m.expiry? id = some existing)
    (expiry : ℤ) : RevokedMap capacity :=
  ⟨m.entries.insert id expiry, (SortedMap.size_insert_of_get? h expiry).trans_le m.size_le⟩

/-- Add an identifier where there is room. -/
def push (m : RevokedMap capacity) (h : m.entries.size < capacity) (id : Str) (expiry : ℤ) :
    RevokedMap capacity :=
  ⟨m.entries.insert id expiry, (SortedMap.size_insert_le ..).trans h⟩

/-- Record a revocation. That of an identifier that is recorded already only moves its time on. -/
def insert_bounded (m : RevokedMap capacity) (id : Str) (expiry now : ℤ) :
    Except RevocationError Unit × RevokedMap capacity :=
  match h : m.expiry? id with
  | some existing => (.ok (), m.replace h (max existing expiry))
  | none =>
    if h : m.entries.size < capacity then (.ok (), m.push h id expiry)
    else if h : (m.sweep now).entries.size < capacity then (.ok (), (m.sweep now).push h id expiry)
    else (.error .AtCapacity, m.sweep now)

@[simp] theorem expiry?_new (id : Str) : (new : RevokedMap capacity).expiry? id = none := rfl

theorem expiry?_remove (m : RevokedMap capacity) (id id' : Str) :
    (m.remove id).expiry? id' = if id' = id then none else m.expiry? id' := by
  unfold expiry? remove
  rw [SortedMap.get?_erase]
  by_cases hid : id' = id
  · rw [if_pos hid, if_pos hid]
  · rw [if_neg hid, if_neg hid]

theorem expiry?_sweep {m : RevokedMap capacity} {now exp : ℤ} {id : Str} :
    (m.sweep now).expiry? id = some exp ↔ m.expiry? id = some exp ∧ now < exp := by
  unfold expiry? sweep
  rw [SortedMap.get?_retain_eq_some, decide_eq_true_eq]

theorem expiry?_replace (m : RevokedMap capacity) {id : Str} {existing : ℤ}
    (h : m.expiry? id = some existing) (expiry : ℤ) (id' : Str) :
    (m.replace h expiry).expiry? id' = if id' = id then some expiry else m.expiry? id' := by
  unfold expiry? replace
  rw [SortedMap.get?_insert]
  by_cases hid : id' = id
  · rw [if_pos hid, if_pos hid]
  · rw [if_neg hid, if_neg hid]

theorem expiry?_push (m : RevokedMap capacity) (h : m.entries.size < capacity) (id : Str) (expiry : ℤ)
    (id' : Str) :
    (m.push h id expiry).expiry? id' = if id' = id then some expiry else m.expiry? id' := by
  unfold expiry? push
  rw [SortedMap.get?_insert]
  by_cases hid : id' = id
  · rw [if_pos hid, if_pos hid]
  · rw [if_neg hid, if_neg hid]

/-- There is no room for an identifier: all places are taken by others that have time left. -/
def Full (m : RevokedMap capacity) (id : Str) (now : ℤ) : Prop :=
  m.expiry? id = none ∧
    ∃ ids : Finset Str, ids.card = capacity ∧ ∀ id' ∈ ids, ∃ exp, m.expiry? id' = some exp ∧ now < exp

/-- What is left of a full map after a sweep takes all places. -/
theorem exists_ids_iff {m : RevokedMap capacity} {now : ℤ} :
    (∃ ids : Finset Str, ids.card = capacity ∧ ∀ id ∈ ids, ∃ exp, m.expiry? id = some exp ∧ now < exp) ↔
      capacity ≤ (m.sweep now).entries.size := by
  have hmem {id : Str} : id ∈ (m.sweep now).entries.keySet ↔ ∃ exp, m.expiry? id = some exp ∧ now < exp := by
    rw [SortedMap.mem_keySet]
    exact exists_congr fun exp => expiry?_sweep
  rw [← SortedMap.card_keySet]
  constructor
  · rintro ⟨ids, hcard, hids⟩
    exact hcard.ge.trans (Finset.card_le_card fun id hid => hmem.2 (hids id hid))
  · intro hle
    obtain ⟨ids, hids, hcard⟩ := Finset.exists_subset_card_eq hle
    exact ⟨ids, hcard, fun id hid => hmem.1 (hids hid)⟩

/-- A revocation is refused where there is no room for it, and recorded everywhere else. -/
theorem insert_bounded_answer (m : RevokedMap capacity) (id : Str) (expiry now : ℤ) :
    m.Full id now ∧ (m.insert_bounded id expiry now).1 = .error .AtCapacity ∨
      ¬ m.Full id now ∧ (m.insert_bounded id expiry now).1 = .ok () := by
  have hswept : (m.sweep now).entries.size ≤ m.entries.size := SortedMap.size_retain_le ..
  unfold insert_bounded Full
  rw [exists_ids_iff]
  split
  · rename_i existing h
    refine .inr ⟨fun hfull => ?_, rfl⟩
    rw [h] at hfull
    cases hfull.1
  · rename_i h
    split_ifs with hroom hroom'
    · exact .inr ⟨fun hfull => absurd hfull.2 (not_le.2 (hswept.trans_lt hroom)), rfl⟩
    · exact .inr ⟨fun hfull => absurd hfull.2 (not_le.2 hroom'), rfl⟩
    · exact .inl ⟨⟨h, not_lt.1 hroom'⟩, rfl⟩

/-- What recording a revocation does to the other entries, and to its own. -/
theorem insert_bounded_cases (m : RevokedMap capacity) (id : Str) (expiry now : ℤ) :
    (∃ existing, m.expiry? id = some existing ∧ (m.insert_bounded id expiry now).1 = .ok () ∧
        ∀ id', (m.insert_bounded id expiry now).2.expiry? id' =
          if id' = id then some (max existing expiry) else m.expiry? id') ∨
      (∃ m', (m' = m ∨ m' = m.sweep now) ∧ m.expiry? id = none ∧
        (m.insert_bounded id expiry now).1 = .ok () ∧
        ∀ id', (m.insert_bounded id expiry now).2.expiry? id' =
          if id' = id then some expiry else m'.expiry? id') ∨
      (m.insert_bounded id expiry now).1 = .error .AtCapacity ∧
        (m.insert_bounded id expiry now).2 = m.sweep now := by
  unfold insert_bounded
  split
  · rename_i existing h
    exact .inl ⟨existing, h, rfl, fun id' => expiry?_replace m h _ id'⟩
  · rename_i h
    split_ifs with hroom hswept
    · exact .inr (.inl ⟨m, .inl rfl, h, rfl, fun id' => expiry?_push m hroom id expiry id'⟩)
    · exact .inr (.inl ⟨m.sweep now, .inr rfl, h, rfl,
        fun id' => expiry?_push (m.sweep now) hswept id expiry id'⟩)
    · exact .inr (.inr ⟨rfl, rfl⟩)

/-- An identifier is revoked at least until `e`. -/
def Until (m : RevokedMap capacity) (id : Str) (e : ℤ) : Prop := ∃ exp, m.expiry? id = some exp ∧ e ≤ exp

theorem Until.contains_key {m : RevokedMap capacity} {id : Str} {e : ℤ} (h : m.Until id e) :
    m.contains_key id = true := by
  obtain ⟨exp, hexp, -⟩ := h
  rw [RevokedMap.contains_key, hexp, Option.isSome_some]

theorem Until.remove {m : RevokedMap capacity} {id id' : Str} {e : ℤ} (h : m.Until id' e)
    (hid : id' ≠ id) : (m.remove id).Until id' e := by
  obtain ⟨exp, hexp, hle⟩ := h
  exact ⟨exp, by rw [expiry?_remove, if_neg hid, hexp], hle⟩

theorem Until.sweep {m : RevokedMap capacity} {id : Str} {e now : ℤ} (h : m.Until id e)
    (hnow : now < e) : (m.sweep now).Until id e := by
  obtain ⟨exp, hexp, hle⟩ := h
  exact ⟨exp, expiry?_sweep.2 ⟨hexp, hnow.trans_le hle⟩, hle⟩

/-- Recording a revocation shortens none that has time left, and drops none. -/
theorem Until.insert_bounded {m : RevokedMap capacity} {id' : Str} {e now : ℤ} (h : m.Until id' e)
    (hnow : now < e) (id : Str) (expiry : ℤ) : (m.insert_bounded id expiry now).2.Until id' e := by
  rcases m.insert_bounded_cases id expiry now with
    ⟨existing, hexisting, -, hnext⟩ | ⟨m', hm', hnone, -, hnext⟩ | ⟨-, hnext⟩
  · obtain ⟨exp, hexp, hle⟩ := h
    by_cases hid : id' = id
    · rw [hid, hexisting] at hexp
      cases hexp
      exact ⟨max existing expiry, by rw [hnext, if_pos hid], hle.trans (le_max_left ..)⟩
    · exact ⟨exp, by rw [hnext, if_neg hid, hexp], hle⟩
  · have hid : id' ≠ id := by
      rintro rfl
      obtain ⟨exp, hexp, -⟩ := h
      rw [hnone] at hexp
      cases hexp
    obtain ⟨exp, hexp, hle⟩ : m'.Until id' e := by
      rcases hm' with rfl | rfl
      · exact h
      · exact h.sweep hnow
    exact ⟨exp, by rw [hnext, if_neg hid, hexp], hle⟩
  · rw [hnext]
    exact h.sweep hnow

theorem contains_key_remove {m : RevokedMap capacity} {id id' : Str}
    (h : (m.remove id).contains_key id' = true) : m.contains_key id' = true := by
  unfold contains_key at h ⊢
  rw [expiry?_remove] at h
  by_cases hid : id' = id
  · rw [if_pos hid] at h
    cases h
  · rwa [if_neg hid] at h

theorem contains_key_sweep {m : RevokedMap capacity} {now : ℤ} {id : Str}
    (h : (m.sweep now).contains_key id = true) : m.contains_key id = true := by
  obtain ⟨exp, hexp⟩ := Option.isSome_iff_exists.1 h
  exact Option.isSome_iff_exists.2 ⟨exp, (expiry?_sweep.1 hexp).1⟩

/-- The only new entry is the one that was recorded. -/
theorem contains_key_insert_bounded {m : RevokedMap capacity} {id id' : Str} {expiry now : ℤ}
    (h : (m.insert_bounded id expiry now).2.contains_key id' = true) :
    m.contains_key id' = true ∨ id' = id ∧ (m.insert_bounded id expiry now).1 = .ok () := by
  by_cases hid : id' = id
  · rcases m.insert_bounded_cases id expiry now with
      ⟨existing, -, hok, -⟩ | ⟨m', -, -, hok, -⟩ | ⟨-, hnext⟩
    · exact .inr ⟨hid, hok⟩
    · exact .inr ⟨hid, hok⟩
    · rw [hnext] at h
      exact .inl (contains_key_sweep h)
  · refine .inl ?_
    rcases m.insert_bounded_cases id expiry now with
      ⟨existing, -, -, hnext⟩ | ⟨m', hm', -, -, hnext⟩ | ⟨-, hnext⟩
    · rwa [contains_key, hnext, if_neg hid] at h
    · rw [contains_key, hnext, if_neg hid] at h
      rcases hm' with rfl | rfl
      · exact h
      · exact contains_key_sweep h
    · rw [hnext] at h
      exact contains_key_sweep h

/-- What was recorded is revoked until its time. -/
theorem until_of_ok {m : RevokedMap capacity} {id : Str} {expiry now : ℤ}
    (h : (m.insert_bounded id expiry now).1 = .ok ()) :
    (m.insert_bounded id expiry now).2.Until id expiry := by
  rcases m.insert_bounded_cases id expiry now with
    ⟨existing, -, -, hnext⟩ | ⟨m', -, -, -, hnext⟩ | ⟨herror, -⟩
  · exact ⟨_, by rw [hnext, if_pos rfl], le_max_right ..⟩
  · exact ⟨_, by rw [hnext, if_pos rfl], le_rfl⟩
  · rw [h] at herror
    cases herror

theorem eq_sweep_of_error {m : RevokedMap capacity} {id : Str} {expiry now : ℤ}
    (h : (m.insert_bounded id expiry now).1 = .error .AtCapacity) :
    (m.insert_bounded id expiry now).2 = m.sweep now := by
  rcases m.insert_bounded_cases id expiry now with
    ⟨existing, -, hok, -⟩ | ⟨m', -, -, hok, -⟩ | ⟨-, hnext⟩
  · rw [h] at hok
    cases hok
  · rw [h] at hok
    cases hok
  · exact hnext

end RevokedMap

/-! ### Calls -/

/-- The store behind its lock, which a panic of the thread that holds it would poison. -/
structure Guarded (capacity : ℕ) where
  store : RevocationStore capacity
  poisoned : Bool

def Guarded.new : Guarded capacity := ⟨⟨.new, .new⟩, false⟩

def Guarded.lock (g : Guarded capacity) : Option (RevocationStore capacity) :=
  if g.poisoned then none else some g.store

/-- The time that revokes the tokens of a subject, for the configured lifetime. -/
def subjectExpiry (now : ℤ) (max_lifetime : ℕ) : ℤ :=
  saturating_add now (min (max_lifetime : ℤ) (2 ^ 63 - 1))

inductive Call
  | is_revoked (subject jti : Str)
  | revoke_subject (subject : Str) (max_lifetime : ℕ)
  | revoke_session (jti : Str) (cap_unix_secs : ℤ)
  | restore_subject (subject : Str)
  | subject_is_revoked (subject : Str)
  deriving DecidableEq

/-- A call and the reading of the clock. -/
structure TimedCall where
  now : ℤ
  call : Call

inductive Answer
  | verdict (v : Verdict)
  | written (r : Except RevocationError Unit)
  | subject (r : Except RevocationError Bool)

def is_revoked (g : Guarded capacity) (subject jti : Str) : Verdict :=
  match g.lock with
  | none => .Unknown
  | some guard =>
    if guard.subjects.contains_key subject || guard.sessions.contains_key jti then .Revoked else .Active

def revoke_subject (g : Guarded capacity) (now : ℤ) (subject : Str) (max_lifetime : ℕ) :
    Except RevocationError Unit × Guarded capacity :=
  match g.lock with
  | none => (.error .Unavailable, g)
  | some guard =>
    let (r, subjects) := guard.subjects.insert_bounded subject (subjectExpiry now max_lifetime) now
    (r, { g with store := { guard with subjects } })

def revoke_session (g : Guarded capacity) (now : ℤ) (jti : Str) (cap_unix_secs : ℤ) :
    Except RevocationError Unit × Guarded capacity :=
  match g.lock with
  | none => (.error .Unavailable, g)
  | some guard =>
    let (r, sessions) := guard.sessions.insert_bounded jti cap_unix_secs now
    (r, { g with store := { guard with sessions } })

def restore_subject (g : Guarded capacity) (subject : Str) :
    Except RevocationError Unit × Guarded capacity :=
  match g.lock with
  | none => (.error .Unavailable, g)
  | some guard => (.ok (), { g with store := { guard with subjects := guard.subjects.remove subject } })

def subject_is_revoked (g : Guarded capacity) (subject : Str) : Except RevocationError Bool :=
  match g.lock with
  | none => .error .Unavailable
  | some guard => .ok (guard.subjects.contains_key subject)

def step (g : Guarded capacity) (i : TimedCall) : Answer × Guarded capacity :=
  match i.call with
  | .is_revoked subject jti => (.verdict (is_revoked g subject jti), g)
  | .revoke_subject subject max_lifetime =>
    let (r, g) := revoke_subject g i.now subject max_lifetime
    (.written r, g)
  | .revoke_session jti cap =>
    let (r, g) := revoke_session g i.now jti cap
    (.written r, g)
  | .restore_subject subject =>
    let (r, g) := restore_subject g subject
    (.written r, g)
  | .subject_is_revoked subject => (.subject (subject_is_revoked g subject), g)

/-! ### One call -/

section Step

variable {g : Guarded capacity} (hg : g.poisoned = false)

include hg

theorem lock_eq : g.lock = some g.store := by
  rw [Guarded.lock, hg]
  rfl

theorem poisoned_step (i : TimedCall) : (step g i).2.poisoned = false := by
  unfold step revoke_subject revoke_session restore_subject
  rw [lock_eq hg]
  cases i.call <;> exact hg

/-- A session stays revoked until its time. -/
theorem session_step {i : TimedCall} {jti : Str} {e : ℤ} (hnow : i.now < e)
    (h : g.store.sessions.Until jti e) : (step g i).2.store.sessions.Until jti e := by
  unfold step revoke_subject revoke_session restore_subject
  rw [lock_eq hg]
  cases i.call with
  | revoke_session jti' cap => exact h.insert_bounded hnow jti' cap
  | is_revoked | revoke_subject | restore_subject | subject_is_revoked => exact h

/-- A subject stays revoked until its time or until it is restored. -/
theorem subject_step {i : TimedCall} {subject : Str} {e : ℤ} (hnow : i.now < e)
    (hrestore : i.call ≠ .restore_subject subject) (h : g.store.subjects.Until subject e) :
    (step g i).2.store.subjects.Until subject e := by
  unfold step revoke_subject revoke_session restore_subject
  rw [lock_eq hg]
  cases hcall : i.call with
  | revoke_subject subject' max_lifetime => exact h.insert_bounded hnow subject' _
  | restore_subject subject' => exact h.remove fun heq => hrestore (by rw [hcall, heq])
  | is_revoked | revoke_session | subject_is_revoked => exact h

theorem is_revoked_eq (subject jti : Str) :
    is_revoked g subject jti =
      if g.store.subjects.contains_key subject || g.store.sessions.contains_key jti then .Revoked
      else .Active := by
  unfold is_revoked
  rw [lock_eq hg]

end Step

/-! ### Runs -/

abbrev RevocationMove (capacity : ℕ) := Move (Guarded capacity) TimedCall Answer

/-- The move records a time for a session. -/
def RecordsSession (m : RevocationMove capacity) (jti : Str) (cap : ℤ) : Prop :=
  m.input.call = .revoke_session jti cap ∧ m.output = .written (.ok ())

/-- The move records a time for a subject. -/
def RecordsSubject (m : RevocationMove capacity) (subject : Str) (expiry : ℤ) : Prop :=
  ∃ max_lifetime, m.input.call = .revoke_subject subject max_lifetime ∧
    m.output = .written (.ok ()) ∧ expiry = subjectExpiry m.input.now max_lifetime

/-- Only entries whose time has passed are gone, and the others are as they were. -/
def LosesOnlyExpired (now : ℤ) (m m' : RevokedMap capacity) : Prop :=
  ∀ id exp, (m'.expiry? id = some exp → m.expiry? id = some exp) ∧
    (m.expiry? id = some exp → now < exp → m'.expiry? id = some exp)

section Runs

variable {g : Guarded capacity} (hg : g.poisoned = false) {calls : List TimedCall}

include hg

theorem poisoned_runTo : (runTo step g calls).poisoned = false :=
  Lib.runTo_invariant (P := fun g : Guarded capacity => g.poisoned = false)
    (fun _ i h => poisoned_step h i) hg

theorem session_runTo {jti : Str} {e : ℤ} (hnow : ∀ i ∈ calls, i.now < e)
    (h : g.store.sessions.Until jti e) : (runTo step g calls).store.sessions.Until jti e := by
  induction calls generalizing g with
  | nil => exact h
  | cons i calls ih =>
    have hnow := List.forall_mem_cons.1 hnow
    exact ih (poisoned_step hg i) hnow.2 (session_step hg hnow.1 h)

theorem subject_runTo {subject : Str} {e : ℤ} (hnow : ∀ i ∈ calls, i.now < e)
    (hrestore : ∀ i ∈ calls, i.call ≠ .restore_subject subject)
    (h : g.store.subjects.Until subject e) : (runTo step g calls).store.subjects.Until subject e := by
  induction calls generalizing g with
  | nil => exact h
  | cons i calls ih =>
    have hnow := List.forall_mem_cons.1 hnow
    have hrestore := List.forall_mem_cons.1 hrestore
    exact ih (poisoned_step hg i) hnow.2 hrestore.2 (subject_step hg hnow.1 hrestore.1 h)

theorem until_of_records_session {i : TimedCall} {jti : Str} {cap : ℤ}
    (h : RecordsSession (moveOf step g i) jti cap) : (step g i).2.store.sessions.Until jti cap := by
  obtain ⟨hcall, hok⟩ := h
  change i.call = _ at hcall
  change (step g i).1 = _ at hok
  unfold step revoke_session at hok ⊢
  rw [lock_eq hg, hcall] at *
  exact RevokedMap.until_of_ok (Answer.written.inj hok)

theorem until_of_records_subject {i : TimedCall} {subject : Str} {expiry : ℤ}
    (h : RecordsSubject (moveOf step g i) subject expiry) :
    (step g i).2.store.subjects.Until subject expiry := by
  obtain ⟨max_lifetime, hcall, hok, rfl⟩ := h
  change i.call = _ at hcall
  change (step g i).1 = _ at hok
  unfold step revoke_subject at hok ⊢
  rw [lock_eq hg, hcall] at *
  exact RevokedMap.until_of_ok (Answer.written.inj hok)

/-- A session that is revoked after a move was revoked before it, or the move records it. -/
theorem contains_session_step {i : TimedCall} {jti : Str}
    (h : (step g i).2.store.sessions.contains_key jti = true) :
    g.store.sessions.contains_key jti = true ∨ ∃ cap, RecordsSession (moveOf step g i) jti cap := by
  have hlock := lock_eq hg
  cases hcall : i.call with
  | revoke_session jti' cap =>
    simp only [step, revoke_session, hcall, hlock] at h
    rcases RevokedMap.contains_key_insert_bounded h with h | ⟨rfl, hok⟩
    · exact .inl h
    · refine .inr ⟨cap, hcall, ?_⟩
      simp only [moveOf, step, revoke_session, hcall, hlock]
      rw [hok]
  | is_revoked | revoke_subject | restore_subject | subject_is_revoked =>
    simp only [step, revoke_subject, restore_subject, hcall, hlock] at h
    exact .inl h

theorem contains_subject_step {i : TimedCall} {subject : Str}
    (h : (step g i).2.store.subjects.contains_key subject = true) :
    g.store.subjects.contains_key subject = true ∨
      ∃ expiry, RecordsSubject (moveOf step g i) subject expiry := by
  have hlock := lock_eq hg
  cases hcall : i.call with
  | revoke_subject subject' max_lifetime =>
    simp only [step, revoke_subject, hcall, hlock] at h
    rcases RevokedMap.contains_key_insert_bounded h with h | ⟨rfl, hok⟩
    · exact .inl h
    · refine .inr ⟨_, max_lifetime, hcall, ?_, rfl⟩
      simp only [moveOf, step, revoke_subject, hcall, hlock]
      rw [hok]
  | restore_subject subject' =>
    simp only [step, restore_subject, hcall, hlock] at h
    exact .inl (RevokedMap.contains_key_remove h)
  | is_revoked | revoke_session | subject_is_revoked =>
    simp only [step, revoke_session, hcall, hlock] at h
    exact .inl h

end Runs

/-- A revocation is refused where its map is full, and recorded everywhere else. -/
def RefusedIffFull (output : Answer) (full : Prop) : Prop :=
  full ∧ output = .written (.error .AtCapacity) ∨ ¬ full ∧ output = .written (.ok ())

/-- In every run a revocation is answered until its time has passed. -/
structure RevocationKept (ms : List (RevocationMove capacity)) : Prop where
  session : ∀ a m b q c jti cap subject, ms = a ++ m :: (b ++ q :: c) → RecordsSession m jti cap →
    q.input.call = .is_revoked subject jti → q.input.now < cap → q.output = .verdict .Revoked
  subject : ∀ a m b q c subject expiry jti, ms = a ++ m :: (b ++ q :: c) →
    RecordsSubject m subject expiry → (∀ r ∈ b, r.input.call ≠ .restore_subject subject) →
    q.input.call = .is_revoked subject jti → q.input.now < expiry → q.output = .verdict .Revoked
  never : ∀ a q c subject jti, ms = a ++ q :: c → q.input.call = .is_revoked subject jti →
    (∀ m ∈ a, ∀ expiry, ¬RecordsSubject m subject expiry) →
    (∀ m ∈ a, ∀ cap, ¬RecordsSession m jti cap) → q.output = .verdict .Active
  capacity : ∀ m ∈ ms, m.after.store.subjects.entries.size ≤ capacity ∧
    m.after.store.sessions.entries.size ≤ capacity
  subjectAnswer : ∀ m ∈ ms, ∀ subject max_lifetime, m.input.call = .revoke_subject subject max_lifetime →
    RefusedIffFull m.output (m.before.store.subjects.Full subject m.input.now)
  sessionAnswer : ∀ m ∈ ms, ∀ jti cap, m.input.call = .revoke_session jti cap →
    RefusedIffFull m.output (m.before.store.sessions.Full jti m.input.now)
  refused : ∀ m ∈ ms, m.output = .written (.error .AtCapacity) →
    LosesOnlyExpired m.input.now m.before.store.subjects m.after.store.subjects ∧
      LosesOnlyExpired m.input.now m.before.store.sessions m.after.store.sessions

theorem losesOnlyExpired_sweep (m : RevokedMap capacity) (now : ℤ) :
    LosesOnlyExpired now m (m.sweep now) := fun _ _ =>
  ⟨fun h => (RevokedMap.expiry?_sweep.1 h).1, fun h hnow => RevokedMap.expiry?_sweep.2 ⟨h, hnow⟩⟩

theorem LosesOnlyExpired.refl (m : RevokedMap capacity) (now : ℤ) : LosesOnlyExpired now m m :=
  fun _ _ => ⟨id, fun h _ => h⟩

/-- A call that is refused drops only what has expired. -/
theorem loses_of_refused {g : Guarded capacity} (hg : g.poisoned = false) {i : TimedCall}
    (h : (step g i).1 = .written (.error .AtCapacity)) :
    LosesOnlyExpired i.now g.store.subjects (step g i).2.store.subjects ∧
      LosesOnlyExpired i.now g.store.sessions (step g i).2.store.sessions := by
  have hlock := lock_eq hg
  cases hcall : i.call with
  | revoke_subject subject max_lifetime =>
    simp only [step, revoke_subject, hcall, hlock] at h ⊢
    rw [RevokedMap.eq_sweep_of_error (Answer.written.inj h)]
    exact ⟨losesOnlyExpired_sweep _ _, .refl _ _⟩
  | revoke_session jti cap =>
    simp only [step, revoke_session, hcall, hlock] at h ⊢
    rw [RevokedMap.eq_sweep_of_error (Answer.written.inj h)]
    exact ⟨.refl _ _, losesOnlyExpired_sweep _ _⟩
  | is_revoked | restore_subject | subject_is_revoked =>
    simp only [step, restore_subject, hcall, hlock] at h
    cases h

theorem refusedIffFull_subject {g : Guarded capacity} (hg : g.poisoned = false) {i : TimedCall}
    {subject : Str} {max_lifetime : ℕ} (hcall : i.call = .revoke_subject subject max_lifetime) :
    RefusedIffFull (step g i).1 (g.store.subjects.Full subject i.now) := by
  simp only [step, revoke_subject, hcall, lock_eq hg]
  rcases g.store.subjects.insert_bounded_answer subject (subjectExpiry i.now max_lifetime) i.now with
    ⟨hfull, herror⟩ | ⟨hroom, hok⟩
  · exact .inl ⟨hfull, congrArg Answer.written herror⟩
  · exact .inr ⟨hroom, congrArg Answer.written hok⟩

theorem refusedIffFull_session {g : Guarded capacity} (hg : g.poisoned = false) {i : TimedCall}
    {jti : Str} {cap : ℤ} (hcall : i.call = .revoke_session jti cap) :
    RefusedIffFull (step g i).1 (g.store.sessions.Full jti i.now) := by
  simp only [step, revoke_session, hcall, lock_eq hg]
  rcases g.store.sessions.insert_bounded_answer jti cap i.now with ⟨hfull, herror⟩ | ⟨hroom, hok⟩
  · exact .inl ⟨hfull, congrArg Answer.written herror⟩
  · exact .inr ⟨hroom, congrArg Answer.written hok⟩

theorem revoked_of_subject {g : Guarded capacity} (hg : g.poisoned = false) {i : TimedCall}
    {subject jti : Str} (hcall : i.call = .is_revoked subject jti)
    (h : g.store.subjects.contains_key subject = true) : (step g i).1 = .verdict .Revoked := by
  simp only [step, hcall, is_revoked_eq hg, h, Bool.true_or, if_true]

theorem revoked_of_session {g : Guarded capacity} (hg : g.poisoned = false) {i : TimedCall}
    {subject jti : Str} (hcall : i.call = .is_revoked subject jti)
    (h : g.store.sessions.contains_key jti = true) : (step g i).1 = .verdict .Revoked := by
  simp only [step, hcall, is_revoked_eq hg, h, Bool.or_true, if_true]

theorem active_of_neither {g : Guarded capacity} (hg : g.poisoned = false) {i : TimedCall}
    {subject jti : Str} (hcall : i.call = .is_revoked subject jti)
    (hsubject : g.store.subjects.contains_key subject = false)
    (hsession : g.store.sessions.contains_key jti = false) : (step g i).1 = .verdict .Active := by
  simp [step, hcall, is_revoked_eq hg, hsubject, hsession]

section New

variable {calls : List TimedCall}

theorem poisoned_run : (runTo step (Guarded.new : Guarded capacity) calls).poisoned = false :=
  poisoned_runTo rfl

/-- A move of a run is a step of a store whose lock is sound. -/
theorem exists_step {m : RevocationMove capacity} (hm : m ∈ moves step (Guarded.new : Guarded capacity) calls) :
    ∃ g : Guarded capacity, g.poisoned = false ∧ m = moveOf step g m.input := by
  obtain ⟨a, b, hms⟩ := List.append_of_mem hm
  obtain ⟨is₁, is', rfl, rfl, htail⟩ := Lib.moves_eq_append hms
  obtain ⟨is₂, rfl, hmove, -⟩ := Lib.moves_eq_cons htail.symm
  exact ⟨_, poisoned_run, hmove⟩

/-- A subject that is revoked has been recorded. -/
theorem recorded_of_subject {subject : Str}
    (h : (runTo step (Guarded.new : Guarded capacity) calls).store.subjects.contains_key subject = true) :
    ∃ m ∈ moves step (Guarded.new : Guarded capacity) calls, ∃ expiry, RecordsSubject m subject expiry := by
  rcases Lib.runTo_cause (I := fun g : Guarded capacity => g.poisoned = false)
    (P := fun g => g.store.subjects.contains_key subject = true) (R := fun m => ∃ expiry, RecordsSubject m subject expiry)
    (fun _ i h => poisoned_step h i) (fun _ _ hg => contains_subject_step hg) rfl h with hnew | hmove
  · cases hnew
  · exact hmove

theorem recorded_of_session {jti : Str}
    (h : (runTo step (Guarded.new : Guarded capacity) calls).store.sessions.contains_key jti = true) :
    ∃ m ∈ moves step (Guarded.new : Guarded capacity) calls, ∃ cap, RecordsSession m jti cap := by
  rcases Lib.runTo_cause (I := fun g : Guarded capacity => g.poisoned = false)
    (P := fun g => g.store.sessions.contains_key jti = true) (R := fun m => ∃ cap, RecordsSession m jti cap)
    (fun _ i h => poisoned_step h i) (fun _ _ hg => contains_session_step hg) rfl h with hnew | hmove
  · cases hnew
  · exact hmove

/-- The calls between two others are not later than the second. -/
theorem now_le_of_between {i j : TimedCall} {is₁ is₂ is₃ : List TimedCall}
    (h : (is₁ ++ i :: (is₂ ++ j :: is₃)).Pairwise fun i j => i.now ≤ j.now) :
    ∀ i ∈ is₂, i.now ≤ j.now := by
  have hlate := (List.pairwise_cons.1 (List.pairwise_append.1 h).2.1).2
  exact fun i hi => (List.pairwise_append.1 hlate).2.2 i hi j List.mem_cons_self

end New

/-- A revocation is never forgotten before its time. -/
theorem revocation_kept (capacity : ℕ) (calls : List TimedCall)
    (hclock : calls.Pairwise fun i j => i.now ≤ j.now) :
    RevocationKept (moves step (Guarded.new : Guarded capacity) calls) where
  session := by
    intro a m b q c jti cap subject hms hrecords hcall hnow
    obtain ⟨is₁, is₂, is₃, rfl, -, hm, -, hq⟩ := Lib.moves_eq_between hms
    rw [hm] at hrecords
    -- What the call records is kept by every call in between, none of which comes after its time.
    have huntil := until_of_records_session poisoned_run hrecords
    have hg := poisoned_step (g := runTo step (Guarded.new : Guarded capacity) is₁) poisoned_run m.input
    have hafter : m.after = (step (runTo step Guarded.new is₁) m.input).2 := congrArg Move.after hm
    rw [← hafter] at huntil hg
    have hrevoked := session_runTo hg
      (fun i hi => (now_le_of_between hclock i hi).trans_lt hnow) huntil
    rw [hq]
    exact revoked_of_session (poisoned_runTo hg) hcall hrevoked.contains_key
  subject := by
    intro a m b q c subject expiry jti hms hrecords hrestore hcall hnow
    obtain ⟨is₁, is₂, is₃, rfl, -, hm, rfl, hq⟩ := Lib.moves_eq_between hms
    rw [hm] at hrecords
    have huntil := until_of_records_subject poisoned_run hrecords
    have hg := poisoned_step (g := runTo step (Guarded.new : Guarded capacity) is₁) poisoned_run m.input
    have hafter : m.after = (step (runTo step Guarded.new is₁) m.input).2 := congrArg Move.after hm
    rw [← hafter] at huntil hg
    have hrestore' : ∀ i ∈ is₂, i.call ≠ .restore_subject subject := by
      intro i hi
      have hinputs : (moves step m.after is₂).map Lib.Move.input = is₂ := Lib.map_input_moves
      rw [← hinputs] at hi
      obtain ⟨r, hr, rfl⟩ := List.mem_map.1 hi
      exact hrestore r hr
    have hrevoked := subject_runTo hg
      (fun i hi => (now_le_of_between hclock i hi).trans_lt hnow) hrestore' huntil
    rw [hq]
    exact revoked_of_subject (poisoned_runTo hg) hcall hrevoked.contains_key
  never := by
    intro a q c subject jti hms hcall hsubject hsession
    obtain ⟨is₁, is', rfl, rfl, htail⟩ := Lib.moves_eq_append hms
    obtain ⟨is₂, rfl, hq, -⟩ := Lib.moves_eq_cons htail.symm
    rw [hq]
    refine active_of_neither poisoned_run hcall (Bool.eq_false_iff.2 fun h => ?_)
      (Bool.eq_false_iff.2 fun h => ?_)
    · obtain ⟨m, hm, expiry, hrecords⟩ := recorded_of_subject h
      exact hsubject m hm expiry hrecords
    · obtain ⟨m, hm, cap, hrecords⟩ := recorded_of_session h
      exact hsession m hm cap hrecords
  capacity := fun m _ => ⟨m.after.store.subjects.size_le, m.after.store.sessions.size_le⟩
  subjectAnswer := by
    intro m hm subject max_lifetime hcall
    obtain ⟨g, hg, hmove⟩ := exists_step hm
    rw [hmove]
    exact refusedIffFull_subject hg hcall
  sessionAnswer := by
    intro m hm jti cap hcall
    obtain ⟨g, hg, hmove⟩ := exists_step hm
    rw [hmove]
    exact refusedIffFull_session hg hcall
  refused := by
    intro m hm h
    obtain ⟨g, hg, hmove⟩ := exists_step hm
    rw [hmove] at h ⊢
    exact loses_of_refused hg h

/-- A store for one session: the second revocation finds it full until the first has expired. -/
theorem revocation_kept_of_one :
    RevocationKept (moves step (Guarded.new : Guarded 1)
        [⟨0, .revoke_session ['a'] 5⟩, ⟨4, .revoke_session ['b'] 9⟩, ⟨4, .is_revoked ['u'] ['a']⟩,
          ⟨5, .revoke_session ['b'] 9⟩, ⟨6, .is_revoked ['u'] ['b']⟩]) ∧
      (moves step (Guarded.new : Guarded 1)
          [⟨0, .revoke_session ['a'] 5⟩, ⟨4, .revoke_session ['b'] 9⟩, ⟨4, .is_revoked ['u'] ['a']⟩,
            ⟨5, .revoke_session ['b'] 9⟩, ⟨6, .is_revoked ['u'] ['b']⟩]).map Move.output =
        [.written (.ok ()), .written (.error .AtCapacity), .verdict .Revoked, .written (.ok ()),
          .verdict .Revoked] :=
  ⟨revocation_kept 1 _ (by decide), rfl⟩

end IpeLang.Runtime.Revocation
