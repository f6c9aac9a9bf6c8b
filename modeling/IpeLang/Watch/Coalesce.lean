import IpeLang.Lib.Machine

/-!
# Coalescing file events

`coalesce_loop` of `watch/src/coalesce.rs`: the paths that arrive on a channel are sent on in batches.

* `step`: one turn of the loop, a path that is sent, the end of the sender, the clock going on;
* `took_or_held`, `sent_or_lost`: where the paths of a run are;
* `coalesce_lossless_iff`: a run loses a path where the closing `try_recv` of a round takes it, and no other
  call on the channel does.

Paths are of any type. Times are natural numbers.
-/

namespace IpeLang.Watch.Coalesce

open Lib (Move moves moveOf runTo runTo_cons moves_cons)

variable {P : Type} [DecidableEq P]

structure Batch (P : Type) where
  changed_paths : Finset P
  first_event_at : Option ℕ

structure DebounceConfig where
  quiescence : ℕ
  hard_cap : ℕ

/-- The calls that the loop is at, with its variables. -/
inductive Place (P : Type)
  | recv
  | opened (pending : Finset P) (batch_started : ℕ)
  | check (pending : Finset P) (batch_started last_event : ℕ)
  | recv_timeout (pending : Finset P) (batch_started last_event deadline : ℕ)
  | flush (pending : Finset P) (batch_started : ℕ)
  | try_recv
  | returned

/-- The loop with its channels and the clock. Every path that was sent is in `sent`. -/
structure State (P : Type) where
  place : Place P
  raw : List P
  connected : Bool
  consumer : Bool
  now : ℕ
  sent : List P
  out : List (Batch P)

def init : State P := ⟨.recv, [], true, true, 0, [], []⟩

/-- What may happen. A call whose time is over may return without a path although one has arrived. -/
inductive Input (P : Type)
  | send (p : P)
  | disconnect
  | close
  | tick (d : ℕ)
  | run (late : Bool)
  deriving DecidableEq

/-- One turn of the loop. It stays at a call that blocks. -/
def turn (cfg : DebounceConfig) (late : Bool) (s : State P) : State P :=
  match s.place with
  | .recv =>
    match s.raw with
    | p :: raw => { s with raw := raw, place := .opened {p} s.now }
    | [] => if s.connected then s else { s with place := .returned }
  | .opened pending batch_started => { s with place := .check pending batch_started s.now }
  | .check pending batch_started last_event =>
    let since_last := s.now - last_event
    let since_start := s.now - batch_started
    if cfg.hard_cap ≤ since_start then { s with place := .flush pending batch_started }
    else
      let wait := min (cfg.quiescence - since_last) (cfg.hard_cap - since_start)
      { s with place := .recv_timeout pending batch_started last_event (s.now + wait) }
  | .recv_timeout pending batch_started _ deadline =>
    if late ∧ deadline ≤ s.now then { s with place := .flush pending batch_started }
    else
      match s.raw with
      | p :: raw => { s with raw := raw, place := .check (insert p pending) batch_started s.now }
      | [] => if s.connected ∧ s.now < deadline then s else { s with place := .flush pending batch_started }
  | .flush pending batch_started =>
    if pending.Nonempty then
      if s.consumer then { s with out := s.out ++ [⟨pending, some batch_started⟩], place := .try_recv }
      else { s with place := .returned }
    else { s with place := .try_recv }
  | .try_recv =>
    match s.raw with
    | _ :: raw => { s with raw := raw, place := .recv }
    | [] => if s.connected then { s with place := .recv } else { s with place := .returned }
  | .returned => s

def step (cfg : DebounceConfig) (s : State P) : Input P → Unit × State P
  | .send p => ((), if s.connected then { s with raw := s.raw ++ [p], sent := s.sent ++ [p] } else s)
  | .disconnect => ((), { s with connected := false })
  | .close => ((), { s with consumer := false })
  | .tick d => ((), { s with now := s.now + d })
  | .run late => ((), turn cfg late s)

/-! ### Where paths are -/

/-- The paths of the batch that the loop is at work on. -/
def Place.pending : Place P → Finset P
  | .recv => ∅
  | .opened pending _ => pending
  | .check pending _ _ => pending
  | .recv_timeout pending _ _ _ => pending
  | .flush pending _ => pending
  | .try_recv => ∅
  | .returned => ∅

/-- A path is in a batch, or will be in the next one. -/
def Held (s : State P) (p : P) : Prop := p ∈ s.place.pending ∨ ∃ b ∈ s.out, p ∈ b.changed_paths

/-- `recv`, or `recv_timeout` before its time is over, finds a path. -/
def Takes (m : Move (State P) (Input P) Unit) (p : P) : Prop :=
  ∃ late, m.input = .run late ∧ m.before.raw.head? = some p ∧
    (m.before.place = .recv ∨ ∃ pending batch_started last_event deadline,
      m.before.place = .recv_timeout pending batch_started last_event deadline ∧
        ¬ (late = true ∧ deadline ≤ m.before.now))

/-- The `try_recv` at the end of a round finds a path. -/
def Probes (m : Move (State P) (Input P) Unit) (p : P) : Prop :=
  (∃ late, m.input = .run late) ∧ m.before.raw.head? = some p ∧ m.before.place = .try_recv

/-- The loop is at work on batches with paths only, and has returned only where nothing is left. -/
structure Sound (s : State P) : Prop where
  consumer : s.consumer = true
  batches : ∀ b ∈ s.out, b.changed_paths.Nonempty
  pending : s.place = .recv ∨ s.place = .try_recv ∨ s.place = .returned ∨ s.place.pending.Nonempty
  returned : s.place = .returned → s.raw = [] ∧ s.connected = false

omit [DecidableEq P] in
theorem init_sound : Sound (init : State P) :=
  ⟨rfl, fun b hb => absurd hb List.not_mem_nil, .inl rfl, fun h => by cases h⟩

section Turn

variable {cfg : DebounceConfig} {s : State P}

/-- A turn takes a path from the channel into the next batch, drops one, or leaves the channel and the
batches as they are. -/
inductive Turned (s s' : State P) (late : Bool) : Prop
  | took (p : P) : s.raw = p :: s'.raw → Takes ⟨s, .run late, (), s'⟩ p → (∀ q, Held s' q ↔ Held s q ∨ q = p) →
      Turned s s' late
  | dropped (p : P) : s.raw = p :: s'.raw → Probes ⟨s, .run late, (), s'⟩ p → (∀ q, Held s' q ↔ Held s q) →
      Turned s s' late
  | kept : s'.raw = s.raw → (∀ q, ¬ Takes ⟨s, .run late, (), s'⟩ q) → (∀ q, ¬ Probes ⟨s, .run late, (), s'⟩ q) →
      (∀ q, Held s' q ↔ Held s q) → Turned s s' late

omit [DecidableEq P] in
/-- A turn at a place where the loop reads nothing. -/
theorem Turned.of_busy {s' : State P} {late : Bool} (hraw : s'.raw = s.raw) (hheld : ∀ q, Held s' q ↔ Held s q)
    (hrecv : s.place ≠ .recv) (hprobe : s.place ≠ .try_recv)
    (htimeout : ∀ pending batch_started last_event deadline,
      s.place ≠ .recv_timeout pending batch_started last_event deadline) : Turned s s' late := by
  refine .kept hraw (fun q htakes => ?_) (fun q hprobes => hprobe hprobes.2.2) hheld
  obtain ⟨_, -, -, hplace | ⟨pending, batch_started, last_event, deadline, hplace, -⟩⟩ := htakes
  · exact hrecv hplace
  · exact htimeout _ _ _ _ hplace

omit [DecidableEq P] in
/-- A turn that finds nothing on the channel. -/
theorem Turned.of_empty {s' : State P} {late : Bool} (hempty : s.raw = []) (hraw : s'.raw = s.raw)
    (hheld : ∀ q, Held s' q ↔ Held s q) : Turned s s' late := by
  refine .kept hraw (fun q htakes => ?_) (fun q hprobes => ?_) hheld
  · obtain ⟨_, -, hhead, -⟩ := htakes
    change s.raw.head? = some q at hhead
    rw [hempty] at hhead
    cases hhead
  · obtain ⟨-, hhead, -⟩ := hprobes
    change s.raw.head? = some q at hhead
    rw [hempty] at hhead
    cases hhead

theorem turned (hs : Sound s) (late : Bool) : Turned s (turn cfg late s) late ∧ Sound (turn cfg late s) ∧
    (turn cfg late s).sent = s.sent := by
  obtain ⟨place, raw, connected, consumer, now, sent, out⟩ := s
  obtain ⟨rfl, hbatches, hpending, hreturned⟩ := hs
  cases place with
  | recv =>
    cases raw with
    | cons p raw =>
      refine ⟨.took p rfl ⟨late, rfl, rfl, .inl rfl⟩ fun q => ?_, ⟨rfl, hbatches, ?_, ?_⟩, rfl⟩
      · simp [Held, turn, Place.pending, or_comm]
      · exact .inr (.inr (.inr (Finset.singleton_nonempty p)))
      · exact fun h => by cases h
    | nil =>
      cases connected with
      | true => exact ⟨.of_empty rfl rfl fun q => Iff.rfl, ⟨rfl, hbatches, .inl rfl, hreturned⟩, rfl⟩
      | false => exact ⟨.of_empty rfl rfl fun q => Iff.rfl, ⟨rfl, hbatches, .inr (.inr (.inl rfl)), fun _ => ⟨rfl, rfl⟩⟩, rfl⟩
  | opened pending batch_started =>
    have hne : pending.Nonempty := by simpa [Place.pending] using hpending
    refine ⟨.of_busy rfl (fun q => Iff.rfl) ?_ ?_ ?_, ⟨rfl, hbatches, .inr (.inr (.inr hne)), ?_⟩, rfl⟩
    · exact fun h => by cases h
    · exact fun h => by cases h
    · exact fun _ _ _ _ h => by cases h
    · exact fun h => by cases h
  | check pending batch_started last_event =>
    have hne : pending.Nonempty := by simpa [Place.pending] using hpending
    -- Either way the turn changes only its place.
    have hbusy : ∀ s' : State P, s'.raw = raw → (∀ q, Held s' q ↔
        Held (⟨.check pending batch_started last_event, raw, connected, true, now, sent, out⟩ : State P) q) →
        Turned ⟨.check pending batch_started last_event, raw, connected, true, now, sent, out⟩ s' late := by
      refine fun s' hraw hheld => .of_busy hraw hheld ?_ ?_ ?_
      · exact fun h => by cases h
      · exact fun h => by cases h
      · exact fun _ _ _ _ h => by cases h
    unfold turn
    simp only
    split_ifs
    · exact ⟨hbusy _ rfl fun q => Iff.rfl, ⟨rfl, hbatches, .inr (.inr (.inr hne)), fun h => by cases h⟩, rfl⟩
    · exact ⟨hbusy _ rfl fun q => Iff.rfl, ⟨rfl, hbatches, .inr (.inr (.inr hne)), fun h => by cases h⟩, rfl⟩
  | recv_timeout pending batch_started last_event deadline =>
    have hne : pending.Nonempty := by simpa [Place.pending] using hpending
    unfold turn
    simp only
    by_cases hlate : late = true ∧ deadline ≤ now
    · rw [if_pos hlate]
      refine ⟨.kept rfl (fun q htakes => ?_) (fun q hprobes => by cases hprobes.2.2) fun q => Iff.rfl,
        ⟨rfl, hbatches, .inr (.inr (.inr hne)), fun h => by cases h⟩, rfl⟩
      obtain ⟨late', hinput, -, hplace | ⟨_, _, _, _, hplace, hnot⟩⟩ := htakes
      · cases hplace
      · cases hinput
        cases hplace
        exact hnot hlate
    · rw [if_neg hlate]
      cases raw with
      | cons p raw =>
        refine ⟨.took p rfl ⟨late, rfl, rfl, .inr ⟨_, _, _, _, rfl, hlate⟩⟩ fun q => ?_, ⟨rfl, hbatches, ?_, ?_⟩, rfl⟩
        · change (q ∈ insert p pending ∨ ∃ b ∈ out, q ∈ b.changed_paths) ↔
            (q ∈ pending ∨ ∃ b ∈ out, q ∈ b.changed_paths) ∨ q = p
          rw [Finset.mem_insert, or_assoc, or_comm]
        · exact .inr (.inr (.inr (Finset.insert_nonempty p pending)))
        · exact fun h => by cases h
      | nil =>
        simp only
        split_ifs
        · exact ⟨.of_empty rfl rfl fun q => Iff.rfl, ⟨rfl, hbatches, .inr (.inr (.inr hne)), hreturned⟩, rfl⟩
        · exact ⟨.of_empty rfl rfl fun q => Iff.rfl, ⟨rfl, hbatches, .inr (.inr (.inr hne)), fun h => by cases h⟩, rfl⟩
  | flush pending batch_started =>
    have hne : pending.Nonempty := by simpa [Place.pending] using hpending
    unfold turn
    simp only [hne, if_true]
    refine ⟨.of_busy rfl (fun q => ?_) ?_ ?_ ?_, ⟨rfl, fun b hb => ?_, .inr (.inl rfl), fun h => by cases h⟩, trivial⟩
    · simp [Held, Place.pending, or_comm, or_and_right, exists_or]
    · exact fun h => by cases h
    · exact fun h => by cases h
    · exact fun _ _ _ _ h => by cases h
    · rcases List.mem_append.1 hb with hb | hb
      · exact hbatches b hb
      · rw [List.mem_singleton.1 hb]
        exact hne
  | try_recv =>
    cases raw with
    | cons p raw =>
      exact ⟨.dropped p rfl ⟨⟨late, rfl⟩, rfl, rfl⟩ fun q => Iff.rfl, ⟨rfl, hbatches, .inl rfl, fun h => by cases h⟩, rfl⟩
    | nil =>
      cases connected with
      | true => exact ⟨.of_empty rfl rfl fun q => Iff.rfl, ⟨rfl, hbatches, .inl rfl, fun h => by cases h⟩, rfl⟩
      | false => exact ⟨.of_empty rfl rfl fun q => Iff.rfl, ⟨rfl, hbatches, .inr (.inr (.inl rfl)), fun _ => ⟨rfl, rfl⟩⟩, rfl⟩
  | returned =>
    refine ⟨.of_busy rfl (fun q => Iff.rfl) ?_ ?_ ?_, ⟨rfl, hbatches, .inr (.inr (.inl rfl)), hreturned⟩, rfl⟩
    · exact fun h => by cases h
    · exact fun h => by cases h
    · exact fun _ _ _ _ h => by cases h

end Turn

/-! ### One move -/

section Move

variable {cfg : DebounceConfig} {s : State P} {i : Input P}

/-- A path that is sent, while the sender is there. -/
def Sends (m : Move (State P) (Input P) Unit) (p : P) : Prop := m.input = .send p ∧ m.before.connected = true

theorem step_sound (hs : Sound s) (hi : i ≠ .close) : Sound (step cfg s i).2 := by
  obtain ⟨hconsumer, hbatches, hpending, hreturned⟩ := hs
  cases i with
  | send p =>
    unfold step
    simp only
    split_ifs with hconnected
    · refine ⟨hconsumer, hbatches, hpending, fun h => ?_⟩
      rw [(hreturned h).2] at hconnected
      cases hconnected
    · exact ⟨hconsumer, hbatches, hpending, hreturned⟩
  | disconnect => exact ⟨hconsumer, hbatches, hpending, fun h => ⟨(hreturned h).1, rfl⟩⟩
  | close => exact absurd rfl hi
  | tick d => exact ⟨hconsumer, hbatches, hpending, hreturned⟩
  | run late => exact (turned ⟨hconsumer, hbatches, hpending, hreturned⟩ late).2.1

/-- What is held after a move was held before, or the move takes it. -/
theorem held_step (hs : Sound s) (hi : i ≠ .close) (q : P) :
    Held (step cfg s i).2 q ↔ Held s q ∨ Takes (moveOf (step cfg) s i) q := by
  have hquiet : (∀ late, i ≠ .run late) → ¬ Takes (moveOf (step cfg) s i) q := by
    rintro hne ⟨late, hinput, -⟩
    exact hne late hinput
  cases i with
  | run late =>
    rcases (turned hs late).1 with ⟨p, hraw, htakes, hheld⟩ | ⟨p, hraw, hprobes, hheld⟩ | ⟨hraw, htakes, -, hheld⟩
    · refine (hheld q).trans (or_congr_right ⟨?_, fun h => ?_⟩)
      · rintro rfl
        exact htakes
      · obtain ⟨_, -, hhead, -⟩ := h
        obtain ⟨_, -, hhead', -⟩ := htakes
        exact Option.some.inj (hhead.symm.trans hhead')
    · refine (hheld q).trans (or_iff_left fun h => ?_).symm
      obtain ⟨_, -, -, hplace | ⟨_, _, _, _, hplace, -⟩⟩ := h
      · cases hplace.symm.trans hprobes.2.2
      · cases hplace.symm.trans hprobes.2.2
    · exact (hheld q).trans (or_iff_left (htakes q)).symm
  | close => exact absurd rfl hi
  | send p =>
    have heq : Held (step cfg s (.send p)).2 q ↔ Held s q := by
      unfold step
      simp only
      split_ifs <;> rfl
    exact heq.trans (or_iff_left (hquiet fun late h => by cases h)).symm
  | disconnect => exact (or_iff_left (hquiet fun late h => by cases h)).symm
  | tick d => exact (or_iff_left (hquiet fun late h => by cases h)).symm

/-- No path comes up or is lost in a move but those that are sent and those that `try_recv` finds. -/
theorem kept_step (hs : Sound s) (hi : i ≠ .close) (q : P) :
    (q ∈ (step cfg s i).2.raw ∨ Held (step cfg s i).2 q ∨ Probes (moveOf (step cfg) s i) q) ↔
      q ∈ s.raw ∨ Held s q ∨ Sends (moveOf (step cfg) s i) q := by
  have hquiet : (∀ late, i ≠ .run late) → ¬ Probes (moveOf (step cfg) s i) q := by
    rintro hne ⟨⟨late, hinput⟩, -⟩
    exact hne late hinput
  have hsilent : (∀ p, i ≠ .send p) → ¬ Sends (moveOf (step cfg) s i) q := by
    rintro hne ⟨hinput, -⟩
    exact hne q hinput
  -- Only a turn of the loop probes, and only a sender sends.
  cases i with
  | run late =>
    have hsends := hsilent fun p h => by cases h
    rcases (turned hs late).1 with ⟨p, hraw, htakes, hheld⟩ | ⟨p, hraw, hprobes, hheld⟩ | ⟨hraw, -, hprobes, hheld⟩
    · have hnone : ¬ Probes (moveOf (step cfg) s (.run late)) q := by
        rintro ⟨-, -, hplace⟩
        obtain ⟨_, -, -, hplace' | ⟨_, _, _, _, hplace', -⟩⟩ := htakes
        · cases hplace.symm.trans hplace'
        · cases hplace.symm.trans hplace'
      change q ∈ (turn cfg late s).raw ∨ Held (turn cfg late s) q ∨ _ ↔ _
      rw [hheld q, hraw, List.mem_cons]
      grind
    · have hprobes' : Probes (moveOf (step cfg) s (.run late)) q ↔ q = p := by
        constructor
        · rintro ⟨-, hhead, -⟩
          exact Option.some.inj (hhead.symm.trans hprobes.2.1)
        · rintro rfl
          exact hprobes
      change q ∈ (turn cfg late s).raw ∨ Held (turn cfg late s) q ∨ _ ↔ _
      rw [hheld q, hraw, List.mem_cons, hprobes']
      grind
    · change q ∈ (turn cfg late s).raw ∨ Held (turn cfg late s) q ∨ _ ↔ _
      rw [hheld q, hraw]
      have hnone : ¬ Probes (moveOf (step cfg) s (.run late)) q := hprobes q
      grind
  | close => exact absurd rfl hi
  | send p =>
    have hprobes := hquiet fun late h => by cases h
    have hsends : Sends (moveOf (step cfg) s (.send p)) q ↔ p = q ∧ s.connected = true := by
      constructor
      · rintro ⟨hinput, hconnected⟩
        cases hinput
        exact ⟨rfl, hconnected⟩
      · rintro ⟨rfl, hconnected⟩
        exact ⟨rfl, hconnected⟩
    rw [hsends]
    unfold step
    simp only
    split_ifs with hconnected
    · simp only [List.mem_append, List.mem_singleton, hconnected]
      change (_ ∨ Held s q ∨ _) ↔ _
      unfold step at hprobes
      grind
    · unfold step at hprobes
      grind
  | disconnect =>
    have hprobes := hquiet fun late h => by cases h
    have hsends := hsilent fun p h => by cases h
    change q ∈ s.raw ∨ Held s q ∨ _ ↔ _
    grind
  | tick d =>
    have hprobes := hquiet fun late h => by cases h
    have hsends := hsilent fun p h => by cases h
    change q ∈ s.raw ∨ Held s q ∨ _ ↔ _
    grind

theorem sent_step (hs : Sound s) (q : P) :
    q ∈ (step cfg s i).2.sent ↔ q ∈ s.sent ∨ Sends (moveOf (step cfg) s i) q := by
  have hsilent : (∀ p, i ≠ .send p) → ¬ Sends (moveOf (step cfg) s i) q := by
    rintro hne ⟨hinput, -⟩
    exact hne q hinput
  cases i with
  | run late =>
    change q ∈ (turn cfg late s).sent ↔ _
    rw [(turned hs late).2.2]
    exact (or_iff_left (hsilent fun p h => by cases h)).symm
  | send p =>
    have hsends : Sends (moveOf (step cfg) s (.send p)) q ↔ q = p ∧ s.connected = true := by
      constructor
      · rintro ⟨hinput, hconnected⟩
        cases hinput
        exact ⟨rfl, hconnected⟩
      · rintro ⟨rfl, hconnected⟩
        exact ⟨rfl, hconnected⟩
    rw [hsends]
    unfold step
    simp only
    split_ifs with hconnected
    · simp [hconnected]
    · simp [hconnected]
  | disconnect => exact (or_iff_left (hsilent fun p h => by cases h)).symm
  | close => exact (or_iff_left (hsilent fun p h => by cases h)).symm
  | tick d => exact (or_iff_left (hsilent fun p h => by cases h)).symm

end Move

/-! ### Runs -/

section Run

variable {cfg : DebounceConfig} {s : State P} {is : List (Input P)}

theorem run_sound (hs : Sound s) (his : .close ∉ is) : Sound (runTo (step cfg) s is) := by
  induction is generalizing s with
  | nil => exact hs
  | cons i is ih =>
    obtain ⟨hi, his⟩ := List.ne_and_not_mem_of_not_mem_cons his
    exact ih (step_sound hs (Ne.symm hi)) his

/-- What is held at the end of a run was held at its start, or taken in it. -/
theorem took_or_held (hs : Sound s) (his : .close ∉ is) (q : P) :
    Held (runTo (step cfg) s is) q ↔ Held s q ∨ ∃ m ∈ moves (step cfg) s is, Takes m q := by
  induction is generalizing s with
  | nil => simp
  | cons i is ih =>
    obtain ⟨hi, his⟩ := List.ne_and_not_mem_of_not_mem_cons his
    rw [runTo_cons, ih (step_sound hs (Ne.symm hi)) his, held_step hs (Ne.symm hi), moves_cons]
    simp only [List.mem_cons, exists_eq_or_imp, or_assoc]

theorem or_chain {A B C D E F G H I J : Prop} (hrest : A ∨ B ∨ C ↔ D ∨ E ∨ F) (hstep : D ∨ E ∨ G ↔ H ∨ I ∨ J) :
    A ∨ B ∨ G ∨ C ↔ H ∨ I ∨ J ∨ F := by
  grind

/-- What was sent in a run is on the channel, held, or was found by `try_recv`. -/
theorem sent_or_lost (hs : Sound s) (his : .close ∉ is) (q : P) :
    (q ∈ (runTo (step cfg) s is).raw ∨ Held (runTo (step cfg) s is) q ∨
        ∃ m ∈ moves (step cfg) s is, Probes m q) ↔
      q ∈ s.raw ∨ Held s q ∨ ∃ m ∈ moves (step cfg) s is, Sends m q := by
  induction is generalizing s with
  | nil => simp
  | cons i is ih =>
    obtain ⟨hi, his⟩ := List.ne_and_not_mem_of_not_mem_cons his
    have hnext : Sound (step cfg s i).2 := step_sound hs (Ne.symm hi)
    have hstep : (q ∈ (step cfg s i).2.raw ∨ Held (step cfg s i).2 q ∨ Probes (moveOf (step cfg) s i) q) ↔ _ :=
      kept_step hs (Ne.symm hi) q
    rw [runTo_cons, moves_cons]
    simp only [List.mem_cons, exists_eq_or_imp]
    exact or_chain (ih hnext his) hstep

theorem mem_sent (hs : Sound s) (his : .close ∉ is) (q : P) :
    q ∈ (runTo (step cfg) s is).sent ↔ q ∈ s.sent ∨ ∃ m ∈ moves (step cfg) s is, Sends m q := by
  induction is generalizing s with
  | nil => simp
  | cons i is ih =>
    obtain ⟨hi, his⟩ := List.ne_and_not_mem_of_not_mem_cons his
    rw [runTo_cons, ih (step_sound hs (Ne.symm hi)) his, sent_step hs, moves_cons]
    simp only [List.mem_cons, exists_eq_or_imp, or_assoc]

/-- The batches of a run have exactly the paths that were sent, and each has one. -/
def Lossless (s : State P) : Prop :=
  (∀ p, (∃ b ∈ s.out, p ∈ b.changed_paths) ↔ p ∈ s.sent) ∧ ∀ b ∈ s.out, b.changed_paths.Nonempty

/-- A run that is over has lost nothing exactly when every path that `try_recv` found was taken as well. -/
theorem coalesce_lossless_iff (cfg : DebounceConfig) (is : List (Input P)) (hopen : .close ∉ is)
    (hreturned : (runTo (step cfg) init is).place = .returned) :
    Lossless (runTo (step cfg) init is) ↔
      ∀ p, (∃ m ∈ moves (step cfg) init is, Probes m p) → ∃ m ∈ moves (step cfg) init is, Takes m p := by
  have hsound : Sound (runTo (step cfg) init is) := run_sound init_sound hopen
  have hheld : ∀ p, Held (runTo (step cfg) init is) p ↔ ∃ b ∈ (runTo (step cfg) init is).out, p ∈ b.changed_paths := by
    intro p
    unfold Held
    rw [hreturned]
    simp [Place.pending]
  have htaken : ∀ p, Held (runTo (step cfg) init is) p ↔ ∃ m ∈ moves (step cfg) init is, Takes m p := by
    intro p
    rw [took_or_held init_sound hopen]
    simp [Held, init, Place.pending]
  have hsent : ∀ p, p ∈ (runTo (step cfg) init is).sent ↔
      Held (runTo (step cfg) init is) p ∨ ∃ m ∈ moves (step cfg) init is, Probes m p := by
    intro p
    have hbalance : (p ∈ (runTo (step cfg) init is).raw ∨ _) ↔ _ := sent_or_lost init_sound hopen p
    rw [(hsound.returned hreturned).1] at hbalance
    rw [mem_sent init_sound hopen]
    simpa [init, Held, Place.pending] using hbalance.symm
  have hbatches := hsound.batches
  unfold Lossless
  rw [and_iff_left hbatches]
  refine forall_congr' fun p => ?_
  rw [← hheld p, hsent p, ← htaken p]
  exact iff_comm.trans or_iff_left_iff_imp

/-- One path arrives, and its batch is sent on after a pause. -/
def oneBatch : List (Input ℕ) :=
  [.send 0, .run false, .run false, .run false, .tick 1, .run false, .run false]

/-- When nothing more is sent, nothing is lost. -/
theorem one_batch_lossless : Lossless (runTo (step ⟨1, 2⟩) init (oneBatch ++ [.disconnect, .run false])) := by
  refine (coalesce_lossless_iff ⟨1, 2⟩ _ (by decide) rfl).2 fun p hprobes => ?_
  obtain ⟨m, hm, -, hhead, hplace⟩ := hprobes
  simp only [oneBatch, List.cons_append, List.nil_append, moves, List.mem_cons, List.not_mem_nil, or_false] at hm
  rcases hm with rfl | rfl | rfl | rfl | rfl | rfl | rfl | rfl | rfl <;> first | (cases hplace; done) | cases hhead

/-- A second path arrives between the batch and the `try_recv` after it, and is in no batch. -/
theorem late_path_lost : (runTo (step ⟨1, 2⟩) init (oneBatch ++ [.send 1, .run false, .disconnect, .run false])).place =
      .returned ∧ .close ∉ oneBatch ++ [.send 1, .run false, .disconnect, .run false] ∧
    (runTo (step ⟨1, 2⟩) init (oneBatch ++ [.send 1, .run false, .disconnect, .run false])).sent = [0, 1] ∧
    (runTo (step ⟨1, 2⟩) init (oneBatch ++ [.send 1, .run false, .disconnect, .run false])).out =
      [⟨{0}, some 0⟩] ∧
    ¬ Lossless (runTo (step ⟨1, 2⟩) init (oneBatch ++ [.send 1, .run false, .disconnect, .run false])) := by
  refine ⟨rfl, by decide, rfl, rfl, fun hlossless => ?_⟩
  obtain ⟨b, hb, hp⟩ := (hlossless.1 1).2 (List.mem_cons_of_mem 0 (List.mem_cons_self ..))
  obtain rfl : b = ⟨{0}, some 0⟩ := List.mem_singleton.1 hb
  exact absurd (Finset.mem_singleton.1 hp) Nat.one_ne_zero

end Run

end IpeLang.Watch.Coalesce
