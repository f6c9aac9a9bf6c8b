import IpeLang.Lib.Machine
import IpeLang.Lib.Replay

/-!
# The recorder of a session

The debugger keeps the last messages of a session and the model before them, and folds `update` over
them to show the model after any of them.

* `RecordBuffer`: the retained steps and the model before them;
* `Session.step`: a live step, a fork at a retained step, a reset;
* `Timeline`: what the recorder is for: all steps that led to the live model, and how many of them
  are no longer retained;
* `agrees_session`: in every session the buffer holds the retained steps of the timeline, and the
  model before them.
-/

namespace IpeLang.Debugger

open Lib (replay endOf IsReplay runTo)

/-- The default message-log capacity when none is configured. -/
def DEFAULT_HISTORY_CAP : ℕ := 512

/-- One step: the dispatched message and the model that followed it. -/
abbrev Step (Msg Model : Type) := Msg × Model

/-- A bounded message log with the model before it. -/
structure RecordBuffer (Msg Model : Type) where
  /-- The model that precedes the oldest retained message. -/
  base : Model
  /-- Retained steps, newest last. -/
  log : List (Step Msg Model)
  cap : ℕ
  /-- A step has been evicted. -/
  overflowed : Bool
  cap_pos : 0 < cap
  length_le : log.length ≤ cap

variable {Msg Model Cmd : Type}

/-- The next model, without the command. -/
def next (update : Msg → Model → Model × Cmd) (msg : Msg) (model : Model) : Model :=
  (update msg model).1

namespace RecordBuffer

/-- An empty buffer. A capacity of zero is taken for one. -/
def new (initial_model : Model) (cap : ℕ) : RecordBuffer Msg Model where
  base := initial_model
  log := []
  cap := max cap 1
  overflowed := false
  cap_pos := by omega
  length_le := Nat.zero_le _

section Record

variable (buf : RecordBuffer Msg Model) (update : Msg → Model → Model × Cmd)

/-- The base, the log and the flag once there is room for a step. -/
def evict : Model × List (Step Msg Model) × Bool :=
  if buf.cap ≤ buf.log.length then
    match buf.log with
    | [] => (buf.base, [], buf.overflowed)
    | oldest :: log => (next update oldest.1 buf.base, log, true)
  else (buf.base, buf.log, buf.overflowed)

theorem length_evict_lt : (buf.evict update).2.1.length < buf.cap := by
  have hpos := buf.cap_pos
  have hle := buf.length_le
  unfold evict
  split_ifs with hfull
  · cases hlog : buf.log with
    | nil => exact hpos
    | cons oldest log =>
      rw [hlog, List.length_cons] at hle
      exact hle
  · exact Nat.lt_of_not_le hfull

/-- Record one live step. -/
def record (msg : Msg) (model_after : Model) : RecordBuffer Msg Model where
  base := (buf.evict update).1
  log := (buf.evict update).2.1 ++ [(msg, model_after)]
  cap := buf.cap
  overflowed := (buf.evict update).2.2
  cap_pos := buf.cap_pos
  length_le := by
    have := buf.length_evict_lt update
    rw [List.length_append, List.length_singleton]
    omega

/-- The model at a retained step. -/
def reconstruct (n : ℕ) : Option Model :=
  if buf.log.length ≤ n then none
  else some ((buf.log.take (n + 1)).foldl (fun model step => next update step.1 model) buf.base)

/-- Clear the log, and start from `init`. -/
def reset_to_init (init : Model) : RecordBuffer Msg Model where
  base := init
  log := []
  cap := buf.cap
  overflowed := false
  cap_pos := buf.cap_pos
  length_le := Nat.zero_le _

/-- Commit to a retained step: the steps after it are dropped. -/
def step_to (n : ℕ) : Option Model × RecordBuffer Msg Model :=
  match buf.reconstruct update n with
  | none => (none, buf)
  | some model =>
    (some model,
      { buf with
        log := buf.log.take (n + 1)
        length_le := (List.length_take_le' _ _).trans buf.length_le })

/-- The retained messages, oldest first. -/
def msgs : List Msg := buf.log.map Prod.fst

end Record

end RecordBuffer

/-! ### Sessions -/

/-- A running session: its recorder and the live model. -/
structure Session (Msg Model : Type) where
  buf : RecordBuffer Msg Model
  live : Model

/-- What may happen next in a session. -/
inductive Op (Msg : Type)
  | live (msg : Msg)
  | stepTo (n : ℕ)
  | resetToInit

section Run

variable (update : Msg → Model → Model × Cmd) (init : Model) (cap : ℕ)

def Session.start : Session Msg Model := ⟨RecordBuffer.new init cap, init⟩

/-- One operation, with the model that time travel returns. -/
def Session.step (s : Session Msg Model) : Op Msg → Option Model × Session Msg Model
  | .live msg =>
    let model := next update msg s.live
    (none, ⟨s.buf.record update msg model, model⟩)
  | .stepTo n =>
    let (model, buf) := s.buf.step_to update n
    (model, ⟨buf, model.getD s.live⟩)
  | .resetToInit => (none, ⟨s.buf.reset_to_init init, init⟩)

/-- The session after some operations. -/
def session (ops : List (Op Msg)) : Session Msg Model :=
  runTo (Session.step update init) (Session.start init cap) ops

/-! ### The timeline -/

/-- The steps from the initial model to the live one, oldest first; the first `evicted` of them are no
longer retained. -/
structure Timeline (Msg Model : Type) where
  steps : List (Step Msg Model)
  evicted : ℕ

namespace Timeline

variable (t : Timeline Msg Model)

/-- The steps that one can still travel to. -/
def retained : List (Step Msg Model) := t.steps.drop t.evicted

/-- The model before the retained steps. -/
def base : Model := endOf init (t.steps.take t.evicted)

/-- The live model. -/
def live : Model := endOf init t.steps

/-- A live step is added to the timeline, and takes the place of the oldest retained one when there is
no room; a fork cuts the timeline off; a reset starts a new one. -/
def next : Op Msg → Timeline Msg Model
  | .live msg =>
    { steps := t.steps ++ [(msg, Debugger.next update msg (t.live init))]
      evicted := if t.retained.length < max cap 1 then t.evicted else t.evicted + 1 }
  | .stepTo n =>
    if n < t.retained.length then { t with steps := t.steps.take (t.evicted + n + 1) } else t
  | .resetToInit => ⟨[], 0⟩

end Timeline

/-- The timeline after some operations. -/
def timeline (ops : List (Op Msg)) : Timeline Msg Model :=
  ops.foldl (Timeline.next update init cap) ⟨[], 0⟩

/-- The models of the timeline are those that its messages lead to, and its retained steps fit. -/
structure Timeline.Sound (t : Timeline Msg Model) : Prop where
  isReplay : IsReplay (Debugger.next update) init t.steps
  evicted_le : t.evicted ≤ t.steps.length
  retained_le : t.retained.length ≤ max cap 1

/-- The session holds the retained part of the timeline. -/
structure Agrees (s : Session Msg Model) (t : Timeline Msg Model) : Prop where
  log : s.buf.log = t.retained
  base : s.buf.base = t.base init
  overflowed : s.buf.overflowed = true ↔ t.evicted ≠ 0
  live : s.live = t.live init
  cap : s.buf.cap = max cap 1

variable {update init cap}

section Step

variable {s : Session Msg Model} {t : Timeline Msg Model}

/-- Where there is no room, a step is retained in place of the oldest one. -/
theorem retained_shift {oldest : Step Msg Model} {log : List (Step Msg Model)}
    (h : t.retained = oldest :: log) (e : Step Msg Model) :
    (t.steps ++ [e]).drop (t.evicted + 1) = log ++ [e] := by
  have hlt : t.evicted < t.steps.length := by
    by_contra hle
    rw [Timeline.retained, List.drop_eq_nil_of_le (by omega)] at h
    cases h
  have hlog : t.steps.drop (t.evicted + 1) = log := by
    rw [← List.drop_drop]
    exact congrArg (List.drop 1) h
  rw [List.drop_append_of_le_length hlt, Nat.succ_eq_add_one, hlog]

/-- The oldest retained step leads from the model before the retained steps to the one after it. -/
theorem base_shift (ht : t.Sound update init cap) {oldest : Step Msg Model}
    {log : List (Step Msg Model)} (h : t.retained = oldest :: log) (e : Step Msg Model) :
    endOf init ((t.steps ++ [e]).take (t.evicted + 1)) = next update oldest.1 (t.base init) := by
  have hget : t.steps[t.evicted]? = some oldest := by
    rw [← List.head?_drop]
    exact congrArg List.head? h
  have hlt : t.evicted < t.steps.length := (List.getElem?_eq_some_iff.1 hget).1
  have hretained := ht.isReplay.drop t.evicted
  rw [show t.steps.drop t.evicted = oldest :: log from h, Lib.isReplay_cons] at hretained
  rw [List.take_append_of_le_length hlt, Lib.endOf_take_succ hget]
  exact hretained.1

theorem sound_next (ht : t.Sound update init cap) (op : Op Msg) :
    (t.next update init cap op).Sound update init cap := by
  cases op with
  | live msg =>
    have hle := ht.evicted_le
    have hretained := ht.retained_le
    have hlen : t.retained.length = t.steps.length - t.evicted := List.length_drop
    refine ⟨ht.isReplay.concat msg, ?_, ?_⟩
    · simp only [Timeline.next, List.length_append, List.length_singleton]
      split_ifs <;> omega
    · simp only [Timeline.next, Timeline.retained, List.length_drop, List.length_append,
        List.length_singleton]
      split_ifs <;> omega
  | stepTo n =>
    simp only [Timeline.next]
    split_ifs with hn
    · have hlen : t.retained.length = t.steps.length - t.evicted := List.length_drop
      have hretained := ht.retained_le
      refine ⟨ht.isReplay.take _, ?_, ?_⟩
      · change t.evicted ≤ (t.steps.take (t.evicted + n + 1)).length
        rw [List.length_take]
        omega
      · simp only [Timeline.retained, List.length_drop, List.length_take]
        omega
    · exact ht
  | resetToInit => exact ⟨Lib.isReplay_nil, Nat.zero_le _, Nat.zero_le _⟩

theorem Agrees.reconstruct (h : Agrees init cap s t) (ht : t.Sound update init cap) {k : ℕ}
    {step : Step Msg Model} (hk : t.retained[k]? = some step) :
    s.buf.reconstruct update k = some step.2 := by
  obtain ⟨hlt, -⟩ := List.getElem?_eq_some_iff.1 hk
  have hfold := (ht.isReplay.drop t.evicted).foldl_take hk
  rw [List.foldl_map] at hfold
  unfold RecordBuffer.reconstruct
  rw [h.log, h.base, if_neg (by omega)]
  exact congrArg some hfold

theorem agrees_live (h : Agrees init cap s t) (ht : t.Sound update init cap) (msg : Msg) :
    Agrees init cap (s.step update init (.live msg)).2 (t.next update init cap (.live msg)) := by
  have hle := ht.evicted_le
  have hcap := h.cap
  have hlen := congrArg List.length h.log
  by_cases hroom : t.retained.length < max cap 1
  · have hevict : s.buf.evict update = (s.buf.base, s.buf.log, s.buf.overflowed) :=
      if_neg (by omega)
    have hnext : t.next update init cap (.live msg) =
        ⟨t.steps ++ [(msg, next update msg (t.live init))], t.evicted⟩ := by
      simp only [Timeline.next, if_pos hroom]
    rw [hnext]
    constructor
    · simp only [Session.step, RecordBuffer.record, hevict, h.log, h.live, Timeline.retained,
        List.drop_append_of_le_length hle]
    · simp only [Session.step, RecordBuffer.record, hevict, h.base, Timeline.base,
        List.take_append_of_le_length hle]
    · simpa only [Session.step, RecordBuffer.record, hevict] using h.overflowed
    · simp only [Session.step, h.live, Timeline.live, Lib.endOf_concat]
    · exact hcap
  · obtain ⟨oldest, log, hlog⟩ : ∃ oldest log, t.retained = oldest :: log := by
      refine List.exists_cons_of_ne_nil ?_
      rintro hnil
      rw [hnil, List.length_nil] at hroom
      omega
    have hevict : s.buf.evict update = (next update oldest.1 s.buf.base, log, true) := by
      unfold RecordBuffer.evict
      rw [if_pos (by omega), h.log, hlog]
    have hnext : t.next update init cap (.live msg) =
        ⟨t.steps ++ [(msg, next update msg (t.live init))], t.evicted + 1⟩ := by
      simp only [Timeline.next, if_neg hroom]
    rw [hnext]
    constructor
    · simp only [Session.step, RecordBuffer.record, hevict, h.live]
      exact (retained_shift hlog _).symm
    · simp only [Session.step, RecordBuffer.record, hevict, h.base]
      exact (base_shift ht hlog _).symm
    · simp [Session.step, RecordBuffer.record, hevict]
    · simp only [Session.step, h.live, Timeline.live, Lib.endOf_concat]
    · exact hcap

theorem agrees_stepTo (h : Agrees init cap s t) (ht : t.Sound update init cap) (n : ℕ) :
    Agrees init cap (s.step update init (.stepTo n)).2 (t.next update init cap (.stepTo n)) := by
  by_cases hn : n < t.retained.length
  · obtain ⟨step, hstep⟩ : ∃ step, t.retained[n]? = some step := ⟨_, List.getElem?_eq_getElem hn⟩
    have hget : t.steps[t.evicted + n]? = some step := by
      rw [← hstep, Timeline.retained, List.getElem?_drop]
    have hto : s.buf.step_to update n = (some step.2, { s.buf with
        log := s.buf.log.take (n + 1)
        length_le := (List.length_take_le' _ _).trans s.buf.length_le }) := by
      unfold RecordBuffer.step_to
      rw [h.reconstruct ht hstep]
    have hnext : t.next update init cap (.stepTo n) =
        { t with steps := t.steps.take (t.evicted + n + 1) } := by
      simp only [Timeline.next, if_pos hn]
    rw [hnext]
    constructor
    · simp only [Session.step, hto, h.log, Timeline.retained, List.drop_take]
      congr 1
      omega
    · simp only [Session.step, hto, h.base, Timeline.base, List.take_take]
      congr 2
      omega
    · simpa only [Session.step, hto] using h.overflowed
    · simp only [Session.step, hto, Option.getD_some, Timeline.live]
      exact (Lib.endOf_take_succ hget).symm
    · simpa only [Session.step, hto] using h.cap
  · have hnone : s.buf.reconstruct update n = none := by
      unfold RecordBuffer.reconstruct
      rw [h.log, if_pos (by omega)]
    have hto : s.buf.step_to update n = (none, s.buf) := by
      unfold RecordBuffer.step_to
      rw [hnone]
    have hnext : t.next update init cap (.stepTo n) = t := by
      simp only [Timeline.next, if_neg hn]
    rw [hnext]
    simpa only [Session.step, hto, Option.getD_none] using h

/-- What one operation preserves. -/
theorem agrees_step (h : Agrees init cap s t) (ht : t.Sound update init cap) (op : Op Msg) :
    Agrees init cap (s.step update init op).2 (t.next update init cap op) := by
  cases op with
  | live msg => exact agrees_live h ht msg
  | stepTo n => exact agrees_stepTo h ht n
  | resetToInit =>
    constructor
    · rfl
    · rfl
    · simp [Session.step, RecordBuffer.reset_to_init, Timeline.next]
    · rfl
    · exact h.cap

end Step

theorem timeline_concat (ops : List (Op Msg)) (op : Op Msg) :
    timeline update init cap (ops ++ [op]) = (timeline update init cap ops).next update init cap op :=
  List.foldl_concat ..

theorem session_concat (ops : List (Op Msg)) (op : Op Msg) :
    session update init cap (ops ++ [op]) = ((session update init cap ops).step update init op).2 :=
  Lib.runTo_append [op]

/-- In every session the buffer holds the retained steps of the timeline. -/
theorem agrees_session (ops : List (Op Msg)) :
    Agrees init cap (session update init cap ops) (timeline update init cap ops) ∧
      (timeline update init cap ops).Sound update init cap := by
  induction ops using List.reverseRecOn with
  | nil =>
    refine ⟨⟨rfl, rfl, ?_, rfl, rfl⟩, Lib.isReplay_nil, Nat.zero_le _, Nat.zero_le _⟩
    simp [session, Session.start, RecordBuffer.new, timeline]
  | append_singleton ops op ih =>
    rw [session_concat, timeline_concat]
    exact ⟨agrees_step ih.1 ih.2 op, sound_next ih.2 op⟩

end Run

end IpeLang.Debugger
