import IpeLang.Lib.Broadcast
import IpeLang.Lib.Machine
import IpeLang.Lib.SortedMap
import IpeLang.Lib.Text
import Mathlib.Data.List.Lex
import Mathlib.Data.Char

/-!
# Publishing and subscribing

The sessions of a running app publish messages on topics and subscribe to them. A topic is a
broadcast channel, which is made by its first subscriber and dropped when it has none. A message can
be published without an echo, and then its own session does not receive it.

* `Broker.subscribe`, `Broker.publish`: the topics;
* `step`: one call, or one turn of the loop of a subscription;
* `delivers_iff`: what a subscription emits, and the runs in which one that no session made loses a
  message that no session published.

The payloads of one type have a broker of their own, so there is one type of payloads here.
-/

namespace IpeLang.Runtime.PubSub

open Lib (Str SortedMap Channel Received Move moves moveOf runTo)

variable {T : Type}

def TOPIC_CAP : ℕ := 256

/-- A message with the session that published it. -/
structure Event (T : Type) where
  payload : T
  origin : Str
  skip_origin : Bool

/-- The channels of the topics. A channel outlives its topic as long as it has receivers. -/
structure Broker (T : Type) where
  topics : SortedMap Str ℕ
  channels : ℕ → Channel (Event T)
  fresh : ℕ

/-- A running subscription, with its position in its channel. -/
structure Subscription where
  topic : Str
  owner_sid : Str
  channel : ℕ
  next : ℕ
  live : Bool

structure Bus (T : Type) where
  web_running : Bool
  broker : Broker T
  subs : List Subscription

namespace Broker

def new : Broker T := ⟨.empty, fun _ => .new, 0⟩

/-- The topics that have receivers. -/
def pruned (b : Broker T) : SortedMap Str ℕ := b.topics.retain fun _ c => 0 < (b.channels c).rx_cnt

/-- A receiver on a topic: its channel. -/
def subscribe (b : Broker T) (topic : Str) : ℕ × Broker T :=
  match b.pruned.get? topic with
  | some c =>
    (c, { b with
      topics := b.pruned
      channels := Function.update b.channels c (b.channels c).subscribe })
  | none =>
    (b.fresh, {
      topics := b.pruned.insert topic b.fresh
      channels := Function.update b.channels b.fresh Channel.new.subscribe
      fresh := b.fresh + 1 })

def publish (b : Broker T) (topic : Str) (payload : T) (origin : Str) (skip_origin : Bool) :
    ℤ × Broker T :=
  match b.topics.get? topic with
  | some c =>
    let n := (b.channels c).rx_cnt
    if n = 0 then (0, { b with topics := b.topics.erase topic })
    else
      (n, { b with
        channels := Function.update b.channels c ((b.channels c).send ⟨payload, origin, skip_origin⟩) })
  | none => (0, b)

/-- A receiver is dropped. -/
def leave (b : Broker T) (c : ℕ) : Broker T :=
  { b with channels := Function.update b.channels c (b.channels c).unsubscribe }

end Broker

/-! ### Calls -/

inductive Input (T : Type)
  | mark_web_running
  | pubsub_publish (topic : Str) (payload : T)
  | pubsub_publish_no_echo (topic : Str) (payload : T)
  | cmd_publish (origin topic : Str) (payload : T)
  | cmd_publish_no_echo (origin topic : Str) (payload : T)
  /-- A subscription is made in the scope of a session, or outside any. -/
  | sub_subscribe_topic (scope : Option Str) (topic : Str)
  /-- One turn of the loop of a subscription. -/
  | recv (sub : ℕ)
  /-- A subscription is aborted. -/
  | abort (sub : ℕ)

inductive Output (T : Type)
  | done
  | published (r : Except Str ℤ)
  | subscribed (sub : ℕ)
  | emitted (payload : T)
  | skipped
  | lagged (missed : ℕ)
  | waiting
  | closed

namespace Bus

def new : Bus T := ⟨false, .new, []⟩

/-- Publish where a web app is running. -/
def publishTask (g : Bus T) (task topic : Str) (payload : T) (skip_origin : Bool) : Output T × Bus T :=
  if !g.web_running then (.published (.error (task ++ ": no Web.tea running in this process".toList)), g)
  else
    let (n, broker) := g.broker.publish topic payload [] skip_origin
    (.published (.ok n), { g with broker })

def pubsub_publish (g : Bus T) (topic : Str) (payload : T) : Output T × Bus T :=
  g.publishTask "PubSub.publish".toList topic payload false

def pubsub_publish_no_echo (g : Bus T) (topic : Str) (payload : T) : Output T × Bus T :=
  g.publishTask "PubSub.publishNoEcho".toList topic payload true

/-- Publish from the session that runs the command. -/
def publishCmd (g : Bus T) (origin topic : Str) (payload : T) (skip_origin : Bool) :
    Output T × Bus T :=
  let (n, broker) := g.broker.publish topic payload origin skip_origin
  (.published (.ok n), { g with broker })

def cmd_publish (g : Bus T) (origin topic : Str) (payload : T) : Output T × Bus T :=
  g.publishCmd origin topic payload false

def cmd_publish_no_echo (g : Bus T) (origin topic : Str) (payload : T) : Output T × Bus T :=
  g.publishCmd origin topic payload true

/-- The session of the scope, or the empty text outside any. -/
def current_session_sid (scope : Option Str) : Str := scope.getD []

def sub_subscribe_topic (g : Bus T) (scope : Option Str) (topic : Str) : Output T × Bus T :=
  let (channel, broker) := g.broker.subscribe topic
  (.subscribed g.subs.length, { g with
    broker
    subs := g.subs ++
      [⟨topic, current_session_sid scope, channel, (broker.channels channel).log.length, true⟩] })

/-- The task of a subscription ends. -/
def stop (g : Bus T) (i : ℕ) (s : Subscription) : Bus T :=
  { g with broker := g.broker.leave s.channel, subs := g.subs.set i { s with live := false } }

/-- The subscription goes on at another position. -/
def advance (g : Bus T) (i : ℕ) (s : Subscription) (next : ℕ) : Bus T :=
  { g with subs := g.subs.set i { s with next } }

/-- The subscription, if it is running. -/
def running (g : Bus T) (i : ℕ) : Option Subscription := g.subs[i]?.filter Subscription.live

def recv (g : Bus T) (i : ℕ) : Output T × Bus T :=
  match g.running i with
  | none => (.done, g)
  | some s =>
    match (g.broker.channels s.channel).recv TOPIC_CAP s.next with
    | (.ok ev, next) =>
      (if ev.skip_origin && ev.origin == s.owner_sid then .skipped else .emitted ev.payload,
        g.advance i s next)
    | (.lagged n, next) => (.lagged n, g.advance i s next)
    | (.empty, _) =>
      if s.channel ∈ g.broker.topics.values then (.waiting, g) else (.closed, g.stop i s)

def abort (g : Bus T) (i : ℕ) : Output T × Bus T :=
  match g.running i with
  | none => (.done, g)
  | some s => (.done, g.stop i s)

end Bus

def step (g : Bus T) : Input T → Output T × Bus T
  | .mark_web_running => (.done, { g with web_running := true })
  | .pubsub_publish topic payload => g.pubsub_publish topic payload
  | .pubsub_publish_no_echo topic payload => g.pubsub_publish_no_echo topic payload
  | .cmd_publish origin topic payload => g.cmd_publish origin topic payload
  | .cmd_publish_no_echo origin topic payload => g.cmd_publish_no_echo origin topic payload
  | .sub_subscribe_topic scope topic => g.sub_subscribe_topic scope topic
  | .recv i => g.recv i
  | .abort i => g.abort i

/-! ### What holds in every state -/

/-- The subscription listens on a channel. -/
def Subscription.on (c : ℕ) (s : Subscription) : Bool := s.live && s.channel == c

theorem Subscription.on_iff {c : ℕ} {s : Subscription} : s.on c = true ↔ s.live = true ∧ s.channel = c := by
  rw [on, Bool.and_eq_true, beq_iff_eq]

/-- The running subscriptions are the receivers of the channels of their topics. -/
structure Sound (g : Bus T) : Prop where
  lt : ∀ t c, g.broker.topics.get? t = some c → c < g.broker.fresh
  inj : ∀ t t' c, g.broker.topics.get? t = some c → g.broker.topics.get? t' = some c → t = t'
  count : ∀ c, (g.broker.channels c).rx_cnt = g.subs.countP (Subscription.on c)
  attached : ∀ s ∈ g.subs, s.live = true → g.broker.topics.get? s.topic = some s.channel
  next_le : ∀ s ∈ g.subs, s.live = true → s.next ≤ (g.broker.channels s.channel).log.length

theorem running_eq_some {g : Bus T} {i : ℕ} {s : Subscription} :
    g.running i = some s ↔ g.subs[i]? = some s ∧ s.live = true := by
  unfold Bus.running
  rw [Option.filter_eq_some_iff]

theorem mem_of_running {g : Bus T} {i : ℕ} {s : Subscription} (h : g.running i = some s) :
    s ∈ g.subs ∧ s.live = true :=
  ⟨List.mem_of_getElem? (running_eq_some.1 h).1, (running_eq_some.1 h).2⟩

theorem pruned_eq_some {b : Broker T} {t : Str} {c : ℕ} :
    b.pruned.get? t = some c ↔ b.topics.get? t = some c ∧ 0 < (b.channels c).rx_cnt := by
  unfold Broker.pruned
  rw [SortedMap.get?_retain_eq_some, decide_eq_true_eq]

/-- A publication does nothing, prunes a topic without receivers, or sends on the topic's channel. -/
theorem publish_cases (b : Broker T) (topic : Str) (payload : T) (origin : Str) (skip_origin : Bool) :
    (b.topics.get? topic = none ∧ (b.publish topic payload origin skip_origin).2 = b) ∨
      (∃ c, b.topics.get? topic = some c ∧ (b.channels c).rx_cnt = 0 ∧
        (b.publish topic payload origin skip_origin).2 = { b with topics := b.topics.erase topic }) ∨
      ∃ c, b.topics.get? topic = some c ∧
        (b.publish topic payload origin skip_origin).2 =
          { b with
            channels := Function.update b.channels c
              ((b.channels c).send ⟨payload, origin, skip_origin⟩) } := by
  unfold Broker.publish
  split
  · rename_i c hc
    dsimp only
    split_ifs with hn
    · exact .inr (.inl ⟨c, hc, hn, rfl⟩)
    · exact .inr (.inr ⟨c, hc, rfl⟩)
  · rename_i hnone
    exact .inl ⟨hnone, rfl⟩

/-- A subscriber joins the channel of its topic, or makes one. -/
theorem subscribe_cases (b : Broker T) (topic : Str) :
    (∃ c, b.pruned.get? topic = some c ∧
        b.subscribe topic = (c, { b with
          topics := b.pruned
          channels := Function.update b.channels c (b.channels c).subscribe })) ∨
      (b.pruned.get? topic = none ∧
        b.subscribe topic = (b.fresh, {
          topics := b.pruned.insert topic b.fresh
          channels := Function.update b.channels b.fresh Channel.new.subscribe
          fresh := b.fresh + 1 })) := by
  unfold Broker.subscribe
  split
  · rename_i c hc
    exact .inl ⟨c, hc, rfl⟩
  · rename_i hnone
    exact .inr ⟨hnone, rfl⟩

namespace Sound

variable {g : Bus T} (h : Sound g)

include h

theorem rx_pos {s : Subscription} (hs : s ∈ g.subs) (hlive : s.live = true) :
    0 < (g.broker.channels s.channel).rx_cnt := by
  rw [h.count, List.countP_pos_iff]
  exact ⟨s, hs, Subscription.on_iff.2 ⟨hlive, rfl⟩⟩

/-- A subscription that runs keeps its topic from being pruned. -/
theorem pruned_attached {s : Subscription} (hs : s ∈ g.subs) (hlive : s.live = true) :
    g.broker.pruned.get? s.topic = some s.channel :=
  pruned_eq_some.2 ⟨h.attached s hs hlive, h.rx_pos hs hlive⟩

theorem publish (topic : Str) (payload : T) (origin : Str) (skip_origin : Bool) :
    Sound { g with broker := (g.broker.publish topic payload origin skip_origin).2 } := by
  rcases publish_cases g.broker topic payload origin skip_origin with
    ⟨-, hnext⟩ | ⟨c, hc, hzero, hnext⟩ | ⟨c, hc, hnext⟩
  · rw [hnext]
    exact h
  · rw [hnext]
    have herase : ∀ {t c'}, (g.broker.topics.erase topic).get? t = some c' →
        g.broker.topics.get? t = some c' := by
      intro t c' ht
      by_cases htopic : t = topic
      · rw [htopic, SortedMap.get?_erase_self] at ht
        cases ht
      · rwa [SortedMap.get?_erase_of_ne _ htopic] at ht
    refine ⟨fun t c' ht => h.lt t c' (herase ht),
      fun t t' c' ht ht' => h.inj t t' c' (herase ht) (herase ht'), h.count, fun s hs hlive => ?_, h.next_le⟩
    have hattached := h.attached s hs hlive
    have hpos := h.rx_pos hs hlive
    by_cases htopic : s.topic = topic
    · rw [htopic, hc] at hattached
      rw [← Option.some.inj hattached, hzero] at hpos
      exact absurd hpos (lt_irrefl 0)
    · change (g.broker.topics.erase topic).get? s.topic = _
      rw [SortedMap.get?_erase_of_ne _ htopic, hattached]
  · rw [hnext]
    refine ⟨h.lt, h.inj, fun c' => ?_, h.attached, fun s hs hlive => ?_⟩
    · rw [← h.count c']
      change (Function.update g.broker.channels c _ c').rx_cnt = _
      by_cases hcc : c' = c
      · subst hcc
        rw [Function.update_self]
        rfl
      · rw [Function.update_of_ne hcc]
    · have hle := h.next_le s hs hlive
      change s.next ≤ (Function.update g.broker.channels c _ s.channel).log.length
      by_cases hcc : s.channel = c
      · subst hcc
        rw [Function.update_self]
        refine hle.trans ?_
        simp [Channel.send]
      · rwa [Function.update_of_ne hcc]

/-- A subscription that runs may move on within what was sent. -/
theorem advance {i : ℕ} {s : Subscription} (hs : g.running i = some s) {next : ℕ}
    (hnext : next ≤ (g.broker.channels s.channel).log.length) : Sound (g.advance i s next) := by
  obtain ⟨hi, hlive⟩ := running_eq_some.1 hs
  obtain ⟨hlt, rfl⟩ := List.getElem?_eq_some_iff.1 hi
  refine ⟨h.lt, h.inj, fun c => ?_, fun s' hs' hlive' => ?_, fun s' hs' hlive' => ?_⟩
  · have hle := List.boole_getElem_le_countP (p := Subscription.on c) hlt
    change (g.broker.channels c).rx_cnt = (g.subs.set i { g.subs[i] with next }).countP _
    rw [h.count c, List.countP_set hlt]
    exact (Nat.sub_add_cancel hle).symm
  · rcases List.mem_or_eq_of_mem_set hs' with hs' | rfl
    · exact h.attached s' hs' hlive'
    · exact h.attached g.subs[i] (List.getElem_mem hlt) hlive
  · rcases List.mem_or_eq_of_mem_set hs' with hs' | rfl
    · exact h.next_le s' hs' hlive'
    · exact hnext

theorem stop {i : ℕ} {s : Subscription} (hs : g.running i = some s) : Sound (g.stop i s) := by
  obtain ⟨hi, hlive⟩ := running_eq_some.1 hs
  obtain ⟨hlt, rfl⟩ := List.getElem?_eq_some_iff.1 hi
  have hmem : ∀ s' ∈ g.subs.set i { g.subs[i] with live := false }, s'.live = true → s' ∈ g.subs := by
    intro s' hs' hlive'
    rcases List.mem_or_eq_of_mem_set hs' with hs' | rfl
    · exact hs'
    · cases hlive'
  refine ⟨h.lt, h.inj, fun c => ?_, fun s' hs' hlive' => h.attached s' (hmem s' hs' hlive') hlive',
    fun s' hs' hlive' => ?_⟩
  · change (Function.update g.broker.channels g.subs[i].channel _ c).rx_cnt =
      (g.subs.set i { g.subs[i] with live := false }).countP _
    have hoff : Subscription.on c { g.subs[i] with live := false } = false := rfl
    rw [List.countP_set hlt, ← h.count c, hoff, if_neg Bool.false_ne_true, Nat.add_zero]
    by_cases hc : c = g.subs[i].channel
    · rw [hc, Function.update_self, if_pos (Subscription.on_iff.2 ⟨hlive, rfl⟩)]
      rfl
    · rw [Function.update_of_ne hc, if_neg fun hon => hc (Subscription.on_iff.1 hon).2.symm,
        Nat.sub_zero]
  · have hle := h.next_le s' (hmem s' hs' hlive') hlive'
    change s'.next ≤ (Function.update g.broker.channels g.subs[i].channel _ s'.channel).log.length
    by_cases hc : s'.channel = g.subs[i].channel
    · rwa [hc, Function.update_self, ← hc]
    · rwa [Function.update_of_ne hc]

omit h in
theorem new : Sound (Bus.new : Bus T) where
  lt := fun _ _ ht => by cases ht
  inj := fun _ _ _ ht => by cases ht
  count := fun _ => rfl
  attached := fun _ hs => by cases hs
  next_le := fun _ hs => by cases hs

theorem subscribe (scope : Option Str) (topic : Str) : Sound (g.sub_subscribe_topic scope topic).2 := by
  have hpruned : ∀ {t c}, g.broker.pruned.get? t = some c → g.broker.topics.get? t = some c :=
    fun ht => (pruned_eq_some.1 ht).1
  rcases subscribe_cases g.broker topic with ⟨c, hc, hnext⟩ | ⟨hnone, hnext⟩
  · unfold Bus.sub_subscribe_topic
    rw [hnext]
    refine ⟨fun t c' ht => h.lt t c' (hpruned ht),
      fun t t' c' ht ht' => h.inj t t' c' (hpruned ht) (hpruned ht'), fun c' => ?_, ?_, ?_⟩
    · change (Function.update g.broker.channels c _ c').rx_cnt = (g.subs ++ [_]).countP _
      rw [List.countP_append, ← h.count c']
      by_cases hcc : c' = c
      · subst hcc
        rw [Function.update_self]
        simp [Channel.subscribe, Subscription.on]
      · rw [Function.update_of_ne hcc]
        simp [Subscription.on, Ne.symm hcc]
    · refine List.forall_mem_append.2 ⟨fun s hs hlive => h.pruned_attached hs hlive, ?_⟩
      exact List.forall_mem_singleton.2 fun _ => hc
    · refine List.forall_mem_append.2 ⟨fun s hs hlive => ?_, List.forall_mem_singleton.2 fun _ => le_rfl⟩
      have hle := h.next_le s hs hlive
      change s.next ≤ (Function.update g.broker.channels c _ s.channel).log.length
      by_cases hcc : s.channel = c
      · rwa [hcc, Function.update_self, Channel.subscribe, ← hcc]
      · rwa [Function.update_of_ne hcc]
  · unfold Bus.sub_subscribe_topic
    rw [hnext]
    have hold : ∀ s ∈ g.subs, s.live = true → s.channel ≠ g.broker.fresh := fun s hs hlive =>
      (h.lt s.topic s.channel (h.attached s hs hlive)).ne
    have hinsert : ∀ {t c}, (g.broker.pruned.insert topic g.broker.fresh).get? t = some c →
        t = topic ∧ c = g.broker.fresh ∨ g.broker.topics.get? t = some c ∧ c < g.broker.fresh := by
      intro t c ht
      by_cases htopic : t = topic
      · rw [htopic, SortedMap.get?_insert_self] at ht
        exact .inl ⟨htopic, (Option.some.inj ht).symm⟩
      · rw [SortedMap.get?_insert_of_ne _ htopic] at ht
        exact .inr ⟨hpruned ht, h.lt t c (hpruned ht)⟩
    refine ⟨fun t c ht => ?_, fun t t' c ht ht' => ?_, fun c => ?_, ?_, ?_⟩
    · rcases hinsert ht with ⟨-, rfl⟩ | ⟨-, hlt⟩
      · exact Nat.lt_succ_self _
      · exact hlt.trans (Nat.lt_succ_self _)
    · rcases hinsert ht with ⟨rfl, rfl⟩ | ⟨hget, hlt⟩ <;> rcases hinsert ht' with ⟨rfl, hc⟩ | ⟨hget', hlt'⟩
      · rfl
      · exact absurd hlt' (lt_irrefl _)
      · exact absurd hlt (hc ▸ lt_irrefl _)
      · exact h.inj t t' c hget hget'
    · change (Function.update g.broker.channels g.broker.fresh _ c).rx_cnt = (g.subs ++ [_]).countP _
      rw [List.countP_append]
      by_cases hc : c = g.broker.fresh
      · subst hc
        have hzero : g.subs.countP (Subscription.on g.broker.fresh) = 0 := by
          rw [List.countP_eq_zero]
          exact fun s hs hon => hold s hs (Subscription.on_iff.1 hon).1 (Subscription.on_iff.1 hon).2
        rw [Function.update_self, hzero]
        simp [Channel.subscribe, Channel.new, Subscription.on]
      · rw [Function.update_of_ne hc, h.count c]
        simp [Subscription.on, Ne.symm hc]
    · refine List.forall_mem_append.2 ⟨fun s hs hlive => ?_, List.forall_mem_singleton.2 fun _ => ?_⟩
      · have hattached := h.pruned_attached hs hlive
        have htopic : s.topic ≠ topic := by
          intro heq
          rw [heq, hnone] at hattached
          cases hattached
        change (g.broker.pruned.insert topic g.broker.fresh).get? s.topic = _
        rw [SortedMap.get?_insert_of_ne _ htopic, hattached]
      · exact SortedMap.get?_insert_self ..
    · refine List.forall_mem_append.2 ⟨fun s hs hlive => ?_, List.forall_mem_singleton.2 fun _ => le_rfl⟩
      change s.next ≤ (Function.update g.broker.channels g.broker.fresh _ s.channel).log.length
      rw [Function.update_of_ne (hold s hs hlive)]
      exact h.next_le s hs hlive

/-- One turn of a loop: the subscription takes a message, loses some, or waits. -/
theorem recv_cases {i : ℕ} {s : Subscription} (hs : g.running i = some s) :
    (∃ ev, (g.broker.channels s.channel).recv TOPIC_CAP s.next = (.ok ev, s.next + 1) ∧
        g.recv i = (if ev.skip_origin && ev.origin == s.owner_sid then .skipped else .emitted ev.payload,
          g.advance i s (s.next + 1))) ∨
      (∃ n next, (g.broker.channels s.channel).recv TOPIC_CAP s.next = (.lagged n, next) ∧
        s.next < next ∧ g.recv i = (.lagged n, g.advance i s next)) ∨
      (g.broker.channels s.channel).recv TOPIC_CAP s.next = (.empty, s.next) ∧
        s.next = (g.broker.channels s.channel).log.length ∧ g.recv i = (.waiting, g) := by
  obtain ⟨hmem, hlive⟩ := mem_of_running hs
  have hsender : s.channel ∈ g.broker.topics.values :=
    SortedMap.mem_values.2 ⟨s.topic, h.attached s hmem hlive⟩
  unfold Bus.recv
  rw [hs]
  dsimp only
  split
  · rename_i ev next hrecv
    obtain ⟨rfl, -⟩ := Channel.recv_ok hrecv
    exact .inl ⟨ev, hrecv, rfl⟩
  · rename_i n next hrecv
    exact .inr (.inl ⟨n, next, hrecv, Channel.recv_lagged hrecv, rfl⟩)
  · rename_i next hrecv
    obtain ⟨rfl, hall⟩ := Channel.recv_empty hrecv (h.next_le s hmem hlive)
    exact .inr (.inr ⟨hrecv, hall, if_pos hsender⟩)

theorem recv (i : ℕ) : Sound (g.recv i).2 := by
  cases hs : g.running i with
  | none =>
    unfold Bus.recv
    rw [hs]
    exact h
  | some s =>
    obtain ⟨hmem, hlive⟩ := mem_of_running hs
    have hle : (Channel.recv TOPIC_CAP _ s.next).2 ≤ _ := Channel.recv_le (h.next_le s hmem hlive)
    rcases h.recv_cases hs with ⟨ev, hrecv, hnext⟩ | ⟨n, next, hrecv, -, hnext⟩ | ⟨-, -, hnext⟩ <;> rw [hnext]
    · rw [hrecv] at hle
      exact h.advance hs hle
    · rw [hrecv] at hle
      exact h.advance hs hle
    · exact h

theorem step (i : Input T) : Sound (step g i).2 := by
  cases i with
  | mark_web_running => exact ⟨h.lt, h.inj, h.count, h.attached, h.next_le⟩
  | pubsub_publish topic payload | pubsub_publish_no_echo topic payload =>
    unfold PubSub.step Bus.pubsub_publish Bus.pubsub_publish_no_echo Bus.publishTask
    split_ifs
    · exact h
    · exact h.publish ..
  | cmd_publish origin topic payload | cmd_publish_no_echo origin topic payload => exact h.publish ..
  | sub_subscribe_topic scope topic => exact h.subscribe scope topic
  | recv i => exact h.recv i
  | abort i =>
    change Sound (g.abort i).2
    unfold Bus.abort
    split
    · exact h
    · rename_i s hs
      exact h.stop hs

/-- A publication is on the channel of every subscription of its topic, and on no other. -/
theorem log_publish {s : Subscription} (hs : s ∈ g.subs) (hlive : s.live = true) (topic : Str)
    (payload : T) (origin : Str) (skip_origin : Bool) :
    ((g.broker.publish topic payload origin skip_origin).2.channels s.channel).log =
      (g.broker.channels s.channel).log ++
        if topic = s.topic then [⟨payload, origin, skip_origin⟩] else [] := by
  have hattached := h.attached s hs hlive
  rcases publish_cases g.broker topic payload origin skip_origin with
    ⟨hnone, hnext⟩ | ⟨c, hc, hzero, hnext⟩ | ⟨c, hc, hnext⟩ <;> rw [hnext]
  · have htopic : topic ≠ s.topic := by
      rintro rfl
      rw [hattached] at hnone
      cases hnone
    rw [if_neg htopic, List.append_nil]
  · have htopic : topic ≠ s.topic := by
      rintro rfl
      have hpos := h.rx_pos hs hlive
      rw [hattached] at hc
      rw [Option.some.inj hc, hzero] at hpos
      exact absurd hpos (lt_irrefl 0)
    rw [if_neg htopic, List.append_nil]
  · change (Function.update g.broker.channels c _ s.channel).log = _
    by_cases htopic : topic = s.topic
    · rw [htopic, hattached] at hc
      obtain rfl := Option.some.inj hc
      rw [Function.update_self, if_pos htopic]
      rfl
    · have hchannel : s.channel ≠ c := by
        rintro rfl
        exact htopic (h.inj topic s.topic _ hc hattached)
      rw [Function.update_of_ne hchannel, if_neg htopic, List.append_nil]

end Sound

theorem sound_runTo {g : Bus T} (h : Sound g) (is : List (Input T)) : Sound (runTo step g is) :=
  Lib.runTo_invariant (fun _ i hg => Sound.step hg i) h

/-! ### One subscription -/

abbrev BusMove (T : Type) := Move (Bus T) (Input T) (Output T)

/-- What a call publishes on a topic. -/
def published (topic : Str) (m : BusMove T) : List (Event T) :=
  match m.input with
  | .pubsub_publish t payload => if m.before.web_running ∧ t = topic then [⟨payload, [], false⟩] else []
  | .pubsub_publish_no_echo t payload =>
    if m.before.web_running ∧ t = topic then [⟨payload, [], true⟩] else []
  | .cmd_publish origin t payload => if t = topic then [⟨payload, origin, false⟩] else []
  | .cmd_publish_no_echo origin t payload => if t = topic then [⟨payload, origin, true⟩] else []
  | _ => []

/-- What a subscription emits in a turn of its loop. -/
def emission (i : ℕ) (m : BusMove T) : Option T :=
  match m.input, m.output with
  | .recv j, .emitted payload => if j = i then some payload else none
  | _, _ => none

/-- A subscription takes a message off its channel. -/
def takes (i : ℕ) (m : BusMove T) : Bool :=
  match m.input, m.output with
  | .recv j, .emitted _ | .recv j, .skipped => j = i
  | _, _ => false

/-- A subscription is told that it lost messages. -/
def lags (i : ℕ) (m : BusMove T) : Bool :=
  match m.input, m.output with
  | .recv j, .lagged _ => j = i
  | _, _ => false

/-- The message that a subscription takes in its next turn. -/
def upcoming (g : Bus T) (i : ℕ) : Option (Subscription × Event T) :=
  match g.running i with
  | none => none
  | some s =>
    match ((g.broker.channels s.channel).recv TOPIC_CAP s.next).1 with
    | .ok ev => some (s, ev)
    | _ => none

/-- A subscription of `owner` is to emit a message: all but those that its session published without
an echo. -/
def keep (owner : Str) (ev : Event T) : Bool := !(ev.skip_origin && ev.origin == owner && !owner.isEmpty)

/-- A subscription that no session made takes a message without echo that no session published. -/
def Swallows (m : BusMove T) : Prop :=
  ∃ i s ev, m.input = .recv i ∧ upcoming m.before i = some (s, ev) ∧ s.owner_sid = [] ∧
    ev.skip_origin = true ∧ ev.origin = []

/-- A subscription runs, was sent `sent` since it began at `start`, and is at `next`. -/
structure Tracks (g : Bus T) (i : ℕ) (topic owner : Str) (start : ℕ) (sent : List (Event T))
    (next : ℕ) : Prop where
  start_le : start ≤ next
  running : ∃ s, g.running i = some s ∧ s.topic = topic ∧ s.owner_sid = owner ∧ s.next = next ∧
    (g.broker.channels s.channel).log.drop start = sent

namespace Tracks

variable {g : Bus T} {i : ℕ} {topic owner : Str} {start next : ℕ} {sent : List (Event T)}

theorem sent_length (hg : Sound g) (h : Tracks g i topic owner start sent next) :
    next ≤ start + sent.length := by
  obtain ⟨s, hs, -, -, rfl, rfl⟩ := h.running
  have hle := hg.next_le s (mem_of_running hs).1 (mem_of_running hs).2
  rw [List.length_drop]
  omega

theorem publish (hg : Sound g) (h : Tracks g i topic owner start sent next) (t : Str) (payload : T)
    (origin : Str) (skip_origin : Bool) :
    Tracks { g with broker := (g.broker.publish t payload origin skip_origin).2 } i topic owner start
      (sent ++ if t = topic then [⟨payload, origin, skip_origin⟩] else []) next := by
  obtain ⟨s, hs, rfl, rfl, rfl, rfl⟩ := h.running
  obtain ⟨hmem, hlive⟩ := mem_of_running hs
  refine ⟨h.start_le, s, hs, rfl, rfl, rfl, ?_⟩
  rw [hg.log_publish hmem hlive, List.drop_append_of_le_length]
  exact h.start_le.trans (hg.next_le s hmem hlive)

theorem publishTask (hg : Sound g) (h : Tracks g i topic owner start sent next) (task t : Str)
    (payload : T) (skip_origin : Bool) :
    Tracks (g.publishTask task t payload skip_origin).2 i topic owner start
      (sent ++ if g.web_running ∧ t = topic then [⟨payload, [], skip_origin⟩] else []) next := by
  unfold Bus.publishTask
  by_cases hweb : g.web_running = true
  · have hon : (if g.web_running = true ∧ t = topic then [(⟨payload, [], skip_origin⟩ : Event T)] else []) =
        if t = topic then [⟨payload, [], skip_origin⟩] else [] := by simp only [hweb, true_and]
    rw [hon, if_neg (by simp [hweb])]
    exact h.publish hg t payload [] skip_origin
  · rw [if_pos (by simpa using hweb), if_neg fun hand => hweb hand.1, List.append_nil]
    exact h

theorem subscribe (hg : Sound g) (h : Tracks g i topic owner start sent next) (scope : Option Str)
    (t : Str) : Tracks (g.sub_subscribe_topic scope t).2 i topic owner start sent next := by
  obtain ⟨s, hs, htopic, howner, hnext, hsent⟩ := h.running
  obtain ⟨hmem, hlive⟩ := mem_of_running hs
  have hi := (running_eq_some.1 hs).1
  refine ⟨h.start_le, s, running_eq_some.2 ⟨?_, hlive⟩, htopic, howner, hnext, ?_⟩
  · exact (List.getElem?_append_left (List.getElem?_eq_some_iff.1 hi).1).trans hi
  · rw [← hsent]
    have hattached := hg.attached s hmem hlive
    unfold Bus.sub_subscribe_topic
    rcases subscribe_cases g.broker t with ⟨c, -, hstep⟩ | ⟨-, hstep⟩ <;> rw [hstep]
    · change (Function.update g.broker.channels c _ s.channel).log.drop start = _
      by_cases hc : s.channel = c
      · rw [hc, Function.update_self, Channel.subscribe]
      · rw [Function.update_of_ne hc]
    · change (Function.update g.broker.channels _ _ s.channel).log.drop start = _
      rw [Function.update_of_ne (hg.lt s.topic s.channel hattached).ne]

theorem running_set {k : ℕ} {s s' : Subscription} (hk : k ≠ i) (hs : g.running i = some s) :
    ({ g with subs := g.subs.set k s' } : Bus T).running i = some s := by
  obtain ⟨hi, hlive⟩ := running_eq_some.1 hs
  exact running_eq_some.2 ⟨(List.getElem?_set_ne hk).trans hi, hlive⟩

theorem advance_other {k : ℕ} (hk : k ≠ i) (h : Tracks g i topic owner start sent next)
    (s' : Subscription) (next' : ℕ) : Tracks (g.advance k s' next') i topic owner start sent next := by
  obtain ⟨s, hs, hrest⟩ := h.running
  exact ⟨h.start_le, s, running_set hk hs, hrest⟩

theorem stop_other {k : ℕ} (hk : k ≠ i) (h : Tracks g i topic owner start sent next)
    (s' : Subscription) : Tracks (g.stop k s') i topic owner start sent next := by
  obtain ⟨s, hs, htopic, howner, hnext, hsent⟩ := h.running
  refine ⟨h.start_le, s, running_set hk hs, htopic, howner, hnext, ?_⟩
  rw [← hsent]
  change (Function.update g.broker.channels s'.channel _ s.channel).log.drop start = _
  by_cases hc : s.channel = s'.channel
  · rw [hc, Function.update_self, Channel.unsubscribe]
  · rw [Function.update_of_ne hc]

theorem advance (h : Tracks g i topic owner start sent next) {s : Subscription}
    (hs : g.running i = some s) {next' : ℕ} (hle : next ≤ next') :
    Tracks (g.advance i s next') i topic owner start sent next' := by
  obtain ⟨s', hs', htopic, howner, hnext, hsent⟩ := h.running
  rw [hs] at hs'
  obtain rfl := Option.some.inj hs'
  obtain ⟨hi, hlive⟩ := running_eq_some.1 hs
  refine ⟨h.start_le.trans hle, { s with next := next' }, running_eq_some.2 ⟨?_, hlive⟩, htopic, howner,
    rfl, hsent⟩
  exact List.getElem?_set_self (List.getElem?_eq_some_iff.1 hi).1

end Tracks

/-- In a call the subscription takes nothing, and is told of no loss. -/
structure Idle (i : ℕ) (m : BusMove T) : Prop where
  emission : emission i m = none
  takes : takes i m = false
  lags : lags i m = false

theorem idle_of_waiting {i k : ℕ} {m : BusMove T} (hinput : m.input = .recv k)
    (hout : m.output = .waiting) : Idle i m := by
  obtain ⟨before, input, output, after⟩ := m
  subst hinput hout
  exact ⟨rfl, rfl, rfl⟩

theorem idle_of_other {i k : ℕ} {m : BusMove T} (hinput : m.input = .recv k) (hk : k ≠ i) : Idle i m := by
  obtain ⟨before, input, output, after⟩ := m
  subst hinput
  constructor
  · cases output <;> first | rfl | exact if_neg hk
  · cases output <;> first | rfl | exact decide_eq_false hk
  · cases output <;> first | rfl | exact decide_eq_false hk

/-- What one call does to a subscription that is not aborted: it takes the next message, loses some, or
stays where it is. -/
theorem tracks_step {g : Bus T} {i : ℕ} {topic owner : Str} {start next : ℕ} {sent : List (Event T)}
    (hg : Sound g) (h : Tracks g i topic owner start sent next) {j : Input T} (hj : j ≠ .abort i) :
    (Tracks (step g j).2 i topic owner start (sent ++ published topic (moveOf step g j)) next ∧
        Idle i (moveOf step g j) ∧
        (j = .recv i → (step g j).1 = .waiting ∧ next = start + sent.length)) ∨
      (∃ s ev, upcoming g i = some (s, ev) ∧ s.owner_sid = owner ∧ j = .recv i ∧
        sent[next - start]? = some ev ∧ Tracks (step g j).2 i topic owner start sent (next + 1) ∧
        (step g j).1 = if ev.skip_origin && ev.origin == owner then .skipped else .emitted ev.payload) ∨
      ∃ n next', j = .recv i ∧ next < next' ∧ Tracks (step g j).2 i topic owner start sent next' ∧
        (step g j).1 = .lagged n := by
  have hsame : ∀ g', Tracks g' i topic owner start sent next →
      Tracks g' i topic owner start (sent ++ []) next := by
    intro g' hg'
    rwa [List.append_nil]
  cases j with
  | mark_web_running =>
    exact .inl ⟨hsame _ ⟨h.start_le, h.running⟩, ⟨rfl, rfl, rfl⟩, fun hrecv => by cases hrecv⟩
  | pubsub_publish t payload | pubsub_publish_no_echo t payload =>
    exact .inl ⟨h.publishTask hg .., ⟨rfl, rfl, rfl⟩, fun hrecv => by cases hrecv⟩
  | cmd_publish origin t payload | cmd_publish_no_echo origin t payload =>
    exact .inl ⟨h.publish hg .., ⟨rfl, rfl, rfl⟩, fun hrecv => by cases hrecv⟩
  | sub_subscribe_topic scope t =>
    exact .inl ⟨hsame _ (h.subscribe hg scope t), ⟨rfl, rfl, rfl⟩, fun hrecv => by cases hrecv⟩
  | abort k =>
    have hk : k ≠ i := fun heq => hj (heq ▸ rfl)
    refine .inl ⟨hsame _ ?_, ⟨rfl, rfl, rfl⟩, fun hrecv => by cases hrecv⟩
    change Tracks (g.abort k).2 i topic owner start sent next
    unfold Bus.abort
    split
    · exact h
    · exact h.stop_other hk _
  | recv k =>
    by_cases hk : k = i
    · subst hk
      -- Its own receive: a message, a loss, or nothing yet to read.
      obtain ⟨s, hs, htopic, rfl, hnext, hsent⟩ := h.running
      have hlog : ∀ n, sent[n]? = (g.broker.channels s.channel).log[start + n]? := by
        intro n
        rw [← hsent, List.getElem?_drop]
      rcases hg.recv_cases hs with ⟨ev, hrecv, hstep⟩ | ⟨n, next', hrecv, hlt, hstep⟩ | ⟨-, hall, hstep⟩
      · have hup : upcoming g k = some (s, ev) := by
          unfold upcoming
          rw [hs]
          dsimp only
          rw [hrecv]
        refine .inr (.inl ⟨s, ev, hup, rfl, rfl, ?_, ?_, congrArg Prod.fst hstep⟩)
        · have hle := h.start_le
          rw [hlog, Nat.add_sub_cancel' hle, ← hnext]
          exact (Channel.recv_ok hrecv).2
        · change Tracks (g.recv k).2 _ _ _ _ _ _
          rw [hstep, hnext]
          exact h.advance hs (Nat.le_succ next)
      · rw [hnext] at hlt
        refine .inr (.inr ⟨n, next', rfl, hlt, ?_, ?_⟩)
        · change Tracks (g.recv k).2 _ _ _ _ _ _
          rw [hstep]
          exact h.advance hs hlt.le
        · change (g.recv k).1 = _
          rw [hstep]
      · have hout : (moveOf step g (.recv k)).output = .waiting := congrArg Prod.fst hstep
        refine .inl ⟨hsame _ ?_, idle_of_waiting rfl hout, fun _ => ⟨hout, ?_⟩⟩
        · change Tracks (g.recv k).2 _ _ _ _ _ _
          rw [hstep]
          exact h
        · have hle := h.start_le
          rw [← hsent, List.length_drop, ← hall, hnext]
          omega
    · refine .inl ⟨hsame _ ?_, idle_of_other rfl hk, fun hrecv => absurd (Input.recv.inj hrecv) hk⟩
      change Tracks (g.recv k).2 i topic owner start sent next
      cases hs : g.running k with
      | none =>
        unfold Bus.recv
        rw [hs]
        exact h
      | some s =>
        rcases hg.recv_cases hs with ⟨ev, -, hstep⟩ | ⟨n, next', -, -, hstep⟩ | ⟨-, -, hstep⟩ <;> rw [hstep]
        · exact h.advance_other hk ..
        · exact h.advance_other hk ..
        · exact h

/-- The payloads that a subscription of `owner` is to emit of some messages. -/
def kept (owner : Str) (evs : List (Event T)) : List T := (evs.filter (keep owner)).map Event.payload

theorem kept_append (owner : Str) (evs evs' : List (Event T)) :
    kept owner (evs ++ evs') = kept owner evs ++ kept owner evs' := by
  unfold kept
  rw [List.filter_append, List.map_append]

theorem takes_of_upcoming {g : Bus T} {i : ℕ} {ev : Event T} {owner : Str}
    (hout : (step g (.recv i)).1 =
      if ev.skip_origin && ev.origin == owner then .skipped else .emitted ev.payload) :
    takes i (moveOf step g (.recv i)) = true := by
  unfold takes moveOf
  rw [hout]
  split_ifs <;> simp

/-- A message is emitted where it is to be, unless it is swallowed. -/
theorem emission_taken {g : Bus T} {i : ℕ} {s : Subscription} {ev : Event T}
    (hup : upcoming g i = some (s, ev)) (hclean : ¬Swallows (moveOf step g (.recv i)))
    (hout : (step g (.recv i)).1 =
      if ev.skip_origin && ev.origin == s.owner_sid then .skipped else .emitted ev.payload) :
    (emission i (moveOf step g (.recv i))).toList = kept s.owner_sid [ev] ∧
      takes i (moveOf step g (.recv i)) = true := by
  have howner : (ev.skip_origin && ev.origin == s.owner_sid) = true → s.owner_sid ≠ [] := by
    intro hskip hnil
    rw [Bool.and_eq_true, beq_iff_eq, hnil] at hskip
    exact hclean ⟨i, s, ev, rfl, hup, hnil, hskip⟩
  have hemission : emission i (moveOf step g (.recv i)) =
      if ev.skip_origin && ev.origin == s.owner_sid then none else some ev.payload := by
    unfold emission moveOf
    rw [hout]
    split_ifs <;> simp
  refine ⟨?_, takes_of_upcoming hout⟩
  rw [hemission]
  unfold kept
  by_cases hskip : (ev.skip_origin && ev.origin == s.owner_sid) = true
  · have hempty : s.owner_sid.isEmpty = false := by simpa using howner hskip
    have hkeep : keep s.owner_sid ev = false := by rw [keep, hskip, hempty]; rfl
    rw [if_pos hskip, List.filter_cons_of_neg (by simp [hkeep])]
    rfl
  · have hkeep : keep s.owner_sid ev = true := by
      rw [keep, Bool.eq_false_iff.2 hskip]
      rfl
    rw [if_neg hskip, List.filter_cons_of_pos hkeep]
    rfl

variable {g : Bus T} {i : ℕ} {topic owner : Str} {start next : ℕ} {sent : List (Event T)}

/-- What one call adds to what a subscription has passed and emitted. -/
theorem emits_step (hg : Sound g) (h : Tracks g i topic owner start sent next) {j : Input T}
    (hj : j ≠ .abort i) (hclean : ¬Swallows (moveOf step g j)) :
    ∃ next' x,
      Tracks (step g j).2 i topic owner start (sent ++ published topic (moveOf step g j)) next' ∧
        kept owner ((sent ++ published topic (moveOf step g j)).take (next' - start)) =
          kept owner (sent.take (next - start)) ++ x ∧
        (emission i (moveOf step g j)).toList.Sublist x ∧
        (lags i (moveOf step g j) = false → (emission i (moveOf step g j)).toList = x ∧
          next' = next + if takes i (moveOf step g j) then 1 else 0) := by
  have hstart := h.start_le
  have hlength := h.sent_length hg
  rcases tracks_step hg h hj with
    ⟨hnext, hidle, -⟩ | ⟨s, ev, hup, rfl, rfl, hev, hnext, hout⟩ | ⟨n, next', rfl, hlt, hnext, hout⟩
  · refine ⟨next, [], hnext, ?_, ?_, fun _ => ?_⟩
    · rw [List.take_append_of_le_length (by omega), List.append_nil]
    · rw [hidle.emission]
      exact List.Sublist.refl _
    · rw [hidle.emission, hidle.takes]
      exact ⟨rfl, rfl⟩
  · obtain ⟨hemission, htakes⟩ := emission_taken hup hclean hout
    have hsent : sent ++ published topic (moveOf step g (.recv i)) = sent := List.append_nil sent
    rw [hsent]
    refine ⟨next + 1, kept s.owner_sid [ev], hnext, ?_, ?_, fun _ => ?_⟩
    · rw [Nat.sub_add_comm hstart, List.take_add_one, hev, Option.toList_some, kept_append]
    · rw [hemission]
    · rw [htakes]
      exact ⟨hemission, rfl⟩
  · have hsent : sent ++ published topic (moveOf step g (.recv i)) = sent := List.append_nil sent
    have hlag : lags i (moveOf step g (.recv i)) = true := by
      unfold lags moveOf
      rw [hout]
      simp
    have hemission : emission i (moveOf step g (.recv i)) = none := by
      unfold emission moveOf
      rw [hout]
    rw [hsent]
    refine ⟨next', kept owner ((sent.drop (next - start)).take (next' - next)), hnext, ?_, ?_, fun hno => ?_⟩
    · have hsplit : next' - start = (next - start) + (next' - next) := by omega
      rw [← kept_append, hsplit, List.take_add]
    · rw [hemission]
      exact List.nil_sublist _
    · rw [hlag] at hno
      cases hno

theorem filterMap_cons_toList {α β : Type} (f : α → Option β) (a : α) (l : List α) :
    (a :: l).filterMap f = (f a).toList ++ l.filterMap f := by
  rw [List.filterMap_cons]
  cases f a <;> rfl

/-- What a run adds to what a subscription has passed and emitted. -/
theorem emits_run {calls : List (Input T)} (hg : Sound g)
    (h : Tracks g i topic owner start sent next) (hcalls : ∀ j ∈ calls, j ≠ .abort i)
    (hclean : ∀ m ∈ moves step g calls, ¬Swallows m) :
    ∃ next' x,
      Tracks (runTo step g calls) i topic owner start
          (sent ++ (moves step g calls).flatMap (published topic)) next' ∧
        kept owner ((sent ++ (moves step g calls).flatMap (published topic)).take (next' - start)) =
          kept owner (sent.take (next - start)) ++ x ∧
        ((moves step g calls).filterMap (emission i)).Sublist x ∧
        ((∀ m ∈ moves step g calls, lags i m = false) →
          (moves step g calls).filterMap (emission i) = x ∧
            next' = next + (moves step g calls).countP (takes i)) := by
  induction calls generalizing g sent next with
  | nil =>
    refine ⟨next, [], ?_, ?_, List.Sublist.refl _, fun _ => ⟨rfl, rfl⟩⟩
    · rw [Lib.moves_nil, List.flatMap_nil, List.append_nil]
      exact h
    · rw [Lib.moves_nil, List.flatMap_nil, List.append_nil, List.append_nil]
  | cons j calls ih =>
    have hcalls := List.forall_mem_cons.1 hcalls
    rw [Lib.moves_cons] at hclean ⊢
    have hclean := List.forall_mem_cons.1 hclean
    obtain ⟨next₁, x₁, htracks₁, hkept₁, hsub₁, hexact₁⟩ := emits_step hg h hcalls.1 hclean.1
    obtain ⟨next₂, x₂, htracks₂, hkept₂, hsub₂, hexact₂⟩ := ih (hg.step j) htracks₁ hcalls.2 hclean.2
    rw [List.flatMap_cons, filterMap_cons_toList, ← List.append_assoc]
    refine ⟨next₂, x₁ ++ x₂, htracks₂, ?_, hsub₁.append hsub₂, fun hno => ?_⟩
    · rw [hkept₂, hkept₁, List.append_assoc]
    · have hno := List.forall_mem_cons.1 hno
      obtain ⟨rfl, rfl⟩ := hexact₁ hno.1
      obtain ⟨rfl, rfl⟩ := hexact₂ hno.2
      refine ⟨rfl, ?_⟩
      rw [List.countP_cons]
      omega

/-! ### Runs -/

/-- The subscriptions of a run emit what they are to. -/
structure Delivers (ms : List (BusMove T)) : Prop where
  /-- One that never lags has emitted what was published since it began, up to where it is. -/
  exact : ∀ a m b c scope topic i, ms = a ++ m :: (b ++ c) →
    m.input = .sub_subscribe_topic scope topic → m.output = .subscribed i →
    (∀ q ∈ b, q.input ≠ .abort i) → (∀ q ∈ b, lags i q = false) →
    b.countP (takes i) ≤ (b.flatMap (published topic)).length ∧
      b.filterMap (emission i) = kept (Bus.current_session_sid scope)
        ((b.flatMap (published topic)).take (b.countP (takes i)))
  /-- It goes on until it has taken everything. -/
  goes_on : ∀ a m b q c scope topic i, ms = a ++ m :: (b ++ q :: c) →
    m.input = .sub_subscribe_topic scope topic → m.output = .subscribed i →
    (∀ q ∈ b, q.input ≠ .abort i) → (∀ q ∈ b, lags i q = false) → q.input = .recv i →
    takes i q = true ∨ lags i q = true ∨
      q.output = .waiting ∧ b.countP (takes i) = (b.flatMap (published topic)).length
  /-- One that lags leaves out some. -/
  lagging : ∀ a m b c scope topic i, ms = a ++ m :: (b ++ c) →
    m.input = .sub_subscribe_topic scope topic → m.output = .subscribed i →
    (∀ q ∈ b, q.input ≠ .abort i) →
    (b.filterMap (emission i)).Sublist
      (kept (Bus.current_session_sid scope) (b.flatMap (published topic)))
  /-- A subscription that runs is on the channel of its topic. -/
  attached : ∀ m ∈ ms, ∀ i s, m.after.running i = some s →
    m.after.broker.topics.get? s.topic = some s.channel
  /-- What is withheld is without an echo, and is of the session of the subscription. -/
  withheld : ∀ m ∈ ms, ∀ i s ev, m.input = .recv i → upcoming m.before i = some (s, ev) →
    m.output = .skipped → ev.skip_origin = true ∧ ev.origin = s.owner_sid ∧ s.owner_sid ≠ []

/-- A new subscription. -/
theorem tracks_subscribe (g : Bus T) (scope : Option Str) (topic : Str) :
    ∃ start, Tracks (g.sub_subscribe_topic scope topic).2 g.subs.length topic
      (Bus.current_session_sid scope) start [] start := by
  refine ⟨_, le_rfl, _, running_eq_some.2 ⟨List.getElem?_concat_length, rfl⟩, rfl, rfl, rfl, ?_⟩
  exact List.drop_length

theorem output_of_upcoming {g : Bus T} (hg : Sound g) {i : ℕ} {s : Subscription} {ev : Event T}
    (hup : upcoming g i = some (s, ev)) :
    (step g (.recv i)).1 =
      if ev.skip_origin && ev.origin == s.owner_sid then .skipped else .emitted ev.payload := by
  unfold upcoming at hup
  split at hup
  · cases hup
  · rename_i s' hs
    rcases hg.recv_cases hs with ⟨ev', hrecv, hstep⟩ | ⟨n, next, hrecv, -, -⟩ | ⟨hrecv, -, -⟩ <;>
      rw [hrecv] at hup <;> cases hup
    exact congrArg Prod.fst hstep

/-- The state in which a run makes a move. -/
theorem move_of_mem {calls : List (Input T)} {m : BusMove T} (hm : m ∈ moves step .new calls) :
    ∃ g, Sound g ∧ m = moveOf step g m.input := by
  obtain ⟨a, b, hms⟩ := List.append_of_mem hm
  obtain ⟨is₁, is', rfl, -, htail⟩ := Lib.moves_eq_append hms
  obtain ⟨is₂, -, hmove, -⟩ := Lib.moves_eq_cons htail.symm
  exact ⟨_, sound_runTo .new is₁, hmove⟩

/-- What a subscription has passed and emitted in a run since it was made. -/
theorem emits_since {calls : List (Input T)} {a b c : List (BusMove T)} {m : BusMove T}
    {scope : Option Str} {topic : Str} {i : ℕ} (hms : moves step .new calls = a ++ m :: (b ++ c))
    (hinput : m.input = .sub_subscribe_topic scope topic) (hout : m.output = .subscribed i)
    (habort : ∀ q ∈ b, q.input ≠ .abort i)
    (hclean : ∀ m ∈ moves step (.new : Bus T) calls, ¬Swallows m) :
    ∃ g is start next, Sound g ∧ c = moves step g is ∧
      Tracks g i topic (Bus.current_session_sid scope) start (b.flatMap (published topic)) next ∧
        (b.filterMap (emission i)).Sublist
          (kept (Bus.current_session_sid scope) ((b.flatMap (published topic)).take (next - start))) ∧
        ((∀ q ∈ b, lags i q = false) → next = start + b.countP (takes i) ∧
          b.filterMap (emission i) =
            kept (Bus.current_session_sid scope) ((b.flatMap (published topic)).take (next - start))) := by
  obtain ⟨is₁, is', rfl, rfl, htail⟩ := Lib.moves_eq_append hms
  obtain ⟨is'', rfl, hmove, hrest⟩ := Lib.moves_eq_cons htail.symm
  obtain ⟨is₂, is₃, rfl, rfl, rfl⟩ := Lib.moves_eq_append hrest.symm
  have hg := sound_runTo (Sound.new : Sound (Bus.new : Bus T)) is₁
  have hafter : m.after = ((runTo step .new is₁).sub_subscribe_topic scope topic).2 := by
    rw [hmove, hinput]
    rfl
  have hi : i = (runTo step (.new : Bus T) is₁).subs.length := by
    rw [hmove, hinput] at hout
    cases hout
    rfl
  have hg' : Sound m.after := hafter ▸ hg.subscribe scope topic
  obtain ⟨start, htracks⟩ := tracks_subscribe (runTo step (.new : Bus T) is₁) scope topic
  rw [← hafter, ← hi] at htracks
  have hcalls : ∀ j ∈ is₂, j ≠ .abort i := by
    intro j hj
    have hinputs : (moves step m.after is₂).map Lib.Move.input = is₂ := Lib.map_input_moves
    rw [← hinputs] at hj
    obtain ⟨q, hq, rfl⟩ := List.mem_map.1 hj
    exact habort q hq
  have hclean' : ∀ q ∈ moves step m.after is₂, ¬Swallows q := by
    intro q hq
    refine hclean q ?_
    rw [hms]
    exact List.mem_append_right _ (List.mem_cons_of_mem _ (List.mem_append_left _ hq))
  obtain ⟨next, x, htracks', hkept, hsub, hexact⟩ := emits_run hg' htracks hcalls hclean'
  rw [List.nil_append] at htracks' hkept
  rw [Nat.sub_self, List.take_zero] at hkept
  have hkept : kept (Bus.current_session_sid scope)
      (((moves step m.after is₂).flatMap (published topic)).take (next - start)) = x := hkept
  refine ⟨_, is₃, start, next, sound_runTo hg' is₂, rfl, htracks', ?_, fun hno => ?_⟩
  · rw [hkept]
    exact hsub
  · rw [hkept]
    exact ⟨(hexact hno).2, (hexact hno).1⟩

theorem not_swallows_of_delivers {calls : List (Input T)} (h : Delivers (moves step .new calls)) :
    ∀ m ∈ moves step (.new : Bus T) calls, ¬Swallows m := by
  rintro m hm ⟨i, s, ev, hinput, hup, howner, hskip, horigin⟩
  obtain ⟨g, hg, hmove⟩ := move_of_mem hm
  have hbefore : m.before = g := congrArg Move.before hmove
  have hout : m.output = .skipped := by
    rw [hbefore] at hup
    have houtput := output_of_upcoming hg hup
    rw [hmove, hinput]
    exact houtput.trans (if_pos (by rw [hskip, horigin, howner]; rfl))
  exact (h.withheld m hm i s ev hinput hup hout).2.2 howner

theorem delivers_of_not_swallows {calls : List (Input T)}
    (hclean : ∀ m ∈ moves step (.new : Bus T) calls, ¬Swallows m) :
    Delivers (moves step (.new : Bus T) calls) where
  exact := by
    intro a m b c scope topic i hms hinput hout habort hlag
    obtain ⟨g, is, start, next, hg, -, htracks, -, hexact⟩ := emits_since hms hinput hout habort hclean
    obtain ⟨rfl, hemitted⟩ := hexact hlag
    rw [Nat.add_sub_cancel_left] at hemitted
    have hlength := htracks.sent_length hg
    exact ⟨by omega, hemitted⟩
  goes_on := by
    intro a m b q c scope topic i hms hinput hout habort hlag hrecv
    obtain ⟨g, is, start, next, hg, htail, htracks, -, hexact⟩ := emits_since hms hinput hout habort hclean
    obtain ⟨rfl, -⟩ := hexact hlag
    obtain ⟨is', -, hmove, -⟩ := Lib.moves_eq_cons htail.symm
    rw [hmove, hrecv]
    rcases tracks_step hg htracks (j := .recv i) (fun heq => by cases heq) with
      ⟨-, -, hwaiting⟩ | ⟨s, ev, -, -, -, -, -, houtput⟩ | ⟨n, next', -, -, -, houtput⟩
    · obtain ⟨houtput, hall⟩ := hwaiting rfl
      exact .inr (.inr ⟨houtput, by omega⟩)
    · exact .inl (takes_of_upcoming houtput)
    · refine .inr (.inl ?_)
      unfold lags moveOf
      rw [houtput]
      simp
  lagging := by
    intro a m b c scope topic i hms hinput hout habort
    obtain ⟨g, is, start, next, -, -, -, hsub, -⟩ := emits_since hms hinput hout habort hclean
    exact hsub.trans (((List.take_sublist ..).filter _).map _)
  attached := by
    intro m hm i s hs
    obtain ⟨g, hg, hmove⟩ := move_of_mem hm
    rw [hmove] at hs ⊢
    obtain ⟨hmem, hlive⟩ := mem_of_running hs
    exact (hg.step m.input).attached s hmem hlive
  withheld := by
    intro m hm i s ev hinput hup hout
    obtain ⟨g, hg, hmove⟩ := move_of_mem hm
    have hbefore : m.before = g := congrArg Move.before hmove
    have houtput := output_of_upcoming hg (hbefore ▸ hup)
    rw [hmove, hinput] at hout
    have hskipped : (step g (.recv i)).1 = .skipped := hout
    rw [houtput] at hskipped
    have hskip : (ev.skip_origin && ev.origin == s.owner_sid) = true := by
      by_contra hno
      rw [if_neg hno] at hskipped
      cases hskipped
    rw [Bool.and_eq_true, beq_iff_eq] at hskip
    refine ⟨hskip.1, hskip.2, fun howner => hclean m hm ?_⟩
    exact ⟨i, s, ev, hinput, hup, howner, hskip.1, hskip.2.trans howner⟩

/-- The subscriptions of a run emit what they are to exactly when none that no session made takes a
message without echo that no session published. -/
theorem delivers_iff (calls : List (Input T)) :
    Delivers (moves step .new calls) ↔ ∀ m ∈ moves step (.new : Bus T) calls, ¬Swallows m :=
  ⟨not_swallows_of_delivers, delivers_of_not_swallows⟩

/-- A worker subscribes to a topic and publishes on it without an echo, both outside any session. -/
theorem worker_loses_message : ¬Delivers (moves step (.new : Bus Bool)
    [.sub_subscribe_topic none ['t'], .cmd_publish_no_echo [] ['t'] true, .recv 0]) := by
  intro h
  exact (h.withheld (moveOf step (runTo step .new
    [.sub_subscribe_topic none ['t'], .cmd_publish_no_echo [] ['t'] true]) (.recv 0))
    (by simp [moves, runTo]) 0 _ _ rfl rfl rfl).2.2 rfl

end IpeLang.Runtime.PubSub
