import IpeLang.Lib.Machine
import IpeLang.Lib.Recency
import IpeLang.Lib.Saturating
import IpeLang.Lib.Text
import Mathlib.Data.List.AList

/-!
# Caches

A program makes caches and uses them by their handles. A cache holds a bounded number of keys; when
one too many is put, the key that was put or found longest ago is dropped. The code keeps the entries
in a vector, each with the number of the operation that used it last, and counts them beside it.

* `Registry`, `step`: the caches of a program, and one call;
* `Lru`, `Caches`, `Caches.step`: what a cache is for, a list of keys in the order of their use;
* `cache_refines`: every run of the code answers as the run of the lists does.

The keys and the values of a handle have their own types, so these are families over the handles.
-/

namespace IpeLang.Runtime.Cache

open Lib (Str Move moves moveOf runTo ByStamp without min_by_key saturating_add saturating_sub
  saturating_add_u64)

structure CacheCfg where
  maxEntries : Int64
  ttlMs : Int64
  maxBytes : Int64

structure CacheStats where
  hits : ℤ
  misses : ℤ
  evictions : ℤ
  deriving DecidableEq

/-! ### Time

An instant is the number of nanoseconds since the start of the machine. -/

namespace Instant

/-- The sum, where its seconds have 64 bits with sign. -/
def checked_add (t nanos : ℕ) : Option ℕ :=
  if t + nanos < 2 ^ 63 * 10 ^ 9 then some (t + nanos) else none

/-- From when an entry that is put now has expired. -/
def expires_at (now : ℕ) (ttl : Int64) : Option ℕ :=
  if 0 < ttl.toInt then
    some ((checked_add now (ttl.toInt.toNat * 10 ^ 6)).getD (now + 60 * 60 * 24 * 365 * 30 * 10 ^ 9))
  else none

end Instant

/-- A reading of the clock. The clock counts seconds in 64 bits, of which no machine uses up half. -/
structure Reading where
  now : ℕ
  lt : now < 2 ^ 62 * 10 ^ 9

/-! ### A cache -/

variable {K V : Type}

structure CacheEntry (K V : Type) where
  key : K
  value : V
  expires_at : Option ℕ
  last_seq : ℕ

/-- The time of the entry has come. -/
def CacheEntry.expired (e : CacheEntry K V) (now : ℕ) : Bool :=
  e.expires_at.any fun x => decide (x ≤ now)

structure Slot (K V : Type) where
  cfg : CacheCfg
  hits : ℤ
  misses : ℤ
  evictions : ℤ
  entries : ℤ
  seq : ℕ
  /-- Absent until the first entry is put. -/
  store : Option (List (CacheEntry K V))

namespace Slot

def new (cfg : CacheCfg) : Slot K V := ⟨cfg, 0, 0, 0, 0, 0, none⟩

/-- The entries, without any before the first. -/
def vec (slot : Slot K V) : List (CacheEntry K V) := slot.store.getD []

variable [DecidableEq K]

/-- Give the key of an entry another value, or add it. The number says whether it was added. -/
def insert (vec : List (CacheEntry K V)) (entry : CacheEntry K V) : List (CacheEntry K V) × ℕ :=
  match vec.findIdx? fun e => decide (e.key = entry.key) with
  | some idx => (vec.modify idx fun e => { entry with key := e.key }, 0)
  | none => (vec ++ [entry], 1)

/-- Drop the entry that was used longest ago where there is one too many. -/
def trim (vec : List (CacheEntry K V)) (max : ℤ) : List (CacheEntry K V) × ℕ :=
  if 0 < max ∧ max < vec.length then
    match min_by_key CacheEntry.last_seq vec with
    | some (idx, _) => (vec.eraseIdx idx, 1)
    | none => (vec, 0)
  else (vec, 0)

def cache_put (slot : Slot K V) (now : ℕ) (key : K) (value : V) : Slot K V :=
  let seq := saturating_add_u64 slot.seq 1
  let (vec, added) := insert slot.vec ⟨key, value, Instant.expires_at now slot.cfg.ttlMs, seq⟩
  let (vec, evicted) := trim vec slot.cfg.maxEntries.toInt
  { slot with
    seq
    store := some vec
    entries := saturating_sub (saturating_add slot.entries added) evicted
    evictions := saturating_add slot.evictions evicted }

def cache_get (slot : Slot K V) (now : ℕ) (key : K) : Option V × Slot K V :=
  let seq := saturating_add_u64 slot.seq 1
  match slot.vec.findIdx? fun e => decide (e.key = key) with
  | none => (none, { slot with seq, misses := saturating_add slot.misses 1 })
  | some idx =>
    match slot.vec[idx]? with
    | none => (none, { slot with seq, misses := saturating_add slot.misses 1 })
    | some e =>
      if e.expired now then
        (none, { slot with
          seq
          store := slot.store.map fun vec => vec.eraseIdx idx
          misses := saturating_add slot.misses 1
          entries := saturating_sub slot.entries 1 })
      else
        (some e.value, { slot with
          seq
          store := slot.store.map fun vec => vec.modify idx fun e => { e with last_seq := seq }
          hits := saturating_add slot.hits 1 })

def cache_remove (slot : Slot K V) (key : K) : Slot K V :=
  let removed := slot.vec.length - (without CacheEntry.key key slot.vec).length
  { slot with
    store := slot.store.map fun vec => without CacheEntry.key key vec
    entries := saturating_sub slot.entries removed }

def cache_clear (slot : Slot K V) : Slot K V := { slot with store := none, entries := 0 }

def cache_stats (slot : Slot K V) : CacheStats := ⟨slot.hits, slot.misses, slot.evictions⟩

end Slot

/-! ### What a cache is for -/

/-- A key that is held, its value, and the time from which it is not found any more. -/
structure Held (K V : Type) where
  key : K
  value : V
  expires_at : Option ℕ

/-- A cache: the keys from the one that was put or found longest ago to the last one. -/
structure Lru (K V : Type) where
  cfg : CacheCfg
  held : List (Held K V)
  gets : ℕ
  hits : ℕ
  misses : ℕ
  evicted : List K
  pos : 0 < cfg.maxEntries.toInt
  nodup : (held.map Held.key).Nodup
  length_le : (held.length : ℤ) ≤ cfg.maxEntries.toInt
  counts : hits + misses = gets

namespace Lru

def new (cfg : CacheCfg) (h : 0 < cfg.maxEntries.toInt) : Lru K V :=
  ⟨cfg, [], 0, 0, 0, [], h, .nil, h.le, rfl⟩

/-- When an entry that is put now is too old. -/
def deadline (cfg : CacheCfg) (now : ℕ) : Option ℕ :=
  if 0 < cfg.ttlMs.toInt then some (now + cfg.ttlMs.toInt.toNat * 10 ^ 6) else none

variable [DecidableEq K]

/-- The entry as the last one, without another of its key. -/
def touch (c : Lru K V) (e : Held K V) : List (Held K V) := without Held.key e.key c.held ++ [e]

theorem nodup_touch (c : Lru K V) (e : Held K V) : ((c.touch e).map Held.key).Nodup :=
  Lib.nodup_push c.nodup rfl

theorem length_touch_le (c : Lru K V) (e : Held K V) : (c.touch e).length ≤ c.held.length + 1 := by
  unfold touch
  rw [List.length_append, List.length_singleton]
  exact Nat.add_le_add_right (List.length_filter_le ..) 1

theorem length_touch_le_of_mem (c : Lru K V) {e : Held K V} (he : e ∈ c.held) :
    (c.touch e).length ≤ c.held.length := by
  unfold touch
  rw [List.length_append, List.length_singleton]
  exact Lib.length_without_lt he

theorem length_drop_touch_le (c : Lru K V) (e : Held K V) :
    (((c.touch e).drop 1).length : ℤ) ≤ c.cfg.maxEntries.toInt := by
  have htouch := c.length_touch_le e
  have hlength := c.length_le
  rw [List.length_drop]
  omega

/-- Put an entry, and drop the key that was put or found longest ago where there is one too many. -/
def put (c : Lru K V) (now : ℕ) (key : K) (value : V) : Lru K V :=
  let e : Held K V := ⟨key, value, deadline c.cfg now⟩
  if h : ((c.touch e).length : ℤ) ≤ c.cfg.maxEntries.toInt then
    { c with held := c.touch e, nodup := c.nodup_touch e, length_le := h }
  else
    { c with
      held := (c.touch e).drop 1
      evicted := c.evicted ++ ((c.touch e).take 1).map Held.key
      nodup := (c.nodup_touch e).sublist ((List.drop_sublist ..).map _)
      length_le := c.length_drop_touch_le e }

section

variable {c : Lru K V} {now : ℕ} {key : K} {value : V} {e : Held K V}
  (he : e = ⟨key, value, deadline c.cfg now⟩)

include he

theorem put_of_le (h : ((c.touch e).length : ℤ) ≤ c.cfg.maxEntries.toInt) :
    c.put now key value =
      { c with held := c.touch e, nodup := c.nodup_touch e, length_le := h } := by
  subst he
  exact dif_pos h

theorem put_of_lt (h : c.cfg.maxEntries.toInt < (c.touch e).length) :
    c.put now key value =
      { c with
        held := (c.touch e).drop 1
        evicted := c.evicted ++ ((c.touch e).take 1).map Held.key
        nodup := (c.nodup_touch e).sublist ((List.drop_sublist ..).map _)
        length_le := c.length_drop_touch_le e } := by
  subst he
  exact dif_neg (not_le.2 h)

end

/-- Without a key. -/
def remove (c : Lru K V) (key : K) : Lru K V :=
  { c with
    held := without Held.key key c.held
    nodup := Lib.nodup_without c.nodup
    length_le := (Nat.cast_le.2 (List.length_filter_le ..)).trans c.length_le }

def clear (c : Lru K V) : Lru K V :=
  { c with held := [], nodup := .nil, length_le := c.pos.le }

def miss (c : Lru K V) : Lru K V :=
  { c with gets := c.gets + 1, misses := c.misses + 1, counts := congrArg (· + 1) c.counts }

def hit (c : Lru K V) (e : Held K V) (he : e ∈ c.held) : Lru K V :=
  { c with
    held := c.touch e
    gets := c.gets + 1
    hits := c.hits + 1
    nodup := c.nodup_touch e
    length_le := (Nat.cast_le.2 (c.length_touch_le_of_mem he)).trans c.length_le
    counts := by rw [← c.counts]; omega }

def get (c : Lru K V) (now : ℕ) (key : K) : Option V × Lru K V :=
  match h : c.held.find? fun e => decide (e.key = key) with
  | none => (none, c.miss)
  | some e =>
    if e.expires_at.any fun x => decide (x ≤ now) then (none, (c.remove key).miss)
    else (some e.value, c.hit e (List.mem_of_find?_eq_some h))

theorem get_of_not_mem {c : Lru K V} {key : K} (h : ∀ e ∈ c.held, e.key ≠ key) (now : ℕ) :
    c.get now key = (none, c.miss) := by
  unfold get
  split
  · rfl
  · rename_i e he
    have hkey := List.find?_some he
    exact absurd (of_decide_eq_true hkey) (h e (List.mem_of_find?_eq_some he))

theorem get_of_mem {c : Lru K V} {e : Held K V} (he : e ∈ c.held) (now : ℕ) :
    c.get now e.key =
      if e.expires_at.any fun x => decide (x ≤ now) then (none, (c.remove e.key).miss)
      else (some e.value, c.hit e he) := by
  have hfind := Lib.find?_key c.nodup he
  unfold get
  split
  · rename_i hnone
    rw [hfind] at hnone
    cases hnone
  · rename_i e' he'
    rw [hfind] at he'
    cases he'
    rfl

def stats (c : Lru K V) : CacheStats := ⟨c.hits, c.misses, c.evicted.length⟩

end Lru

/-! ### Handles -/

/-- Caches by their handles, and the last handle that was given out. -/
structure Registry (S : ℤ → Type) where
  next : ℤ
  live : AList S

def Registry.empty {S : ℤ → Type} : Registry S := ⟨0, ∅⟩

/-- Work on the cache of a handle. Without one the answer is the default. -/
def with_slot {S : ℤ → Type} {α : Type} (r : Registry S) (h : ℤ) (default : α)
    (f : S h → α × S h) : α × Registry S :=
  match r.live.lookup h with
  | some slot => ((f slot).1, { r with live := r.live.insert h (f slot).2 })
  | none => (default, r)

def MAX_LIVE_CACHES : ℤ := 4096

/-- Why no cache is made for a configuration. -/
def CacheCfg.refusal (cfg : CacheCfg) : Option Str :=
  if cfg.maxEntries.toInt ≤ 0 then
    some ("Cache.new: maxEntries must be positive (got ".toList ++
      (toString cfg.maxEntries.toInt).toList ++
      "); an LRU cache is bounded by entry count".toList)
  else if cfg.maxBytes.toInt < 0 then
    some ("Cache.new: maxBytes must be non-negative (got ".toList ++
      (toString cfg.maxBytes.toInt).toList ++ "); a byte cap is a byte count".toList)
  else if 0 < cfg.maxBytes.toInt then
    some ("Cache.new: maxBytes is not enforced by this runtime; ".toList ++
      "bound the cache with withMaxEntries".toList)
  else none

def limitReached : Str :=
  "Cache.new: live cache limit reached (".toList ++ (toString MAX_LIVE_CACHES).toList ++
    "); destroy unused caches before creating more".toList

theorem CacheCfg.pos_of_refusal {cfg : CacheCfg} (h : cfg.refusal = none) :
    0 < cfg.maxEntries.toInt := by
  unfold refusal at h
  split_ifs at h with hpos
  exact not_le.1 hpos

/-! ### Calls -/

inductive Op (K V : ℤ → Type)
  | new (cfg : CacheCfg)
  | put (handle : ℤ) (key : K handle) (value : V handle)
  | get (handle : ℤ) (key : K handle)
  | remove (handle : ℤ) (key : K handle)
  | clear (handle : ℤ)
  | destroy (handle : ℤ)
  | size (handle : ℤ)
  | stats (handle : ℤ)

inductive Reply (V : ℤ → Type)
  | handle (r : Except Str ℤ)
  | done
  | found (handle : ℤ) (value : Option (V handle))
  | size (n : ℤ)
  | stats (s : CacheStats)

/-- A call and the reading of the clock. -/
structure Call (K V : ℤ → Type) where
  reading : Reading
  op : Op K V

section Steps

variable {K V : ℤ → Type} [∀ h, DecidableEq (K h)]

abbrev Slots (K V : ℤ → Type) := Registry fun h => Slot (K h) (V h)

abbrev Caches (K V : ℤ → Type) := Registry fun h => Lru (K h) (V h)

def cache_new_raw (r : Slots K V) (cfg : CacheCfg) : Except Str ℤ × Slots K V :=
  match cfg.refusal with
  | some e => (.error e, r)
  | none =>
    if MAX_LIVE_CACHES ≤ r.live.keys.length then (.error limitReached, r)
    else
      let h := saturating_add r.next 1
      (.ok h, ⟨h, r.live.insert h (.new cfg)⟩)

def step (r : Slots K V) (call : Call K V) : Reply V × Slots K V :=
  match call.op with
  | .new cfg => ((cache_new_raw r cfg).map .handle id)
  | .put h key value =>
    with_slot r h .done fun slot => (.done, slot.cache_put call.reading.now key value)
  | .get h key =>
    with_slot r h (.found h none) fun slot => (slot.cache_get call.reading.now key).map (.found h) id
  | .remove h key => with_slot r h .done fun slot => (.done, slot.cache_remove key)
  | .clear h => with_slot r h .done fun slot => (.done, slot.cache_clear)
  | .destroy h => (.done, { r with live := r.live.erase h })
  | .size h => with_slot r h (.size 0) fun slot => (.size slot.entries, slot)
  | .stats h => with_slot r h (.stats ⟨0, 0, 0⟩) fun slot => (.stats slot.cache_stats, slot)

namespace Caches

/-- A cache with a handle that was never given out. -/
def make (r : Caches K V) (cfg : CacheCfg) : Except Str ℤ × Caches K V :=
  match h : cfg.refusal with
  | some e => (.error e, r)
  | none =>
    if MAX_LIVE_CACHES ≤ r.live.keys.length then (.error limitReached, r)
    else (.ok (r.next + 1), ⟨r.next + 1, r.live.insert (r.next + 1) (.new cfg (cfg.pos_of_refusal h))⟩)

def step (r : Caches K V) (call : Call K V) : Reply V × Caches K V :=
  match call.op with
  | .new cfg => ((r.make cfg).map .handle id)
  | .put h key value => with_slot r h .done fun c => (.done, c.put call.reading.now key value)
  | .get h key => with_slot r h (.found h none) fun c => (c.get call.reading.now key).map (.found h) id
  | .remove h key => with_slot r h .done fun c => (.done, c.remove key)
  | .clear h => with_slot r h .done fun c => (.done, c.clear)
  | .destroy h => (.done, { r with live := r.live.erase h })
  | .size h => with_slot r h (.size 0) fun c => (.size c.held.length, c)
  | .stats h => with_slot r h (.stats ⟨0, 0, 0⟩) fun c => (.stats c.stats, c)

end Caches

end Steps

/-! ### One call -/

section Slot

variable {K V : Type}

/-- What is held, without the number of its last use. -/
def CacheEntry.forget (e : CacheEntry K V) : Held K V := ⟨e.key, e.value, e.expires_at⟩

/-- A slot stands for a list after `n` calls. -/
structure Stands (n : ℕ) (slot : Slot K V) (c : Lru K V) : Prop where
  cfg : slot.cfg = c.cfg
  order : ∃ l, ByStamp CacheEntry.last_seq slot.seq slot.vec l ∧ l.map CacheEntry.forget = c.held
  entries : slot.entries = (c.held.length : ℤ)
  hits : slot.hits = (c.hits : ℤ)
  misses : slot.misses = (c.misses : ℤ)
  evictions : slot.evictions = (c.evicted.length : ℤ)
  seq_le : slot.seq ≤ n
  gets_le : c.gets ≤ n
  puts_le : c.held.length + c.evicted.length ≤ n

theorem expires_at_eq (r : Reading) (cfg : CacheCfg) :
    Instant.expires_at r.now cfg.ttlMs = Lru.deadline cfg r.now := by
  unfold Instant.expires_at Lru.deadline Instant.checked_add
  have hnow := r.lt
  have httl := cfg.ttlMs.toInt_lt
  rw [if_pos (by omega : r.now + cfg.ttlMs.toInt.toNat * 10 ^ 6 < 2 ^ 63 * 10 ^ 9), Option.getD_some]

theorem getD_map {α : Type} {f : List α → List α} (hf : f [] = []) (s : Option (List α)) :
    (s.map f).getD [] = f (s.getD []) := by
  cases s with
  | none => exact hf.symm
  | some v => rfl

theorem map_forget_without [DecidableEq K] (key : K) (v : List (CacheEntry K V)) :
    (without CacheEntry.key key v).map CacheEntry.forget =
      without Held.key key (v.map CacheEntry.forget) := Lib.map_without Held.key (fun _ => rfl) key v

/-- An entry that is put is the last in the order of use, and the number counts what it adds. -/
theorem insert_spec [DecidableEq K] {vec : List (CacheEntry K V)}
    (h : (vec.map CacheEntry.key).Nodup) (e : CacheEntry K V) :
    (Slot.insert vec e).1.Perm (without CacheEntry.key e.key vec ++ [e]) ∧
      (Slot.insert vec e).1.length = vec.length + (Slot.insert vec e).2 := by
  unfold Slot.insert
  split
  · rename_i idx hidx
    obtain ⟨a, x, b, rfl, rfl, hx, -⟩ := Lib.append_of_findIdx? hidx
    have hx : x.key = e.key := of_decide_eq_true hx
    have hwithout := Lib.without_append_cons h
    rw [hx] at hwithout
    rw [Lib.modify_length_append, hwithout, hx]
    exact ⟨List.perm_middle.trans (List.perm_append_singleton e _).symm, by simp⟩
  · rename_i hnone
    have hne : ∀ x ∈ vec, x.key ≠ e.key := fun x hx =>
      of_decide_eq_false (List.findIdx?_eq_none_iff.1 hnone x hx)
    rw [Lib.without_eq_self hne]
    exact ⟨.refl _, by simp⟩

theorem trim_of_le {vec : List (CacheEntry K V)} {max : ℤ} (h : (vec.length : ℤ) ≤ max) :
    Slot.trim vec max = (vec, 0) := by
  unfold Slot.trim
  rw [if_neg fun hmax => not_lt.2 h hmax.2]

theorem trim_of_lt {vec l : List (CacheEntry K V)} {top : ℕ} {max : ℤ} (hpos : 0 < max)
    (h : max < vec.length) (horder : ByStamp CacheEntry.last_seq top vec l) :
    ByStamp CacheEntry.last_seq top (Slot.trim vec max).1 (l.drop 1) ∧ (Slot.trim vec max).2 = 1 := by
  unfold Slot.trim
  rw [if_pos ⟨hpos, h⟩, List.drop_one]
  cases hmin : min_by_key CacheEntry.last_seq vec with
  | none =>
    rw [Lib.min_by_key_eq_none.1 hmin, List.length_nil, Nat.cast_zero] at h
    exact absurd (hpos.trans h) (lt_irrefl 0)
  | some found => exact ⟨horder.evict hmin, rfl⟩

theorem cache_put_eq [DecidableEq K] (slot : Slot K V) (now : ℕ) (key : K) (value : V) :
    let e : CacheEntry K V := ⟨key, value, Instant.expires_at now slot.cfg.ttlMs,
      saturating_add_u64 slot.seq 1⟩
    slot.cache_put now key value =
      { slot with
        seq := e.last_seq
        store := some (Slot.trim (Slot.insert slot.vec e).1 slot.cfg.maxEntries.toInt).1
        entries := saturating_sub (saturating_add slot.entries (Slot.insert slot.vec e).2)
          (Slot.trim (Slot.insert slot.vec e).1 slot.cfg.maxEntries.toInt).2
        evictions := saturating_add slot.evictions
          (Slot.trim (Slot.insert slot.vec e).1 slot.cfg.maxEntries.toInt).2 } := rfl

namespace Stands

variable {n m : ℕ} {slot : Slot K V} {c : Lru K V}

theorem new (cfg : CacheCfg) (h : 0 < cfg.maxEntries.toInt) : Stands n (.new cfg) (Lru.new cfg h : Lru K V) :=
  ⟨rfl, ⟨[], .nil, rfl⟩, rfl, rfl, rfl, rfl, Nat.zero_le n, Nat.zero_le n,
    (Nat.zero_add _).trans_le (Nat.zero_le n)⟩

theorem mono (h : Stands n slot c) (hle : n ≤ m) : Stands m slot c :=
  { h with
    seq_le := h.seq_le.trans hle
    gets_le := h.gets_le.trans hle
    puts_le := h.puts_le.trans hle }

theorem length_vec (h : Stands n slot c) : slot.vec.length = c.held.length := by
  obtain ⟨l, horder, hheld⟩ := h.order
  rw [← horder.perm.length_eq, ← hheld, List.length_map]

theorem nodup_vec (h : Stands n slot c) : (slot.vec.map CacheEntry.key).Nodup := by
  obtain ⟨l, horder, hheld⟩ := h.order
  have hnodup := c.nodup
  rw [← hheld, List.map_map] at hnodup
  exact (horder.perm.map CacheEntry.key).nodup_iff.1 hnodup

theorem mem_held (h : Stands n slot c) {e : CacheEntry K V} (he : e ∈ slot.vec) :
    e.forget ∈ c.held := by
  obtain ⟨l, horder, hheld⟩ := h.order
  rw [← hheld]
  exact List.mem_map_of_mem (horder.perm.symm.subset he)

theorem seq_eq (h : Stands n slot c) (hn : n + 1 < 2 ^ 63) :
    saturating_add_u64 slot.seq 1 = slot.seq + 1 :=
  Lib.saturating_add_u64_eq (by have := h.seq_le; omega)

/-- A key that is not found, where nothing of it is held any more. -/
theorem miss (h : Stands n slot c) (hn : n + 1 < 2 ^ 63) :
    Stands (n + 1) { slot with seq := slot.seq + 1, misses := saturating_add slot.misses 1 } c.miss := by
  obtain ⟨l, horder, hheld⟩ := h.order
  have hcounts := c.counts
  have hgets := h.gets_le
  refine { h with
    order := ⟨l, horder.mono (Nat.le_succ _), hheld⟩
    misses := ?_
    seq_le := Nat.add_le_add_right h.seq_le 1
    gets_le := Nat.add_le_add_right hgets 1
    puts_le := h.puts_le.trans (Nat.le_succ n) }
  change saturating_add slot.misses ((1 : ℕ) : ℤ) = ((c.misses + 1 : ℕ) : ℤ)
  rw [h.misses, Lib.saturating_add_natCast (by omega)]

theorem clear (h : Stands n slot c) : Stands n slot.cache_clear c.clear :=
  { h with
    order := ⟨[], .nil, rfl⟩
    entries := rfl
    puts_le := (Nat.le_add_left _ _).trans (by simpa [Lru.clear] using h.puts_le) }

variable [DecidableEq K]

theorem remove (h : Stands n slot c) (hn : n < 2 ^ 63) (key : K) :
    Stands n (slot.cache_remove key) (c.remove key) := by
  obtain ⟨l, horder, hheld⟩ := h.order
  have hvec : (slot.cache_remove key).vec = without CacheEntry.key key slot.vec :=
    getD_map rfl slot.store
  have hmap : (without CacheEntry.key key l).map CacheEntry.forget = (c.remove key).held := by
    rw [map_forget_without, hheld]
    rfl
  have horder' : ByStamp CacheEntry.last_seq slot.seq (slot.cache_remove key).vec
      (without CacheEntry.key key l) := by
    rw [hvec]
    exact horder.filter _
  have hlength : (without CacheEntry.key key slot.vec).length = (c.remove key).held.length := by
    rw [← hmap, List.length_map, ← hvec, horder'.perm.length_eq]
  have hle : (c.remove key).held.length ≤ c.held.length := List.length_filter_le ..
  have hputs := h.puts_le
  refine { h with
    order := ⟨_, horder', hmap⟩
    entries := ?_
    puts_le := (Nat.add_le_add_right hle _).trans hputs }
  change saturating_sub slot.entries ((slot.vec.length - _ : ℕ) : ℤ) = _
  rw [h.entries, h.length_vec, hlength, Lib.saturating_sub_natCast (by omega) (Nat.sub_le ..),
    Nat.sub_sub_self hle]

/-- The order of use after an entry is put, before one too many is dropped. -/
theorem order_touch (h : Stands n slot c) {e : CacheEntry K V} (he : e.last_seq = slot.seq + 1)
    {vec : List (CacheEntry K V)} (hvec : vec.Perm (without CacheEntry.key e.key slot.vec ++ [e])) :
    ∃ l, ByStamp CacheEntry.last_seq (slot.seq + 1) vec l ∧
      l.map CacheEntry.forget = c.touch e.forget := by
  obtain ⟨l, horder, hheld⟩ := h.order
  refine ⟨without CacheEntry.key e.key l ++ [e], ((horder.filter _).push he).of_perm hvec.symm, ?_⟩
  rw [List.map_append, List.map_singleton, map_forget_without, hheld]
  rfl

theorem put (h : Stands n slot c) (hn : n + 1 < 2 ^ 63) (r : Reading) (key : K) (value : V) :
    Stands (n + 1) (slot.cache_put r.now key value) (c.put r.now key value) := by
  have hseq : saturating_add_u64 slot.seq 1 = slot.seq + 1 :=
    Lib.saturating_add_u64_eq (by have := h.seq_le; omega)
  have hexpires : Instant.expires_at r.now slot.cfg.ttlMs = Lru.deadline c.cfg r.now := by
    rw [h.cfg, expires_at_eq]
  rw [cache_put_eq, hseq, hexpires]
  dsimp only
  set e : CacheEntry K V := ⟨key, value, Lru.deadline c.cfg r.now, slot.seq + 1⟩ with he
  obtain ⟨hperm, hadded⟩ := insert_spec h.nodup_vec e
  set vec := (Slot.insert slot.vec e).1
  set added := (Slot.insert slot.vec e).2
  obtain ⟨l, horder, hheld⟩ := h.order_touch rfl hperm
  obtain ⟨x, hx⟩ : ∃ x : Held K V, x = ⟨key, value, Lru.deadline c.cfg r.now⟩ := ⟨_, rfl⟩
  have hheld : l.map CacheEntry.forget = c.touch x := hx ▸ hheld
  have hlength : vec.length = (c.touch x).length := by
    rw [← hheld, List.length_map, horder.perm.length_eq]
  have htouch := c.length_touch_le x
  have hvec := h.length_vec
  have hseq_le := h.seq_le
  have hputs := h.puts_le
  have hgets := h.gets_le
  rw [h.cfg, h.entries, h.evictions]
  by_cases hle : ((c.touch x).length : ℤ) ≤ c.cfg.maxEntries.toInt
  · rw [Lru.put_of_le hx hle, trim_of_le (by rw [hlength]; exact hle)]
    refine ⟨rfl, ⟨l, horder, hheld⟩, ?_, h.hits, h.misses, ?_, ?_, ?_, ?_⟩ <;> dsimp only
    · rw [Lib.saturating_sub_add_natCast (by omega) (by omega)]
      exact congrArg _ (by omega)
    · rw [Lib.saturating_add_natCast (by omega), Nat.add_zero]
    · omega
    · omega
    · omega
  · have hlt := not_le.1 hle
    obtain ⟨hdrop, hevicted⟩ := trim_of_lt c.pos (by rw [hlength]; exact hlt) horder
    have hdropped : (l.drop 1).map CacheEntry.forget = (c.touch x).drop 1 := by
      rw [List.map_drop, hheld]
    have hpos : 0 < (c.touch x).length := by
      rw [Lru.touch, List.length_append, List.length_singleton]
      exact Nat.succ_pos _
    have hheld' : ((c.touch x).drop 1).length = (c.touch x).length - 1 := List.length_drop
    have hevicted' : (c.evicted ++ ((c.touch x).take 1).map Held.key).length =
        c.evicted.length + 1 := by
      rw [List.length_append, List.length_map, List.length_take, Nat.min_eq_left hpos]
    rw [Lru.put_of_lt hx hlt, hevicted]
    refine ⟨rfl, ⟨l.drop 1, hdrop, hdropped⟩, ?_, h.hits, h.misses, ?_, ?_, ?_, ?_⟩ <;> dsimp only
    · rw [Lib.saturating_sub_add_natCast (by omega) (by omega), hheld']
      exact congrArg _ (by omega)
    · rw [Lib.saturating_add_natCast (by omega), hevicted']
    · omega
    · omega
    · omega

/-- An expired entry is dropped as a removed one is. -/
theorem expire (h : Stands n slot c) (hn : n + 1 < 2 ^ 63) {a b : List (CacheEntry K V)}
    {e : CacheEntry K V} (hvec : slot.vec = a ++ e :: b) :
    Stands n { slot with
      store := slot.store.map fun vec => vec.eraseIdx a.length
      entries := saturating_sub slot.entries 1 } (c.remove e.key) := by
  have hnodup := h.nodup_vec
  rw [hvec] at hnodup
  have hwithout : without CacheEntry.key e.key slot.vec = slot.vec.eraseIdx a.length := by
    rw [hvec, Lib.without_append_cons hnodup, Lib.eraseIdx_length_append]
  have hlength : slot.vec.length - (without CacheEntry.key e.key slot.vec).length = 1 := by
    rw [hwithout, hvec, Lib.eraseIdx_length_append, List.length_append, List.length_append,
      List.length_cons]
    omega
  have hstore : slot.store = some slot.vec := by
    unfold Slot.vec at hvec ⊢
    cases hstore : slot.store with
    | none => rw [hstore] at hvec; simp at hvec
    | some v => rfl
  convert h.remove (Nat.lt_of_succ_lt hn) e.key using 1
  unfold Slot.cache_remove
  rw [hlength, hstore, Option.map_some, Option.map_some, hwithout]
  rfl

/-- The entry that is found is the last in the order of use. -/
theorem hit (h : Stands n slot c) (hn : n + 1 < 2 ^ 63) {a b : List (CacheEntry K V)}
    {e : CacheEntry K V} (hvec : slot.vec = a ++ e :: b) (he : e.forget ∈ c.held) :
    Stands (n + 1) { slot with
      seq := slot.seq + 1
      store := slot.store.map fun vec => vec.modify a.length fun e => { e with last_seq := slot.seq + 1 }
      hits := saturating_add slot.hits 1 } (c.hit e.forget he) := by
  have hnodup := h.nodup_vec
  rw [hvec] at hnodup
  have hvec' : (slot.store.map fun vec =>
      vec.modify a.length fun e => { e with last_seq := slot.seq + 1 }).getD [] =
        a ++ { e with last_seq := slot.seq + 1 } :: b := by
    refine (getD_map (List.modify_nil ..) slot.store).trans ?_
    change slot.vec.modify _ _ = _
    rw [hvec, Lib.modify_length_append]
  have hperm : (a ++ { e with last_seq := slot.seq + 1 } :: b).Perm
      (without CacheEntry.key e.key slot.vec ++ [{ e with last_seq := slot.seq + 1 }]) := by
    rw [hvec, Lib.without_append_cons hnodup]
    exact List.perm_middle.trans (List.perm_append_singleton _ _).symm
  obtain ⟨l, horder, hheld⟩ := h.order_touch (e := { e with last_seq := slot.seq + 1 }) rfl hperm
  have hlength : (c.touch e.forget).length = c.held.length := by
    have hsame : (l.map CacheEntry.forget).length = slot.vec.length := by
      rw [List.length_map, horder.perm.length_eq, hvec, List.length_append, List.length_append]
      rfl
    rw [← h.length_vec, ← hsame, hheld]
    rfl
  have hcounts := c.counts
  have hgets := h.gets_le
  refine { h with
    order := ⟨l, horder.of_perm (.of_eq hvec'.symm), hheld⟩
    entries := ?_
    hits := ?_
    seq_le := Nat.add_le_add_right h.seq_le 1
    gets_le := Nat.add_le_add_right hgets 1
    puts_le := ?_ }
  · change slot.entries = ((c.touch e.forget).length : ℤ)
    rw [hlength, h.entries]
  · change saturating_add slot.hits ((1 : ℕ) : ℤ) = ((c.hits + 1 : ℕ) : ℤ)
    rw [h.hits, Lib.saturating_add_natCast (by omega)]
  · change (c.touch e.forget).length + c.evicted.length ≤ n + 1
    rw [hlength]
    exact h.puts_le.trans (Nat.le_succ n)

theorem get (h : Stands n slot c) (hn : n + 1 < 2 ^ 63) (now : ℕ) (key : K) :
    (slot.cache_get now key).1 = (c.get now key).1 ∧
      Stands (n + 1) (slot.cache_get now key).2 (c.get now key).2 := by
  obtain ⟨l, horder, hheld⟩ := h.order
  unfold Slot.cache_get
  rw [h.seq_eq hn]
  split
  · rename_i hnone
    have hne : ∀ e ∈ c.held, e.key ≠ key := by
      intro e he
      rw [← hheld] at he
      obtain ⟨x, hx, rfl⟩ := List.mem_map.1 he
      exact of_decide_eq_false (List.findIdx?_eq_none_iff.1 hnone x (horder.perm.subset hx))
    rw [Lru.get_of_not_mem hne]
    exact ⟨rfl, h.miss hn⟩
  · rename_i idx hidx
    obtain ⟨a, e, b, hvec, rfl, hkey, -⟩ := Lib.append_of_findIdx? hidx
    obtain rfl : e.key = key := of_decide_eq_true hkey
    have he : e.forget ∈ c.held := h.mem_held (by rw [hvec]; simp)
    have hget : c.get now e.key = _ := Lru.get_of_mem he now
    have hat : slot.vec[a.length]? = some e := by rw [hvec]; simp
    rw [hget, hat]
    dsimp only
    by_cases hexpired : e.expired now = true
    · rw [if_pos hexpired, if_pos (show e.forget.expires_at.any _ = true from hexpired)]
      exact ⟨rfl, (h.expire hn hvec).miss hn⟩
    · rw [if_neg hexpired, if_neg (show ¬e.forget.expires_at.any _ = true from hexpired)]
      exact ⟨rfl, h.hit hn hvec he⟩

end Stands

end Slot

/-! ### Every call -/

section Related

variable {S T : ℤ → Type}

/-- Two registries have the same handles, and related caches for them. -/
structure Related (R : ∀ h, S h → T h → Prop) (r : Registry S) (t : Registry T) : Prop where
  next : r.next = t.next
  keys : r.live.keys = t.live.keys
  slots : ∀ h a b, r.live.lookup h = some a → t.live.lookup h = some b → R h a b

variable {R R' : ∀ h, S h → T h → Prop} {r : Registry S} {t : Registry T}

theorem Related.mono (hr : Related R r t) (h : ∀ h a b, R h a b → R' h a b) : Related R' r t :=
  { hr with slots := fun k a b ha hb => h k a b (hr.slots k a b ha hb) }

theorem Related.insert (hr : Related R r t) {h : ℤ} {a : S h} {b : T h} (hab : R h a b) {next : ℤ} :
    Related R ⟨next, r.live.insert h a⟩ ⟨next, t.live.insert h b⟩ where
  next := rfl
  keys := by rw [AList.keys_insert, AList.keys_insert, hr.keys]
  slots := by
    intro k x y hx hy
    by_cases hk : k = h
    · subst hk
      rw [AList.lookup_insert] at hx hy
      cases hx
      cases hy
      exact hab
    · rw [AList.lookup_insert_ne hk] at hx hy
      exact hr.slots k x y hx hy

theorem Related.erase (hr : Related R r t) (h : ℤ) :
    Related R { r with live := r.live.erase h } { t with live := t.live.erase h } where
  next := hr.next
  keys := by rw [AList.keys_erase, AList.keys_erase, hr.keys]
  slots := by
    intro k x y hx hy
    by_cases hk : k = h
    · subst hk
      rw [AList.lookup_erase] at hx
      cases hx
    · rw [AList.lookup_erase_ne hk] at hx hy
      exact hr.slots k x y hx hy

theorem Related.with_slot {α : Type} (hr : Related R r t) {h : ℤ} {default : α}
    {f : S h → α × S h} {g : T h → α × T h}
    (hfg : ∀ a b, R h a b → (f a).1 = (g b).1 ∧ R' h (f a).2 (g b).2)
    (hmono : ∀ h a b, R h a b → R' h a b) :
    (with_slot r h default f).1 = (with_slot t h default g).1 ∧
      Related R' (with_slot r h default f).2 (with_slot t h default g).2 := by
  have hmem : h ∈ r.live ↔ h ∈ t.live := by rw [AList.mem_keys, AList.mem_keys, hr.keys]
  unfold Cache.with_slot
  cases hx : r.live.lookup h with
  | none =>
    rw [AList.lookup_eq_none, hmem, ← AList.lookup_eq_none] at hx
    rw [hx]
    exact ⟨rfl, hr.mono hmono⟩
  | some a =>
    obtain ⟨b, hy⟩ : ∃ b, t.live.lookup h = some b := by
      rw [← Option.isSome_iff_exists, AList.lookup_isSome, ← hmem, ← AList.lookup_isSome, hx]
      rfl
    rw [hy]
    obtain ⟨hanswer, hnext⟩ := hfg a b (hr.slots h a b hx hy)
    refine ⟨hanswer, ?_⟩
    rw [← hr.next]
    exact (hr.mono hmono).insert hnext

end Related

section Steps

variable {K V : ℤ → Type} {n : ℕ}

/-- The registry stands for the caches after `n` calls. -/
abbrev Simulates (n : ℕ) (r : Slots K V) (t : Caches K V) : Prop := Related (fun _ => Stands n) r t

/-- The handles after `n` calls. -/
structure Numbered (n : ℕ) (r : Slots K V) : Prop where
  pos : 0 ≤ r.next
  le : r.next ≤ n
  live : ∀ h ∈ r.live, h ≤ r.next

theorem numbered_with_slot {α : Type} {r : Slots K V} (hr : Numbered n r) (h : ℤ) (default : α)
    (f : Slot (K h) (V h) → α × Slot (K h) (V h)) : Numbered (n + 1) (with_slot r h default f).2 := by
  have hle : r.next ≤ (n + 1 : ℕ) := hr.le.trans (by omega)
  unfold with_slot
  split
  · rename_i slot hslot
    refine ⟨hr.pos, hle, fun k hk => ?_⟩
    rcases (AList.mem_insert _).1 hk with rfl | hk
    · exact hr.live k (AList.lookup_isSome.1 (by rw [hslot]; rfl))
    · exact hr.live k hk
  · exact ⟨hr.pos, hle, hr.live⟩

theorem next_with_slot {α : Type} (r : Slots K V) (h : ℤ) (default : α)
    (f : Slot (K h) (V h) → α × Slot (K h) (V h)) : (with_slot r h default f).2.next = r.next := by
  unfold with_slot
  split <;> rfl

theorem next_add {r : Slots K V} (hr : Numbered n r) (hn : n + 1 < 2 ^ 63) :
    saturating_add r.next 1 = r.next + 1 := by
  have hpos := hr.pos
  have hle := hr.le
  unfold saturating_add
  exact Lib.saturate_eq (by omega) (by omega)

theorem Caches.make_of_some {t : Caches K V} {cfg : CacheCfg} {e : Str} (h : cfg.refusal = some e) :
    t.make cfg = (.error e, t) := by
  unfold make
  split
  · rename_i e' he
    rw [Option.some.inj (he.symm.trans h)]
  · rename_i hnone
    cases hnone.symm.trans h

theorem Caches.make_of_none {t : Caches K V} {cfg : CacheCfg} (h : cfg.refusal = none) :
    t.make cfg =
      if MAX_LIVE_CACHES ≤ t.live.keys.length then (.error limitReached, t)
      else (.ok (t.next + 1),
        ⟨t.next + 1, t.live.insert (t.next + 1) (.new cfg (cfg.pos_of_refusal h))⟩) := by
  unfold make
  split
  · rename_i e he
    cases h.symm.trans he
  · rfl

theorem simulates_new {r : Slots K V} {t : Caches K V} (hr : Numbered n r) (h : Simulates n r t)
    (hn : n + 1 < 2 ^ 63) (cfg : CacheCfg) :
    (cache_new_raw r cfg).1 = (t.make cfg).1 ∧
      Simulates (n + 1) (cache_new_raw r cfg).2 (t.make cfg).2 := by
  have h' : Simulates (n + 1) r t := h.mono fun _ _ _ hab => hab.mono (Nat.le_succ n)
  have hnext := next_add hr hn
  unfold cache_new_raw
  split
  · rename_i e he
    rw [Caches.make_of_some he]
    exact ⟨rfl, h'⟩
  · rename_i hnone
    rw [Caches.make_of_none hnone, h.keys]
    split_ifs
    · exact ⟨rfl, h'⟩
    · rw [hnext, h.next]
      exact ⟨rfl, h'.insert (.new cfg (cfg.pos_of_refusal hnone))⟩

variable [∀ h, DecidableEq (K h)]

theorem numbered_step {r : Slots K V} (hr : Numbered n r) (hn : n + 1 < 2 ^ 63) (call : Call K V) :
    Numbered (n + 1) (step r call).2 := by
  have hle : r.next ≤ (n + 1 : ℕ) := hr.le.trans (by omega)
  unfold step
  cases call.op with
  | new cfg =>
    dsimp only
    unfold cache_new_raw
    split
    · exact ⟨hr.pos, hle, hr.live⟩
    · split_ifs
      · exact ⟨hr.pos, hle, hr.live⟩
      · rw [next_add hr hn]
        have hpos := hr.pos
        have hle' := hr.le
        refine ⟨by change 0 ≤ r.next + 1; omega, by change r.next + 1 ≤ _; omega, fun k hk => ?_⟩
        rcases (AList.mem_insert _).1 hk with rfl | hk
        · exact le_rfl
        · exact (hr.live k hk).trans (by change r.next ≤ r.next + 1; omega)
  | destroy h => exact ⟨hr.pos, hle, fun k hk => hr.live k (AList.mem_erase.1 hk).2⟩
  | put | get | remove | clear | size | stats => exact numbered_with_slot hr ..

theorem simulates_step {r : Slots K V} {t : Caches K V} (hr : Numbered n r) (h : Simulates n r t)
    (hn : n + 1 < 2 ^ 63) (call : Call K V) :
    (step r call).1 = (Caches.step t call).1 ∧
      Simulates (n + 1) (step r call).2 (Caches.step t call).2 := by
  have hmono : ∀ k (a : Slot (K k) (V k)) (b : Lru (K k) (V k)), Stands n a b → Stands (n + 1) a b :=
    fun _ _ _ hab => hab.mono (Nat.le_succ n)
  unfold step Caches.step
  cases call.op with
  | new cfg =>
    obtain ⟨hanswer, hnext⟩ := simulates_new hr h hn cfg
    exact ⟨congrArg Reply.handle hanswer, hnext⟩
  | put k key value =>
    exact h.with_slot (fun a b hab => ⟨rfl, hab.put hn call.reading key value⟩) hmono
  | get k key =>
    refine h.with_slot (fun a b hab => ?_) hmono
    obtain ⟨hanswer, hnext⟩ := hab.get hn call.reading.now key
    exact ⟨congrArg (Reply.found k) hanswer, hnext⟩
  | remove k key =>
    exact h.with_slot (fun a b hab => ⟨rfl, (hab.remove (Nat.lt_of_succ_lt hn) key).mono (Nat.le_succ n)⟩)
      hmono
  | clear k => exact h.with_slot (fun a b hab => ⟨rfl, hab.clear.mono (Nat.le_succ n)⟩) hmono
  | destroy k => exact ⟨rfl, (h.mono hmono).erase k⟩
  | size k =>
    exact h.with_slot (fun a b hab => ⟨congrArg Reply.size hab.entries, hmono _ a b hab⟩) hmono
  | stats k =>
    refine h.with_slot (fun a b hab => ⟨?_, hmono _ a b hab⟩) hmono
    dsimp only
    unfold Slot.cache_stats Lru.stats
    rw [hab.hits, hab.misses, hab.evictions]

/-! ### Runs -/

theorem numbered_runTo {r : Slots K V} {calls : List (Call K V)} (hr : Numbered n r)
    (hn : n + calls.length < 2 ^ 63) : Numbered (n + calls.length) (runTo step r calls) := by
  induction calls generalizing n r with
  | nil => exact hr
  | cons call calls ih =>
    rw [List.length_cons] at hn
    have hrun := ih (numbered_step hr (by omega) call) (by omega)
    rw [List.length_cons, Nat.add_comm calls.length 1, ← Nat.add_assoc]
    exact hrun

theorem answers_moves {r : Slots K V} {t : Caches K V} {calls : List (Call K V)} (hr : Numbered n r)
    (h : Simulates n r t) (hn : n + calls.length < 2 ^ 63) :
    (moves step r calls).map Move.output = (moves Caches.step t calls).map Move.output := by
  induction calls generalizing n r t with
  | nil => rfl
  | cons call calls ih =>
    rw [List.length_cons] at hn
    obtain ⟨hanswer, hnext⟩ := simulates_step hr h (by omega) call
    have hrest := ih (numbered_step hr (by omega) call) hnext (by omega)
    rw [Lib.moves_cons, Lib.moves_cons, List.map_cons, List.map_cons, hrest]
    exact congrArg (· :: _) hanswer

omit [∀ h, DecidableEq (K h)] in
theorem numbered_empty : Numbered 0 (Registry.empty : Slots K V) :=
  ⟨le_rfl, le_rfl, fun _ h => absurd h (AList.notMem_empty _)⟩

omit [∀ h, DecidableEq (K h)] in
theorem simulates_empty : Simulates 0 (Registry.empty : Slots K V) .empty :=
  ⟨rfl, rfl, fun _ _ _ h _ => by cases h⟩

/-- The handle that a call is about. -/
def Op.handle? : Op K V → Option ℤ
  | .new _ => none
  | .put h _ _ | .get h _ | .remove h _ | .clear h | .destroy h | .size h | .stats h => some h

omit [∀ h, DecidableEq (K h)] in
theorem lookup_with_slot {α : Type} (r : Slots K V) {h k : ℤ} (hk : k ≠ h) (default : α)
    (f : Slot (K h) (V h) → α × Slot (K h) (V h)) :
    (with_slot r h default f).2.live.lookup k = r.live.lookup k := by
  unfold with_slot
  split
  · exact AList.lookup_insert_ne hk
  · rfl

/-- A call leaves the caches that it is not about as they were. -/
theorem apart_step {r : Slots K V} (hr : Numbered n r) (hn : n + 1 < 2 ^ 63) {call : Call K V} {k : ℤ}
    (hlive : k ∈ r.live) (hk : call.op.handle? ≠ some k) :
    (step r call).2.live.lookup k = r.live.lookup k := by
  have hne : ∀ h, call.op.handle? = some h → k ≠ h := by
    rintro h hh rfl
    exact hk hh
  unfold step
  cases hop : call.op with
  | new cfg =>
    dsimp only
    unfold cache_new_raw
    split
    · rfl
    · split_ifs
      · rfl
      · rw [next_add hr hn]
        have hle := hr.live k hlive
        exact AList.lookup_insert_ne (by omega)
  | destroy h => exact AList.lookup_erase_ne (hne h (by rw [hop]; rfl))
  | put h | get h | remove h | clear h | size h | stats h =>
    exact lookup_with_slot r (hne h (by rw [hop]; rfl)) ..

theorem next_step {r : Slots K V} (hr : Numbered n r) (hn : n + 1 < 2 ^ 63) (call : Call K V) :
    r.next ≤ (step r call).2.next ∧
      ∀ h, (step r call).1 = .handle (.ok h) → r.next < h ∧ h = (step r call).2.next := by
  unfold step
  cases call.op with
  | new cfg =>
    dsimp only
    unfold cache_new_raw
    split
    · exact ⟨le_rfl, fun h hh => by cases hh⟩
    · split_ifs
      · exact ⟨le_rfl, fun h hh => by cases hh⟩
      · rw [next_add hr hn]
        refine ⟨by change r.next ≤ r.next + 1; omega, fun h hh => ?_⟩
        cases hh
        exact ⟨by omega, rfl⟩
  | destroy h => exact ⟨le_rfl, fun h hh => by cases hh⟩
  | put | get | remove | clear | size | stats =>
    refine ⟨(next_with_slot ..).ge, fun h hh => ?_⟩
    dsimp only at hh
    unfold with_slot at hh
    split at hh <;> cases hh

theorem next_runTo {r : Slots K V} {calls : List (Call K V)} (hr : Numbered n r)
    (hn : n + calls.length < 2 ^ 63) : r.next ≤ (runTo step r calls).next := by
  induction calls generalizing n r with
  | nil => exact le_rfl
  | cons call calls ih =>
    rw [List.length_cons] at hn
    exact (next_step hr (by omega) call).1.trans (ih (numbered_step hr (by omega) call) (by omega))

/-- A run of the code is a run of bounded maps that drop the key of the oldest use. -/
structure Refines (ms : List (Move (Slots K V) (Call K V) (Reply V)))
    (ts : List (Move (Caches K V) (Call K V) (Reply V))) : Prop where
  answers : ms.map Move.output = ts.map Move.output
  apart : ∀ m ∈ ms, ∀ h ∈ m.before.live, m.input.op.handle? ≠ some h →
    m.after.live.lookup h = m.before.live.lookup h
  fresh : ∀ a m b q c h h', ms = a ++ m :: (b ++ q :: c) → m.output = .handle (.ok h) →
    q.output = .handle (.ok h') → h < h'

/-- The caches of a program answer as bounded lists in the order of use. -/
theorem cache_refines (calls : List (Call K V)) (hlength : calls.length < 2 ^ 63) :
    Refines (moves step .empty calls) (moves Caches.step .empty calls) where
  answers := answers_moves numbered_empty simulates_empty (by omega)
  apart := by
    intro m hm h hlive hne
    obtain ⟨a, b, hms⟩ := List.append_of_mem hm
    obtain ⟨is₁, is', rfl, rfl, htail⟩ := Lib.moves_eq_append hms
    obtain ⟨is₂, rfl, hmove, -⟩ := Lib.moves_eq_cons htail.symm
    rw [List.length_append, List.length_cons] at hlength
    have hnumbered : Numbered (0 + is₁.length) (runTo step (.empty : Slots K V) is₁) :=
      numbered_runTo numbered_empty (by omega)
    rw [hmove] at hlive ⊢
    exact apart_step hnumbered (by omega) hlive hne
  fresh := by
    intro a m b q c h h' hms hm hq
    obtain ⟨is₁, is₂, is₃, rfl, -, hmove, -, hmove'⟩ := Lib.moves_eq_between hms
    simp only [List.length_append, List.length_cons] at hlength
    have hnumbered : Numbered (0 + is₁.length) (runTo step (.empty : Slots K V) is₁) :=
      numbered_runTo numbered_empty (by omega)
    have hnext := (next_step hnumbered (by omega) m.input).2 h (by rw [← hm, hmove]; rfl)
    have hnumbered' := numbered_step hnumbered (by omega) m.input
    have hafter : m.after = (step (runTo step .empty is₁) m.input).2 := congrArg Move.after hmove
    rw [← hafter] at hnext hnumbered'
    have hlater : m.after.next ≤ (runTo step m.after is₂).next := next_runTo hnumbered' (by omega)
    have hnumbered'' : Numbered (0 + is₁.length + 1 + is₂.length) (runTo step m.after is₂) :=
      numbered_runTo hnumbered' (by omega)
    have hlast := (next_step hnumbered'' (by omega) q.input).2 h' (by rw [← hq, hmove']; rfl)
    omega

/-- A cache for two keys and a millisecond: a hit, the drop of the other key, and its miss; then the time of
an entry has come, another one is removed, and the cache is destroyed. -/
def twoKeys : List (Call (fun _ => ℕ) fun _ => Bool) :=
  [⟨⟨0, by decide⟩, .new ⟨2, 1, 0⟩⟩, ⟨⟨0, by decide⟩, .put 1 5 true⟩, ⟨⟨0, by decide⟩, .put 1 6 false⟩,
    ⟨⟨1, by decide⟩, .get 1 5⟩, ⟨⟨2, by decide⟩, .put 1 7 true⟩, ⟨⟨3, by decide⟩, .get 1 6⟩,
    ⟨⟨1000000, by decide⟩, .get 1 5⟩, ⟨⟨1000000, by decide⟩, .remove 1 7⟩,
    ⟨⟨1000000, by decide⟩, .size 1⟩, ⟨⟨1000000, by decide⟩, .stats 1⟩, ⟨⟨1000000, by decide⟩, .destroy 1⟩,
    ⟨⟨1000000, by decide⟩, .get 1 7⟩, ⟨⟨1000000, by decide⟩, .new ⟨2, 1, 0⟩⟩]

theorem cache_refines_two_puts :
    Refines (moves step .empty twoKeys) (moves Caches.step .empty twoKeys) ∧
      (moves step .empty twoKeys).map Move.output =
        [.handle (.ok 1), .done, .done, .found 1 (some true), .done, .found 1 none, .found 1 none, .done,
          .size 0, .stats ⟨1, 2, 1⟩, .done, .found 1 none, .handle (.ok 2)] :=
  ⟨cache_refines _ (by decide), by rfl⟩

end Steps

end IpeLang.Runtime.Cache
