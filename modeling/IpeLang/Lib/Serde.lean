import IpeLang.Lib.SortedMap
import IpeLang.Lib.Text
import Mathlib.Data.Char
import Mathlib.Data.List.Lex

/-!
# Values of a self-describing format and typed records

The codecs that are derived for records, numbers, texts, lists and optional values, between typed
values and the values of a format whose objects are keyed by name. An object is a finite map, kept as
its entries in key order. Decoding is lenient in a few places: unknown keys are skipped, a missing
optional field is absent, an integer is accepted for a float, and the fields of a record may come as an
array.

* `decode`, `encode`: the derived codecs;
* `Exact`: the values in which nothing of this leniency is used;
* `encode_decode_iff`: just these are encoded again as they were;
* `exact_encode`: whatever was encoded is exact.
-/

namespace IpeLang.Lib.Serde

/-- A type of the codecs. -/
inductive Ty
  | int
  | float
  | string
  | bool
  | list (t : Ty)
  | option (t : Ty)
  | record (fields : List (Str × Ty))

/-- A value of the format. -/
inductive Value (F : Type)
  | null
  | bool (b : Bool)
  | int (i : ℤ)
  | float (f : F)
  | str (s : Str)
  | arr (items : List (Value F))
  | obj (fields : List (Str × Value F))

/-- A typed value. -/
inductive Val (F : Type)
  | int (i : ℤ)
  | float (f : F)
  | string (s : Str)
  | bool (b : Bool)
  | list (vs : List (Val F))
  | absent
  | present (v : Val F)
  | record (fields : List (Str × Val F))

/-- What the codecs use of floats: the one nearest to an integer, and whether one is a number. -/
structure Floats (F : Type) where
  ofInt : ℤ → F
  finite : F → Bool

/-! ### Entries -/

section Entries

variable {K V : Type} [LinearOrder K]

/-- The value that is bound to a key. -/
def find (entries : List (K × V)) (k : K) : Option V := entries.lookup k

@[simp] theorem find_nil (k : K) : find ([] : List (K × V)) k = none := rfl

theorem find_cons (k' : K) (v : V) (entries : List (K × V)) (k : K) :
    find ((k', v) :: entries) k = if k = k' then some v else find entries k :=
  SortedMap.lookup_cons_ite k k' v entries

theorem exists_find_iff {entries : List (K × V)} {k : K} :
    (∃ v, find entries k = some v) ↔ k ∈ entries.map Prod.fst := by
  induction entries with
  | nil => simp
  | cons e entries ih =>
    obtain ⟨k', v⟩ := e
    rw [find_cons, List.map_cons, List.mem_cons, ← ih]
    by_cases hk : k = k'
    · simp [hk]
    · simp [hk]

theorem mem_of_find {entries : List (K × V)} {k : K} {v : V} (h : find entries k = some v) :
    (k, v) ∈ entries := by
  induction entries with
  | nil => cases h
  | cons e entries ih =>
    obtain ⟨k', v'⟩ := e
    rw [find_cons] at h
    split_ifs at h with hk
    · cases h
      rw [hk]
      exact List.mem_cons_self
    · exact List.mem_cons_of_mem _ (ih h)

theorem find_eq_none_of_not_mem {entries : List (K × V)} {k : K} (h : k ∉ entries.map Prod.fst) :
    find entries k = none := by
  rw [← exists_find_iff] at h
  cases hk : find entries k with
  | none => rfl
  | some v => exact absurd ⟨v, hk⟩ h

/-- Entries in key order are the same when they bind the same. -/
theorem entries_ext {a b : List (K × V)} (ha : a.Pairwise fun p q => p.1 < q.1)
    (hb : b.Pairwise fun p q => p.1 < q.1) (h : ∀ k, find a k = find b k) : a = b := by
  have hget : ∀ k, (⟨a, ha⟩ : SortedMap K V).get? k = (⟨b, hb⟩ : SortedMap K V).get? k := h
  exact congrArg SortedMap.entries (SortedMap.ext_get hget)

theorem find_foldl_insertEntry {entries acc : List (K × V)} (hacc : acc.Pairwise fun p q => p.1 < q.1)
    (h : (entries.map Prod.fst).Nodup) :
    (entries.foldl (fun m e => SortedMap.insertEntry e.1 e.2 m) acc).Pairwise (fun p q => p.1 < q.1) ∧
      ∀ k, find (entries.foldl (fun m e => SortedMap.insertEntry e.1 e.2 m) acc) k =
        (find entries k).or (find acc k) := by
  induction entries generalizing acc with
  | nil => exact ⟨hacc, fun k => rfl⟩
  | cons e entries ih =>
    obtain ⟨k', v⟩ := e
    rw [List.map_cons, List.nodup_cons] at h
    obtain ⟨hsorted, hfind⟩ := ih (SortedMap.insertEntry_sorted hacc) h.2
    refine ⟨hsorted, fun k => ?_⟩
    have hinsert : find (SortedMap.insertEntry k' v acc) k = if k = k' then some v else find acc k :=
      SortedMap.lookup_insertEntry k' k v acc hacc
    rw [List.foldl_cons, hfind, find_cons, hinsert]
    by_cases hk : k = k'
    · subst hk
      rw [if_pos rfl, if_pos rfl, find_eq_none_of_not_mem h.1]
      rfl
    · rw [if_neg hk, if_neg hk]

end Entries

variable {F : Type} (fl : Floats F)

/-- The integers of 64 bits. -/
def InRange (i : ℤ) : Prop := -2 ^ 63 ≤ i ∧ i < 2 ^ 63

instance decidableInRange (i : ℤ) : Decidable (InRange i) := inferInstanceAs (Decidable (_ ∧ _))

/-! ### Codecs -/

/-- The value of a field that is not there. -/
def missing : Ty → Option (Val F)
  | .option _ => some .absent
  | _ => none

mutual

def decode : Ty → Value F → Option (Val F)
  | .int, .int i => if InRange i then some (.int i) else none
  | .float, .int i => some (.float (fl.ofInt i))
  | .float, .float f => some (.float f)
  | .string, .str s => some (.string s)
  | .bool, .bool b => some (.bool b)
  | .list t, .arr items => (items.mapM (decode t)).map .list
  | .option _, .null => some .absent
  | .option t, j => (decode t j).map .present
  | .record fields, .obj entries => (decodeFields fields entries).map .record
  | .record fields, .arr items => (decodeSeq fields items).map .record
  | _, _ => none

/-- The fields of a record from the entries of an object. -/
def decodeFields : List (Str × Ty) → List (Str × Value F) → Option (List (Str × Val F))
  | [], _ => some []
  | (name, t) :: fields, entries =>
    (match find entries name with
      | some j => decode t j
      | none => missing t).bind fun v =>
        (decodeFields fields entries).map ((name, v) :: ·)

/-- The fields of a record from the items of an array. -/
def decodeSeq : List (Str × Ty) → List (Value F) → Option (List (Str × Val F))
  | [], [] => some []
  | (name, t) :: fields, j :: items =>
    (decode t j).bind fun v => (decodeSeq fields items).map ((name, v) :: ·)
  | _, _ => none

end

/-- An object of some entries, of which a later one replaces an earlier one. -/
def toObject (entries : List (Str × Value F)) : List (Str × Value F) :=
  entries.foldl (fun m e => SortedMap.insertEntry e.1 e.2 m) []

mutual

def encode : Val F → Value F
  | .int i => .int i
  | .float f => if fl.finite f then .float f else .null
  | .string s => .str s
  | .bool b => .bool b
  | .list vs => .arr (encodeAll vs)
  | .absent => .null
  | .present v => encode v
  | .record fields => .obj (toObject (encodeFields fields))

def encodeAll : List (Val F) → List (Value F)
  | [] => []
  | v :: vs => encode v :: encodeAll vs

def encodeFields : List (Str × Val F) → List (Str × Value F)
  | [] => []
  | (name, v) :: fields => (name, encode v) :: encodeFields fields

end

/-! ### Well-formed types and values -/

mutual

/-- The fields of a record have different names. -/
def Ty.Wf : Ty → Prop
  | .list t => t.Wf
  | .option t => t.Wf
  | .record fields => (fields.map Prod.fst).Nodup ∧ WfFields fields
  | _ => True

def WfFields : List (Str × Ty) → Prop
  | [] => True
  | (_, t) :: fields => t.Wf ∧ WfFields fields

end

/-- The entries of objects are in key order, and floats are numbers. -/
inductive Canonical : Value F → Prop
  | null : Canonical .null
  | bool {b : Bool} : Canonical (.bool b)
  | int {i : ℤ} : Canonical (.int i)
  | float {f : F} (h : fl.finite f = true) : Canonical (.float f)
  | str {s : Str} : Canonical (.str s)
  | arr {items : List (Value F)} (h : ∀ j ∈ items, Canonical j) : Canonical (.arr items)
  | obj {entries : List (Str × Value F)} (hsorted : entries.Pairwise fun p q => p.1 < q.1)
      (h : ∀ e ∈ entries, Canonical e.2) : Canonical (.obj entries)

mutual

/-- A value of a type. -/
inductive HasType : Ty → Val F → Prop
  | int {i : ℤ} (h : InRange i) : HasType .int (.int i)
  | float {f : F} : HasType .float (.float f)
  | string {s : Str} : HasType .string (.string s)
  | bool {b : Bool} : HasType .bool (.bool b)
  | list {t : Ty} {vs : List (Val F)} (h : ∀ v ∈ vs, HasType t v) : HasType (.list t) (.list vs)
  | absent {t : Ty} : HasType (.option t) .absent
  | present {t : Ty} {v : Val F} (h : HasType t v) : HasType (.option t) (.present v)
  | record {fields : List (Str × Ty)} {vs : List (Str × Val F)} (h : HasFields fields vs) :
      HasType (.record fields) (.record vs)

inductive HasFields : List (Str × Ty) → List (Str × Val F) → Prop
  | nil : HasFields [] []
  | cons {name : Str} {t : Ty} {v : Val F} {fields : List (Str × Ty)} {vs : List (Str × Val F)}
      (hv : HasType t v) (h : HasFields fields vs) : HasFields ((name, t) :: fields) ((name, v) :: vs)

end

/-- No integer stands for a float, no array for a record, and an object has just the keys of its
record. -/
inductive Exact : Ty → Value F → Prop
  | int {i : ℤ} : Exact .int (.int i)
  | float {f : F} : Exact .float (.float f)
  | string {s : Str} : Exact .string (.str s)
  | bool {b : Bool} : Exact .bool (.bool b)
  | list {t : Ty} {items : List (Value F)} (h : ∀ j ∈ items, Exact t j) : Exact (.list t) (.arr items)
  | null {t : Ty} : Exact (.option t) .null
  | option {t : Ty} {j : Value F} (h : Exact t j) : Exact (.option t) j
  | record {fields : List (Str × Ty)} {entries : List (Str × Value F)}
      (hknown : ∀ e ∈ entries, e.1 ∈ fields.map Prod.fst)
      (hthere : ∀ p ∈ fields, find entries p.1 ≠ none)
      (h : ∀ p ∈ fields, ∀ j, find entries p.1 = some j → Exact p.2 j) : Exact (.record fields) (.obj entries)

/-! ### Objects -/

theorem toObject_sorted {entries : List (Str × Value F)} (h : (entries.map Prod.fst).Nodup) :
    (toObject entries).Pairwise fun p q => p.1 < q.1 :=
  (find_foldl_insertEntry List.Pairwise.nil h).1

theorem find_toObject {entries : List (Str × Value F)} (h : (entries.map Prod.fst).Nodup) (k : Str) :
    find (toObject entries) k = find entries k := by
  unfold toObject
  rw [(find_foldl_insertEntry List.Pairwise.nil h).2, find_nil, Option.or_none]

variable {fl}

theorem encodeAll_eq (vs : List (Val F)) : encodeAll fl vs = vs.map (encode fl) := by
  induction vs with
  | nil => rfl
  | cons v vs ih => rw [encodeAll, ih, List.map_cons]

theorem map_fst_encodeFields (vs : List (Str × Val F)) : (encodeFields fl vs).map Prod.fst = vs.map Prod.fst := by
  induction vs with
  | nil => rfl
  | cons p vs ih =>
    obtain ⟨name, v⟩ := p
    rw [encodeFields, List.map_cons, List.map_cons, ih]

theorem find_encodeFields (vs : List (Str × Val F)) (k : Str) :
    find (encodeFields fl vs) k = (find vs k).map (encode fl) := by
  induction vs with
  | nil => rfl
  | cons p vs ih =>
    obtain ⟨name, v⟩ := p
    rw [encodeFields, find_cons, find_cons, ih]
    split_ifs <;> rfl

/-- The object of a record binds the encoded fields. -/
theorem find_encode_record {vs : List (Str × Val F)} (h : (vs.map Prod.fst).Nodup) (k : Str) :
    find (toObject (encodeFields fl vs)) k = (find vs k).map (encode fl) := by
  rw [find_toObject (by rwa [map_fst_encodeFields]), find_encodeFields]

theorem encode_record_sorted {vs : List (Str × Val F)} (h : (vs.map Prod.fst).Nodup) :
    (toObject (encodeFields fl vs)).Pairwise fun p q => p.1 < q.1 :=
  toObject_sorted (by rwa [map_fst_encodeFields])

/-! ### Decoding and encoding again -/

/-- What the fields of a record are decoded from. -/
theorem decodeFields_spec {fields : List (Str × Ty)} {entries : List (Str × Value F)}
    {vs : List (Str × Val F)} (h : decodeFields fl fields entries = some vs) :
    vs.map Prod.fst = fields.map Prod.fst ∧ ((fields.map Prod.fst).Nodup → ∀ p ∈ fields,
      ∃ v, find vs p.1 = some v ∧ ∀ j, find entries p.1 = some j → decode fl p.2 j = some v) := by
  induction fields generalizing vs with
  | nil =>
    cases h
    exact ⟨rfl, fun _ p hp => absurd hp List.not_mem_nil⟩
  | cons p fields ih =>
    obtain ⟨name, t⟩ := p
    rw [decodeFields, Option.bind_eq_some_iff] at h
    obtain ⟨v, hv, h⟩ := h
    rw [Option.map_eq_some_iff] at h
    obtain ⟨vs, hvs, rfl⟩ := h
    obtain ⟨hnames, hfields⟩ := ih hvs
    refine ⟨by rw [List.map_cons, List.map_cons, hnames], fun hnodup p hp => ?_⟩
    rw [List.map_cons, List.nodup_cons] at hnodup
    rcases List.mem_cons.1 hp with rfl | hp
    · refine ⟨v, by rw [find_cons, if_pos rfl], fun j hj => ?_⟩
      rwa [show find entries name = some j from hj] at hv
    · obtain ⟨v', hfind, hdecode⟩ := hfields hnodup.2 p hp
      refine ⟨v', ?_, hdecode⟩
      have hmem : p.1 ∈ fields.map Prod.fst := List.mem_map_of_mem hp
      have hne : p.1 ≠ name := fun heq => hnodup.1 (heq ▸ hmem)
      rw [find_cons, if_neg hne, hfind]

/-- The items of a list, when each of them is encoded again as it was just where it is exact. -/
theorem map_encode_iff {t : Ty} (hiff : ∀ {j v}, Canonical fl j → decode fl t j = some v →
    (encode fl v = j ↔ Exact t j)) {items : List (Value F)} {vs : List (Val F)}
    (hcanon : ∀ j ∈ items, Canonical fl j) (h : items.mapM (decode fl t) = some vs) :
    vs.map (encode fl) = items ↔ ∀ j ∈ items, Exact t j := by
  induction items generalizing vs with
  | nil =>
    cases h
    simp
  | cons j items ih =>
    rw [List.mapM_cons] at h
    obtain ⟨v, hv, h⟩ := Option.bind_eq_some_iff.1 h
    obtain ⟨vs, hvs, h⟩ := Option.bind_eq_some_iff.1 h
    cases h
    have hcanon := List.forall_mem_cons.1 hcanon
    rw [List.map_cons, List.cons.injEq, hiff hcanon.1 hv, ih hcanon.2 hvs, List.forall_mem_cons]

theorem exact_option_iff {t : Ty} {j : Value F} (hj : j ≠ .null) : Exact (.option t) j ↔ Exact t j := by
  refine ⟨fun h => ?_, .option⟩
  cases h with
  | null => exact absurd rfl hj
  | option h => exact h

theorem decode_option {t : Ty} {j : Value F} (hj : j ≠ .null) :
    decode fl (.option t) j = (decode fl t j).map .present := by
  cases j with
  | null => exact absurd rfl hj
  | _ => rfl

/-- The fields of a record, when each of them is encoded again as it was just where it is exact. -/
theorem encode_record_iff {fields : List (Str × Ty)} (hnodup : (fields.map Prod.fst).Nodup)
    (hiff : ∀ p ∈ fields, ∀ {j v}, Canonical fl j → decode fl p.2 j = some v → (encode fl v = j ↔ Exact p.2 j))
    {entries : List (Str × Value F)} {vs : List (Str × Val F)} (hcanon : Canonical fl (.obj entries))
    (h : decodeFields fl fields entries = some vs) :
    encode fl (.record vs) = .obj entries ↔ Exact (.record fields) (.obj entries) := by
  obtain ⟨hnames, hfields⟩ := decodeFields_spec h
  have hfields := hfields hnodup
  have hvs : (vs.map Prod.fst).Nodup := by rwa [hnames]
  obtain ⟨hsorted, hentries⟩ : entries.Pairwise (fun p q => p.1 < q.1) ∧ ∀ e ∈ entries, Canonical fl e.2 := by
    cases hcanon with
    | obj hsorted h => exact ⟨hsorted, h⟩
  have hcanonical : ∀ {k j}, find entries k = some j → Canonical fl j := fun hj => hentries _ (mem_of_find hj)
  rw [encode, Value.obj.injEq]
  constructor
  · rintro rfl
    refine .record (fun e he => ?_) (fun p hp => ?_) fun p hp j hj => ?_
    · obtain ⟨j, hj⟩ := exists_find_iff.2 (List.mem_map_of_mem (f := Prod.fst) he)
      rw [find_encode_record hvs, Option.map_eq_some_iff] at hj
      obtain ⟨v, hv, -⟩ := hj
      rw [← hnames]
      exact exists_find_iff.1 ⟨v, hv⟩
    · obtain ⟨v, hv, -⟩ := hfields p hp
      rw [find_encode_record hvs, hv]
      exact Option.some_ne_none _
    · obtain ⟨v, hv, hdecode⟩ := hfields p hp
      refine (hiff p hp (hcanonical hj) (hdecode j hj)).1 ?_
      rw [find_encode_record hvs, hv] at hj
      exact Option.some.inj hj
  · intro hexact
    cases hexact with
    | record hknown hthere hexact =>
      refine entries_ext (encode_record_sorted hvs) hsorted fun k => ?_
      rw [find_encode_record hvs]
      by_cases hk : k ∈ fields.map Prod.fst
      · obtain ⟨p, hp, rfl⟩ := List.mem_map.1 hk
        obtain ⟨v, hv, hdecode⟩ := hfields p hp
        obtain ⟨j, hj⟩ := Option.ne_none_iff_exists'.1 (hthere p hp)
        rw [hv, hj, Option.map_some, (hiff p hp (hcanonical hj) (hdecode j hj)).2 (hexact p hp j hj)]
      · have hnot : k ∉ entries.map Prod.fst := fun hmem => by
          obtain ⟨e, he, rfl⟩ := List.mem_map.1 hmem
          exact hk (hknown e he)
        rw [find_eq_none_of_not_mem hnot, find_eq_none_of_not_mem (by rwa [hnames]), Option.map_none]

mutual

/-- What was decoded is encoded again as it was, just where it was exact. -/
theorem encode_decode_iff : ∀ (t : Ty), t.Wf → ∀ {j : Value F} {v : Val F}, Canonical fl j →
    decode fl t j = some v → (encode fl v = j ↔ Exact t j)
  | .int, _, j, v, _, h => by
    cases j with
    | int i =>
      rw [decode] at h
      split_ifs at h
      cases h
      exact iff_of_true rfl .int
    | _ => simp [decode] at h
  | .float, _, j, v, hj, h => by
    cases j with
    | int i =>
      rw [decode] at h
      cases h
      -- An integer is taken for a float, but a float is not written as an integer.
      refine iff_of_false (fun heq => ?_) fun hexact => by cases hexact
      rw [encode] at heq
      split_ifs at heq
    | float f =>
      rw [decode] at h
      cases h
      cases hj with
      | float hfinite =>
        refine iff_of_true ?_ .float
        rw [encode, if_pos hfinite]
    | _ => simp [decode] at h
  | .string, _, j, v, _, h => by
    cases j with
    | str s =>
      rw [decode] at h
      cases h
      exact iff_of_true rfl .string
    | _ => simp [decode] at h
  | .bool, _, j, v, _, h => by
    cases j with
    | bool b =>
      rw [decode] at h
      cases h
      exact iff_of_true rfl .bool
    | _ => simp [decode] at h
  | .list t, hwf, j, v, hj, h => by
    cases j with
    | arr items =>
      rw [decode, Option.map_eq_some_iff] at h
      obtain ⟨vs, hvs, rfl⟩ := h
      cases hj with
      | arr hitems =>
        have hiff := map_encode_iff (encode_decode_iff t hwf) hitems hvs
        rw [encode, encodeAll_eq, Value.arr.injEq, hiff]
        refine ⟨.list, fun hexact => ?_⟩
        cases hexact with
        | list h => exact h
    | _ => simp [decode] at h
  | .option t, hwf, j, v, hj, h => by
    by_cases hnull : j = .null
    · subst hnull
      rw [decode] at h
      cases h
      exact iff_of_true rfl .null
    · rw [decode_option hnull, Option.map_eq_some_iff] at h
      obtain ⟨v, hv, rfl⟩ := h
      rw [exact_option_iff hnull, encode]
      exact encode_decode_iff t hwf hj hv
  | .record fields, hwf, j, v, hj, h => by
    cases j with
    | obj entries =>
      rw [decode, Option.map_eq_some_iff] at h
      obtain ⟨vs, hvs, rfl⟩ := h
      exact encode_record_iff hwf.1 (encode_decode_fields_iff fields hwf.2) hj hvs
    | arr items =>
      rw [decode, Option.map_eq_some_iff] at h
      obtain ⟨vs, -, rfl⟩ := h
      -- A record is also taken from an array, and written as an object.
      exact iff_of_false (fun heq => by rw [encode] at heq; cases heq) fun hexact => by cases hexact
    | _ => simp [decode] at h

theorem encode_decode_fields_iff : ∀ (fields : List (Str × Ty)), WfFields fields → ∀ p ∈ fields,
    ∀ {j : Value F} {v : Val F}, Canonical fl j → decode fl p.2 j = some v → (encode fl v = j ↔ Exact p.2 j)
  | [], _, p, hp, _, _, _, _ => absurd hp List.not_mem_nil
  | (name, t) :: fields, hwf, p, hp, j, v, hj, h => by
    rcases List.mem_cons.1 hp with rfl | hp
    · exact encode_decode_iff t hwf.1 hj h
    · exact encode_decode_fields_iff fields hwf.2 p hp hj h

end

/-! ### Encoded values -/

theorem hasFields_spec {fields : List (Str × Ty)} {vs : List (Str × Val F)} (h : HasFields fields vs) :
    vs.map Prod.fst = fields.map Prod.fst ∧ ((fields.map Prod.fst).Nodup → ∀ p ∈ fields,
      ∃ v, find vs p.1 = some v ∧ HasType p.2 v) := by
  induction fields generalizing vs with
  | nil =>
    cases h
    exact ⟨rfl, fun _ p hp => absurd hp List.not_mem_nil⟩
  | cons p fields ih =>
    cases h with
    | @cons name t v _ vs hv h =>
      obtain ⟨hnames, hfields⟩ := ih h
      refine ⟨by rw [List.map_cons, List.map_cons, hnames], fun hnodup p hp => ?_⟩
      rw [List.map_cons, List.nodup_cons] at hnodup
      rcases List.mem_cons.1 hp with rfl | hp
      · exact ⟨v, by rw [find_cons, if_pos rfl], hv⟩
      · obtain ⟨v', hfind, hv'⟩ := hfields hnodup.2 p hp
        have hmem : p.1 ∈ fields.map Prod.fst := List.mem_map_of_mem hp
        have hne : p.1 ≠ name := fun heq => hnodup.1 (heq ▸ hmem)
        exact ⟨v', by rw [find_cons, if_neg hne, hfind], hv'⟩

theorem wf_of_mem {fields : List (Str × Ty)} (h : WfFields fields) : ∀ p ∈ fields, p.2.Wf := by
  induction fields with
  | nil => exact fun p hp => absurd hp List.not_mem_nil
  | cons p fields ih =>
    obtain ⟨name, t⟩ := p
    exact List.forall_mem_cons.2 ⟨h.1, ih h.2⟩

/-- The encoding of a record, when those of its fields are canonical. -/
theorem canonical_encode_record {fields : List (Str × Ty)} (hnodup : (fields.map Prod.fst).Nodup)
    (hcanon : ∀ p ∈ fields, ∀ {v}, HasType p.2 v → Canonical fl (encode fl v)) {vs : List (Str × Val F)}
    (h : HasFields fields vs) : Canonical fl (encode fl (.record vs)) := by
  obtain ⟨hnames, hfields⟩ := hasFields_spec h
  have hvs : (vs.map Prod.fst).Nodup := by rwa [hnames]
  have hsorted : (toObject (encodeFields fl vs)).Pairwise fun p q => p.1 < q.1 := encode_record_sorted hvs
  refine .obj hsorted fun e he => ?_
  have hfind : find (toObject (encodeFields fl vs)) e.1 = some e.2 := (SortedMap.lookup_eq_some hsorted).2 he
  rw [find_encode_record hvs, Option.map_eq_some_iff] at hfind
  obtain ⟨v, hv, heq⟩ := hfind
  have hmem := exists_find_iff.1 ⟨v, hv⟩
  rw [hnames] at hmem
  obtain ⟨p, hp, hpe⟩ := List.mem_map.1 hmem
  obtain ⟨v', hv', htype⟩ := hfields hnodup p hp
  rw [hpe, hv] at hv'
  cases hv'
  exact heq ▸ hcanon p hp htype

mutual

theorem canonical_encode : ∀ (t : Ty), t.Wf → ∀ {v : Val F}, HasType t v → Canonical fl (encode fl v)
  | .int, _, v, h => by
    cases h
    exact .int
  | .float, _, v, h => by
    cases h
    rw [encode]
    split_ifs with hfinite
    · exact .float hfinite
    · exact .null
  | .string, _, v, h => by
    cases h
    exact .str
  | .bool, _, v, h => by
    cases h
    exact .bool
  | .list t, hwf, v, h => by
    cases h with
    | list h =>
      rw [encode, encodeAll_eq]
      exact .arr (List.forall_mem_map.2 fun v hv => canonical_encode t hwf (h v hv))
  | .option t, hwf, v, h => by
    cases h with
    | absent => exact .null
    | present h =>
      rw [encode]
      exact canonical_encode t hwf h
  | .record fields, hwf, v, h => by
    cases h with
    | record h => exact canonical_encode_record hwf.1 (canonical_encode_fields fields hwf.2) h

theorem canonical_encode_fields : ∀ (fields : List (Str × Ty)), WfFields fields → ∀ p ∈ fields,
    ∀ {v : Val F}, HasType p.2 v → Canonical fl (encode fl v)
  | [], _, p, hp, _, _ => absurd hp List.not_mem_nil
  | (name, t) :: fields, hwf, p, hp, v, h => by
    rcases List.mem_cons.1 hp with rfl | hp
    · exact canonical_encode t hwf.1 h
    · exact canonical_encode_fields fields hwf.2 p hp h

end

theorem exists_decode_of_mapM {t : Ty} {items : List (Value F)} {vs : List (Val F)}
    (h : items.mapM (decode fl t) = some vs) : ∀ j ∈ items, ∃ v, decode fl t j = some v := by
  induction items generalizing vs with
  | nil => exact fun j hj => absurd hj List.not_mem_nil
  | cons j items ih =>
    rw [List.mapM_cons] at h
    obtain ⟨v, hv, h⟩ := Option.bind_eq_some_iff.1 h
    obtain ⟨vs, hvs, -⟩ := Option.bind_eq_some_iff.1 h
    exact List.forall_mem_cons.2 ⟨⟨v, hv⟩, ih hvs⟩

/-- The encoding of a record is exact, when those of its fields that can be decoded are. -/
theorem exact_encode_record {fields : List (Str × Ty)} (hnodup : (fields.map Prod.fst).Nodup)
    (hexact : ∀ p ∈ fields, ∀ {v v'}, HasType p.2 v → decode fl p.2 (encode fl v) = some v' →
      Exact p.2 (encode fl v)) {vs vs' : List (Str × Val F)} (h : HasFields fields vs)
    (hdecode : decodeFields fl fields (toObject (encodeFields fl vs)) = some vs') :
    Exact (.record fields) (.obj (toObject (encodeFields fl vs))) := by
  obtain ⟨hnames, hfields⟩ := hasFields_spec h
  have hvs : (vs.map Prod.fst).Nodup := by rwa [hnames]
  have hdecoded := (decodeFields_spec hdecode).2 hnodup
  refine .record (fun e he => ?_) (fun p hp => ?_) fun p hp j hj => ?_
  · obtain ⟨j, hj⟩ := exists_find_iff.2 (List.mem_map_of_mem (f := Prod.fst) he)
    rw [find_encode_record hvs, Option.map_eq_some_iff] at hj
    obtain ⟨v, hv, -⟩ := hj
    rw [← hnames]
    exact exists_find_iff.1 ⟨v, hv⟩
  · obtain ⟨v, hv, -⟩ := hfields hnodup p hp
    rw [find_encode_record hvs, hv]
    exact Option.some_ne_none _
  · obtain ⟨v, hv, htype⟩ := hfields hnodup p hp
    obtain ⟨v', -, hdec⟩ := hdecoded p hp
    have hj' := hj
    rw [find_encode_record hvs, hv] at hj'
    cases hj'
    exact hexact p hp htype (hdec _ hj)

mutual

/-- What was encoded is exact, if it can be decoded at all. -/
theorem exact_encode : ∀ (t : Ty), t.Wf → ∀ {v v' : Val F}, HasType t v →
    decode fl t (encode fl v) = some v' → Exact t (encode fl v)
  | .int, _, v, _, h, _ => by
    cases h
    exact .int
  | .float, _, v, _, h, hdecode => by
    cases h
    rw [encode] at hdecode ⊢
    split_ifs at hdecode ⊢
    · exact .float
    · simp [decode] at hdecode
  | .string, _, v, _, h, _ => by
    cases h
    exact .string
  | .bool, _, v, _, h, _ => by
    cases h
    exact .bool
  | .list t, hwf, v, _, h, hdecode => by
    cases h with
    | list h =>
      rw [encode, encodeAll_eq] at hdecode ⊢
      rw [decode, Option.map_eq_some_iff] at hdecode
      obtain ⟨vs', hvs', -⟩ := hdecode
      have hdecoded := exists_decode_of_mapM hvs'
      refine .list (List.forall_mem_map.2 fun v hv => ?_)
      obtain ⟨v', hv'⟩ := hdecoded _ (List.mem_map_of_mem hv)
      exact exact_encode t hwf (h v hv) hv'
  | .option t, hwf, v, _, h, hdecode => by
    cases h with
    | absent => exact .null
    | @present _ v h =>
      rw [encode] at hdecode ⊢
      by_cases hnull : encode fl v = .null
      · rw [hnull]
        exact .null
      · rw [decode_option hnull, Option.map_eq_some_iff] at hdecode
        obtain ⟨v', hv', -⟩ := hdecode
        exact .option (exact_encode t hwf h hv')
  | .record fields, hwf, v, _, h, hdecode => by
    cases h with
    | record h =>
      rw [encode] at hdecode ⊢
      rw [decode, Option.map_eq_some_iff] at hdecode
      obtain ⟨vs', hvs', -⟩ := hdecode
      exact exact_encode_record hwf.1 (exact_encode_fields fields hwf.2) h hvs'

theorem exact_encode_fields : ∀ (fields : List (Str × Ty)), WfFields fields → ∀ p ∈ fields,
    ∀ {v v' : Val F}, HasType p.2 v → decode fl p.2 (encode fl v) = some v' → Exact p.2 (encode fl v)
  | [], _, p, hp, _, _, _, _ => absurd hp List.not_mem_nil
  | (name, t) :: fields, hwf, p, hp, v, v', h, hdecode => by
    rcases List.mem_cons.1 hp with rfl | hp
    · exact exact_encode t hwf.1 h hdecode
    · exact exact_encode_fields fields hwf.2 p hp h hdecode

end

end IpeLang.Lib.Serde
