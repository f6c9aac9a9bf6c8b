import IpeLang.Lib.Serde

/-!
# Restoring a session over a new model

`reconstruct` of `runtime/rust/src/web/additive.rs`: the persisted object is laid over the encoded
initial model, key by key, and the result is decoded as a model.

* `merge_additive`, `reconstruct`: the code; the reader of the body is a parameter;
* `Restored`: the model is encoded as what was persisted, and as the initial one elsewhere;
* `reconstruct_restored_iff`: it is, just where every persisted value is exact for its field.
-/

namespace IpeLang.Runtime.Additive

open Lib (Str SortedMap)
open Lib.Serde

variable {F : Type} (fl : Floats F)

def MAX_ADDITIVE_BODY_BYTES : ℕ := 64 * 1024 * 1024

/-- A value as a reader gives it. -/
abbrev Parsed (F : Type) (fl : Floats F) := { j : Value F // Canonical fl j }

/-- The live object with every key of the persisted one overlaid, if it has all of them. -/
def merge_additive (persisted live : Value F) : Option (Value F) :=
  match persisted, live with
  | .obj persisted_obj, .obj live_obj =>
    if persisted_obj.all fun e => (find live_obj e.1).isSome then
      some (.obj (persisted_obj.foldl (fun m e => SortedMap.insertEntry e.1 e.2 m) live_obj))
    else none
  | _, _ => none

/-- Restore a model of type `t` from a persisted body and the initial model. -/
def reconstruct (from_slice : List UInt8 → Option (Parsed F fl)) (t : Ty) (persisted_body : List UInt8)
    (init_model : Val F) : Option (Val F) :=
  if MAX_ADDITIVE_BODY_BYTES < persisted_body.length then none
  else
    (from_slice persisted_body).bind fun persisted =>
      (merge_additive persisted.1 (encode fl init_model)).bind (decode fl t)

/-! ### The overlay -/

/-- The value of a key of an object. -/
def field (j : Value F) (k : Str) : Option (Value F) :=
  match j with
  | .obj entries => find entries k
  | _ => none

/-- The type of a field of a model. -/
def fieldTy : Ty → Str → Option Ty
  | .record fields, k => find fields k
  | .option t, k => fieldTy t k
  | _, _ => none

variable {fl}

theorem merge_additive_spec {persisted live merged : Value F} (hp : Canonical fl persisted)
    (hl : Canonical fl live) (h : merge_additive persisted live = some merged) :
    ∃ entries, merged = .obj entries ∧ Canonical fl merged ∧
      (∀ k, field merged k = (field persisted k).or (field live k)) ∧
      ∀ k, field live k = none → field persisted k = none := by
  cases hp with
  | @obj persisted_obj hpsorted hpentries =>
    cases hl with
    | @obj live_obj hlsorted hlentries =>
      unfold merge_additive at h
      dsimp only at h
      split_ifs at h with hall
      cases h
      have hnodup : (persisted_obj.map Prod.fst).Nodup :=
        (List.pairwise_map.2 hpsorted).imp fun hlt => hlt.ne
      obtain ⟨hsorted, hfind⟩ := find_foldl_insertEntry hlsorted hnodup
      refine ⟨_, rfl, .obj hsorted fun e he => ?_, hfind, fun k hk => ?_⟩
      · have he := (hfind e.1).symm.trans ((SortedMap.lookup_eq_some hsorted).2 he)
        rw [Option.or_eq_some_iff] at he
        rcases he with he | ⟨-, he⟩
        · exact hpentries _ (mem_of_find he)
        · exact hlentries _ (mem_of_find he)
      · refine find_eq_none_of_not_mem fun hmem => ?_
        obtain ⟨e, he, rfl⟩ := List.mem_map.1 hmem
        have hsome := List.all_eq_true.1 hall e he
        rw [show find live_obj e.1 = none from hk] at hsome
        cases hsome
    | _ => cases h
  | _ => cases h

/-- A model whose initial value is encoded as an object is a record, maybe an optional one. -/
theorem record_of_obj : ∀ (t : Ty), t.Wf → ∀ {init : Val F} {base : List (Str × Value F)}, HasType t init →
    encode fl init = .obj base → ∃ fields vs, (Ty.record fields).Wf ∧ HasFields fields vs ∧
      base = toObject (encodeFields fl vs) ∧ (∀ k, fieldTy t k = find fields k) ∧
      ∀ entries, (Exact t (.obj entries) ↔ Exact (.record fields) (.obj entries)) ∧
        ∀ m, decode fl t (.obj entries) = some m →
          ∃ vs', decodeFields fl fields entries = some vs' ∧ encode fl m = encode fl (.record vs')
  | .record fields, hwf, init, base, htype, hinit => by
    cases htype with
    | @record _ vs h =>
      rw [encode, Value.obj.injEq] at hinit
      refine ⟨fields, vs, hwf, h, hinit.symm, fun k => rfl, fun entries => ⟨Iff.rfl, fun m hm => ?_⟩⟩
      rw [decode, Option.map_eq_some_iff] at hm
      obtain ⟨vs', hvs', rfl⟩ := hm
      exact ⟨vs', hvs', rfl⟩
  | .option t, hwf, init, base, htype, hinit => by
    cases htype with
    | absent => cases hinit
    | present h =>
      rw [encode] at hinit
      obtain ⟨fields, vs, hfields, hvs, hbase, hty, hentries⟩ := record_of_obj t hwf h hinit
      refine ⟨fields, vs, hfields, hvs, hbase, hty, fun entries => ⟨?_, fun m hm => ?_⟩⟩
      · rw [exact_option_iff (by simp)]
        exact (hentries entries).1
      · rw [decode_option (by simp), Option.map_eq_some_iff] at hm
        obtain ⟨v, hv, rfl⟩ := hm
        rw [encode]
        exact (hentries entries).2 v hv
  | .int, _, _, _, htype, hinit => by cases htype; cases hinit
  | .float, _, _, _, htype, hinit => by
    cases htype
    rw [encode] at hinit
    split_ifs at hinit
  | .string, _, _, _, htype, hinit => by cases htype; cases hinit
  | .bool, _, _, _, htype, hinit => by cases htype; cases hinit
  | .list t, _, _, _, htype, hinit => by cases htype; cases hinit

theorem reconstruct_spec {from_slice : List UInt8 → Option (Parsed F fl)} {t : Ty} {body : List UInt8}
    {init m : Val F} {persisted : Parsed F fl} (hbody : from_slice body = some persisted)
    (h : reconstruct fl from_slice t body init = some m) :
    ∃ merged, merge_additive persisted.1 (encode fl init) = some merged ∧ decode fl t merged = some m := by
  unfold reconstruct at h
  split_ifs at h
  rw [hbody, Option.bind_some, Option.bind_eq_some_iff] at h
  exact h

/-- The overlay is exact just where the persisted values are: the initial ones always are. -/
theorem exact_overlay_iff {fields : List (Str × Ty)} (hwf : (Ty.record fields).Wf) {vs vs' : List (Str × Val F)}
    (hvs : HasFields fields vs) {persisted entries : List (Str × Value F)}
    (hdecode : decodeFields fl fields entries = some vs')
    (hfind : ∀ k, find entries k = (find persisted k).or (find (toObject (encodeFields fl vs)) k))
    (hsub : ∀ k, find (toObject (encodeFields fl vs)) k = none → find persisted k = none) :
    Exact (.record fields) (.obj entries) ↔
      ∀ k tk j, find persisted k = some j → find fields k = some tk → Exact tk j := by
  obtain ⟨hnames, hfields⟩ := hasFields_spec hvs
  have hfields := hfields hwf.1
  have hnodup : (vs.map Prod.fst).Nodup := by
    rw [hnames]
    exact hwf.1
  have hdecoded := (decodeFields_spec hdecode).2 hwf.1
  constructor
  · intro hexact k tk j hj hk
    cases hexact with
    | record _ _ h =>
      refine h (k, tk) (mem_of_find hk) j ?_
      rw [hfind, hj]
      rfl
  · intro hexact
    refine .record (fun e he => ?_) (fun p hp => ?_) fun p hp j hj => ?_
    · obtain ⟨j, hj⟩ := exists_find_iff.2 (List.mem_map_of_mem (f := Prod.fst) he)
      have hlive : find (toObject (encodeFields fl vs)) e.1 ≠ none := fun hnone => by
        rw [hfind, hsub _ hnone, hnone] at hj
        cases hj
      obtain ⟨j', hj'⟩ := Option.ne_none_iff_exists'.1 hlive
      rw [find_encode_record hnodup, Option.map_eq_some_iff] at hj'
      obtain ⟨v, hv, -⟩ := hj'
      rw [← hnames]
      exact exists_find_iff.1 ⟨v, hv⟩
    · obtain ⟨v, hv, -⟩ := hfields p hp
      rw [hfind, find_encode_record hnodup, hv]
      cases find persisted p.1 <;> exact Option.some_ne_none _
    · obtain ⟨tk, htk⟩ := exists_find_iff.2 (List.mem_map_of_mem (f := Prod.fst) hp)
      have hsame : (p.1, tk) = p := List.inj_on_of_nodup_map hwf.1 (mem_of_find htk) hp rfl
      have hty : find fields p.1 = some p.2 := by
        rw [htk, ← hsame]
      cases hpersisted : find persisted p.1 with
      | some j' =>
        have hj' := hj
        rw [hfind, hpersisted] at hj'
        cases hj'
        exact hexact p.1 p.2 j hpersisted hty
      | none =>
        -- an initial value: it was encoded, and it could be decoded
        obtain ⟨v, hv, htype⟩ := hfields p hp
        obtain ⟨v', -, hdec⟩ := hdecoded p hp
        have hj' := hj
        rw [hfind, hpersisted, find_encode_record hnodup, hv] at hj'
        cases hj'
        exact exact_encode p.2 (wf_of_mem hwf.2 p hp) htype (hdec _ hj)

/-! ### Restored models -/

/-- A restored model: the persisted value of each persisted key, and the initial value of every other. -/
def Restored (fl : Floats F) (persisted : Value F) (init m : Val F) : Prop :=
  ∀ k, field (encode fl m) k = (field persisted k).or (field (encode fl init) k)

/-- What is reconstructed is restored just where every persisted value is exact for its field. -/
theorem reconstruct_restored_iff {from_slice : List UInt8 → Option (Parsed F fl)} {t : Ty} (hwf : t.Wf)
    {body : List UInt8} {init m : Val F} (htype : HasType t init) {persisted : Parsed F fl}
    (hbody : from_slice body = some persisted) (h : reconstruct fl from_slice t body init = some m) :
    Restored fl persisted.1 init m ↔
      ∀ k tk j, field persisted.1 k = some j → fieldTy t k = some tk → Exact tk j := by
  obtain ⟨merged, hmerge, hdecode⟩ := reconstruct_spec hbody h
  have hlive : Canonical fl (encode fl init) := canonical_encode t hwf htype
  obtain ⟨entries, rfl, hcanon, hfind, hsub⟩ := merge_additive_spec persisted.2 hlive hmerge
  obtain ⟨persisted_obj, hpobj⟩ : ∃ persisted_obj, persisted.1 = .obj persisted_obj := by
    cases hp : persisted.1 with
    | obj fields => exact ⟨fields, rfl⟩
    | _ => rw [hp] at hmerge; cases hmerge
  obtain ⟨base, hbase⟩ : ∃ base, encode fl init = .obj base := by
    cases hi : encode fl init with
    | obj fields => exact ⟨fields, rfl⟩
    | _ => rw [hi, hpobj] at hmerge; cases hmerge
  rw [hpobj, hbase] at hfind hsub
  obtain ⟨fields, vs, hfields, hvs, rfl, hty, hrecord⟩ := record_of_obj t hwf htype hbase
  obtain ⟨hexact, hdecoded⟩ := hrecord entries
  obtain ⟨vs', hvs', hm⟩ := hdecoded m hdecode
  have hnodup : (vs'.map Prod.fst).Nodup := by
    rw [(decodeFields_spec hvs').1]
    exact hfields.1
  have hsorted : entries.Pairwise fun p q => p.1 < q.1 := by
    cases hcanon with
    | obj hsorted _ => exact hsorted
  have hrestored : Restored fl persisted.1 init m ↔ encode fl m = .obj entries := by
    unfold Restored
    rw [hpobj, hbase, hm, encode, Value.obj.injEq]
    constructor
    · intro hfields
      exact entries_ext (encode_record_sorted hnodup) hsorted fun k => (hfields k).trans (hfind k).symm
    · intro heq k
      rw [heq]
      exact hfind k
  rw [hrestored, encode_decode_iff t hwf hcanon hdecode, hexact, exact_overlay_iff hfields hvs hvs' hfind hsub, hpobj]
  simp only [hty]
  rfl

/-! ### A nested field that was removed -/

/-- A model of one record of one integer. -/
def nestedTy : Ty := .record [(['p'], .record [(['a'], .int)])]

/-- The initial model. -/
def nestedInit : Val ℤ := .record [(['p'], .record [(['a'], .int 0)])]

/-- Integers in the place of floats. -/
def integers : Floats ℤ := ⟨id, fun _ => true⟩

/-- A persisted object of a record with these fields. -/
def nested (fields : List (Str × Value ℤ)) : Value ℤ := .obj [(['p'], .obj fields)]

/-- A reader of one body. -/
def readOnly (body : List UInt8) (j : Parsed ℤ integers) : List UInt8 → Option (Parsed ℤ integers) :=
  fun bytes => if bytes = body then some j else none

/-- The text of a persisted model whose record had another field. -/
def removedBody : List UInt8 := "\x7b\"p\":\x7b\"a\":1,\"b\":2\x7d\x7d".toList.map fun c => c.val.toUInt8

/-- The text of a persisted model of the same fields. -/
def keptBody : List UInt8 := "\x7b\"p\":\x7b\"a\":1\x7d\x7d".toList.map fun c => c.val.toUInt8

theorem canonical_nested {fields : List (Str × Value ℤ)} (hsorted : fields.Pairwise fun p q => p.1 < q.1)
    (h : ∀ e ∈ fields, Canonical integers e.2) : Canonical integers (nested fields) :=
  .obj (List.pairwise_singleton _ _) (List.forall_mem_singleton.2 (.obj hsorted h))

theorem canonical_removed : Canonical integers (nested [(['a'], .int 1), (['b'], .int 2)]) := by
  refine canonical_nested (List.pairwise_pair.2 (by decide)) ?_
  simp only [List.forall_mem_cons]
  exact ⟨.int, .int, by simp⟩

theorem wf_nestedTy : nestedTy.Wf := by simp [nestedTy, Ty.Wf, WfFields]

theorem hasType_nestedInit : HasType nestedTy nestedInit :=
  .record (.cons (.record (.cons (.int (by decide)) .nil)) .nil)

/-- A field of a nested record is dropped, and the model is restored nevertheless. -/
theorem nested_removal_drops : HasType nestedTy nestedInit ∧
    ∃ m, reconstruct integers (readOnly removedBody ⟨_, canonical_removed⟩) nestedTy removedBody nestedInit = some m ∧
      ¬ Restored integers (nested [(['a'], .int 1), (['b'], .int 2)]) nestedInit m := by
  have hm : reconstruct integers (readOnly removedBody ⟨_, canonical_removed⟩) nestedTy removedBody nestedInit =
      some (.record [(['p'], .record [(['a'], .int 1)])]) := by
    unfold reconstruct readOnly
    rw [if_neg (by decide), if_pos rfl]
    rfl
  refine ⟨hasType_nestedInit, _, hm, fun hrestored => ?_⟩
  have hfield := hrestored ['p']
  have hleft : field (encode integers (.record [(['p'], .record [(['a'], .int 1)])])) ['p'] =
      some (.obj [(['a'], .int 1)]) := rfl
  rw [hleft] at hfield
  cases hfield

/-- A record that kept its fields is restored. -/
theorem reconstruct_restored_iff_nested : ∃ m, Restored integers (nested [(['a'], .int 1)]) nestedInit m := by
  have hcanon : Canonical integers (nested [(['a'], .int 1)]) :=
    canonical_nested (List.pairwise_singleton _ _) (List.forall_mem_singleton.2 .int)
  have hm : reconstruct integers (readOnly keptBody ⟨_, hcanon⟩) nestedTy keptBody nestedInit =
      some (.record [(['p'], .record [(['a'], .int 1)])]) := by
    unfold reconstruct readOnly
    rw [if_neg (by decide), if_pos rfl]
    rfl
  refine ⟨_, (reconstruct_restored_iff wf_nestedTy hasType_nestedInit (if_pos rfl) hm).2 fun k tk j hj hk => ?_⟩
  have hkey := mem_of_find hj
  obtain ⟨rfl, rfl⟩ := Prod.mk.inj (List.mem_singleton.1 hkey)
  cases hk
  refine .record (List.forall_mem_singleton.2 (by simp)) (List.forall_mem_singleton.2 ?_)
    (List.forall_mem_singleton.2 fun j hj => ?_)
  · exact Option.some_ne_none _
  · cases hj
    exact .int

end IpeLang.Runtime.Additive
