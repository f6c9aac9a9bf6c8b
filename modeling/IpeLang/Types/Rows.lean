import IpeLang.Types.ReadRun

/-!
# The rows of records

The fields of a record may be spread over a chain: the record, what its extension stands for, and so
on. `field_access_state` of `types/src/lib.rs` looks a field up in a record, and `zonk` reads it back.

* `fieldAccessState`: the lookup, with the tables of the built-in types;
* `InRow`, `EndsIn`: the fields along the chain, and its end;
* `rows_faithful_iff`: the two look at the first record of the chain, so they are right exactly where the
  rest adds nothing (`Complete`).
-/

namespace IpeLang.Types

open IpeLang.Lib

/-! ### Fields of built-in types -/

/-- A constructor without arguments. -/
def nullary (name : Symbol) : Content := .struct (.con [] name [])

/-- The fields of an opaque type of requests, and whether a field is a dictionary. -/
structure RequestFields where
  con : Symbol
  string : Symbol
  dict : Symbol
  fields : SortedMap Symbol Bool

/-- The fields of the request of a web session, kept in the same way. -/
abbrev WebReqFields := RequestFields

def RequestFields.fieldVar (t : RequestFields) (uf : UnionFind Content) (field : Symbol) :
    DResult (Option VarId × UnionFind Content) :=
  match t.fields.get? field with
  | none => .ok (none, uf)
  | some false => do
    let (v, uf) ← uf.fresh (nullary t.string)
    .ok (some v, uf)
  | some true => do
    let (k, uf) ← uf.fresh (nullary t.string)
    let (v, uf) ← uf.fresh (nullary t.string)
    let (d, uf) ← uf.fresh (.struct (.con [] t.dict [k, v]))
    .ok (some d, uf)

inductive ErrFieldTy
  | str
  | listStr
  | maybeErrorDetails

/-- The fields of the opaque types of errors. -/
structure ErrorRecordFields where
  panicinfo : Symbol
  typeinfo : Symbol
  errorinfo : Symbol
  string : Symbol
  list : Symbol
  maybe : Symbol
  errordetails : Symbol
  fields : Symbol → Symbol → Option ErrFieldTy

def ErrorRecordFields.owns (t : ErrorRecordFields) (con : Symbol) : Bool :=
  con == t.panicinfo || con == t.typeinfo || con == t.errorinfo

def ErrorRecordFields.fieldVar (t : ErrorRecordFields) (uf : UnionFind Content) (con field : Symbol) :
    DResult (Option VarId × UnionFind Content) :=
  match t.fields con field with
  | none => .ok (none, uf)
  | some .str => do
    let (v, uf) ← uf.fresh (nullary t.string)
    .ok (some v, uf)
  | some .listStr => do
    let (s, uf) ← uf.fresh (nullary t.string)
    let (l, uf) ← uf.fresh (.struct (.con [] t.list [s]))
    .ok (some l, uf)
  | some .maybeErrorDetails => do
    let (d, uf) ← uf.fresh (nullary t.errordetails)
    let (m, uf) ← uf.fresh (.struct (.con [] t.maybe [d]))
    .ok (some m, uf)

structure BuiltinFieldTables where
  req : RequestFields
  webReq : WebReqFields
  err : ErrorRecordFields

/-! ### Looking a field up -/

inductive FieldState
  | deferred
  | found (v : VarId)
  | growOpen
  | missing
  deriving DecidableEq

def foundOrMissing : Option VarId × UnionFind Content → FieldState × UnionFind Content
  | (some v, uf) => (.found v, uf)
  | (none, uf) => (.missing, uf)

/-- What the representative of a base says of a field. -/
def fieldAccessState (uf : UnionFind Content) (tables : BuiltinFieldTables) (root : VarId) (field : Symbol) :
    DResult (FieldState × UnionFind Content) := do
  match ← uf.rootContent root with
  | .struct (.record fields ext) =>
    match fields.get? field with
    | some v => .ok (.found v, uf)
    | none =>
      let (extRoot, uf) ← uf.find ext
      let c ← uf.rootContent extRoot
      .ok (if c = .flex then .growOpen else .missing, uf)
  | .struct (.con _ name args) =>
    if name = tables.req.con ∧ args = [] then foundOrMissing <$> tables.req.fieldVar uf field
    else if name = tables.webReq.con ∧ args = [] then foundOrMissing <$> tables.webReq.fieldVar uf field
    else if tables.err.owns name = true ∧ args = [] then foundOrMissing <$> tables.err.fieldVar uf name field
    else .ok (.missing, uf)
  | .flex => .ok (.deferred, uf)
  | _ => .ok (.missing, uf)

/-- The field is there, or the row can still take it. -/
def FieldState.finds : FieldState → Bool
  | .found _ => true
  | .growOpen => true
  | .deferred => false
  | .missing => false

/-! ### Chains -/

variable {S : Store} {v ext c e : VarId} {f : Symbol} {fs : SortedMap Symbol VarId}

/-- The field is in the record or, where the record does not have it, in what its extension stands for. -/
inductive InRow (S : Store) : VarId → Symbol → VarId → Prop
  | head {v ext c : VarId} {f : Symbol} {fs : SortedMap Symbol VarId}
      (hd : S.desc v = some (.struct (.record fs ext))) (hf : fs.get? f = some c) : InRow S v f c
  | tail {v ext c : VarId} {f : Symbol} {fs : SortedMap Symbol VarId}
      (hd : S.desc v = some (.struct (.record fs ext))) (hf : fs.get? f = none) (h : InRow S ext f c) : InRow S v f c

def Content.isRecord : Content → Bool
  | .struct (.record _ _) => true
  | _ => false

/-- The chain ends with the variable. -/
inductive EndsIn (S : Store) : VarId → VarId → Prop
  | stop {v : VarId} {d : Content} (hd : S.desc v = some d) (hrecord : d.isRecord = false) : EndsIn S v v
  | step {v ext e : VarId} {fs : SortedMap Symbol VarId} (hd : S.desc v = some (.struct (.record fs ext)))
      (h : EndsIn S ext e) : EndsIn S v e

theorem inRow_iff (hd : S.desc v = some (.struct (.record fs ext))) :
    InRow S v f c ↔ fs.get? f = some c ∨ fs.get? f = none ∧ InRow S ext f c := by
  constructor
  · rintro (⟨hd', hf⟩ | ⟨hd', hf, h⟩)
    · cases hd.symm.trans hd'
      exact Or.inl hf
    · cases hd.symm.trans hd'
      exact Or.inr ⟨hf, h⟩
  · rintro (hf | ⟨hf, h⟩)
    · exact .head hd hf
    · exact .tail hd hf h

theorem endsIn_iff (hd : S.desc v = some (.struct (.record fs ext))) : EndsIn S v e ↔ EndsIn S ext e := by
  constructor
  · rintro (⟨hd', hrecord⟩ | ⟨hd', h⟩)
    · cases hd.symm.trans hd'
      cases hrecord
    · cases hd.symm.trans hd'
      exact h
  · exact .step hd

theorem not_inRow {d : Content} (hd : S.desc v = some d) (hrecord : d.isRecord = false) : ¬ InRow S v f c := by
  rintro (⟨hd', -⟩ | ⟨hd', -, -⟩)
  · cases hd.symm.trans hd'
    cases hrecord
  · cases hd.symm.trans hd'
    cases hrecord

theorem endsIn_self {d : Content} (hd : S.desc v = some d) (hrecord : d.isRecord = false) :
    EndsIn S v e ↔ e = v := by
  constructor
  · rintro (_ | ⟨hd', -⟩)
    · rfl
    · cases hd.symm.trans hd'
      cases hrecord
  · rintro rfl
    exact .stop hd hrecord

/-- The row of the record can still take fields. -/
def OpenRow (S : Store) (v : VarId) : Prop := ∃ e, EndsIn S v e ∧ S.desc e = some .flex

/-- What the extension stands for adds no field to the record and, where it is a record, takes none. -/
def Complete (S : Store) (fs : SortedMap Symbol VarId) (ext : VarId) : Prop :=
  ∀ d, S.desc ext = some d → d.isRecord = true → (∀ f c, InRow S ext f c → fs.get? f ≠ none) ∧ ¬ OpenRow S ext

/-- A record is read back with the fields of its row, and a field is found where it is one of them or the row
can take it. -/
structure Faithful (uf : UnionFind Content) (hS : WellFounded (Child uf.view)) (v : VarId) : Prop where
  read : ∀ n budget ty uf' budget', zonkBound uf.view ≤ n → zonk n uf budget v = .ok (ty, uf', budget') →
    ∃ fields, ty = .record fields .closed ∧ (fields.map Prod.fst).Pairwise (· < ·) ∧
      ∀ f t, (f, t) ∈ fields ↔ ∃ c, InRow uf.view v f c ∧ t = readBack hS c
  access : ∀ tables f, ∃ st uf', fieldAccessState uf tables (uf.view.root v) f = .ok (st, uf') ∧
    (st.finds = true ↔ (∃ c, InRow uf.view v f c) ∨ OpenRow uf.view v)

section Faithful

variable {uf : UnionFind Content}

/-- The lookup in a record sees its own fields, and whether its extension is unbound. -/
theorem fieldAccessState_record (hsc : Scoped uf.view) (hd : uf.view.desc v = some (.struct (.record fs ext)))
    (tables : BuiltinFieldTables) (f : Symbol) :
    ∃ st uf', fieldAccessState uf tables (uf.view.root v) f = .ok (st, uf') ∧
      (st.finds = true ↔ fs.get? f ≠ none ∨ uf.view.desc ext = some .flex) := by
  obtain ⟨d, hcontent, hd'⟩ := UnionFind.rootContent_spec (uf.view.lt_of_desc hd)
  cases hd.symm.trans hd'
  unfold fieldAccessState
  rw [hcontent]
  cases hf : fs.get? f with
  | some c =>
    refine ⟨.found c, uf, ?_, by simp [FieldState.finds]⟩
    show (match fs.get? f with | some v => _ | none => _) = _
    rw [hf]
  | none =>
    have hext : ext < uf.view.size := hsc v _ hd ext (by simp [Content.children, FlatType.children])
    obtain ⟨uf', hfind, hview⟩ := UnionFind.find_spec hext
    obtain ⟨c, hcontent', hc⟩ := UnionFind.rootContent_spec (show ext < uf'.view.size from hview ▸ hext)
    rw [hview] at hcontent' hc
    refine ⟨if c = .flex then .growOpen else .missing, uf', ?_, ?_⟩
    · show (match fs.get? f with | some v => _ | none => _) = _
      rw [hf]
      show (uf.find ext >>= _) = _
      rw [hfind]
      show (uf'.rootContent (uf.view.root ext) >>= _) = _
      rw [hcontent']
      rfl
    · rw [hc]
      by_cases hflex : c = .flex
      · simp [hflex, FieldState.finds]
      · simp [hflex, FieldState.finds]

/-- The read-back of a record has its own fields. -/
theorem readBack_record (hS : WellFounded (Child S)) (hd : S.desc v = some (.struct (.record fs ext))) :
    ∃ fields, readBack hS v = .record fields .closed ∧ (fields.map Prod.fst).Pairwise (· < ·) ∧
      ∀ f t, (f, t) ∈ fields ↔ ∃ c, fs.get? f = some c ∧ t = readBack hS c := by
  have hzip : fs.keys.zip (fs.values.map (readBack hS)) = fs.entries.map fun p => (p.1, readBack hS p.2) := by
    unfold SortedMap.keys SortedMap.values
    rw [List.map_map, List.zip_map']
    rfl
  refine ⟨fs.keys.zip (fs.values.map (readBack hS)), readBack_struct hS hd, ?_, ?_⟩
  · rw [hzip, List.map_map]
    exact fs.keys_sorted
  · intro f t
    rw [hzip, List.mem_map]
    constructor
    · rintro ⟨⟨f', c⟩, hmem, heq⟩
      cases heq
      exact ⟨c, SortedMap.get?_eq_some.2 hmem, rfl⟩
    · rintro ⟨c, hc, rfl⟩
      exact ⟨(f, c), SortedMap.get?_eq_some.1 hc, rfl⟩

/-- A map of fields does not have all of them. -/
theorem exists_get?_eq_none (fs : SortedMap Symbol VarId) : ∃ f, fs.get? f = none := by
  obtain ⟨f, hf⟩ := Infinite.exists_notMem_finset fs.keys.toFinset
  refine ⟨f, ?_⟩
  by_contra hne
  obtain ⟨c, hc⟩ := Option.ne_none_iff_exists'.1 hne
  exact hf (List.mem_toFinset.2 (SortedMap.mem_keys.2 ⟨c, hc⟩))

theorem openRow_iff (hd : S.desc v = some (.struct (.record fs ext))) : OpenRow S v ↔ OpenRow S ext := by
  unfold OpenRow
  simp only [endsIn_iff hd]

/-- Where the rest adds nothing, the row has the fields of the record. -/
theorem Complete.inRow_iff (h : Complete S fs ext) (hext : ext < S.size)
    (hd : S.desc v = some (.struct (.record fs ext))) : InRow S v f c ↔ fs.get? f = some c := by
  rw [Types.inRow_iff hd]
  constructor
  · rintro (hf | ⟨hf, hrow⟩)
    · exact hf
    · obtain ⟨d, hd'⟩ := S.exists_desc hext
      by_cases hrecord : d.isRecord = true
      · exact absurd hf ((h d hd' hrecord).1 f c hrow)
      · exact absurd hrow (not_inRow hd' (by simpa using hrecord))
  · exact Or.inl

/-- Where the rest adds nothing, the row takes fields exactly if the extension is unbound. -/
theorem Complete.openRow_iff (h : Complete S fs ext) (hext : ext < S.size) :
    OpenRow S ext ↔ S.desc ext = some .flex := by
  obtain ⟨d, hd⟩ := S.exists_desc hext
  by_cases hrecord : d.isRecord = true
  · constructor
    · intro hopen
      exact absurd hopen (h d hd hrecord).2
    · intro hflex
      cases hd.symm.trans hflex
      cases hrecord
  · unfold OpenRow
    simp only [endsIn_self hd (by simpa using hrecord), exists_eq_left]

/-- A record is read back and looked up by its row exactly where the rest of the chain adds nothing to it. -/
theorem rows_faithful_iff (hsc : Scoped uf.view) (hS : WellFounded (Child uf.view))
    (hd : uf.view.desc v = some (.struct (.record fs ext))) : Faithful uf hS v ↔ Complete uf.view fs ext := by
  have hext : ext < uf.view.size := hsc v _ hd ext (by simp [Content.children, FlatType.children])
  constructor
  · intro h d hd' hrecord
    have hflex : uf.view.desc ext ≠ some .flex := by
      intro hflex
      cases hd'.symm.trans hflex
      cases hrecord
    -- the lookup only has the fields of the record, since its extension is bound
    have haccess : ∀ f, (∃ c, InRow uf.view v f c) ∨ OpenRow uf.view v → fs.get? f ≠ none := by
      intro f hfinds
      let tables : BuiltinFieldTables :=
        ⟨⟨0, 0, 0, .empty⟩, ⟨0, 0, 0, .empty⟩, ⟨0, 0, 0, 0, 0, 0, 0, fun _ _ => none⟩⟩
      obtain ⟨st, uf', hst, hiff⟩ := h.access tables f
      obtain ⟨st', uf'', hst', hiff'⟩ := fieldAccessState_record hsc hd tables f
      cases hst.symm.trans hst'
      exact (hiff'.1 (hiff.2 hfinds)).resolve_right hflex
    constructor
    · intro f c hrow hf
      exact haccess f (Or.inl ⟨c, .tail hd hf hrow⟩) hf
    · intro hopen
      obtain ⟨f, hf⟩ := exists_get?_eq_none fs
      exact haccess f (Or.inr ((openRow_iff hd).2 hopen)) hf
  · intro h
    constructor
    · intro n budget ty uf' budget' hn hzonk
      obtain ⟨fields, hread, hsorted, hmem⟩ := readBack_record hS hd
      refine ⟨fields, ?_, hsorted, ?_⟩
      · rcases zonk_reads hsc hS (uf.view.lt_of_desc hd) hn budget with ⟨_, _, hok⟩ | ⟨e, herror, -⟩
        · cases hzonk.symm.trans hok
          exact hread
        · cases hzonk.symm.trans herror
      · intro f t
        simp only [hmem, h.inRow_iff hext hd]
    · intro tables f
      obtain ⟨st, uf', hst, hiff⟩ := fieldAccessState_record hsc hd tables f
      refine ⟨st, uf', hst, ?_⟩
      rw [hiff, openRow_iff hd, h.openRow_iff hext]
      simp only [h.inRow_iff hext hd, Option.ne_none_iff_exists']

end Faithful

/-! ### Records that share an extension -/

/-- Two records with the extension `0`, and a closed record with one field more than the first. -/
def sharedTail : UnionFind Content :=
  .ofContents [.flex, .rigid, .struct (.record ⟨[(0, 1)], by decide⟩ 0), .struct (.record ⟨[(1, 1)], by decide⟩ 0),
    .struct (.record ⟨[(0, 1), (2, 1)], by decide⟩ 5), .struct .emptyRecord]

/-- The store after the first record was unified with the closed one. -/
def boundTail : UnionFind Content :=
  match unify 5 sharedTail .unbounded ⟨[]⟩ .dummy 2 4 with
  | .ok (uf, _) => uf
  | .error _ => sharedTail

/-- The height of a class of the store. -/
def boundTailHeight : VarId → ℕ
  | 0 => 1
  | 1 => 0
  | 5 => 0
  | 6 => 1
  | _ => 2

theorem lt_of_child_boundTail {v : VarId} {d : Content} (hd : boundTail.view.desc v = some d) :
    ∀ c ∈ d.children, c < 7 ∧ boundTailHeight (boundTail.view.root c) < boundTailHeight v := by
  have hv : v < 7 := boundTail.view.lt_of_desc hd
  interval_cases v <;> cases hd <;> decide

theorem wellFounded_boundTail : WellFounded (Child boundTail.view) := by
  refine Subrelation.wf ?_ (measure boundTailHeight).wf
  rintro r v ⟨d, hd, c, hc, rfl⟩
  exact (lt_of_child_boundTail hd c hc).2

theorem scoped_boundTail : Scoped boundTail.view := fun _ _ hd c hc => (lt_of_child_boundTail hd c hc).1

/-- The second record has the field `2` through the extension, but is read back without it, and the field is
not found. -/
theorem bound_tail_hides_fields :
    unify 5 sharedTail .unbounded ⟨[]⟩ .dummy 2 4 = .ok (boundTail, .unbounded) ∧
      ¬ Faithful boundTail wellFounded_boundTail 3 := by
  refine ⟨rfl, fun h => ?_⟩
  let tables : BuiltinFieldTables :=
    ⟨⟨0, 0, 0, .empty⟩, ⟨0, 0, 0, .empty⟩, ⟨0, 0, 0, 0, 0, 0, 0, fun _ _ => none⟩⟩
  obtain ⟨st, uf', hst, hiff⟩ := h.access tables 2
  have hrow : InRow boundTail.view 3 2 1 := .tail rfl rfl (.head (v := 0) rfl rfl)
  cases hst
  exact absurd (hiff.2 (Or.inl ⟨1, hrow⟩)) (by decide)

/-- A record whose extension is the closed end. -/
theorem rows_faithful_iff_closed : Faithful boundTail wellFounded_boundTail 4 := by
  have hd : boundTail.view.desc 4 = some (.struct (.record ⟨[(0, 1), (2, 1)], by decide⟩ 5)) := rfl
  refine (rows_faithful_iff scoped_boundTail wellFounded_boundTail hd).2 ?_
  intro d hd' hrecord
  cases hd'
  cases hrecord

end IpeLang.Types
