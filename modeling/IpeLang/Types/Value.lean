import IpeLang.Lib.ScopedRow
import IpeLang.Types.Unify

/-!
# Finite types

What the variables of the solver stand for: finite trees over atoms, in which the fields of a
record are one row however they are spread over its extensions.

* `Val.record fs v`: the fields `fs` on top of the row `v`, with `Val.record_eq_record`;
* `HomeOf ι name home h`: a constructor that was written with the home `home` may stand for the
  one of the home `h`, with `conHeadsCompatible_iff`;
* `Val.headOk ι bounds v`: a value that a super-typed variable may stand for.
-/

namespace IpeLang.Types

open IpeLang.Lib

/-- A finite type. -/
inductive Val
  | atom (n : ℕ)
  | fn (arg result : Val)
  | con (home : List Symbol) (name : Symbol) (args : List Val)
  | unit
  | tuple (elems : List Val)
  | row (fields : List (Symbol × Val)) (tail : Val)
  | bare (tail : Val)
  | emptyRecord

namespace Val

def isAtom : Val → Bool
  | .atom _ => true
  | _ => false

def isRow : Val → Bool
  | .row _ _ => true
  | _ => false

/-! ### Rows -/

/-- The fields of a value, and what they lie on. -/
def split : Val → List (Symbol × Val) × Val
  | .row fields tail => (fields, tail)
  | v => ([], v)

/-- The fields on top of a tail. -/
def join : List (Symbol × Val) → Val → Val
  | [], tail => tail
  | fields, tail => .row fields tail

/-- A row has fields, in order, and all of them. -/
structure Canonical (v : Val) : Prop where
  sorted : Row.Sorted v.split.1
  tail : v.split.2.isRow = false
  nonempty : v.isRow = true → v.split.1 ≠ []

variable {v w t : Val} {es : List (Symbol × Val)} {fs fs₁ fs₂ : SortedMap Symbol Val}

theorem canonical_of_not_row (h : v.isRow = false) : Canonical v := by
  have hs : v.split = ([], v) := by
    cases v <;> first | rfl | cases h
  refine ⟨?_, ?_, ?_⟩
  · rw [hs]
    exact List.Pairwise.nil
  · rw [hs]
    exact h
  · simp [h]

theorem split_join (ht : t.isRow = false) : (join es t).split = (es, t) := by
  cases es with
  | nil => cases t <;> first | rfl | cases ht
  | cons p es => rfl

theorem canonical_join (hes : Row.Sorted es) (ht : t.isRow = false) : Canonical (join es t) := by
  refine ⟨?_, ?_, ?_⟩
  · rw [split_join ht]
    exact hes
  · rw [split_join ht]
    exact ht
  · rw [split_join ht]
    rintro hrow rfl
    rw [join, ht] at hrow
    cases hrow

theorem Canonical.join_split (h : Canonical v) : join v.split.1 v.split.2 = v := by
  cases v with
  | row fields tail =>
    have := h.nonempty rfl
    cases fields with
    | nil => exact absurd rfl this
    | cons p fields => rfl
  | _ => rfl

/-- The fields `fs` on top of the row `v`. -/
def record (fs : SortedMap Symbol Val) (v : Val) : Val := join (Row.extend fs v.split.1) v.split.2

theorem Canonical.record (h : Canonical v) (fs : SortedMap Symbol Val) : Canonical (record fs v) :=
  canonical_join (Row.sorted_extend h.sorted fs) h.tail

theorem Canonical.split_record (h : Canonical v) (fs : SortedMap Symbol Val) :
    (Val.record fs v).split = (Row.extend fs v.split.1, v.split.2) := split_join h.tail

theorem entries_eq_nil (h : fs.isEmpty = true) : fs.entries = [] := List.isEmpty_iff.1 h

theorem Canonical.record_of_isEmpty (h : Canonical v) (hfs : fs.isEmpty = true) :
    Val.record fs v = v := by
  rw [Val.record, Row.extend, entries_eq_nil hfs]
  exact h.join_split

theorem extend_ne_nil (hfs : fs.isEmpty = false) (r : List (Symbol × Val)) :
    Row.extend fs r ≠ [] := by
  intro h
  have hperm := Row.extend_perm fs r
  rw [h] at hperm
  have : fs.entries = [] := (List.append_eq_nil_iff.1 hperm.symm.eq_nil).1
  simp [SortedMap.isEmpty, this] at hfs

theorem record_of_nonempty (hfs : fs.isEmpty = false) (v : Val) :
    record fs v = .row (Row.extend fs v.split.1) v.split.2 := by
  rw [record]
  rcases he : Row.extend fs v.split.1 with _ | ⟨p, es⟩
  · exact absurd he (extend_ne_nil hfs _)
  · rfl

/-- Two records are equal when the maps agree where they overlap, and each row takes the fields that
only the other map has over a common rest. -/
theorem record_eq_record (hv : Canonical v) (hw : Canonical w) :
    record fs₁ v = record fs₂ w ↔
      (∀ k x y, fs₁.get? k = some x → fs₂.get? k = some y → x = y) ∧
        ∃ n, Canonical n ∧ v = record (Row.only fs₂ fs₁) n ∧ w = record (Row.only fs₁ fs₂) n := by
  constructor
  · intro h
    have hs := congrArg split h
    rw [hv.split_record, hw.split_record, Prod.mk.injEq] at hs
    obtain ⟨hes, ht⟩ := hs
    obtain ⟨hxy, n, hn, hr, hr'⟩ := (Row.extend_eq_extend hv.sorted hw.sorted).1 hes
    refine ⟨hxy, join n v.split.2, canonical_join hn hv.tail, ?_, ?_⟩
    · rw [record, split_join hv.tail, ← hr, hv.join_split]
    · rw [record, split_join hv.tail, ← hr', ht, hw.join_split]
  · rintro ⟨hxy, n, hn, rfl, rfl⟩
    unfold record
    rw [split_join hn.tail, split_join hn.tail]
    exact congrArg (fun es => join es n.split.2)
      ((Row.extend_eq_extend (Row.sorted_extend hn.sorted _) (Row.sorted_extend hn.sorted _)).2
        ⟨hxy, n.split.1, hn.sorted, rfl, rfl⟩)

/-- The record with the fields `fs` and the extension `v`. -/
def recordOf (fs : SortedMap Symbol Val) (v : Val) : Val :=
  if fs.isEmpty then .bare v else record fs v

/-! ### Sizes -/

theorem sizeOf_perm {l l' : List (Symbol × Val)} (h : l.Perm l') : sizeOf l = sizeOf l' := by
  induction h with
  | nil => rfl
  | cons p _ ih => simp [ih]
  | swap p q l =>
    simp only [List.cons.sizeOf_spec]
    omega
  | trans _ _ ih₁ ih₂ => exact ih₁.trans ih₂

theorem sizeOf_append_entries (l l' : List (Symbol × Val)) :
    sizeOf (l ++ l') + 1 = sizeOf l + sizeOf l' := by
  induction l with
  | nil => simp [Nat.add_comm]
  | cons p l ih =>
    simp only [List.cons_append, List.cons.sizeOf_spec]
    omega

/-- A record is larger than what its fields lie on and than its fields. -/
theorem sizeOf_record (hfs : fs.isEmpty = false) (v : Val) :
    sizeOf fs.entries + sizeOf v ≤ sizeOf (record fs v) + 1 := by
  have hperm := sizeOf_perm (Row.extend_perm fs v.split.1)
  have happ := sizeOf_append_entries fs.entries v.split.1
  have hsplit : sizeOf v ≤ sizeOf v.split.1 + sizeOf v.split.2 + 1 := by
    cases v <;> simp [split] <;> omega
  rw [record_of_nonempty hfs, row.sizeOf_spec]
  omega

theorem sizeOf_lt_record (hfs : fs.isEmpty = false) (v : Val) : sizeOf v < sizeOf (record fs v) := by
  have h := sizeOf_record hfs v
  rcases he : fs.entries with _ | ⟨⟨k, x⟩, l⟩
  · simp [SortedMap.isEmpty, he] at hfs
  · rw [he, List.cons.sizeOf_spec, Prod.mk.sizeOf_spec] at h
    omega

theorem sizeOf_lt_of_mem_values {x : Val} (hx : x ∈ fs.values) (v : Val) :
    sizeOf x < sizeOf (recordOf fs v) := by
  obtain ⟨⟨k, y⟩, hp, rfl⟩ := List.mem_map.1 hx
  have hfs : fs.isEmpty = false := by
    rw [SortedMap.isEmpty, List.isEmpty_eq_false_iff]
    exact List.ne_nil_of_mem hp
  have h := sizeOf_record hfs v
  have hlt := List.sizeOf_lt_of_mem hp
  rw [Prod.mk.sizeOf_spec] at hlt
  rw [recordOf, hfs]
  have hpos : 0 < sizeOf v := by cases v <;> simp
  simp only [Bool.false_eq_true, if_false]
  omega

theorem sizeOf_lt_recordOf (fs : SortedMap Symbol Val) (v : Val) :
    sizeOf v < sizeOf (recordOf fs v) := by
  unfold recordOf
  split_ifs with hfs
  · simp
  · exact sizeOf_lt_record (by simpa using hfs) v

theorem canonical_recordOf {v : Val} (h : Canonical v) (fs : SortedMap Symbol Val) :
    Canonical (recordOf fs v) := by
  unfold recordOf
  split_ifs
  · exact canonical_of_not_row rfl
  · exact h.record fs

end Val

/-! ### Homes -/

/-- A constructor with the home `home` may stand for the one of the home `h`: for itself, and when
the home is empty, for that of any home that the empty one is compatible with. -/
def HomeOf (ι : Interner) (name : Symbol) (home h : List Symbol) : Prop :=
  h = home ∨ home = [] ∧ emptyHomeCompat ι h name = true

variable {ι : Interner} {name n₁ n₂ : Symbol} {m₁ m₂ h : List Symbol}

theorem homeOf_iff_of_ne_nil (hne : m₁ ≠ []) : HomeOf ι name m₁ h ↔ h = m₁ := by
  simp [HomeOf, hne]

/-- Two heads are compatible when they may stand for the same constructor. -/
theorem conHeadsCompatible_iff : conHeadsCompatible ι m₁ n₁ m₂ n₂ = true ↔
    n₁ = n₂ ∧ ∃ h, HomeOf ι n₁ m₁ h ∧ HomeOf ι n₂ m₂ h := by
  simp only [conHeadsCompatible, Bool.and_eq_true, beq_iff_eq, Bool.or_eq_true,
    List.isEmpty_iff]
  refine and_congr_right fun hn => ?_
  subst hn
  constructor
  · rintro ((rfl | ⟨rfl, h⟩) | ⟨rfl, h⟩)
    · exact ⟨m₁, Or.inl rfl, Or.inl rfl⟩
    · exact ⟨m₂, Or.inr ⟨rfl, h⟩, Or.inl rfl⟩
    · exact ⟨m₁, Or.inl rfl, Or.inr ⟨rfl, h⟩⟩
  · rintro ⟨h, rfl | ⟨rfl, h₁⟩, rfl | ⟨rfl, h₂⟩⟩
    · exact Or.inl (Or.inl rfl)
    · exact Or.inr ⟨rfl, h₂⟩
    · exact Or.inl (Or.inr ⟨rfl, h₁⟩)
    · exact Or.inl (Or.inl rfl)

/-- What the merged constructor may stand for. -/
theorem homeOf_merged (hc : conHeadsCompatible ι m₁ name m₂ name = true) :
    HomeOf ι name (if m₁.isEmpty then m₂ else m₁) h ↔ HomeOf ι name m₁ h ∧ HomeOf ι name m₂ h := by
  obtain ⟨-, h', h₁, h₂⟩ := conHeadsCompatible_iff.1 hc
  rcases m₁ with _ | ⟨s, m₁⟩
  · rw [List.isEmpty_nil, if_pos rfl]
    refine ⟨fun hh => ⟨?_, hh⟩, And.right⟩
    rcases m₂ with _ | ⟨s, m₂⟩
    · exact hh
    · rw [homeOf_iff_of_ne_nil (by simp)] at hh h₂
      exact hh ▸ h₂ ▸ h₁
  · rw [List.isEmpty_cons, if_neg (by simp)]
    refine ⟨fun hh => ⟨hh, ?_⟩, And.left⟩
    rw [homeOf_iff_of_ne_nil (by simp)] at hh h₁
    exact hh ▸ h₁ ▸ h₂

/-! ### Super-types -/

/-- The name of a constructor without arguments. -/
def Val.bareName (ι : Interner) : Val → Option String
  | .con _ name [] => ι.resolve name
  | _ => none

/-- Whether a value is a list. -/
def Val.isList (ι : Interner) : Val → Bool
  | .con _ name [_] => ι.resolve name == some "List"
  | _ => false

/-- Whether a value may be that of a variable with the obligations `bounds`, whatever its home. -/
def Val.headOk (ι : Interner) (bounds : TyBounds) (v : Val) : Bool :=
  match v with
  | .atom _ => true
  | .fn _ _ => false
  | v =>
    let prim := v.bareName ι
    (!bounds.hasNumber || primSatisfies NUMBER prim) &&
      (!bounds.hasOrd || primSatisfies ORD_BORROW prim) &&
      (!bounds.hasComparableKey || primSatisfies COMPARABLE_KEY prim) &&
      (!bounds.hasAppend || (primSatisfies APPEND_PRIM prim || v.isList ι))

/-- A merged variable may stand for what both could stand for. -/
theorem Val.headOk_union (b₁ b₂ : TyBounds) (v : Val) :
    v.headOk ι (b₁.union b₂) = (v.headOk ι b₁ && v.headOk ι b₂) := by
  cases v <;> simp only [headOk, TyBounds.hasNumber, TyBounds.hasOrd, TyBounds.hasComparableKey,
    TyBounds.hasAppend, TyBounds.has_union, Bool.and_self]
  all_goals grind

end IpeLang.Types
