import Mathlib.Data.Nat.Notation
import Mathlib.Logic.Relation

/-!
# Patterns and the values that they match

Patterns over any type of heads, and the values that are made of the same heads.

* `Pat`, `Tree`: a pattern is a wildcard or a head applied to patterns, and a value a head applied to
  values or a leaf that no pattern looks into;
* `Pat.accepts`, `Pat.acceptsAll`: a value matches a pattern, and a list of values one of patterns;
* `Signature`: which heads a type has, with the types of what they are applied to;
* `HasTy`, `PatTy`: typed values and patterns.
-/

namespace IpeLang.Lib

/-- A pattern: a wildcard, or a head applied to patterns. -/
inductive Pat (H : Type)
  | Wild
  | Ctor (head : H) (args : List (Pat H))

/-- A value: a head applied to values, or a value that no pattern looks into. -/
inductive Tree (H S : Type)
  | node (head : H) (args : List (Tree H S))
  | leaf (s : S)

namespace Pat

section Accepts

variable {H S : Type} [DecidableEq H]

mutual

/-- A pattern accepts a value. -/
def accepts : Pat H → Tree H S → Bool
  | .Wild, _ => true
  | .Ctor _ _, .leaf _ => false
  | .Ctor h ps, .node h' vs => decide (h = h') && acceptsAll ps vs

/-- Patterns accept values one by one. -/
def acceptsAll : List (Pat H) → List (Tree H S) → Bool
  | [], [] => true
  | [], _ :: _ => false
  | _ :: _, [] => false
  | p :: ps, v :: vs => p.accepts v && acceptsAll ps vs

end

@[simp] theorem accepts_wild (v : Tree H S) : (Pat.Wild : Pat H).accepts v = true := by
  cases v <;> rfl

@[simp] theorem accepts_ctor (h h' : H) (ps : List (Pat H)) (vs : List (Tree H S)) :
    (Pat.Ctor h ps).accepts (Tree.node h' vs) = true ↔ h = h' ∧ acceptsAll ps vs = true := by
  rw [accepts, Bool.and_eq_true, decide_eq_true_eq]

/-- Only a value with the head of a pattern matches it. -/
theorem accepts_ctor_iff {h : H} {ps : List (Pat H)} {v : Tree H S} :
    (Pat.Ctor h ps).accepts v = true ↔ ∃ vs, v = .node h vs ∧ acceptsAll ps vs = true := by
  cases v with
  | leaf s => simp [accepts]
  | node h' vs =>
    rw [accepts_ctor]
    constructor
    · rintro ⟨rfl, hvs⟩
      exact ⟨vs, rfl, hvs⟩
    · rintro ⟨vs', heq, hvs⟩
      cases heq
      exact ⟨rfl, hvs⟩

@[simp] theorem acceptsAll_nil : acceptsAll ([] : List (Pat H)) ([] : List (Tree H S)) = true := rfl

@[simp] theorem acceptsAll_cons (p : Pat H) (ps : List (Pat H)) (v : Tree H S) (vs : List (Tree H S)) :
    acceptsAll (p :: ps) (v :: vs) = true ↔ p.accepts v = true ∧ acceptsAll ps vs = true := by
  rw [acceptsAll, Bool.and_eq_true]

theorem length_of_acceptsAll {ps : List (Pat H)} {vs : List (Tree H S)} (h : acceptsAll ps vs = true) :
    ps.length = vs.length := by
  induction ps generalizing vs with
  | nil =>
    cases vs with
    | nil => rfl
    | cons v vs => cases h
  | cons p ps ih =>
    cases vs with
    | nil => cases h
    | cons v vs =>
      rw [acceptsAll_cons] at h
      exact congrArg (· + 1) (ih h.2)

theorem acceptsAll_append {ps : List (Pat H)} {vs : List (Tree H S)} (hlen : ps.length = vs.length)
    (qs : List (Pat H)) (ws : List (Tree H S)) :
    acceptsAll (ps ++ qs) (vs ++ ws) = true ↔ acceptsAll ps vs = true ∧ acceptsAll qs ws = true := by
  induction ps generalizing vs with
  | nil =>
    obtain rfl : vs = [] := List.length_eq_zero_iff.1 hlen.symm
    simp
  | cons p ps ih =>
    cases vs with
    | nil => cases hlen
    | cons v vs =>
      simp only [List.cons_append, acceptsAll_cons, ih (Nat.succ.inj hlen), and_assoc]

@[simp] theorem acceptsAll_wilds (vs : List (Tree H S)) :
    acceptsAll (List.replicate vs.length (Pat.Wild : Pat H)) vs = true := by
  induction vs with
  | nil => rfl
  | cons v vs ih => simp [List.replicate_succ, ih]

end Accepts

/-! ### The heads of a pattern -/

variable {H : Type}

mutual

/-- All heads that occur in a pattern. -/
def heads : Pat H → List H
  | .Wild => []
  | .Ctor h ps => h :: headsAll ps

def headsAll : List (Pat H) → List H
  | [] => []
  | p :: ps => p.heads ++ headsAll ps

end

@[simp] theorem headsAll_append (ps qs : List (Pat H)) : headsAll (ps ++ qs) = headsAll ps ++ headsAll qs := by
  induction ps with
  | nil => rfl
  | cons p ps ih => rw [List.cons_append, headsAll, headsAll, ih, List.append_assoc]

@[simp] theorem headsAll_wilds (n : ℕ) : headsAll (List.replicate n (Pat.Wild : Pat H)) = [] := by
  induction n with
  | zero => rfl
  | succ n ih => rw [List.replicate_succ, headsAll, ih, heads, List.append_nil]

end Pat

/-! ### Types -/

/-- The heads of the types of a language, with the types of what they are applied to, and the values
that no pattern looks into. -/
structure Signature (T H S : Type) where
  args : T → H → Option (List T)
  leaf : T → S → Prop

namespace Signature

variable {T H S : Type} (sig : Signature T H S)

mutual

/-- A value has a type. -/
def HasTy : T → Tree H S → Prop
  | t, .leaf s => sig.leaf t s
  | t, .node h vs => ∃ ts, sig.args t h = some ts ∧ AllHaveTy ts vs

def AllHaveTy : List T → List (Tree H S) → Prop
  | [], [] => True
  | [], _ :: _ => False
  | _ :: _, [] => False
  | t :: ts, v :: vs => HasTy t v ∧ AllHaveTy ts vs

end

mutual

/-- A pattern is one of values of a type. -/
def PatTy : T → Pat H → Prop
  | _, .Wild => True
  | t, .Ctor h ps => ∃ ts, sig.args t h = some ts ∧ AllPatTy ts ps

def AllPatTy : List T → List (Pat H) → Prop
  | [], [] => True
  | [], _ :: _ => False
  | _ :: _, [] => False
  | t :: ts, p :: ps => PatTy t p ∧ AllPatTy ts ps

end

/-- A value of the first type can hold one of the second type. -/
def Part (t t' : T) : Prop := ∃ h ts, sig.args t h = some ts ∧ t' ∈ ts

/-- A type and all types of the values in its values have values. -/
def AllInhabited (t : T) : Prop := ∀ t', Relation.ReflTransGen sig.Part t t' → ∃ v, sig.HasTy t' v

variable {sig}

theorem allHaveTy_append {ts us : List T} {vs ws : List (Tree H S)} (hvs : sig.AllHaveTy ts vs)
    (hws : sig.AllHaveTy us ws) : sig.AllHaveTy (ts ++ us) (vs ++ ws) := by
  induction ts generalizing vs with
  | nil =>
    cases vs with
    | nil => exact hws
    | cons v vs => cases hvs
  | cons t ts ih =>
    cases vs with
    | nil => cases hvs
    | cons v vs => exact ⟨hvs.1, ih hvs.2⟩

theorem allHaveTy_append_inv {ts us : List T} {vs : List (Tree H S)} (h : sig.AllHaveTy (ts ++ us) vs) :
    ∃ as bs, vs = as ++ bs ∧ sig.AllHaveTy ts as ∧ sig.AllHaveTy us bs := by
  induction ts generalizing vs with
  | nil => exact ⟨[], vs, rfl, trivial, h⟩
  | cons t ts ih =>
    cases vs with
    | nil => cases h
    | cons v vs =>
      obtain ⟨as, bs, rfl, has, hbs⟩ := ih h.2
      exact ⟨v :: as, bs, rfl, ⟨h.1, has⟩, hbs⟩

theorem length_of_allHaveTy {ts : List T} {vs : List (Tree H S)} (h : sig.AllHaveTy ts vs) :
    ts.length = vs.length := by
  induction ts generalizing vs with
  | nil =>
    cases vs with
    | nil => rfl
    | cons v vs => cases h
  | cons t ts ih =>
    cases vs with
    | nil => cases h
    | cons v vs => exact congrArg (· + 1) (ih h.2)

theorem exists_allHaveTy {ts : List T} (h : ∀ t ∈ ts, ∃ v, sig.HasTy t v) : ∃ vs, sig.AllHaveTy ts vs := by
  induction ts with
  | nil => exact ⟨[], trivial⟩
  | cons t ts ih =>
    obtain ⟨⟨v, hv⟩, hts⟩ := List.forall_mem_cons.1 h
    obtain ⟨vs, hvs⟩ := ih hts
    exact ⟨v :: vs, hv, hvs⟩

theorem allPatTy_append {ts us : List T} {ps qs : List (Pat H)} (hps : sig.AllPatTy ts ps)
    (hqs : sig.AllPatTy us qs) : sig.AllPatTy (ts ++ us) (ps ++ qs) := by
  induction ts generalizing ps with
  | nil =>
    cases ps with
    | nil => exact hqs
    | cons p ps => cases hps
  | cons t ts ih =>
    cases ps with
    | nil => cases hps
    | cons p ps => exact ⟨hps.1, ih hps.2⟩

theorem allPatTy_append_inv {ts us : List T} {ps : List (Pat H)} (h : sig.AllPatTy (ts ++ us) ps) :
    ∃ as bs, ps = as ++ bs ∧ as.length = ts.length ∧ sig.AllPatTy ts as ∧ sig.AllPatTy us bs := by
  induction ts generalizing ps with
  | nil => exact ⟨[], ps, rfl, rfl, trivial, h⟩
  | cons t ts ih =>
    cases ps with
    | nil => cases h
    | cons p ps =>
      obtain ⟨as, bs, rfl, hlen, has, hbs⟩ := ih h.2
      exact ⟨p :: as, bs, rfl, congrArg (· + 1) hlen, ⟨h.1, has⟩, hbs⟩

theorem length_of_allPatTy {ts : List T} {ps : List (Pat H)} (h : sig.AllPatTy ts ps) :
    ts.length = ps.length := by
  induction ts generalizing ps with
  | nil =>
    cases ps with
    | nil => rfl
    | cons p ps => cases h
  | cons t ts ih =>
    cases ps with
    | nil => cases h
    | cons p ps => exact congrArg (· + 1) (ih h.2)

theorem allPatTy_wilds (ts : List T) : sig.AllPatTy ts (List.replicate ts.length (Pat.Wild : Pat H)) := by
  induction ts with
  | nil => trivial
  | cons t ts ih => exact ⟨trivial, ih⟩

theorem AllInhabited.self {t : T} (h : sig.AllInhabited t) : ∃ v, sig.HasTy t v := h t .refl

theorem AllInhabited.part {t t' : T} {head : H} {ts : List T} (h : sig.AllInhabited t)
    (hts : sig.args t head = some ts) (ht' : t' ∈ ts) : sig.AllInhabited t' :=
  fun _ hreach => h _ (.head ⟨head, ts, hts, ht'⟩ hreach)

theorem exists_of_allInhabited {ts : List T} (h : ∀ t ∈ ts, sig.AllInhabited t) :
    ∃ vs, sig.AllHaveTy ts vs :=
  exists_allHaveTy fun t ht => (h t ht).self

section Instances

variable [DecidableEq H]

mutual

/-- A pattern of inhabited types is matched by some value. -/
theorem exists_accepts (p : Pat H) {t : T} (hp : sig.PatTy t p) (ht : sig.AllInhabited t) :
    ∃ v, sig.HasTy t v ∧ p.accepts v = true := by
  cases p with
  | Wild =>
    obtain ⟨v, hv⟩ := ht.self
    exact ⟨v, hv, Pat.accepts_wild v⟩
  | Ctor h ps =>
    obtain ⟨ts, hts, hps⟩ := hp
    obtain ⟨vs, hvs, hmatch⟩ := exists_acceptsAll ps hps fun t' ht' => ht.part hts ht'
    exact ⟨.node h vs, ⟨ts, hts, hvs⟩, (Pat.accepts_ctor ..).2 ⟨rfl, hmatch⟩⟩

theorem exists_acceptsAll (ps : List (Pat H)) {ts : List T} (hps : sig.AllPatTy ts ps)
    (hts : ∀ t ∈ ts, sig.AllInhabited t) : ∃ vs, sig.AllHaveTy ts vs ∧ Pat.acceptsAll ps vs = true := by
  cases ps with
  | nil =>
    cases ts with
    | nil => exact ⟨[], trivial, rfl⟩
    | cons t ts => cases hps
  | cons p ps =>
    cases ts with
    | nil => cases hps
    | cons t ts =>
      obtain ⟨ht, hts⟩ := List.forall_mem_cons.1 hts
      obtain ⟨v, hv, hmatch⟩ := exists_accepts p hps.1 ht
      obtain ⟨vs, hvs, hmatches⟩ := exists_acceptsAll ps hps.2 hts
      exact ⟨v :: vs, ⟨hv, hvs⟩, (Pat.acceptsAll_cons ..).2 ⟨hmatch, hmatches⟩⟩

end

end Instances

end Signature

end IpeLang.Lib
