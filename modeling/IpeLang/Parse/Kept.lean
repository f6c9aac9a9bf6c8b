import IpeLang.Parse.PatternTree
import IpeLang.Parse.TypeTree

/-!
# What the parser keeps

An accepted type and an accepted pattern have in their trees all names, literals, wildcards and empty
groups that are written, in their order, exactly if no parenthesised constructor that already has
arguments is given further ones: these replace those that it has.
-/

namespace IpeLang.Parse

open Lib (Str Run)

/-- Two types that keep all that is written are written alike if they have one tree. -/
theorem type_written_unique {toks toks' : List Token} {t : TypeAnn}
    (h : parse_type_standalone toks = .ok t) (h' : parse_type_standalone toks' = .ok t)
    (hkept : ¬ TypeReapplies (kinds toks)) (hkept' : ¬ TypeReapplies (kinds toks')) :
    written (kinds toks) = written (kinds toks') :=
  ((type_leaves_iff h).2 hkept).trans ((type_leaves_iff h').2 hkept').symm

/-- The tokens of a pattern that the parser reads. -/
def PatternRead (levels : ℕ) (toks read : List Token) (p : Pattern_) : Prop :=
  ∃ rest, parse_pattern levels toks = .ok (p, rest) ∧ toks = read ++ rest

theorem pattern_read_iff {levels : ℕ} {toks read : List Token} {p : Pattern_}
    (h : PatternRead levels toks read p) :
    written (kinds read) = p.leaves ↔ ¬ PatternReapplies (kinds read) := by
  obtain ⟨rest, hparse, rfl⟩ := h
  obtain ⟨read', heq, hiff⟩ := pattern_leaves_iff hparse
  rw [List.append_cancel_right heq]
  exact hiff

/-- Two patterns that keep all that is written are written alike if they have one tree. -/
theorem pattern_written_unique {levels levels' : ℕ} {toks toks' read read' : List Token} {p : Pattern_}
    (h : PatternRead levels toks read p) (h' : PatternRead levels' toks' read' p)
    (hkept : ¬ PatternReapplies (kinds read)) (hkept' : ¬ PatternReapplies (kinds read')) :
    written (kinds read) = written (kinds read') :=
  ((pattern_read_iff h).2 hkept).trans ((pattern_read_iff h').2 hkept').symm

/-- Types and patterns keep all that is written exactly if no group that has arguments is given
further ones, and then one tree is written in one way. -/
theorem written_kept_iff (toks : List Token) :
    (∀ t, parse_type_standalone toks = .ok t →
      (written (kinds toks) = t.leaves ↔ ¬ TypeReapplies (kinds toks)) ∧
      ∀ toks', parse_type_standalone toks' = .ok t → ¬ TypeReapplies (kinds toks) →
        ¬ TypeReapplies (kinds toks') → written (kinds toks) = written (kinds toks')) ∧
    ∀ levels p rest, parse_pattern levels toks = .ok (p, rest) →
      ∃ read, PatternRead levels toks read p ∧
        (written (kinds read) = p.leaves ↔ ¬ PatternReapplies (kinds read)) ∧
        ∀ levels' toks' read', PatternRead levels' toks' read' p → ¬ PatternReapplies (kinds read) →
          ¬ PatternReapplies (kinds read') → written (kinds read) = written (kinds read') := by
  refine ⟨fun t h => ⟨type_leaves_iff h, fun toks' h' => type_written_unique h h'⟩, ?_⟩
  intro levels p rest h
  obtain ⟨read, hread, -⟩ := pattern_leaves_iff h
  have hpattern : PatternRead levels toks read p := ⟨rest, h, hread⟩
  exact ⟨read, hpattern, pattern_read_iff hpattern,
    fun levels' toks' read' h' => pattern_written_unique hpattern h'⟩

/-- Tokens without their places, one after the other on a line. -/
def onLine (toks : List Tok) : List Token :=
  toks.zipIdx.map fun p => ⟨p.1, 0, p.2 + 1, ⟨p.2, p.2 + 1⟩⟩

/-- `(List a) b`. -/
def appliedGroup : List Tok :=
  [.LParen, .Ident "List".toList, .Ident "a".toList, .RParen, .Ident "b".toList]

/-- `(Just x) y`. -/
def matchedGroup : List Tok :=
  [.LParen, .Ident "Just".toList, .Ident "x".toList, .RParen, .Ident "y".toList]

/-- The first argument of `(List a) b` is not in the tree, which is that of `List b` also, and the
first one of `(Just x) y` is not. -/
theorem applied_group_drops :
    parse_type_standalone (onLine appliedGroup) =
      .ok (.TType [] ["List".toList] [.TVar "b".toList]) ∧
    parse_type_standalone (onLine [.Ident "List".toList, .Ident "b".toList]) =
      .ok (.TType [] ["List".toList] [.TVar "b".toList]) ∧
    written appliedGroup ≠ written [.Ident "List".toList, .Ident "b".toList] ∧
    written appliedGroup ≠ (TypeAnn.TType [] ["List".toList] [.TVar "b".toList]).leaves ∧
    parse_pattern (MAX_DEPTH + 1) (onLine matchedGroup) =
      .ok (.PCtor "Just".toList [] [.PVar "y".toList], []) ∧
    written matchedGroup ≠ (Pattern_.PCtor "Just".toList [] [.PVar "y".toList]).leaves := by
  refine ⟨by rfl, by rfl, by decide, by decide, by rfl, by decide⟩

/-- `List (Maybe a)`. -/
def nestedGroup : List Tok :=
  [.Ident "List".toList, .LParen, .Ident "Maybe".toList, .Ident "a".toList, .RParen]

/-- `List (Maybe a)` keeps all that is written, as it does not apply a group; and `(List a) b` and
`(Just x) y` apply one. -/
theorem written_kept_iff_nested :
    ¬ TypeReapplies nestedGroup ∧ TypeReapplies appliedGroup ∧ PatternReapplies matchedGroup := by
  refine ⟨?_, ?_, ?_⟩
  · exact ((written_kept_iff (onLine nestedGroup)).1 (.TType [] ["List".toList]
      [.TType [] ["Maybe".toList] [.TVar "a".toList]]) rfl).1.1 (by decide)
  · have hiff := ((written_kept_iff (onLine appliedGroup)).1
      (.TType [] ["List".toList] [.TVar "b".toList]) (by rfl)).1
    have hne : written appliedGroup ≠ (TypeAnn.TType [] ["List".toList] [.TVar "b".toList]).leaves := by decide
    exact not_not.1 fun h => hne (hiff.2 h)
  · have hmatched : parse_pattern (MAX_DEPTH + 1) (onLine matchedGroup) =
        .ok (.PCtor "Just".toList [] [.PVar "y".toList], []) := by rfl
    obtain ⟨read, ⟨rest, hparse, hread⟩, hiff, -⟩ := (written_kept_iff (onLine matchedGroup)).2 _ _ _ hmatched
    have hall : kinds read = matchedGroup := by
      rw [hmatched] at hparse
      cases hparse
      rw [List.append_nil] at hread
      rw [← hread]
      rfl
    have hne : written matchedGroup ≠ (Pattern_.PCtor "Just".toList [] [.PVar "y".toList]).leaves := by decide
    exact not_not.1 fun h => hne (hall ▸ hiff.2 (hall ▸ h))

end IpeLang.Parse
