import IpeLang.Parse.Leaf
import IpeLang.Parse.Types

/-!
# The grammar of types

The concrete syntax of types, which keeps the parentheses that the tree does not have.

* `TypeSyn.unique`: tokens have one syntax;
* `TypeSyn.leaves_tree`: a tree has all leaves of its syntax, unless a group that already has
  arguments is given further ones.
-/

namespace IpeLang.Parse

open Lib (Str Run)

/-! ### Syntax -/

inductive TypeCat
  | type
  | app
  | atom
  | args
  | elems
  | fields
  deriving DecidableEq, Repr

/-- The concrete syntax of a type and its parts. Elements are those after the first one of a tuple,
with a comma before each. -/
inductive TypeSyn : TypeCat → Type
  | single (a : TypeSyn .app) : TypeSyn .type
  | arrow (a : TypeSyn .app) (t : TypeSyn .type) : TypeSyn .type
  | apply (head : TypeSyn .atom) (as : TypeSyn .args) : TypeSyn .app
  | noArgs : TypeSyn .args
  | arg (a : TypeSyn .atom) (as : TypeSyn .args) : TypeSyn .args
  | name (text : Str) : TypeSyn .atom
  | unit : TypeSyn .atom
  | group (t : TypeSyn .type) : TypeSyn .atom
  | tuple (t : TypeSyn .type) (es : TypeSyn .elems) : TypeSyn .atom
  | emptyRecord : TypeSyn .atom
  | record (fs : TypeSyn .fields) : TypeSyn .atom
  | openRecord (row : Str) (fs : TypeSyn .fields) : TypeSyn .atom
  | lastElem (t : TypeSyn .type) : TypeSyn .elems
  | elem (t : TypeSyn .type) (es : TypeSyn .elems) : TypeSyn .elems
  | lastField (label : Str) (t : TypeSyn .type) : TypeSyn .fields
  | field (label : Str) (t : TypeSyn .type) (fs : TypeSyn .fields) : TypeSyn .fields

namespace TypeSyn

variable {k : TypeCat}

/-- The tokens of a syntax. -/
def tokens : {k : TypeCat} → TypeSyn k → List Tok
  | _, single a => a.tokens
  | _, arrow a t => a.tokens ++ .Arrow :: t.tokens
  | _, apply head as => head.tokens ++ as.tokens
  | _, noArgs => []
  | _, arg a as => a.tokens ++ as.tokens
  | _, name text => [.Ident text]
  | _, unit => [.LParen, .RParen]
  | _, group t => .LParen :: (t.tokens ++ [.RParen])
  | _, tuple t es => .LParen :: (t.tokens ++ (es.tokens ++ [.RParen]))
  | _, emptyRecord => [.LBrace, .RBrace]
  | _, record fs => .LBrace :: (fs.tokens ++ [.RBrace])
  | _, openRecord row fs => .LBrace :: .Ident row :: .Pipe :: (fs.tokens ++ [.RBrace])
  | _, lastElem t => .Comma :: t.tokens
  | _, elem t es => .Comma :: (t.tokens ++ es.tokens)
  | _, lastField label t => .Ident label :: .Colon :: t.tokens
  | _, field label t fs => .Ident label :: .Colon :: (t.tokens ++ .Comma :: fs.tokens)

/-- The leaves of a syntax. -/
def leaves : {k : TypeCat} → TypeSyn k → List Leaf
  | _, single a => a.leaves
  | _, arrow a t => a.leaves ++ t.leaves
  | _, apply head as => head.leaves ++ as.leaves
  | _, noArgs => []
  | _, arg a as => a.leaves ++ as.leaves
  | _, name text => [.name text]
  | _, unit => [.unit]
  | _, group t => t.leaves
  | _, tuple t es => t.leaves ++ es.leaves
  | _, emptyRecord => [.emptyRecord]
  | _, record fs => fs.leaves
  | _, openRecord row fs => .name row :: fs.leaves
  | _, lastElem t => t.leaves
  | _, elem t es => t.leaves ++ es.leaves
  | _, lastField label t => .name label :: t.leaves
  | _, field label t fs => .name label :: (t.leaves ++ fs.leaves)

/-- A token that starts an atom. -/
def startsAtom : Tok → Bool
  | .LParen | .LBrace | .Ident _ => true
  | _ => false

/-- How the tokens of a syntax start. -/
def Starts (k : TypeCat) (t : Tok) : Prop :=
  match k with
  | .type | .app | .atom | .args => startsAtom t = true
  | .elems => t = .Comma
  | .fields => ∃ text, t = .Ident text

theorem exists_tokens (s : TypeSyn k) (hk : k ≠ .args) :
    ∃ t toks, s.tokens = t :: toks ∧ Starts k t := by
  induction s with
  | single a ih => exact ih (by simp)
  | arrow a t ih _ =>
    obtain ⟨u, toks, htoks, hu⟩ := ih (by simp)
    exact ⟨u, toks ++ .Arrow :: t.tokens, by rw [tokens, htoks]; rfl, hu⟩
  | apply head as ih _ =>
    obtain ⟨u, toks, htoks, hu⟩ := ih (by simp)
    exact ⟨u, toks ++ as.tokens, by rw [tokens, htoks]; rfl, hu⟩
  | noArgs => exact absurd rfl hk
  | arg a as _ _ => exact absurd rfl hk
  | name text => exact ⟨_, _, rfl, rfl⟩
  | unit => exact ⟨_, _, rfl, rfl⟩
  | group t _ => exact ⟨_, _, rfl, rfl⟩
  | tuple t es _ _ => exact ⟨_, _, rfl, rfl⟩
  | emptyRecord => exact ⟨_, _, rfl, rfl⟩
  | record fs _ => exact ⟨_, _, rfl, rfl⟩
  | openRecord row fs _ => exact ⟨_, _, rfl, rfl⟩
  | lastElem t _ => exact ⟨_, _, rfl, rfl⟩
  | elem t es _ _ => exact ⟨_, _, rfl, rfl⟩
  | lastField label t _ => exact ⟨_, _, rfl, _, rfl⟩
  | field label t fs _ _ => exact ⟨_, _, rfl, _, rfl⟩

/-- A token of no leaf, before a syntax that it makes no pair with. -/
theorem written_open {t : Tok} (s : TypeSyn k) (hk : k ≠ .args)
    (h : ∀ u, Starts k u → pairLeaf t u = none) (ht : t.leaf = []) (toks : List Tok) :
    written (t :: (s.tokens ++ toks)) = written (s.tokens ++ toks) := by
  obtain ⟨u, rest, htoks, hu⟩ := s.exists_tokens hk
  rw [htoks, List.cons_append, written_cons, ht, List.nil_append]
  rintro v ⟨⟩
  exact h u hu

theorem not_pair_paren {u : Tok} (h : Starts .type u) : pairLeaf .LParen u = none := by
  cases u <;> first | rfl | cases h

theorem not_pair_brace {u : Tok} (h : Starts .fields u) : pairLeaf .LBrace u = none := by
  obtain ⟨text, rfl⟩ := h
  rfl

/-- The leaves of a syntax are those of its tokens. -/
theorem written_tokens (s : TypeSyn k) (toks : List Tok) :
    written (s.tokens ++ toks) = s.leaves ++ written toks := by
  induction s generalizing toks with
  | single a ih => exact ih toks
  | arrow a t iha iht =>
    simp only [tokens, leaves, List.append_assoc, List.cons_append]
    rw [iha, written_skip (fun _ => rfl) rfl, iht]
  | apply head as ihh iha =>
    simp only [tokens, leaves, List.append_assoc]
    rw [ihh, iha]
  | noArgs => rfl
  | arg a as iha ihs =>
    simp only [tokens, leaves, List.append_assoc]
    rw [iha, ihs]
  | name text => exact written_ident text toks
  | unit => exact written_pair rfl toks
  | group t ih =>
    simp only [tokens, leaves, List.append_assoc, List.cons_append]
    rw [t.written_open (by simp) (fun u => not_pair_paren) rfl, ih, List.nil_append,
      written_skip (fun _ => rfl) rfl]
  | tuple t es iht ihe =>
    simp only [tokens, leaves, List.append_assoc, List.cons_append]
    rw [t.written_open (by simp) (fun u => not_pair_paren) rfl, iht, ihe, List.nil_append,
      written_skip (fun _ => rfl) rfl]
  | emptyRecord => exact written_pair rfl toks
  | record fs ih =>
    simp only [tokens, leaves, List.append_assoc, List.cons_append]
    rw [fs.written_open (by simp) (fun u => not_pair_brace) rfl, ih, List.nil_append,
      written_skip (fun _ => rfl) rfl]
  | openRecord row fs ih =>
    simp only [tokens, leaves, List.append_assoc, List.cons_append]
    rw [written_cons (by rintro u ⟨⟩; rfl), written_ident, written_skip (fun _ => rfl) rfl, ih,
      List.nil_append, written_skip (fun _ => rfl) rfl]
    rfl
  | lastElem t ih =>
    simp only [tokens, leaves, List.cons_append]
    rw [written_skip (fun _ => rfl) rfl, ih]
  | elem t es iht ihe =>
    simp only [tokens, leaves, List.append_assoc, List.cons_append]
    rw [written_skip (fun _ => rfl) rfl, iht, ihe]
  | lastField label t ih =>
    simp only [tokens, leaves, List.cons_append]
    rw [written_ident, written_skip (fun _ => rfl) rfl, ih]
  | field label t fs iht ihf =>
    simp only [tokens, leaves, List.append_assoc, List.cons_append]
    rw [written_ident, written_skip (fun _ => rfl) rfl, iht, written_skip (fun _ => rfl) rfl, ihf]

/-! ### One syntax -/

/-- What follows a syntax does not continue it. -/
def Ends (k : TypeCat) (toks : List Tok) : Prop :=
  match k with
  | .type => ∀ t ∈ toks.head?, startsAtom t = false ∧ t ≠ .Arrow
  | .app | .args => ∀ t ∈ toks.head?, startsAtom t = false
  | .atom => True
  | .elems | .fields => ∀ t ∈ toks.head?, startsAtom t = false ∧ t ≠ .Arrow ∧ t ≠ .Comma

theorem ends_cons {k : TypeCat} {t : Tok} {toks : List Tok}
    (h : startsAtom t = false ∧ t ≠ .Arrow ∧ t ≠ .Comma) : Ends k (t :: toks) := by
  cases k with
  | type => rintro u ⟨⟩; exact ⟨h.1, h.2.1⟩
  | app => rintro u ⟨⟩; exact h.1
  | atom => trivial
  | args => rintro u ⟨⟩; exact h.1
  | elems => rintro u ⟨⟩; exact h
  | fields => rintro u ⟨⟩; exact h

theorem Ends.app {toks : List Tok} (h : Ends .type toks) : Ends .app toks := fun t ht => (h t ht).1

theorem Ends.type {toks : List Tok} (h : Ends .elems toks) : Ends .type toks :=
  fun t ht => ⟨(h t ht).1, (h t ht).2.1⟩

theorem ends_arrow (toks : List Tok) : Ends .app (.Arrow :: toks) := by
  rintro u ⟨⟩
  rfl

theorem ends_comma (toks : List Tok) : Ends .type (.Comma :: toks) := by
  rintro u ⟨⟩
  exact ⟨rfl, by simp⟩

theorem ends_close {k : TypeCat} {t : Tok} (h : t = .RParen ∨ t = .RBrace) (toks : List Tok) :
    Ends k (t :: toks) := by
  refine ends_cons ?_
  rcases h with rfl | rfl <;> simp [startsAtom]

/-- What starts an atom does not follow a syntax. -/
theorem not_ends_atom (a : TypeSyn .atom) {toks : List Tok} : ¬ Ends .args (a.tokens ++ toks) := by
  obtain ⟨t, rest, htoks, ht⟩ := a.exists_tokens (by simp)
  intro h
  rw [htoks] at h
  have hnot := h t rfl
  rw [show startsAtom t = true from ht] at hnot
  cases hnot

/-- Elements start with a comma. -/
theorem exists_elems (es : TypeSyn .elems) : ∃ toks, es.tokens = .Comma :: toks := by
  obtain ⟨t, rest, htoks, rfl⟩ := es.exists_tokens (by simp)
  exact ⟨rest, htoks⟩

theorem type_ne_rparen (t : TypeSyn .type) {r r' : List Tok} : t.tokens ++ r ≠ .RParen :: r' := by
  obtain ⟨u, rest, htoks, hu⟩ := t.exists_tokens (by simp)
  intro h
  rw [htoks] at h
  obtain ⟨rfl, -⟩ := List.cons_eq_cons.1 h
  cases hu

theorem fields_ne {t : Tok} (fs : TypeSyn .fields) (ht : ∀ text, t ≠ .Ident text) {r r' : List Tok} :
    fs.tokens ++ r ≠ t :: r' := by
  obtain ⟨u, rest, htoks, text, rfl⟩ := fs.exists_tokens (by simp)
  intro h
  rw [htoks] at h
  obtain ⟨rfl, -⟩ := List.cons_eq_cons.1 h
  exact ht text rfl

/-- The fields of a record start with a label and a colon. -/
theorem exists_fields (fs : TypeSyn .fields) :
    ∃ label toks, fs.tokens = .Ident label :: .Colon :: toks := by
  cases fs with
  | lastField label t => exact ⟨_, _, rfl⟩
  | field label t fs => exact ⟨_, _, rfl⟩

/-- Tokens have one syntax. -/
theorem unique {s s' : TypeSyn k} {r r' : List Tok} (h : s.tokens ++ r = s'.tokens ++ r')
    (hr : Ends k r) (hr' : Ends k r') : s = s' ∧ r = r' := by
  -- If the one went on where the other ends, what follows would continue the other (`Ends`).
  induction s generalizing r r' with
  | single a ih =>
    cases s' with
    | single a' =>
      obtain ⟨rfl, rfl⟩ := ih h hr.app hr'.app
      exact ⟨rfl, rfl⟩
    | arrow a' t' =>
      simp only [tokens, List.append_assoc, List.cons_append] at h
      obtain ⟨rfl, rfl⟩ := ih h hr.app (ends_arrow _)
      exact absurd rfl (hr _ rfl).2
  | arrow a t iha iht =>
    cases s' with
    | single a' =>
      simp only [tokens, List.append_assoc, List.cons_append] at h
      obtain ⟨rfl, rfl⟩ := iha h (ends_arrow _) hr'.app
      exact absurd rfl (hr' _ rfl).2
    | arrow a' t' =>
      simp only [tokens, List.append_assoc, List.cons_append] at h
      obtain ⟨rfl, hrest⟩ := iha h (ends_arrow _) (ends_arrow _)
      obtain ⟨rfl, rfl⟩ := iht (List.tail_eq_of_cons_eq hrest) hr hr'
      exact ⟨rfl, rfl⟩
  | apply head as ihh iha =>
    obtain ⟨head', as'⟩ := s'
    simp only [tokens, List.append_assoc] at h
    obtain ⟨rfl, hrest⟩ := ihh h trivial trivial
    obtain ⟨rfl, rfl⟩ := iha hrest hr hr'
    exact ⟨rfl, rfl⟩
  | noArgs =>
    cases s' with
    | noArgs => exact ⟨rfl, h⟩
    | arg a' as' =>
      simp only [tokens, List.append_assoc, List.nil_append] at h
      exact absurd (h ▸ hr) (not_ends_atom a')
  | arg a as iha ihs =>
    cases s' with
    | noArgs =>
      simp only [tokens, List.append_assoc, List.nil_append] at h
      exact absurd (h ▸ hr') (not_ends_atom a)
    | arg a' as' =>
      simp only [tokens, List.append_assoc] at h
      obtain ⟨rfl, hrest⟩ := iha h trivial trivial
      obtain ⟨rfl, rfl⟩ := ihs hrest hr hr'
      exact ⟨rfl, rfl⟩
  | name text =>
    cases s' with
    | name text' =>
      obtain ⟨hname, rfl⟩ := List.cons_eq_cons.1 h
      cases hname
      exact ⟨rfl, rfl⟩
    | _ => cases List.head_eq_of_cons_eq h
  | unit =>
    cases s' with
    | unit => exact ⟨rfl, List.tail_eq_of_cons_eq (List.tail_eq_of_cons_eq h)⟩
    | group t' =>
      simp only [tokens, List.append_assoc, List.cons_append] at h
      exact absurd (List.tail_eq_of_cons_eq h).symm t'.type_ne_rparen
    | tuple t' es' =>
      simp only [tokens, List.append_assoc, List.cons_append] at h
      exact absurd (List.tail_eq_of_cons_eq h).symm t'.type_ne_rparen
    | _ => cases List.head_eq_of_cons_eq h
  | group t ih =>
    cases s' with
    | unit =>
      simp only [tokens, List.append_assoc, List.cons_append] at h
      exact absurd (List.tail_eq_of_cons_eq h) t.type_ne_rparen
    | group t' =>
      simp only [tokens, List.append_assoc, List.cons_append, List.nil_append] at h
      obtain ⟨rfl, hrest⟩ := ih (List.tail_eq_of_cons_eq h) (ends_close (Or.inl rfl) _)
        (ends_close (Or.inl rfl) _)
      exact ⟨rfl, List.tail_eq_of_cons_eq hrest⟩
    | tuple t' es' =>
      obtain ⟨rest, hes⟩ := es'.exists_elems
      simp only [tokens, List.append_assoc, List.cons_append, List.nil_append, hes] at h
      obtain ⟨-, hrest⟩ := ih (List.tail_eq_of_cons_eq h) (ends_close (Or.inl rfl) _) (ends_comma _)
      cases List.head_eq_of_cons_eq hrest
    | _ => cases List.head_eq_of_cons_eq h
  | tuple t es iht ihe =>
    cases s' with
    | unit =>
      simp only [tokens, List.append_assoc, List.cons_append] at h
      exact absurd (List.tail_eq_of_cons_eq h) t.type_ne_rparen
    | group t' =>
      obtain ⟨rest, hes⟩ := es.exists_elems
      simp only [tokens, List.append_assoc, List.cons_append, List.nil_append, hes] at h
      obtain ⟨-, hrest⟩ := iht (List.tail_eq_of_cons_eq h) (ends_comma _) (ends_close (Or.inl rfl) _)
      cases List.head_eq_of_cons_eq hrest
    | tuple t' es' =>
      obtain ⟨rest, hes⟩ := es.exists_elems
      obtain ⟨rest', hes'⟩ := es'.exists_elems
      simp only [tokens, List.append_assoc, List.cons_append, List.nil_append] at h
      obtain ⟨rfl, hrest⟩ := iht (List.tail_eq_of_cons_eq h) (by rw [hes]; exact ends_comma _)
        (by rw [hes']; exact ends_comma _)
      obtain ⟨rfl, hrest'⟩ := ihe hrest (ends_close (Or.inl rfl) _) (ends_close (Or.inl rfl) _)
      exact ⟨rfl, List.tail_eq_of_cons_eq hrest'⟩
    | _ => cases List.head_eq_of_cons_eq h
  | emptyRecord =>
    cases s' with
    | emptyRecord => exact ⟨rfl, List.tail_eq_of_cons_eq (List.tail_eq_of_cons_eq h)⟩
    | record fs' =>
      simp only [tokens, List.append_assoc, List.cons_append] at h
      exact absurd (List.tail_eq_of_cons_eq h).symm (fs'.fields_ne (by simp))
    | openRecord row' fs' => cases List.head_eq_of_cons_eq (List.tail_eq_of_cons_eq h)
    | _ => cases List.head_eq_of_cons_eq h
  | record fs ih =>
    cases s' with
    | emptyRecord =>
      simp only [tokens, List.append_assoc, List.cons_append] at h
      exact absurd (List.tail_eq_of_cons_eq h) (fs.fields_ne (by simp))
    | record fs' =>
      simp only [tokens, List.append_assoc, List.cons_append, List.nil_append] at h
      obtain ⟨rfl, hrest⟩ := ih (List.tail_eq_of_cons_eq h) (ends_close (Or.inr rfl) _)
        (ends_close (Or.inr rfl) _)
      exact ⟨rfl, List.tail_eq_of_cons_eq hrest⟩
    | openRecord row' fs' =>
      obtain ⟨label, rest, hfs⟩ := fs.exists_fields
      simp only [tokens, hfs, List.cons_append] at h
      cases List.head_eq_of_cons_eq (List.tail_eq_of_cons_eq (List.tail_eq_of_cons_eq h))
    | _ => cases List.head_eq_of_cons_eq h
  | openRecord row fs ih =>
    cases s' with
    | emptyRecord => cases List.head_eq_of_cons_eq (List.tail_eq_of_cons_eq h)
    | record fs' =>
      obtain ⟨label, rest, hfs⟩ := fs'.exists_fields
      simp only [tokens, hfs, List.cons_append] at h
      cases List.head_eq_of_cons_eq (List.tail_eq_of_cons_eq (List.tail_eq_of_cons_eq h))
    | openRecord row' fs' =>
      simp only [tokens, List.append_assoc, List.cons_append, List.nil_append] at h
      have hrow := List.head_eq_of_cons_eq (List.tail_eq_of_cons_eq h)
      obtain ⟨rfl, hrest⟩ := ih
        (List.tail_eq_of_cons_eq (List.tail_eq_of_cons_eq (List.tail_eq_of_cons_eq h)))
        (ends_close (Or.inr rfl) _) (ends_close (Or.inr rfl) _)
      cases hrow
      exact ⟨rfl, List.tail_eq_of_cons_eq hrest⟩
    | _ => cases List.head_eq_of_cons_eq h
  | lastElem t ih =>
    cases s' with
    | lastElem t' =>
      obtain ⟨rfl, rfl⟩ := ih (List.tail_eq_of_cons_eq h) hr.type hr'.type
      exact ⟨rfl, rfl⟩
    | elem t' es' =>
      obtain ⟨rest, hes⟩ := es'.exists_elems
      simp only [tokens, List.append_assoc, List.cons_append, hes] at h
      obtain ⟨-, rfl⟩ := ih (List.tail_eq_of_cons_eq h) hr.type (ends_comma _)
      exact absurd rfl (hr _ rfl).2.2
  | elem t es iht ihe =>
    cases s' with
    | lastElem t' =>
      obtain ⟨rest, hes⟩ := es.exists_elems
      simp only [tokens, List.append_assoc, List.cons_append, hes] at h
      obtain ⟨-, rfl⟩ := iht (List.tail_eq_of_cons_eq h) (ends_comma _) hr'.type
      exact absurd rfl (hr' _ rfl).2.2
    | elem t' es' =>
      obtain ⟨rest, hes⟩ := es.exists_elems
      obtain ⟨rest', hes'⟩ := es'.exists_elems
      simp only [tokens, List.append_assoc, List.cons_append] at h
      obtain ⟨rfl, hrest⟩ := iht (List.tail_eq_of_cons_eq h) (by rw [hes]; exact ends_comma _)
        (by rw [hes']; exact ends_comma _)
      obtain ⟨rfl, rfl⟩ := ihe hrest hr hr'
      exact ⟨rfl, rfl⟩
  | lastField label t ih =>
    cases s' with
    | lastField label' t' =>
      have hlabel := List.head_eq_of_cons_eq h
      obtain ⟨rfl, rfl⟩ := ih (List.tail_eq_of_cons_eq (List.tail_eq_of_cons_eq h)) hr.type hr'.type
      cases hlabel
      exact ⟨rfl, rfl⟩
    | field label' t' fs' =>
      simp only [tokens, List.append_assoc, List.cons_append] at h
      obtain ⟨-, rfl⟩ := ih (List.tail_eq_of_cons_eq (List.tail_eq_of_cons_eq h)) hr.type
        (ends_comma _)
      exact absurd rfl (hr _ rfl).2.2
  | field label t fs iht ihf =>
    cases s' with
    | lastField label' t' =>
      simp only [tokens, List.append_assoc, List.cons_append] at h
      obtain ⟨-, rfl⟩ := iht (List.tail_eq_of_cons_eq (List.tail_eq_of_cons_eq h)) (ends_comma _)
        hr'.type
      exact absurd rfl (hr' _ rfl).2.2
    | field label' t' fs' =>
      simp only [tokens, List.append_assoc, List.cons_append] at h
      have hlabel := List.head_eq_of_cons_eq h
      obtain ⟨rfl, hrest⟩ := iht (List.tail_eq_of_cons_eq (List.tail_eq_of_cons_eq h)) (ends_comma _)
        (ends_comma _)
      obtain ⟨rfl, rfl⟩ := ihf (List.tail_eq_of_cons_eq hrest) hr hr'
      cases hlabel
      exact ⟨rfl, rfl⟩

end TypeSyn

end IpeLang.Parse
