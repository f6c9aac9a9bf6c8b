import IpeLang.Parse.Leaf

/-!
# The grammar of patterns

The concrete syntax of patterns, which keeps the parentheses that the tree does not have.

* `PatSyn.written_tokens`: the leaves of a syntax are those of its tokens;
* `PatSyn.unique`: tokens have one syntax. An alias is that of the innermost pattern that can have
  it (`AliasInnermost`).
-/

namespace IpeLang.Parse

open Lib (Str)

inductive PatCat
  | pattern
  | alts
  | consAs
  | app
  | subs
  | atom
  | elems
  | labels
  deriving DecidableEq, Repr

/-- The concrete syntax of a pattern and its parts. Alternatives and elements are those after the
first one, with a bar or a comma before each. -/
inductive PatSyn : PatCat → Type
  | single (c : PatSyn .consAs) : PatSyn .pattern
  | or (c : PatSyn .consAs) (as : PatSyn .alts) : PatSyn .pattern
  | lastAlt (c : PatSyn .consAs) : PatSyn .alts
  | alt (c : PatSyn .consAs) (as : PatSyn .alts) : PatSyn .alts
  | plain (a : PatSyn .app) : PatSyn .consAs
  | aliased (a : PatSyn .app) (x : Str) : PatSyn .consAs
  | cons (a : PatSyn .app) (tail : PatSyn .consAs) : PatSyn .consAs
  | consAliased (a : PatSyn .app) (tail : PatSyn .consAs) (x : Str) : PatSyn .consAs
  | apply (head : PatSyn .atom) (ss : PatSyn .subs) : PatSyn .app
  | noSubs : PatSyn .subs
  | sub (a : PatSyn .atom) (ss : PatSyn .subs) : PatSyn .subs
  | wildcard : PatSyn .atom
  | int (n : IntMagnitude) : PatSyn .atom
  | negInt (n : IntMagnitude) : PatSyn .atom
  | str (value : Str) : PatSyn .atom
  | tripleStr (raw : Str) (anchor : ℕ) : PatSyn .atom
  | char (value : Str) : PatSyn .atom
  | name (text : Str) : PatSyn .atom
  | unit : PatSyn .atom
  | group (p : PatSyn .pattern) : PatSyn .atom
  | tuple (p : PatSyn .pattern) (es : PatSyn .elems) : PatSyn .atom
  | record (ls : PatSyn .labels) : PatSyn .atom
  | emptyList : PatSyn .atom
  | listOne (p : PatSyn .pattern) : PatSyn .atom
  | list (p : PatSyn .pattern) (es : PatSyn .elems) : PatSyn .atom
  | lastElem (p : PatSyn .pattern) : PatSyn .elems
  | elem (p : PatSyn .pattern) (es : PatSyn .elems) : PatSyn .elems
  | lastLabel (x : Str) : PatSyn .labels
  | label (x : Str) (ls : PatSyn .labels) : PatSyn .labels

namespace PatSyn

variable {k : PatCat}

/-- The tokens of a syntax. -/
def tokens : {k : PatCat} → PatSyn k → List Tok
  | _, single c => c.tokens
  | _, or c as => c.tokens ++ as.tokens
  | _, lastAlt c => .Pipe :: c.tokens
  | _, alt c as => .Pipe :: (c.tokens ++ as.tokens)
  | _, plain a => a.tokens
  | _, aliased a x => a.tokens ++ [.As, .Ident x]
  | _, cons a tail => a.tokens ++ .ColonColon :: tail.tokens
  | _, consAliased a tail x => a.tokens ++ .ColonColon :: (tail.tokens ++ [.As, .Ident x])
  | _, apply head ss => head.tokens ++ ss.tokens
  | _, noSubs => []
  | _, sub a ss => a.tokens ++ ss.tokens
  | _, wildcard => [.Underscore]
  | _, int n => [.Int n]
  | _, negInt n => [.Minus, .Int n]
  | _, str value => [.Str value]
  | _, tripleStr raw anchor => [.TripleStr raw anchor]
  | _, char value => [.Char value]
  | _, name text => [.Ident text]
  | _, unit => [.LParen, .RParen]
  | _, group p => .LParen :: (p.tokens ++ [.RParen])
  | _, tuple p es => .LParen :: (p.tokens ++ (es.tokens ++ [.RParen]))
  | _, record ls => .LBrace :: (ls.tokens ++ [.RBrace])
  | _, emptyList => [.LBracket, .RBracket]
  | _, listOne p => .LBracket :: (p.tokens ++ [.RBracket])
  | _, list p es => .LBracket :: (p.tokens ++ (es.tokens ++ [.RBracket]))
  | _, lastElem p => .Comma :: p.tokens
  | _, elem p es => .Comma :: (p.tokens ++ es.tokens)
  | _, lastLabel x => [.Ident x]
  | _, label x ls => .Ident x :: .Comma :: ls.tokens

/-- The leaves of a syntax. -/
def leaves : {k : PatCat} → PatSyn k → List Leaf
  | _, single c => c.leaves
  | _, or c as => c.leaves ++ as.leaves
  | _, lastAlt c => c.leaves
  | _, alt c as => c.leaves ++ as.leaves
  | _, plain a => a.leaves
  | _, aliased a x => a.leaves ++ [.name x]
  | _, cons a tail => a.leaves ++ tail.leaves
  | _, consAliased a tail x => (a.leaves ++ tail.leaves) ++ [.name x]
  | _, apply head ss => head.leaves ++ ss.leaves
  | _, noSubs => []
  | _, sub a ss => a.leaves ++ ss.leaves
  | _, wildcard => [.wildcard]
  | _, int n => [.int n.val]
  | _, negInt n => [.int (-(n.val : ℤ))]
  | _, str value => [.str value]
  | _, tripleStr raw anchor => [.str (strip_anchor_margin raw anchor)]
  | _, char value => [.char value]
  | _, name text => [.name text]
  | _, unit => [.unit]
  | _, group p => p.leaves
  | _, tuple p es => p.leaves ++ es.leaves
  | _, record ls => ls.leaves
  | _, emptyList => [.emptyList]
  | _, listOne p => p.leaves
  | _, list p es => p.leaves ++ es.leaves
  | _, lastElem p => p.leaves
  | _, elem p es => p.leaves ++ es.leaves
  | _, lastLabel x => [.name x]
  | _, label x ls => .name x :: ls.leaves

/-- A token that starts an atom. -/
def startsAtom : Tok → Bool
  | .Underscore | .LParen | .LBrace | .LBracket | .Ident _ | .Int _ | .Str _ | .TripleStr _ _
  | .Char _ | .Minus => true
  | _ => false

/-- How the tokens of a syntax start. -/
def Starts (k : PatCat) (t : Tok) : Prop :=
  match k with
  | .pattern | .consAs | .app | .atom | .subs => startsAtom t = true
  | .alts => t = .Pipe
  | .elems => t = .Comma
  | .labels => ∃ text, t = .Ident text

theorem exists_tokens (s : PatSyn k) (hk : k ≠ .subs) :
    ∃ t toks, s.tokens = t :: toks ∧ Starts k t := by
  have hleft : ∀ {k : PatCat} {s : PatSyn k} {toks : List Tok},
      (∃ t rest, s.tokens = t :: rest ∧ startsAtom t = true) →
      ∃ t rest, s.tokens ++ toks = t :: rest ∧ startsAtom t = true := by
    rintro k s toks ⟨t, rest, htoks, ht⟩
    exact ⟨t, rest ++ toks, by rw [htoks]; rfl, ht⟩
  induction s with
  | single c ih => exact ih (by simp)
  | or c as ih _ => exact hleft (ih (by simp))
  | lastAlt c _ => exact ⟨_, _, rfl, rfl⟩
  | alt c as _ _ => exact ⟨_, _, rfl, rfl⟩
  | plain a ih => exact ih (by simp)
  | aliased a name ih => exact hleft (ih (by simp))
  | cons a tail ih _ => exact hleft (ih (by simp))
  | consAliased a tail name ih _ => exact hleft (ih (by simp))
  | apply head ss ih _ => exact hleft (ih (by simp))
  | noSubs => exact absurd rfl hk
  | sub a ss _ _ => exact absurd rfl hk
  | lastLabel label => exact ⟨_, _, rfl, _, rfl⟩
  | label label ls _ => exact ⟨_, _, rfl, _, rfl⟩
  | _ => exact ⟨_, _, rfl, rfl⟩

/-- A token of no leaf, before a syntax that it makes no pair with. -/
theorem written_open {t : Tok} (s : PatSyn k) (hk : k ≠ .subs)
    (h : ∀ u, Starts k u → pairLeaf t u = none) (ht : t.leaf = []) (toks : List Tok) :
    written (t :: (s.tokens ++ toks)) = written (s.tokens ++ toks) := by
  obtain ⟨u, rest, htoks, hu⟩ := s.exists_tokens hk
  rw [htoks, List.cons_append, written_cons, ht, List.nil_append]
  rintro v ⟨⟩
  exact h u hu

theorem not_pair_paren {u : Tok} (h : Starts .pattern u) : pairLeaf .LParen u = none := by
  cases u <;> first | rfl | cases h

theorem not_pair_bracket {u : Tok} (h : Starts .pattern u) : pairLeaf .LBracket u = none := by
  cases u <;> first | rfl | cases h

theorem not_pair_brace {u : Tok} (h : Starts .labels u) : pairLeaf .LBrace u = none := by
  obtain ⟨text, rfl⟩ := h
  rfl

/-- The leaves of a syntax are those of its tokens. -/
theorem written_tokens (s : PatSyn k) (toks : List Tok) :
    written (s.tokens ++ toks) = s.leaves ++ written toks := by
  induction s generalizing toks with
  | single c ih => exact ih toks
  | or c as ihc iha =>
    simp only [tokens, leaves, List.append_assoc]
    rw [ihc, iha]
  | lastAlt c ih =>
    simp only [tokens, leaves, List.cons_append]
    rw [written_skip (fun _ => rfl) rfl, ih]
  | alt c as ihc iha =>
    simp only [tokens, leaves, List.append_assoc, List.cons_append]
    rw [written_skip (fun _ => rfl) rfl, ihc, iha]
  | plain a ih => exact ih toks
  | aliased a name ih =>
    simp only [tokens, leaves, List.append_assoc, List.cons_append, List.nil_append]
    rw [ih, written_skip (fun _ => rfl) rfl, written_ident]
  | cons a tail iha iht =>
    simp only [tokens, leaves, List.append_assoc, List.cons_append]
    rw [iha, written_skip (fun _ => rfl) rfl, iht]
  | consAliased a tail name iha iht =>
    simp only [tokens, leaves, List.append_assoc, List.cons_append, List.nil_append]
    rw [iha, written_skip (fun _ => rfl) rfl, iht, written_skip (fun _ => rfl) rfl, written_ident]
  | apply head ss ihh ihs =>
    simp only [tokens, leaves, List.append_assoc]
    rw [ihh, ihs]
  | noSubs => rfl
  | sub a ss iha ihs =>
    simp only [tokens, leaves, List.append_assoc]
    rw [iha, ihs]
  | wildcard => exact written_single (fun _ => rfl) toks
  | int n => exact written_single (fun _ => rfl) toks
  | negInt n => exact written_pair rfl toks
  | str value => exact written_single (fun _ => rfl) toks
  | tripleStr raw anchor => exact written_single (fun _ => rfl) toks
  | char value => exact written_single (fun _ => rfl) toks
  | name text => exact written_ident text toks
  | unit => exact written_pair rfl toks
  | group p ih =>
    simp only [tokens, leaves, List.append_assoc, List.cons_append]
    rw [p.written_open (by simp) (fun u => not_pair_paren) rfl, ih, List.nil_append,
      written_skip (fun _ => rfl) rfl]
  | tuple p es ihp ihe =>
    simp only [tokens, leaves, List.append_assoc, List.cons_append]
    rw [p.written_open (by simp) (fun u => not_pair_paren) rfl, ihp, ihe, List.nil_append,
      written_skip (fun _ => rfl) rfl]
  | record ls ih =>
    simp only [tokens, leaves, List.append_assoc, List.cons_append]
    rw [ls.written_open (by simp) (fun u => not_pair_brace) rfl, ih, List.nil_append,
      written_skip (fun _ => rfl) rfl]
  | emptyList => exact written_pair rfl toks
  | listOne p ih =>
    simp only [tokens, leaves, List.append_assoc, List.cons_append]
    rw [p.written_open (by simp) (fun u => not_pair_bracket) rfl, ih, List.nil_append,
      written_skip (fun _ => rfl) rfl]
  | list p es ihp ihe =>
    simp only [tokens, leaves, List.append_assoc, List.cons_append]
    rw [p.written_open (by simp) (fun u => not_pair_bracket) rfl, ihp, ihe, List.nil_append,
      written_skip (fun _ => rfl) rfl]
  | lastElem p ih =>
    simp only [tokens, leaves, List.cons_append]
    rw [written_skip (fun _ => rfl) rfl, ih]
  | elem p es ihp ihe =>
    simp only [tokens, leaves, List.append_assoc, List.cons_append]
    rw [written_skip (fun _ => rfl) rfl, ihp, ihe]
  | lastLabel label => exact written_ident label toks
  | label label ls ih =>
    simp only [tokens, leaves, List.cons_append]
    rw [written_ident, written_skip (fun _ => rfl) rfl, ih]

/-! ### One syntax -/

/-- A pattern that can have no alias any more. -/
def saturated : {k : PatCat} → PatSyn k → Bool
  | _, aliased _ _ => true
  | _, consAliased _ _ _ => true
  | _, _ => false

/-- A list has an alias only if its tail can have none: an alias is that of the innermost pattern. -/
def AliasInnermost : {k : PatCat} → PatSyn k → Prop
  | _, single c => c.AliasInnermost
  | _, or c as => c.AliasInnermost ∧ as.AliasInnermost
  | _, lastAlt c => c.AliasInnermost
  | _, alt c as => c.AliasInnermost ∧ as.AliasInnermost
  | _, plain a => a.AliasInnermost
  | _, aliased a _ => a.AliasInnermost
  | _, cons a tail => a.AliasInnermost ∧ tail.AliasInnermost
  | _, consAliased a tail _ => a.AliasInnermost ∧ tail.AliasInnermost ∧ tail.saturated = true
  | _, apply head ss => head.AliasInnermost ∧ ss.AliasInnermost
  | _, sub a ss => a.AliasInnermost ∧ ss.AliasInnermost
  | _, group p => p.AliasInnermost
  | _, tuple p es => p.AliasInnermost ∧ es.AliasInnermost
  | _, listOne p => p.AliasInnermost
  | _, list p es => p.AliasInnermost ∧ es.AliasInnermost
  | _, lastElem p => p.AliasInnermost
  | _, elem p es => p.AliasInnermost ∧ es.AliasInnermost
  | _, _ => True

theorem aliasInnermost_labels (ls : PatSyn .labels) : ls.AliasInnermost := by
  cases ls <;> trivial

/-- Tokens that continue a syntax, if they follow it. -/
def continues (k : PatCat) (saturated : Bool) (t : Tok) : Bool :=
  match k with
  | .pattern | .alts => startsAtom t || t == .ColonColon || t == .As || t == .Pipe
  | .elems => startsAtom t || t == .ColonColon || t == .As || t == .Pipe || t == .Comma
  | .consAs => startsAtom t || t == .ColonColon || (!saturated && t == .As)
  | .app | .subs => startsAtom t
  | .atom => false
  | .labels => t == .Comma

/-- What follows a syntax does not continue it. -/
def Ends (s : PatSyn k) (toks : List Tok) : Prop :=
  ∀ t ∈ toks.head?, continues k s.saturated t = false

theorem ends_cons {s : PatSyn k} {t : Tok} {toks : List Tok} :
    Ends s (t :: toks) ↔ continues k s.saturated t = false := by
  unfold Ends
  simp

/-- A closing token continues nothing. -/
theorem ends_close {s : PatSyn k} {t : Tok} (h : t = .RParen ∨ t = .RBrace ∨ t = .RBracket)
    (toks : List Tok) : Ends s (t :: toks) := by
  rw [ends_cons]
  rcases h with rfl | rfl | rfl <;> cases k <;> cases s.saturated <;> rfl

theorem ends_atom (s : PatSyn .atom) (toks : List Tok) : Ends s toks := fun _ _ => rfl

/-- What ends a part ends what it ends with. -/
theorem Ends.mono {k k' : PatCat} {s : PatSyn k} {s' : PatSyn k'} {toks : List Tok} (h : Ends s toks)
    (hle : ∀ t, continues k s.saturated t = false → continues k' s'.saturated t = false) :
    Ends s' toks := fun t ht => hle t (h t ht)

theorem Ends.consAs {s : PatSyn .pattern} {toks : List Tok} (h : Ends s toks)
    (s' : PatSyn .consAs) : Ends s' toks := by
  refine h.mono fun t ht => ?_
  unfold continues at ht ⊢
  revert ht
  cases startsAtom t <;> cases (t == Tok.ColonColon) <;> cases (t == Tok.As) <;> simp

theorem Ends.alts_consAs {s : PatSyn .alts} {toks : List Tok} (h : Ends s toks)
    (s' : PatSyn .consAs) : Ends s' toks := by
  refine h.mono fun t ht => ?_
  unfold continues at ht ⊢
  revert ht
  cases startsAtom t <;> cases (t == Tok.ColonColon) <;> cases (t == Tok.As) <;> simp

theorem Ends.pattern {s : PatSyn .elems} {toks : List Tok} (h : Ends s toks)
    (s' : PatSyn .pattern) : Ends s' toks := by
  refine h.mono fun t ht => ?_
  unfold continues at ht ⊢
  exact (Bool.or_eq_false_iff.1 ht).1

theorem Ends.app {s : PatSyn .consAs} {toks : List Tok} (h : Ends s toks) (s' : PatSyn .app) :
    Ends s' toks := by
  refine h.mono fun t ht => ?_
  unfold continues at ht ⊢
  exact (Bool.or_eq_false_iff.1 (Bool.or_eq_false_iff.1 ht).1).1

/-- The tail of a list ends where the list does, if that has no alias. -/
theorem Ends.tail {s s' : PatSyn .consAs} {toks : List Tok} (h : Ends s toks)
    (hs : s.saturated = false) : Ends s' toks := by
  refine h.mono fun t ht => ?_
  rw [hs] at ht
  unfold continues at ht ⊢
  revert ht
  cases startsAtom t <;> cases (t == Tok.ColonColon) <;> cases (t == Tok.As) <;> simp

theorem not_ends_as {s : PatSyn .consAs} (hs : s.saturated = false) {toks : List Tok} :
    ¬ Ends s (.As :: toks) := by
  rw [ends_cons, hs]
  decide

theorem not_ends_cons {s : PatSyn .consAs} {toks : List Tok} : ¬ Ends s (.ColonColon :: toks) := by
  rw [ends_cons]
  cases s.saturated <;> decide

theorem ends_as {s : PatSyn .consAs} (hs : s.saturated = true) (toks : List Tok) :
    Ends s (.As :: toks) := by
  rw [ends_cons, hs]
  rfl

theorem ends_pipe (s : PatSyn .consAs) (toks : List Tok) : Ends s (.Pipe :: toks) := by
  rw [ends_cons]
  cases s.saturated <;> rfl

theorem ends_comma (s : PatSyn .pattern) (toks : List Tok) : Ends s (.Comma :: toks) := by
  rw [ends_cons]
  rfl

theorem ends_app {t : Tok} (ht : t = .As ∨ t = .ColonColon) (s : PatSyn .app) (toks : List Tok) :
    Ends s (t :: toks) := by
  rw [ends_cons]
  rcases ht with rfl | rfl <;> rfl

theorem not_ends_atom (a : PatSyn .atom) {s : PatSyn .subs} {toks : List Tok} :
    ¬ Ends s (a.tokens ++ toks) := by
  obtain ⟨t, rest, htoks, ht⟩ := a.exists_tokens (by simp)
  rw [htoks, List.cons_append, ends_cons]
  intro hnot
  cases (show startsAtom t = true from ht).symm.trans hnot

theorem exists_elems (es : PatSyn .elems) : ∃ toks, es.tokens = .Comma :: toks := by
  obtain ⟨t, rest, htoks, rfl⟩ := es.exists_tokens (by simp)
  exact ⟨rest, htoks⟩

theorem exists_alts (as : PatSyn .alts) : ∃ toks, as.tokens = .Pipe :: toks := by
  obtain ⟨t, rest, htoks, rfl⟩ := as.exists_tokens (by simp)
  exact ⟨rest, htoks⟩

theorem pattern_ne {t : Tok} (p : PatSyn .pattern) (ht : startsAtom t = false) {r r' : List Tok} :
    p.tokens ++ r ≠ t :: r' := by
  obtain ⟨u, rest, htoks, hu⟩ := p.exists_tokens (by simp)
  intro h
  rw [htoks] at h
  obtain ⟨rfl, -⟩ := List.cons_eq_cons.1 h
  cases (show startsAtom u = true from hu).symm.trans ht

theorem ends_alts (as : PatSyn .alts) (s : PatSyn .consAs) (toks : List Tok) :
    Ends s (as.tokens ++ toks) := by
  obtain ⟨rest, has⟩ := as.exists_alts
  rw [has]
  exact ends_pipe s _

theorem ends_elems (es : PatSyn .elems) (s : PatSyn .pattern) (toks : List Tok) :
    Ends s (es.tokens ++ toks) := by
  obtain ⟨rest, hes⟩ := es.exists_elems
  rw [hes]
  exact ends_comma s _

theorem not_ends_alts (as : PatSyn .alts) {s : PatSyn .pattern} {toks : List Tok} :
    ¬ Ends s (as.tokens ++ toks) := by
  obtain ⟨rest, has⟩ := as.exists_alts
  rw [has, List.cons_append, ends_cons]
  simp [continues]

theorem not_ends_alts' (as : PatSyn .alts) {s : PatSyn .alts} {toks : List Tok} :
    ¬ Ends s (as.tokens ++ toks) := by
  obtain ⟨rest, has⟩ := as.exists_alts
  rw [has, List.cons_append, ends_cons]
  simp [continues]

theorem not_ends_elems (es : PatSyn .elems) {s : PatSyn .elems} {toks : List Tok} :
    ¬ Ends s (es.tokens ++ toks) := by
  obtain ⟨rest, hes⟩ := es.exists_elems
  rw [hes, List.cons_append, ends_cons]
  simp [continues]

/-- Elements do not start with a closing token. -/
theorem elems_ne {t : Tok} (es : PatSyn .elems) (ht : t ≠ .Comma) {r r' : List Tok} :
    es.tokens ++ r ≠ t :: r' := by
  obtain ⟨rest, hes⟩ := es.exists_elems
  intro h
  rw [hes] at h
  exact ht (List.cons_eq_cons.1 h).1.symm

/-! ### One syntax -/

/-- The tokens of a syntax are those of no other one, whatever follows that ends both. -/
def Unique (s : PatSyn k) : Prop :=
  ∀ {s' : PatSyn k} {r r' : List Tok}, s.AliasInnermost → s'.AliasInnermost →
    s.tokens ++ r = s'.tokens ++ r' → Ends s r → Ends s' r' → s = s' ∧ r = r'

section Closed

-- One pattern, or several ones, up to the token that closes them.
variable {t : Tok} (ht : t = .RParen ∨ t = .RBrace ∨ t = .RBracket) {p p' : PatSyn .pattern}
  {es es' : PatSyn .elems} {r r' : List Tok}

include ht

theorem Unique.one (hp : Unique p) (hs : p.AliasInnermost) (hs' : p'.AliasInnermost)
    (h : p.tokens ++ t :: r = p'.tokens ++ t :: r') : p = p' ∧ r = r' := by
  obtain ⟨rfl, hrest⟩ := hp hs hs' h (ends_close ht _) (ends_close ht _)
  exact ⟨rfl, List.tail_eq_of_cons_eq hrest⟩

/-- After a single pattern the closing token stands where the first comma would. -/
theorem Unique.one_ne_more (hp : Unique p) (hs : p.AliasInnermost) (hs' : p'.AliasInnermost) :
    p.tokens ++ t :: r ≠ p'.tokens ++ (es'.tokens ++ t :: r') := by
  intro h
  obtain ⟨-, hrest⟩ := hp hs hs' h (ends_close ht _) (ends_elems es' _ _)
  refine es'.elems_ne ?_ hrest.symm
  rcases ht with rfl | rfl | rfl <;> simp

theorem Unique.more_ne_one (hp : Unique p) (hs : p.AliasInnermost) (hs' : p'.AliasInnermost) :
    p.tokens ++ (es.tokens ++ t :: r) ≠ p'.tokens ++ t :: r' := by
  intro h
  obtain ⟨-, hrest⟩ := hp hs hs' h (ends_elems es _ _) (ends_close ht _)
  refine es.elems_ne ?_ hrest
  rcases ht with rfl | rfl | rfl <;> simp

theorem Unique.more (hp : Unique p) (he : Unique es) (hs : p.AliasInnermost ∧ es.AliasInnermost)
    (hs' : p'.AliasInnermost ∧ es'.AliasInnermost)
    (h : p.tokens ++ (es.tokens ++ t :: r) = p'.tokens ++ (es'.tokens ++ t :: r')) :
    p = p' ∧ es = es' ∧ r = r' := by
  obtain ⟨rfl, hrest⟩ := hp hs.1 hs'.1 h (ends_elems es _ _) (ends_elems es' _ _)
  obtain ⟨rfl, hclose⟩ := he hs.2 hs'.2 hrest (ends_close ht _) (ends_close ht _)
  exact ⟨rfl, rfl, List.tail_eq_of_cons_eq hclose⟩

end Closed

/-- Tokens have one syntax. -/
theorem unique {s s' : PatSyn k} {r r' : List Tok} (hs : s.AliasInnermost) (hs' : s'.AliasInnermost)
    (h : s.tokens ++ r = s'.tokens ++ r') (hr : Ends s r) (hr' : Ends s' r') : s = s' ∧ r = r' := by
  have hrp : Tok.RParen = .RParen ∨ Tok.RParen = .RBrace ∨ Tok.RParen = .RBracket := Or.inl rfl
  have hrb : Tok.RBrace = .RParen ∨ Tok.RBrace = .RBrace ∨ Tok.RBrace = .RBracket :=
    Or.inr (Or.inl rfl)
  have hrk : Tok.RBracket = .RParen ∨ Tok.RBracket = .RBrace ∨ Tok.RBracket = .RBracket :=
    Or.inr (Or.inr rfl)
  -- If the one went on where the other ends, what follows would continue the other (`Ends`).
  induction s generalizing r r' with
  | single c ih =>
    cases s' with
    | single c' =>
      obtain ⟨rfl, rfl⟩ := ih hs hs' h (hr.consAs _) (hr'.consAs _)
      exact ⟨rfl, rfl⟩
    | or c' as' =>
      simp only [tokens, List.append_assoc] at h
      obtain ⟨rfl, rfl⟩ := ih hs hs'.1 h (hr.consAs _) (ends_alts as' _ _)
      exact absurd hr (not_ends_alts as')
  | or c as ihc iha =>
    cases s' with
    | single c' =>
      simp only [tokens, List.append_assoc] at h
      obtain ⟨rfl, rfl⟩ := ihc hs.1 hs' h (ends_alts as _ _) (hr'.consAs _)
      exact absurd hr' (not_ends_alts as)
    | or c' as' =>
      simp only [tokens, List.append_assoc] at h
      obtain ⟨rfl, hrest⟩ := ihc hs.1 hs'.1 h (ends_alts as _ _) (ends_alts as' _ _)
      obtain ⟨rfl, rfl⟩ := iha hs.2 hs'.2 hrest hr hr'
      exact ⟨rfl, rfl⟩
  | lastAlt c ih =>
    cases s' with
    | lastAlt c' =>
      obtain ⟨rfl, rfl⟩ := ih hs hs' (List.tail_eq_of_cons_eq h) (hr.alts_consAs _) (hr'.alts_consAs _)
      exact ⟨rfl, rfl⟩
    | alt c' as' =>
      simp only [tokens, List.append_assoc, List.cons_append] at h
      obtain ⟨rfl, rfl⟩ := ih hs hs'.1 (List.tail_eq_of_cons_eq h) (hr.alts_consAs _) (ends_alts as' _ _)
      exact absurd hr (not_ends_alts' as')
  | alt c as ihc iha =>
    cases s' with
    | lastAlt c' =>
      simp only [tokens, List.append_assoc, List.cons_append] at h
      obtain ⟨rfl, rfl⟩ := ihc hs.1 hs' (List.tail_eq_of_cons_eq h) (ends_alts as _ _)
        (hr'.alts_consAs _)
      exact absurd hr' (not_ends_alts' as)
    | alt c' as' =>
      simp only [tokens, List.append_assoc, List.cons_append] at h
      obtain ⟨rfl, hrest⟩ := ihc hs.1 hs'.1 (List.tail_eq_of_cons_eq h) (ends_alts as _ _)
        (ends_alts as' _ _)
      obtain ⟨rfl, rfl⟩ := iha hs.2 hs'.2 hrest hr hr'
      exact ⟨rfl, rfl⟩
  | plain a ih =>
    cases s' with
    | plain a' =>
      obtain ⟨rfl, rfl⟩ := ih hs hs' h (hr.app _) (hr'.app _)
      exact ⟨rfl, rfl⟩
    | aliased a' x' =>
      simp only [tokens, List.append_assoc, List.cons_append, List.nil_append] at h
      obtain ⟨rfl, rfl⟩ := ih hs hs' h (hr.app _) (ends_app (Or.inl rfl) _ _)
      exact absurd hr (not_ends_as rfl)
    | cons a' tail' =>
      simp only [tokens, List.append_assoc, List.cons_append] at h
      obtain ⟨rfl, rfl⟩ := ih hs hs'.1 h (hr.app _) (ends_app (Or.inr rfl) _ _)
      exact absurd hr not_ends_cons
    | consAliased a' tail' x' =>
      simp only [tokens, List.append_assoc, List.cons_append] at h
      obtain ⟨rfl, rfl⟩ := ih hs hs'.1 h (hr.app _) (ends_app (Or.inr rfl) _ _)
      exact absurd hr not_ends_cons
  | aliased a x ih =>
    cases s' with
    | plain a' =>
      simp only [tokens, List.append_assoc, List.cons_append, List.nil_append] at h
      obtain ⟨rfl, rfl⟩ := ih hs hs' h (ends_app (Or.inl rfl) _ _) (hr'.app _)
      exact absurd hr' (not_ends_as rfl)
    | aliased a' x' =>
      simp only [tokens, List.append_assoc, List.cons_append, List.nil_append] at h
      obtain ⟨rfl, hrest⟩ := ih hs hs' h (ends_app (Or.inl rfl) _ _) (ends_app (Or.inl rfl) _ _)
      cases hrest
      exact ⟨rfl, rfl⟩
    | cons a' tail' =>
      simp only [tokens, List.append_assoc, List.cons_append, List.nil_append] at h
      obtain ⟨-, hrest⟩ := ih hs hs'.1 h (ends_app (Or.inl rfl) _ _) (ends_app (Or.inr rfl) _ _)
      cases List.head_eq_of_cons_eq hrest
    | consAliased a' tail' x' =>
      simp only [tokens, List.append_assoc, List.cons_append, List.nil_append] at h
      obtain ⟨-, hrest⟩ := ih hs hs'.1 h (ends_app (Or.inl rfl) _ _) (ends_app (Or.inr rfl) _ _)
      cases List.head_eq_of_cons_eq hrest
  | cons a tail iha iht =>
    cases s' with
    | plain a' =>
      simp only [tokens, List.append_assoc, List.cons_append] at h
      obtain ⟨rfl, rfl⟩ := iha hs.1 hs' h (ends_app (Or.inr rfl) _ _) (hr'.app _)
      exact absurd hr' not_ends_cons
    | aliased a' x' =>
      simp only [tokens, List.append_assoc, List.cons_append, List.nil_append] at h
      obtain ⟨-, hrest⟩ := iha hs.1 hs' h (ends_app (Or.inr rfl) _ _) (ends_app (Or.inl rfl) _ _)
      cases List.head_eq_of_cons_eq hrest
    | cons a' tail' =>
      simp only [tokens, List.append_assoc, List.cons_append] at h
      obtain ⟨rfl, hrest⟩ := iha hs.1 hs'.1 h (ends_app (Or.inr rfl) _ _) (ends_app (Or.inr rfl) _ _)
      obtain ⟨rfl, rfl⟩ := iht hs.2 hs'.2 (List.tail_eq_of_cons_eq hrest) (hr.tail rfl) (hr'.tail rfl)
      exact ⟨rfl, rfl⟩
    | consAliased a' tail' x' =>
      simp only [tokens, List.append_assoc, List.cons_append, List.nil_append] at h
      obtain ⟨rfl, hrest⟩ := iha hs.1 hs'.1 h (ends_app (Or.inr rfl) _ _) (ends_app (Or.inr rfl) _ _)
      obtain ⟨-, rfl⟩ := iht hs.2 hs'.2.1 (List.tail_eq_of_cons_eq hrest) (hr.tail rfl)
        (ends_as hs'.2.2 _)
      exact absurd hr (not_ends_as rfl)
  | consAliased a tail x iha iht =>
    cases s' with
    | plain a' =>
      simp only [tokens, List.append_assoc, List.cons_append] at h
      obtain ⟨rfl, rfl⟩ := iha hs.1 hs' h (ends_app (Or.inr rfl) _ _) (hr'.app _)
      exact absurd hr' not_ends_cons
    | aliased a' x' =>
      simp only [tokens, List.append_assoc, List.cons_append, List.nil_append] at h
      obtain ⟨-, hrest⟩ := iha hs.1 hs' h (ends_app (Or.inr rfl) _ _) (ends_app (Or.inl rfl) _ _)
      cases List.head_eq_of_cons_eq hrest
    | cons a' tail' =>
      simp only [tokens, List.append_assoc, List.cons_append, List.nil_append] at h
      obtain ⟨rfl, hrest⟩ := iha hs.1 hs'.1 h (ends_app (Or.inr rfl) _ _) (ends_app (Or.inr rfl) _ _)
      obtain ⟨-, rfl⟩ := iht hs.2.1 hs'.2 (List.tail_eq_of_cons_eq hrest) (ends_as hs.2.2 _)
        (hr'.tail rfl)
      exact absurd hr' (not_ends_as rfl)
    | consAliased a' tail' x' =>
      simp only [tokens, List.append_assoc, List.cons_append, List.nil_append] at h
      obtain ⟨rfl, hrest⟩ := iha hs.1 hs'.1 h (ends_app (Or.inr rfl) _ _) (ends_app (Or.inr rfl) _ _)
      obtain ⟨rfl, hrest'⟩ := iht hs.2.1 hs'.2.1 (List.tail_eq_of_cons_eq hrest) (ends_as hs.2.2 _)
        (ends_as hs'.2.2 _)
      cases hrest'
      exact ⟨rfl, rfl⟩
  | apply head ss ihh ihs =>
    obtain ⟨head', ss'⟩ := s'
    simp only [tokens, List.append_assoc] at h
    obtain ⟨rfl, hrest⟩ := ihh hs.1 hs'.1 h (ends_atom _ _) (ends_atom _ _)
    obtain ⟨rfl, rfl⟩ := ihs hs.2 hs'.2 hrest hr hr'
    exact ⟨rfl, rfl⟩
  | noSubs =>
    cases s' with
    | noSubs => exact ⟨rfl, h⟩
    | sub a' ss' =>
      simp only [tokens, List.append_assoc, List.nil_append] at h
      exact absurd (h ▸ hr) (not_ends_atom a')
  | sub a ss iha ihs =>
    cases s' with
    | noSubs =>
      simp only [tokens, List.append_assoc, List.nil_append] at h
      exact absurd (h ▸ hr') (not_ends_atom a)
    | sub a' ss' =>
      simp only [tokens, List.append_assoc] at h
      obtain ⟨rfl, hrest⟩ := iha hs.1 hs'.1 h (ends_atom _ _) (ends_atom _ _)
      obtain ⟨rfl, rfl⟩ := ihs hs.2 hs'.2 hrest hr hr'
      exact ⟨rfl, rfl⟩
  | wildcard =>
    cases s' with
    | wildcard => exact ⟨rfl, List.tail_eq_of_cons_eq h⟩
    | _ => cases List.head_eq_of_cons_eq h
  | int n =>
    cases s' with
    | int n' =>
      obtain ⟨hhead, rfl⟩ := List.cons_eq_cons.1 h
      cases hhead
      exact ⟨rfl, rfl⟩
    | _ => cases List.head_eq_of_cons_eq h
  | negInt n =>
    cases s' with
    | negInt n' =>
      obtain ⟨hhead, rfl⟩ := List.cons_eq_cons.1 (List.tail_eq_of_cons_eq h)
      cases hhead
      exact ⟨rfl, rfl⟩
    | _ => cases List.head_eq_of_cons_eq h
  | str value =>
    cases s' with
    | str value' =>
      obtain ⟨hhead, rfl⟩ := List.cons_eq_cons.1 h
      cases hhead
      exact ⟨rfl, rfl⟩
    | _ => cases List.head_eq_of_cons_eq h
  | tripleStr raw anchor =>
    cases s' with
    | tripleStr raw' anchor' =>
      obtain ⟨hhead, rfl⟩ := List.cons_eq_cons.1 h
      cases hhead
      exact ⟨rfl, rfl⟩
    | _ => cases List.head_eq_of_cons_eq h
  | char value =>
    cases s' with
    | char value' =>
      obtain ⟨hhead, rfl⟩ := List.cons_eq_cons.1 h
      cases hhead
      exact ⟨rfl, rfl⟩
    | _ => cases List.head_eq_of_cons_eq h
  | name text =>
    cases s' with
    | name text' =>
      obtain ⟨hhead, rfl⟩ := List.cons_eq_cons.1 h
      cases hhead
      exact ⟨rfl, rfl⟩
    | _ => cases List.head_eq_of_cons_eq h
  | unit =>
    cases s' with
    | unit => exact ⟨rfl, List.tail_eq_of_cons_eq (List.tail_eq_of_cons_eq h)⟩
    | group p' =>
      simp only [tokens, List.append_assoc, List.cons_append] at h
      exact absurd (List.tail_eq_of_cons_eq h).symm (p'.pattern_ne rfl)
    | tuple p' es' =>
      simp only [tokens, List.append_assoc, List.cons_append] at h
      exact absurd (List.tail_eq_of_cons_eq h).symm (p'.pattern_ne rfl)
    | _ => cases List.head_eq_of_cons_eq h
  | group p ih =>
    cases s' with
    | unit =>
      simp only [tokens, List.append_assoc, List.cons_append] at h
      exact absurd (List.tail_eq_of_cons_eq h) (p.pattern_ne rfl)
    | group p' =>
      simp only [tokens, List.append_assoc, List.cons_append, List.nil_append] at h
      obtain ⟨rfl, rfl⟩ := Unique.one hrp ih hs hs' (List.tail_eq_of_cons_eq h)
      exact ⟨rfl, rfl⟩
    | tuple p' es' =>
      simp only [tokens, List.append_assoc, List.cons_append, List.nil_append] at h
      exact absurd (List.tail_eq_of_cons_eq h) (Unique.one_ne_more hrp ih hs hs'.1)
    | _ => cases List.head_eq_of_cons_eq h
  | tuple p es ihp ihe =>
    cases s' with
    | unit =>
      simp only [tokens, List.append_assoc, List.cons_append] at h
      exact absurd (List.tail_eq_of_cons_eq h) (p.pattern_ne rfl)
    | group p' =>
      simp only [tokens, List.append_assoc, List.cons_append, List.nil_append] at h
      exact absurd (List.tail_eq_of_cons_eq h) (Unique.more_ne_one hrp ihp hs.1 hs')
    | tuple p' es' =>
      simp only [tokens, List.append_assoc, List.cons_append, List.nil_append] at h
      obtain ⟨rfl, rfl, rfl⟩ := Unique.more hrp ihp ihe hs hs' (List.tail_eq_of_cons_eq h)
      exact ⟨rfl, rfl⟩
    | _ => cases List.head_eq_of_cons_eq h
  | record ls ih =>
    cases s' with
    | record ls' =>
      simp only [tokens, List.append_assoc, List.cons_append, List.nil_append] at h
      obtain ⟨rfl, hrest⟩ := ih (aliasInnermost_labels ls) (aliasInnermost_labels ls') (List.tail_eq_of_cons_eq h) (ends_close hrb _)
        (ends_close hrb _)
      exact ⟨rfl, List.tail_eq_of_cons_eq hrest⟩
    | _ => cases List.head_eq_of_cons_eq h
  | emptyList =>
    cases s' with
    | emptyList => exact ⟨rfl, List.tail_eq_of_cons_eq (List.tail_eq_of_cons_eq h)⟩
    | listOne p' =>
      simp only [tokens, List.append_assoc, List.cons_append] at h
      exact absurd (List.tail_eq_of_cons_eq h).symm (p'.pattern_ne rfl)
    | list p' es' =>
      simp only [tokens, List.append_assoc, List.cons_append] at h
      exact absurd (List.tail_eq_of_cons_eq h).symm (p'.pattern_ne rfl)
    | _ => cases List.head_eq_of_cons_eq h
  | listOne p ih =>
    cases s' with
    | emptyList =>
      simp only [tokens, List.append_assoc, List.cons_append] at h
      exact absurd (List.tail_eq_of_cons_eq h) (p.pattern_ne rfl)
    | listOne p' =>
      simp only [tokens, List.append_assoc, List.cons_append, List.nil_append] at h
      obtain ⟨rfl, rfl⟩ := Unique.one hrk ih hs hs' (List.tail_eq_of_cons_eq h)
      exact ⟨rfl, rfl⟩
    | list p' es' =>
      simp only [tokens, List.append_assoc, List.cons_append, List.nil_append] at h
      exact absurd (List.tail_eq_of_cons_eq h) (Unique.one_ne_more hrk ih hs hs'.1)
    | _ => cases List.head_eq_of_cons_eq h
  | list p es ihp ihe =>
    cases s' with
    | emptyList =>
      simp only [tokens, List.append_assoc, List.cons_append] at h
      exact absurd (List.tail_eq_of_cons_eq h) (p.pattern_ne rfl)
    | listOne p' =>
      simp only [tokens, List.append_assoc, List.cons_append, List.nil_append] at h
      exact absurd (List.tail_eq_of_cons_eq h) (Unique.more_ne_one hrk ihp hs.1 hs')
    | list p' es' =>
      simp only [tokens, List.append_assoc, List.cons_append, List.nil_append] at h
      obtain ⟨rfl, rfl, rfl⟩ := Unique.more hrk ihp ihe hs hs' (List.tail_eq_of_cons_eq h)
      exact ⟨rfl, rfl⟩
    | _ => cases List.head_eq_of_cons_eq h
  | lastElem p ih =>
    cases s' with
    | lastElem p' =>
      obtain ⟨rfl, rfl⟩ := ih hs hs' (List.tail_eq_of_cons_eq h) (hr.pattern _) (hr'.pattern _)
      exact ⟨rfl, rfl⟩
    | elem p' es' =>
      simp only [tokens, List.append_assoc, List.cons_append] at h
      obtain ⟨-, rfl⟩ := ih hs hs'.1 (List.tail_eq_of_cons_eq h) (hr.pattern _) (ends_elems es' _ _)
      exact absurd hr (not_ends_elems es')
  | elem p es ihp ihe =>
    cases s' with
    | lastElem p' =>
      simp only [tokens, List.append_assoc, List.cons_append] at h
      obtain ⟨-, rfl⟩ := ihp hs.1 hs' (List.tail_eq_of_cons_eq h) (ends_elems es _ _) (hr'.pattern _)
      exact absurd hr' (not_ends_elems es)
    | elem p' es' =>
      simp only [tokens, List.append_assoc, List.cons_append] at h
      obtain ⟨rfl, hrest⟩ := ihp hs.1 hs'.1 (List.tail_eq_of_cons_eq h) (ends_elems es _ _)
        (ends_elems es' _ _)
      obtain ⟨rfl, rfl⟩ := ihe hs.2 hs'.2 hrest hr hr'
      exact ⟨rfl, rfl⟩
  | lastLabel x =>
    cases s' with
    | lastLabel x' =>
      obtain ⟨hhead, rfl⟩ := List.cons_eq_cons.1 h
      cases hhead
      exact ⟨rfl, rfl⟩
    | label x' ls' =>
      obtain ⟨-, rfl⟩ := List.cons_eq_cons.1 h
      cases ends_cons.1 hr
  | label x ls ih =>
    cases s' with
    | lastLabel x' =>
      obtain ⟨-, rfl⟩ := List.cons_eq_cons.1 h
      cases ends_cons.1 hr'
    | label x' ls' =>
      obtain ⟨hhead, htail⟩ := List.cons_eq_cons.1 h
      obtain ⟨rfl, rfl⟩ := ih (aliasInnermost_labels ls) (aliasInnermost_labels ls') (List.tail_eq_of_cons_eq htail) hr hr'
      cases hhead
      exact ⟨rfl, rfl⟩

end PatSyn

end IpeLang.Parse
