import IpeLang.Parse.PatternGrammar
import IpeLang.Parse.Patterns

/-!
# The tree of a pattern

The tree that the parser makes of a syntax, and what of the syntax is in it.

* `PatSyn.leaves_tree_iff`: a tree has all leaves of its syntax exactly if no group that already has
  arguments is given further ones;
* `PatSyn.gives_parse`: the parser reads the syntax of what it gives;
* `PatSyn.parse_ended`: the fuel of its loops does not run out;
* `pattern_leaves_iff`: which patterns keep all that is written.
-/

namespace IpeLang.Parse

open Lib (Str Run)

mutual

/-- The names, the literals and the empty groups of a tree, from left to right. -/
def Pattern_.leaves : Pattern_ → List Leaf
  | .PAnything => [.wildcard]
  | .PDebugAnything => [.name "Debug._".toList]
  | .PVar name => [.name name]
  | .PCtor name mods subs => .name (['.'].intercalate (mods ++ [name])) :: patLeaves subs
  | .PUnit => [.unit]
  | .PTuple elems => patLeaves elems
  | .PRecord fields => fields.map .name
  | .PInt value => [.int value]
  | .PBool value => [.name (if value then "True".toList else "False".toList)]
  | .PChar value => [.char value]
  | .PStr value => [.str value]
  | .PAlias inner name => inner.leaves ++ [.name name]
  | .PList elems => if elems.isEmpty then [.emptyList] else patLeaves elems
  | .PCons head tail => head.leaves ++ tail.leaves
  | .POr alts => patLeaves alts

def patLeaves : List Pattern_ → List Leaf
  | [] => []
  | p :: ps => p.leaves ++ patLeaves ps

end

/-- The trees of the parts of a pattern. -/
@[reducible] def PatCat.Tree : PatCat → Type
  | .pattern | .consAs | .app | .atom => Pattern_
  | .alts | .subs | .elems => List Pattern_
  | .labels => List Str

/-- The leaves of a part. -/
def PatCat.leaves : (k : PatCat) → k.Tree → List Leaf
  | .pattern, p => Pattern_.leaves p
  | .consAs, p => Pattern_.leaves p
  | .app, p => Pattern_.leaves p
  | .atom, p => Pattern_.leaves p
  | .alts, ps => patLeaves ps
  | .subs, ps => patLeaves ps
  | .elems, ps => patLeaves ps
  | .labels, names => names.map .name

namespace PatSyn

variable {k : PatCat}

/-- The tree of a syntax. -/
def tree : {k : PatCat} → PatSyn k → k.Tree
  | _, single c => c.tree
  | _, or c as => Pattern_.POr (c.tree :: as.tree)
  | _, lastAlt c => [c.tree]
  | _, alt c as => c.tree :: as.tree
  | _, plain a => a.tree
  | _, aliased a x => Pattern_.PAlias a.tree x
  | _, cons a tail => Pattern_.PCons a.tree tail.tree
  | _, consAliased a tail x => Pattern_.PAlias (Pattern_.PCons a.tree tail.tree) x
  | _, apply head ss => withSubs head.tree ss.tree
  | _, noSubs => []
  | _, sub a ss => a.tree :: ss.tree
  | _, wildcard => Pattern_.PAnything
  | _, int n => Pattern_.PInt n.val
  | _, negInt n => Pattern_.PInt n.negated
  | _, str value => Pattern_.PStr value
  | _, tripleStr raw anchor => Pattern_.PStr (strip_anchor_margin raw anchor)
  | _, char value => Pattern_.PChar value
  | _, name text => namePattern text
  | _, unit => Pattern_.PUnit
  | _, group p => p.tree
  | _, tuple p es => Pattern_.PTuple (p.tree :: es.tree)
  | _, record ls => Pattern_.PRecord ls.tree
  | _, emptyList => Pattern_.PList []
  | _, listOne p => Pattern_.PList [p.tree]
  | _, list p es => Pattern_.PList (p.tree :: es.tree)
  | _, lastElem p => [p.tree]
  | _, elem p es => p.tree :: es.tree
  | _, lastLabel x => [x]
  | _, label x ls => x :: ls.tree

/-- There are arguments. -/
def hasSubs : PatSyn .subs → Bool
  | noSubs => false
  | sub _ _ => true

/-- A constructor with arguments, or a group of one. -/
def applied : {k : PatCat} → PatSyn k → Bool
  | _, single c => c.applied
  | _, plain a => a.applied
  | _, apply head ss => ss.hasSubs || head.applied
  | _, group p => p.applied
  | _, _ => false

/-- A group of a constructor with arguments is given further ones somewhere. -/
def reapplies : {k : PatCat} → PatSyn k → Bool
  | _, single c => c.reapplies
  | _, or c as => c.reapplies || as.reapplies
  | _, lastAlt c => c.reapplies
  | _, alt c as => c.reapplies || as.reapplies
  | _, plain a => a.reapplies
  | _, aliased a _ => a.reapplies
  | _, cons a tail => a.reapplies || tail.reapplies
  | _, consAliased a tail _ => a.reapplies || tail.reapplies
  | _, apply head ss => (ss.hasSubs && head.applied) || head.reapplies || ss.reapplies
  | _, sub a ss => a.reapplies || ss.reapplies
  | _, group p => p.reapplies
  | _, tuple p es => p.reapplies || es.reapplies
  | _, listOne p => p.reapplies
  | _, list p es => p.reapplies || es.reapplies
  | _, lastElem p => p.reapplies
  | _, elem p es => p.reapplies || es.reapplies
  | _, _ => false

/-- Only constructors have arguments. -/
def Valid : {k : PatCat} → PatSyn k → Prop
  | _, single c => c.Valid
  | _, or c as => c.Valid ∧ as.Valid
  | _, lastAlt c => c.Valid
  | _, alt c as => c.Valid ∧ as.Valid
  | _, plain a => a.Valid
  | _, aliased a _ => a.Valid
  | _, cons a tail => a.Valid ∧ tail.Valid
  | _, consAliased a tail _ => a.Valid ∧ tail.Valid
  | _, apply head ss => head.Valid ∧ ss.Valid ∧
      (ss.hasSubs = true → ∃ name mods subs, (head.tree : Pattern_) = .PCtor name mods subs)
  | _, sub a ss => a.Valid ∧ ss.Valid
  | _, group p => p.Valid
  | _, tuple p es => p.Valid ∧ es.Valid
  | _, listOne p => p.Valid
  | _, list p es => p.Valid ∧ es.Valid
  | _, lastElem p => p.Valid
  | _, elem p es => p.Valid ∧ es.Valid
  | _, _ => True

/-! ### The leaves of the tree -/

theorem leaves_namePattern (text : Str) : (namePattern text).leaves = [.name text] := by
  unfold namePattern
  split_ifs with h₁ h₂ h₃
  · rw [h₁]
    rfl
  · rw [h₂]
    rfl
  · rw [h₃]
    rfl
  · simp [Pattern_.leaves, patLeaves]
  · rfl

theorem tree_subs (ss : PatSyn .subs) :
    (ss.hasSubs = false ∧ ss = noSubs) ∨
      (ss.hasSubs = true ∧ ∃ p ps, (ss.tree : List Pattern_) = p :: ps) := by
  cases ss with
  | noSubs => exact Or.inl ⟨rfl, rfl⟩
  | sub a ss => exact Or.inr ⟨rfl, _, _, rfl⟩

theorem withSubs_nil (p : Pattern_) : withSubs p [] = p := by
  cases p <;> rfl

/-- The tree of a head with arguments. -/
theorem withSubs_eq {head : PatSyn .atom} {ss : PatSyn .subs} {name : Str} {mods : List Str}
    {subs : List Pattern_} (hhead : (head.tree : Pattern_) = .PCtor name mods subs)
    (hss : ss.hasSubs = true) : withSubs head.tree ss.tree = .PCtor name mods ss.tree := by
  rcases ss.tree_subs with ⟨hno, -⟩ | ⟨-, p, ps, hps⟩
  · rw [hno] at hss
    cases hss
  · rw [hps, hhead]
    rfl

theorem valid_labels (ls : PatSyn .labels) : ls.Valid := by
  cases ls <;> trivial

theorem reapplies_labels (ls : PatSyn .labels) : ls.reapplies = false := by
  cases ls <;> rfl

/-- The tree of an argument has a leaf. -/
def HasLeaf (k : PatCat) (t : k.Tree) : Prop := k ≠ .subs → k.leaves t ≠ []

theorem leaves_tree_ne_nil (s : PatSyn k) (hs : s.Valid) : HasLeaf k s.tree := by
  induction s with
  | single c ih => exact fun _ => ih hs (by simp)
  | or c as ih _ => exact fun _ => List.append_ne_nil_of_left_ne_nil (ih hs.1 (by simp)) _
  | lastAlt c ih => exact fun _ => List.append_ne_nil_of_left_ne_nil (ih hs (by simp)) _
  | alt c as ih _ => exact fun _ => List.append_ne_nil_of_left_ne_nil (ih hs.1 (by simp)) _
  | plain a ih => exact fun _ => ih hs (by simp)
  | aliased a x ih => exact fun _ => List.append_ne_nil_of_left_ne_nil (ih hs (by simp)) _
  | cons a tail ih _ => exact fun _ => List.append_ne_nil_of_left_ne_nil (ih hs.1 (by simp)) _
  | consAliased a tail x ih _ =>
    refine fun _ => List.append_ne_nil_of_left_ne_nil ?_ _
    exact List.append_ne_nil_of_left_ne_nil (ih hs.1 (by simp)) _
  | apply head ss ih _ =>
    intro _
    obtain ⟨hhead, -, hsubs⟩ := hs
    show Pattern_.leaves (withSubs head.tree ss.tree) ≠ []
    rcases ss.tree_subs with ⟨-, rfl⟩ | ⟨hss, -⟩
    · show Pattern_.leaves (withSubs head.tree []) ≠ []
      rw [withSubs_nil]
      exact ih hhead (by simp)
    · obtain ⟨name, mods, subs, hctor⟩ := hsubs hss
      rw [withSubs_eq hctor hss]
      exact List.cons_ne_nil _ _
  | noSubs => exact fun hk => absurd rfl hk
  | sub a ss _ _ => exact fun hk => absurd rfl hk
  | name text =>
    intro _
    show Pattern_.leaves (namePattern text) ≠ []
    rw [leaves_namePattern]
    exact List.cons_ne_nil _ _
  | group p ih => exact fun _ => ih hs (by simp)
  | tuple p es ih _ => exact fun _ => List.append_ne_nil_of_left_ne_nil (ih hs.1 (by simp)) _
  | record ls ih => exact fun _ => ih (valid_labels ls) (by simp)
  | listOne p ih => exact fun _ => List.append_ne_nil_of_left_ne_nil (ih hs (by simp)) _
  | list p es ih _ => exact fun _ => List.append_ne_nil_of_left_ne_nil (ih hs.1 (by simp)) _
  | lastElem p ih => exact fun _ => List.append_ne_nil_of_left_ne_nil (ih hs (by simp)) _
  | elem p es ih _ => exact fun _ => List.append_ne_nil_of_left_ne_nil (ih hs.1 (by simp)) _
  | _ => exact fun _ => List.cons_ne_nil _ _

/-- Whether a constructor has arguments. -/
def Carries (p : Pattern_) (b : Bool) : Prop :=
  ∀ name mods subs, p = .PCtor name mods subs → (b = false → subs = []) ∧ (b = true → patLeaves subs ≠ [])

/-- Whether the tree of a part that is a pattern has arguments. -/
def CatCarries : (k : PatCat) → k.Tree → Bool → Prop
  | .pattern, p, b => Carries p b
  | .consAs, p, b => Carries p b
  | .app, p, b => Carries p b
  | .atom, p, b => Carries p b
  | _, _, _ => True

theorem carries_namePattern (text : Str) : Carries (namePattern text) false := by
  unfold namePattern
  split_ifs
  · rintro name mods subs ⟨⟩
  · rintro name mods subs ⟨⟩
  · rintro name mods subs ⟨⟩
  · rintro name mods subs ⟨⟩
    exact ⟨fun _ => rfl, fun hb => Bool.noConfusion hb⟩
  · rintro name mods subs ⟨⟩

/-- A constructor has arguments in the tree exactly if it has in the syntax. -/
theorem carries_tree (s : PatSyn k) (hs : s.Valid) : CatCarries k s.tree s.applied := by
  induction s with
  | single c ih => exact ih hs
  | plain a ih => exact ih hs
  | apply head ss ih _ =>
    obtain ⟨hhead, hss, hsubs⟩ := hs
    cases ss with
    | noSubs =>
      show Carries (withSubs head.tree []) head.applied
      rw [withSubs_nil]
      exact ih hhead
    | sub a ss =>
      obtain ⟨name, mods, subs, hctor⟩ := hsubs rfl
      intro name' mods' subs' htree
      have hhas : (sub a ss).hasSubs = true := rfl
      have heq := (withSubs_eq hctor hhas).symm.trans htree
      cases heq
      have hne : Pattern_.leaves a.tree ≠ [] := a.leaves_tree_ne_nil hss.1 (by simp)
      refine ⟨fun hb => (Bool.noConfusion hb), fun _ => ?_⟩
      exact List.append_ne_nil_of_left_ne_nil hne _
  | name text => exact carries_namePattern text
  | group p ih => exact ih hs
  | or c as _ _ => rintro name mods subs ⟨⟩
  | aliased a x _ => rintro name mods subs ⟨⟩
  | cons a tail _ _ => rintro name mods subs ⟨⟩
  | consAliased a tail x _ _ => rintro name mods subs ⟨⟩
  | wildcard => rintro name mods subs ⟨⟩
  | int n => rintro name mods subs ⟨⟩
  | negInt n => rintro name mods subs ⟨⟩
  | str value => rintro name mods subs ⟨⟩
  | tripleStr raw anchor => rintro name mods subs ⟨⟩
  | char value => rintro name mods subs ⟨⟩
  | unit => rintro name mods subs ⟨⟩
  | tuple p es _ _ => rintro name mods subs ⟨⟩
  | record ls _ => rintro name mods subs ⟨⟩
  | emptyList => rintro name mods subs ⟨⟩
  | listOne p _ => rintro name mods subs ⟨⟩
  | list p es _ _ => rintro name mods subs ⟨⟩
  | _ => trivial

/-- The head of an application with arguments, and what there is of it in the tree. -/
theorem exists_head {head : PatSyn .atom} {ss : PatSyn .subs} (hs : (apply head ss).Valid)
    (hss : ss.hasSubs = true) : ∃ leaf subs,
      Pattern_.leaves head.tree = leaf :: patLeaves subs ∧
      Pattern_.leaves (apply head ss).tree = leaf :: patLeaves ss.tree ∧
      (head.applied = false → subs = []) ∧ (head.applied = true → patLeaves subs ≠ []) := by
  obtain ⟨hhead, -, hsubs⟩ := hs
  obtain ⟨name, mods, subs, hctor⟩ := hsubs hss
  have hcarries : Carries head.tree head.applied := head.carries_tree hhead
  refine ⟨.name (['.'].intercalate (mods ++ [name])), subs, ?_, ?_, hcarries name mods subs hctor⟩
  · rw [hctor]
    rfl
  · show Pattern_.leaves (withSubs head.tree ss.tree) = _
    rw [withSubs_eq hctor hss]
    rfl

theorem leaves_apply_noSubs (head : PatSyn .atom) :
    Pattern_.leaves (apply head noSubs).tree = Pattern_.leaves head.tree := by
  show Pattern_.leaves (withSubs head.tree []) = _
  rw [withSubs_nil]

/-- A tree has the leaves of its syntax, if no group that has arguments is given further ones. -/
theorem leaves_tree (s : PatSyn k) (hs : s.Valid) (hr : s.reapplies = false) :
    k.leaves s.tree = s.leaves := by
  induction s with
  | single c ih => exact ih hs hr
  | or c as ihc iha =>
    obtain ⟨hrc, hra⟩ := Bool.or_eq_false_iff.1 hr
    exact congrArg₂ (· ++ ·) (ihc hs.1 hrc) (iha hs.2 hra)
  | lastAlt c ih => exact (List.append_nil _).trans (ih hs hr)
  | alt c as ihc iha =>
    obtain ⟨hrc, hra⟩ := Bool.or_eq_false_iff.1 hr
    exact congrArg₂ (· ++ ·) (ihc hs.1 hrc) (iha hs.2 hra)
  | plain a ih => exact ih hs hr
  | aliased a x ih => exact congrArg (· ++ [Leaf.name x]) (ih hs hr)
  | cons a tail iha iht =>
    obtain ⟨hra, hrt⟩ := Bool.or_eq_false_iff.1 hr
    exact congrArg₂ (· ++ ·) (iha hs.1 hra) (iht hs.2 hrt)
  | consAliased a tail x iha iht =>
    obtain ⟨hra, hrt⟩ := Bool.or_eq_false_iff.1 hr
    exact congrArg (· ++ [Leaf.name x]) (congrArg₂ (· ++ ·) (iha hs.1 hra) (iht hs.2 hrt))
  | apply head ss ihh ihs =>
    obtain ⟨hr, hrs⟩ := Bool.or_eq_false_iff.1 hr
    obtain ⟨hboth, hrhead⟩ := Bool.or_eq_false_iff.1 hr
    have hhead : Pattern_.leaves head.tree = head.leaves := ihh hs.1 hrhead
    have hsubs : patLeaves ss.tree = ss.leaves := ihs hs.2.1 hrs
    show Pattern_.leaves (apply head ss).tree = head.leaves ++ ss.leaves
    rcases ss.tree_subs with ⟨-, rfl⟩ | ⟨hss, -⟩
    · rw [leaves_apply_noSubs, hhead]
      exact (List.append_nil _).symm
    · obtain ⟨leaf, subs, hold, hnew, hnone, -⟩ := exists_head hs hss
      have happlied : head.applied = false := by simpa [hss] using hboth
      rw [hnew, ← hhead, hold, hnone happlied, hsubs]
      rfl
  | noSubs => rfl
  | sub a ss iha ihs =>
    obtain ⟨hra, hrs⟩ := Bool.or_eq_false_iff.1 hr
    exact congrArg₂ (· ++ ·) (iha hs.1 hra) (ihs hs.2 hrs)
  | wildcard => rfl
  | int n => rfl
  | negInt n => exact congrArg (fun v => [Leaf.int v]) n.negated_eq
  | str value => rfl
  | tripleStr raw anchor => rfl
  | char value => rfl
  | name text => exact leaves_namePattern text
  | unit => rfl
  | group p ih => exact ih hs hr
  | tuple p es ihp ihe =>
    obtain ⟨hrp, hre⟩ := Bool.or_eq_false_iff.1 hr
    exact congrArg₂ (· ++ ·) (ihp hs.1 hrp) (ihe hs.2 hre)
  | record ls ih => exact ih (valid_labels ls) (reapplies_labels ls)
  | emptyList => rfl
  | listOne p ih => exact (List.append_nil _).trans (ih hs hr)
  | list p es ihp ihe =>
    obtain ⟨hrp, hre⟩ := Bool.or_eq_false_iff.1 hr
    exact congrArg₂ (· ++ ·) (ihp hs.1 hrp) (ihe hs.2 hre)
  | lastElem p ih => exact (List.append_nil _).trans (ih hs hr)
  | elem p es ihp ihe =>
    obtain ⟨hrp, hre⟩ := Bool.or_eq_false_iff.1 hr
    exact congrArg₂ (· ++ ·) (ihp hs.1 hrp) (ihe hs.2 hre)
  | lastLabel x => rfl
  | label x ls ih => exact congrArg (Leaf.name x :: ·) (ih (valid_labels ls) (reapplies_labels ls))

/-- What a group that has arguments loses: a tree with that has fewer leaves than its syntax. -/
theorem fewer_tree (s : PatSyn k) (hs : s.Valid) : Fewer (k.leaves s.tree) s.leaves s.reapplies := by
  induction s with
  | single c ih => exact ih hs
  | or c as ihc iha => exact (ihc hs.1).append (iha hs.2)
  | lastAlt c ih => exact Fewer.snoc_nil (ih hs)
  | alt c as ihc iha => exact (ihc hs.1).append (iha hs.2)
  | plain a ih => exact ih hs
  | aliased a x ih => exact Fewer.concat (ih hs) (.name x)
  | cons a tail iha iht => exact (iha hs.1).append (iht hs.2)
  | consAliased a tail x iha iht => exact Fewer.concat ((iha hs.1).append (iht hs.2)) (.name x)
  | apply head ss ihh ihs =>
    have hhead : Fewer (Pattern_.leaves head.tree) head.leaves head.reapplies := ihh hs.1
    have hsubs : Fewer (patLeaves ss.tree) ss.leaves ss.reapplies := ihs hs.2.1
    show Fewer (Pattern_.leaves (apply head ss).tree) (head.leaves ++ ss.leaves)
      ((ss.hasSubs && head.applied) || head.reapplies || ss.reapplies)
    rcases ss.tree_subs with ⟨hno, rfl⟩ | ⟨hss, -⟩
    · rw [leaves_apply_noSubs, hno, Bool.false_and, Bool.false_or]
      have happend := hhead.append hsubs
      rwa [show patLeaves noSubs.tree = [] from rfl, List.append_nil] at happend
    · obtain ⟨leaf, subs, hold, hnew, -, hsome⟩ := exists_head hs hss
      rw [hss, Bool.true_and, hnew]
      rw [hold] at hhead
      exact fewer_replace hhead hsubs hsome
  | noSubs => exact fewer_refl _
  | sub a ss iha ihs => exact (iha hs.1).append (ihs hs.2)
  | wildcard => exact fewer_refl _
  | int n => exact fewer_refl _
  | negInt n => exact ⟨le_rfl, fun h => (Bool.noConfusion h)⟩
  | str value => exact fewer_refl _
  | tripleStr raw anchor => exact fewer_refl _
  | char value => exact fewer_refl _
  | name text =>
    show Fewer (Pattern_.leaves (namePattern text)) [.name text] false
    rw [leaves_namePattern]
    exact fewer_refl _
  | unit => exact fewer_refl _
  | group p ih => exact ih hs
  | tuple p es ihp ihe => exact (ihp hs.1).append (ihe hs.2)
  | record ls ih =>
    have hls := ih (valid_labels ls)
    rw [reapplies_labels] at hls
    exact hls
  | emptyList => exact fewer_refl _
  | listOne p ih => exact Fewer.snoc_nil (ih hs)
  | list p es ihp ihe => exact (ihp hs.1).append (ihe hs.2)
  | lastElem p ih => exact Fewer.snoc_nil (ih hs)
  | elem p es ihp ihe => exact (ihp hs.1).append (ihe hs.2)
  | lastLabel x => exact fewer_refl _
  | label x ls ih =>
    have hls := ih (valid_labels ls)
    rw [reapplies_labels] at hls
    exact Fewer.cons hls (.name x)

/-- A tree has the leaves of its syntax exactly if no group that has arguments is given further
ones. -/
theorem leaves_tree_iff {s : PatSyn k} (hs : s.Valid) :
    s.leaves = k.leaves s.tree ↔ s.reapplies = false := by
  constructor
  · intro h
    by_contra hr
    have hlt := (s.fewer_tree hs).2 (by simpa using hr)
    rw [h] at hlt
    exact lt_irrefl _ hlt
  · intro hr
    exact (s.leaves_tree hs hr).symm

/-! ### What the parser reads -/

/-- An alias after a syntax has no place in it. -/
def AliasOutside (s : PatSyn k) (rest : List Token) : Prop :=
  k = .consAs → peek_kind rest = some .As → s.saturated = true

/-- The tokens are those of a syntax with a tree, and the rest. -/
def Gives (k : PatCat) (toks : List Token) (v : k.Tree) (rest : List Token) : Prop :=
  ∃ (read : List Token) (s : PatSyn k), toks = read ++ rest ∧ kinds read = s.tokens ∧
    s.tree = v ∧ s.Valid ∧ s.AliasInnermost ∧ s.AliasOutside rest

/-- Parsers that read a part of a pattern. -/
def GivesPat (k : PatCat) (p : List Token → ParseM (k.Tree × List Token)) : Prop :=
  ∀ toks v rest, p toks = .ok (v, rest) → Gives k toks v rest

/-- What a syntax that is no side of a list constructor gives. -/
theorem gives_of {k : PatCat} (read : List Token) (s : PatSyn k) {toks rest : List Token}
    (htoks : toks = read ++ rest) (hread : kinds read = s.tokens) (hs : s.Valid)
    (ha : s.AliasInnermost) (hk : k ≠ .consAs) : Gives k toks s.tree rest :=
  ⟨read, s, htoks, hread, rfl, hs, ha, fun h => absurd h hk⟩

theorem Gives.shorter {k : PatCat} {toks rest : List Token} {v : k.Tree} (h : Gives k toks v rest)
    (hk : k ≠ .subs) : rest.length < toks.length := by
  obtain ⟨read, s, rfl, hread, -⟩ := h
  obtain ⟨t, tail, htokens, -⟩ := s.exists_tokens hk
  have hlength := congrArg List.length (hread.trans htokens)
  simp only [kinds, List.length_map, List.length_cons] at hlength
  rw [List.length_append]
  omega

theorem parse_lower_name_eq_ok {toks rest : List Token} {name : Str}
    (h : parse_lower_name toks = .ok (name, rest)) :
    ∃ tok, toks = tok :: rest ∧ tok.kind = .Ident name := by
  unfold parse_lower_name at h
  obtain ⟨⟨tok, toks'⟩, hbump, h⟩ := Run.bind_eq_ok.1 h
  rw [bump_eq_ok] at hbump
  dsimp only at h
  split at h
  · next text hkind =>
    split_ifs at h
    · cases h
      exact ⟨tok, hbump, hkind⟩
    · cases h
  · cases h

/-- Further alternatives. -/
theorem gives_alts {cons_as : List Token → ParseM (Pattern_ × List Token)}
    (hcons : GivesPat .consAs cons_as) {toks rest : List Token} {ps : List Pattern_}
    (h : manyAfter .Pipe .Pattern cons_as toks = .ok (ps, rest)) :
    (ps = [] ∧ toks = rest ∧ peek_kind toks ≠ some .Pipe) ∨ Gives .alts toks ps rest := by
  refine manyAfter_induction (fun toks ps rest => (ps = [] ∧ toks = rest ∧
    peek_kind toks ≠ some .Pipe) ∨ Gives .alts toks ps rest) ?_ ?_ h
  · intro toks hpeek
    exact Or.inl ⟨rfl, rfl, hpeek⟩
  intro sep toks p rest ps rest' hsep hp hrest
  obtain ⟨read, s, rfl, hread, rfl, hs, ha, -⟩ := hcons _ _ _ hp
  right
  rcases hrest with ⟨rfl, rfl, -⟩ | ⟨read', s', rfl, hread', rfl, hs', ha', -⟩
  · exact gives_of (sep :: read) (.lastAlt s) rfl (by simp [tokens, hsep, hread]) hs ha (by simp)
  · exact gives_of (sep :: (read ++ read')) (.alt s s') (by simp)
      (by simp [tokens, hsep, hread, hread']) ⟨hs, hs'⟩ ⟨ha, ha'⟩ (by simp)

/-- Further elements of a tuple or a list. -/
theorem gives_elems {pattern : List Token → ParseM (Pattern_ × List Token)}
    (hpattern : GivesPat .pattern pattern) {toks rest : List Token} {ps : List Pattern_}
    (h : manyAfter .Comma .Pattern pattern toks = .ok (ps, rest)) :
    (ps = [] ∧ toks = rest ∧ peek_kind toks ≠ some .Comma) ∨ Gives .elems toks ps rest := by
  refine manyAfter_induction (fun toks ps rest => (ps = [] ∧ toks = rest ∧
    peek_kind toks ≠ some .Comma) ∨ Gives .elems toks ps rest) ?_ ?_ h
  · intro toks hpeek
    exact Or.inl ⟨rfl, rfl, hpeek⟩
  intro sep toks p rest ps rest' hsep hp hrest
  obtain ⟨read, s, rfl, hread, rfl, hs, ha, -⟩ := hpattern _ _ _ hp
  right
  rcases hrest with ⟨rfl, rfl, -⟩ | ⟨read', s', rfl, hread', rfl, hs', ha', -⟩
  · exact gives_of (sep :: read) (.lastElem s) rfl (by simp [tokens, hsep, hread]) hs ha (by simp)
  · exact gives_of (sep :: (read ++ read')) (.elem s s') (by simp)
      (by simp [tokens, hsep, hread, hread']) ⟨hs, hs'⟩ ⟨ha, ha'⟩ (by simp)

/-- The atom of a group or a tuple, with its parenthesis. -/
theorem gives_parse_paren_pattern {pattern : List Token → ParseM (Pattern_ × List Token)}
    (hpattern : GivesPat .pattern pattern) {opener : Span} {tok : Token} (htok : tok.kind = .LParen)
    {toks rest : List Token} {p : Pattern_}
    (h : parse_paren_pattern pattern opener toks = .ok (p, rest)) :
    Gives .atom (tok :: toks) p rest := by
  unfold parse_paren_pattern at h
  split_ifs at h with hunit
  · obtain ⟨toks', hclose, h⟩ := Run.bind_eq_ok.1 h
    cases h
    obtain ⟨close, rfl, hc⟩ := expect_close_eq_ok.1 hclose
    exact gives_of [tok, close] .unit rfl (by simp [tokens, htok, hc]) trivial trivial (by simp)
  · obtain ⟨⟨first, toks₁⟩, hfirst, h⟩ := Run.bind_eq_ok.1 h
    obtain ⟨read, s, rfl, hread, rfl, hs, ha, -⟩ := hpattern _ _ _ hfirst
    dsimp only at h
    split_ifs at h with hcomma
    · obtain ⟨⟨ps, toks₂⟩, hps, h⟩ := Run.bind_eq_ok.1 h
      obtain ⟨toks₃, hclose, h⟩ := Run.bind_eq_ok.1 h
      cases h
      obtain ⟨close, rfl, hc⟩ := expect_close_eq_ok.1 hclose
      rcases gives_elems hpattern hps with ⟨-, -, hpeek⟩ | ⟨read', s', rfl, hread', rfl, hs', ha', -⟩
      · exact absurd hcomma hpeek
      · exact gives_of (tok :: (read ++ (read' ++ [close]))) (.tuple s s') (by simp)
          (by simp [tokens, htok, hread, hread', hc]) ⟨hs, hs'⟩ ⟨ha, ha'⟩ (by simp)
    · obtain ⟨toks₂, hclose, h⟩ := Run.bind_eq_ok.1 h
      cases h
      obtain ⟨close, rfl, hc⟩ := expect_close_eq_ok.1 hclose
      exact gives_of (tok :: (read ++ [close])) (.group s) (by simp)
        (by simp [tokens, htok, hread, hc]) hs ha (by simp)

/-- The atom of a list, with its bracket. -/
theorem gives_parse_list_body {pattern : List Token → ParseM (Pattern_ × List Token)}
    (hpattern : GivesPat .pattern pattern) {opener : Span} {tok : Token} (htok : tok.kind = .LBracket)
    {toks rest : List Token} {p : Pattern_}
    (h : parse_list_body pattern opener toks = .ok (p, rest)) :
    Gives .atom (tok :: toks) p rest := by
  unfold parse_list_body at h
  split_ifs at h with hempty
  · obtain ⟨⟨close, toks'⟩, hclose, h⟩ := Run.bind_eq_ok.1 h
    cases h
    rw [bump_eq_ok] at hclose
    subst hclose
    have hc : close.kind = .RBracket := by simpa [peek_kind] using hempty
    exact gives_of [tok, close] .emptyList rfl (by simp [tokens, htok, hc]) trivial trivial (by simp)
  · obtain ⟨⟨first, toks₁⟩, hfirst, h⟩ := Run.bind_eq_ok.1 h
    obtain ⟨⟨ps, toks₂⟩, hps, h⟩ := Run.bind_eq_ok.1 h
    obtain ⟨toks₃, hclose, h⟩ := Run.bind_eq_ok.1 h
    cases h
    obtain ⟨read, s, rfl, hread, rfl, hs, ha, -⟩ := hpattern _ _ _ hfirst
    obtain ⟨close, rfl, hc⟩ := expect_close_eq_ok.1 hclose
    rcases gives_elems hpattern hps with ⟨rfl, rfl, -⟩ | ⟨read', s', rfl, hread', rfl, hs', ha', -⟩
    · exact gives_of (tok :: (read ++ [close])) (.listOne s) (by simp)
        (by simp [tokens, htok, hread, hc]) hs ha (by simp)
    · exact gives_of (tok :: (read ++ (read' ++ [close]))) (.list s s') (by simp)
        (by simp [tokens, htok, hread, hread', hc]) ⟨hs, hs'⟩ ⟨ha, ha'⟩ (by simp)

/-- The atom of a record, with its brace. -/
theorem gives_parse_record_pattern {tok : Token} (htok : tok.kind = .LBrace)
    {toks rest : List Token} {p : Pattern_} (h : parse_record_pattern toks = .ok (p, rest)) :
    Gives .atom (tok :: toks) p rest := by
  unfold parse_record_pattern at h
  split_ifs at h
  · cases h
  obtain ⟨⟨field, toks₁⟩, hfield, h⟩ := Run.bind_eq_ok.1 h
  obtain ⟨⟨fields, toks₂⟩, hfields, h⟩ := Run.bind_eq_ok.1 h
  obtain ⟨toks₃, hclose, h⟩ := Run.bind_eq_ok.1 h
  cases h
  obtain ⟨name, rfl, hname⟩ := parse_record_field_name_eq_ok hfield
  -- The labels after the first one: none, or a list of labels after a comma.
  have hmore : (fields = [] ∧ toks₁ = toks₂) ∨ ∃ comma toks', toks₁ = comma :: toks' ∧
      comma.kind = .Comma ∧ Gives .labels toks' fields toks₂ := by
    refine manyAfter_induction (fun toks fields rest => (fields = [] ∧ toks = rest) ∨
      ∃ comma toks', toks = comma :: toks' ∧ comma.kind = .Comma ∧ Gives .labels toks' fields rest)
      ?_ ?_ hfields
    · intro toks _
      exact Or.inl ⟨rfl, rfl⟩
    intro sep toks label rest labels rest' hsep hlabel hlabels
    obtain ⟨tok', rfl, htok'⟩ := parse_record_field_name_eq_ok hlabel
    refine Or.inr ⟨sep, _, rfl, hsep, ?_⟩
    rcases hlabels with ⟨rfl, rfl⟩ | ⟨comma, toks', rfl, hcomma, read', s', rfl, hread', rfl, -⟩
    · exact gives_of [tok'] (.lastLabel label) rfl (by simp [tokens, htok']) trivial trivial (by simp)
    · exact gives_of (tok' :: comma :: read') (.label label s') (by simp)
        (by simp [tokens, htok', hcomma, hread']) trivial trivial (by simp)
  obtain ⟨close, rfl, hc⟩ := expect_record_close_eq_ok hclose
  rcases hmore with ⟨rfl, rfl⟩ | ⟨comma, toks', rfl, hcomma, read', s', rfl, hread', rfl, -⟩
  · exact gives_of [tok, name, close] (.record (.lastLabel field)) rfl
      (by simp [tokens, htok, hname, hc]) trivial trivial (by simp)
  · exact gives_of (tok :: name :: comma :: (read' ++ [close])) (.record (.label field s')) (by simp)
      (by simp [tokens, htok, hname, hcomma, hread', hc]) trivial trivial (by simp)

/-- The atom of a negative number, with its minus. -/
theorem gives_parse_neg_pattern {minus : Token} (hminus : minus.kind = .Minus)
    {toks rest : List Token} {p : Pattern_} (h : parse_neg_pattern minus toks = .ok (p, rest)) :
    Gives .atom (minus :: toks) p rest := by
  unfold parse_neg_pattern at h
  cases toks with
  | nil => cases h
  | cons tok toks =>
    dsimp only at h
    split at h
    · next n hkind =>
      split_ifs at h
      · cases h
        exact gives_of [minus, tok] (.negInt n) rfl (by simp [tokens, hminus, hkind]) trivial trivial
          (by simp)
      · cases h
    · cases h

/-- The arguments of a head, with their head. -/
theorem gives_parse_subs {atom : List Token → ParseM (Pattern_ × List Token)}
    (hatom : GivesPat .atom atom) {toks toks' rest : List Token} {head p : Pattern_}
    (hhead : Gives .atom toks head toks') (h : parse_subs atom head toks' = .ok (p, rest)) :
    Gives .app toks p rest := by
  obtain ⟨read, s, rfl, hread, rfl, hs, ha, -⟩ := hhead
  unfold parse_subs at h
  split_ifs at h with hctor
  · obtain ⟨⟨ps, toks₁⟩, hps, h⟩ := Run.bind_eq_ok.1 h
    cases h
    have hsubs : Gives .subs toks' ps rest := by
      refine repeatWhile_induction (fun toks _ => ?_) ?_ hps
      · exact gives_of [] .noSubs rfl rfl trivial trivial (by simp)
      intro toks p rest ps rest' _ hp hrest
      obtain ⟨read, s, rfl, hread, rfl, hs, ha, -⟩ := hatom _ _ _ hp
      obtain ⟨read', s', rfl, hread', rfl, hs', ha', -⟩ := hrest
      exact gives_of (read ++ read') (.sub s s') (by simp) (by simp [tokens, hread, hread'])
        ⟨hs, hs'⟩ ⟨ha, ha'⟩ (by simp)
    obtain ⟨read', s', rfl, hread', rfl, hs', ha', -⟩ := hsubs
    refine gives_of (read ++ read') (.apply s s') (by simp) (by simp [tokens, hread, hread'])
      ⟨hs, hs', fun _ => ?_⟩ ⟨ha, ha'⟩ (by simp)
    cases htree : (s.tree : Pattern_) with
    | PCtor name mods subs => exact ⟨name, mods, subs, rfl⟩
    | _ =>
      rw [htree] at hctor
      cases hctor
  · cases h
    have htree : (apply s noSubs).tree = s.tree := withSubs_nil _
    rw [← htree]
    refine gives_of read (.apply s .noSubs) rfl (by simp [tokens, hread]) ⟨hs, trivial, ?_⟩
      ⟨ha, trivial⟩ (by simp)
    rintro ⟨⟩

/-- The tail and the alias of a pattern, with the pattern. -/
theorem gives_parse_alias {cons_as : List Token → ParseM (Pattern_ × List Token)}
    (hcons : GivesPat .consAs cons_as) {toks toks₁ toks₂ rest : List Token} {app pat p : Pattern_}
    (happ : Gives .app toks app toks₁) (htail : parse_tail cons_as app toks₁ = .ok (pat, toks₂))
    (h : parse_alias pat toks₂ = .ok (p, rest)) : Gives .consAs toks p rest := by
  obtain ⟨read, s, rfl, hread, rfl, hs, ha, -⟩ := happ
  unfold parse_tail at htail
  unfold parse_alias at h
  split_ifs at htail with hcolon
  · obtain ⟨⟨colon, toks₃⟩, hbump, htail⟩ := Run.bind_eq_ok.1 htail
    obtain ⟨⟨tail, toks₄⟩, hconsas, htail⟩ := Run.bind_eq_ok.1 htail
    cases htail
    rw [bump_eq_ok] at hbump
    subst hbump
    have hc : colon.kind = .ColonColon := by simpa [peek_kind] using hcolon
    obtain ⟨read', s', rfl, hread', rfl, hs', ha', hout⟩ := hcons _ _ _ hconsas
    split_ifs at h with halias
    · obtain ⟨⟨as, toks₅⟩, hbump', h⟩ := Run.bind_eq_ok.1 h
      obtain ⟨⟨name, toks₆⟩, hname, h⟩ := Run.bind_eq_ok.1 h
      cases h
      have hsat : s'.saturated = true := hout rfl halias
      rw [bump_eq_ok] at hbump'
      subst hbump'
      have has : as.kind = .As := by simpa [peek_kind] using halias
      obtain ⟨tok, rfl, htok⟩ := parse_lower_name_eq_ok hname
      exact ⟨read ++ colon :: (read' ++ [as, tok]), .consAliased s s' name, by simp,
        by simp [tokens, hread, hread', hc, has, htok], rfl, ⟨hs, hs'⟩, ⟨ha, ha', hsat⟩,
        fun _ _ => rfl⟩
    · cases h
      exact ⟨read ++ colon :: read', .cons s s', by simp, by simp [tokens, hread, hread', hc], rfl,
        ⟨hs, hs'⟩, ⟨ha, ha'⟩, fun _ hpeek => absurd hpeek halias⟩
  · cases htail
    split_ifs at h with halias
    · obtain ⟨⟨as, toks₅⟩, hbump', h⟩ := Run.bind_eq_ok.1 h
      obtain ⟨⟨name, toks₆⟩, hname, h⟩ := Run.bind_eq_ok.1 h
      cases h
      rw [bump_eq_ok] at hbump'
      subst hbump'
      have has : as.kind = .As := by simpa [peek_kind] using halias
      obtain ⟨tok, rfl, htok⟩ := parse_lower_name_eq_ok hname
      exact ⟨read ++ [as, tok], .aliased s name, by simp, by simp [tokens, hread, has, htok], rfl, hs,
        ha, fun _ _ => rfl⟩
    · cases h
      exact ⟨read, .plain s, rfl, hread, rfl, hs, ha, fun _ hpeek => absurd hpeek halias⟩

/-- An atom of one token. -/
theorem gives_single {tok : Token} {rest : List Token} (s : PatSyn .atom) (hread : [tok.kind] = s.tokens)
    (hs : s.Valid) (ha : s.AliasInnermost) : Gives .atom (tok :: rest) s.tree rest :=
  gives_of [tok] s rfl hread hs ha (by simp)

theorem gives_ident_pattern {tok : Token} {text : Str} (htok : tok.kind = .Ident text)
    {p : Pattern_} (h : ident_pattern text = .ok p) (rest : List Token) :
    Gives .atom (tok :: rest) p rest := by
  unfold ident_pattern at h
  split_ifs at h
  · cases h
  · cases h
  · cases h
    exact gives_single (.name text) (by rw [htok]; rfl) trivial trivial

/-- The parser reads the syntax of what it gives, at any number of levels. -/
theorem gives_parse (levels : ℕ) :
    GivesPat .pattern (parse_pattern levels) ∧ GivesPat .consAs (parse_cons_as levels) ∧
    GivesPat .atom (parse_pattern_atom levels) ∧
    ∀ tok toks p rest, tok.kind = .LBracket →
      parse_list_pattern levels tok.span toks = .ok (p, rest) → Gives .atom (tok :: toks) p rest := by
  induction levels with
  | zero =>
    refine ⟨fun toks p rest h => ?_, fun toks p rest h => ?_, fun toks p rest h => ?_,
      fun tok toks p rest _ h => ?_⟩
    · cases h
    · cases h
    · cases h
    · cases h
  | succ levels ih =>
    obtain ⟨hpattern, hcons, hatom, hlist⟩ := ih
    refine ⟨fun toks p rest h => ?_, fun toks p rest h => ?_, fun toks p rest h => ?_,
      fun tok toks p rest htok h => ?_⟩
    · rw [parse_pattern] at h
      obtain ⟨⟨first, toks₁⟩, hfirst, h⟩ := Run.bind_eq_ok.1 h
      obtain ⟨read, s, rfl, hread, rfl, hs, ha, -⟩ := hcons _ _ _ hfirst
      dsimp only at h
      split_ifs at h with hpipe
      · cases h
        exact gives_of read (.single s) rfl hread hs ha (by simp)
      · obtain ⟨⟨ps, toks₂⟩, hps, h⟩ := Run.bind_eq_ok.1 h
        cases h
        rcases gives_alts hcons hps with ⟨-, -, hpeek⟩ | ⟨read', s', rfl, hread', rfl, hs', ha', -⟩
        · exact absurd (not_not.1 hpipe) hpeek
        · exact gives_of (read ++ read') (.or s s') (by simp) (by simp [tokens, hread, hread'])
            ⟨hs, hs'⟩ ⟨ha, ha'⟩ (by simp)
    · rw [parse_cons_as] at h
      obtain ⟨⟨head, toks₁⟩, hhead, h⟩ := Run.bind_eq_ok.1 h
      obtain ⟨⟨app, toks₂⟩, happ, h⟩ := Run.bind_eq_ok.1 h
      obtain ⟨⟨pat, toks₃⟩, htail, h⟩ := Run.bind_eq_ok.1 h
      exact gives_parse_alias hcons (gives_parse_subs hatom (hatom _ _ _ hhead) happ) htail h
    · rw [parse_pattern_atom] at h
      obtain ⟨⟨tok, toks₁⟩, hbump, hkind⟩ := Run.bind_eq_ok.1 h
      rw [bump_eq_ok] at hbump
      subst hbump
      dsimp only at hkind
      split at hkind
      · next htok =>
        cases hkind
        exact gives_single .wildcard (by rw [htok]; rfl) trivial trivial
      · next n htok =>
        split at hkind
        · next value hvalue =>
          cases hkind
          have heq : value = n.val := by
            unfold IntMagnitude.positive at hvalue
            split_ifs at hvalue
            cases hvalue
            rfl
          rw [heq]
          exact gives_single (.int n) (by rw [htok]; rfl) trivial trivial
        · cases hkind
      · next value htok =>
        cases hkind
        exact gives_single (.str value) (by rw [htok]; rfl) trivial trivial
      · next raw anchor htok =>
        cases hkind
        exact gives_single (.tripleStr raw anchor) (by rw [htok]; rfl) trivial trivial
      · next value htok =>
        cases hkind
        exact gives_single (.char value) (by rw [htok]; rfl) trivial trivial
      · next htok => exact gives_parse_neg_pattern htok hkind
      · next htok => exact gives_parse_paren_pattern hpattern htok hkind
      · next htok => exact gives_parse_record_pattern htok hkind
      · next htok => exact hlist _ _ _ _ htok hkind
      · next text htok =>
        obtain ⟨pat, hpat, hkind⟩ := Run.bind_eq_ok.1 hkind
        cases hkind
        exact gives_ident_pattern htok hpat _
      · cases hkind
    · rw [parse_list_pattern] at h
      exact gives_parse_list_body hpattern htok h

/-! ### The loops end -/

theorem parse_lower_name_ended (toks : List Token) : (parse_lower_name toks).Ended := by
  refine Run.ended_bind (bump_ended _ _) ?_
  rintro ⟨tok, toks⟩ -
  dsimp only
  split
  · split_ifs
    · exact ok_ended _
    · exact fail_ended _
  · exact fail_ended _

theorem parse_neg_pattern_ended (minus : Token) (toks : List Token) :
    (parse_neg_pattern minus toks).Ended := by
  cases toks with
  | nil => exact fail_ended _
  | cons tok toks =>
    unfold parse_neg_pattern
    dsimp only
    split
    · split_ifs
      · exact ok_ended _
      · exact fail_ended _
    · exact fail_ended _

theorem ident_pattern_ended (text : Str) : (ident_pattern text).Ended := by
  unfold ident_pattern
  split_ifs
  · exact fail_ended _
  · exact fail_ended _
  · exact ok_ended _

theorem parse_record_pattern_ended (toks : List Token) : (parse_record_pattern toks).Ended := by
  have hfield : Reads parse_record_field_name := by
    refine ⟨parse_record_field_name_ended, fun toks label rest h => ?_⟩
    obtain ⟨tok, rfl, -⟩ := parse_record_field_name_eq_ok h
    simp
  unfold parse_record_pattern
  split_ifs
  · exact fail_ended _
  refine Run.ended_bind (parse_record_field_name_ended _) ?_
  rintro ⟨field, toks⟩ -
  refine Run.ended_bind (manyAfter_ended hfield _) ?_
  rintro ⟨fields, toks⟩ -
  refine Run.ended_bind (expect_record_close_ended _) ?_
  rintro toks -
  exact ok_ended _

theorem reads_pattern {k : PatCat} {p : List Token → ParseM (k.Tree × List Token)}
    (hp : GivesPat k p) (hended : ∀ toks, (p toks).Ended) (hk : k ≠ .subs) : Reads p :=
  ⟨hended, fun toks v rest h => (hp toks v rest h).shorter hk⟩

theorem parse_paren_pattern_ended {pattern : List Token → ParseM (Pattern_ × List Token)}
    (hreads : Reads pattern) (opener : Span) (toks : List Token) :
    (parse_paren_pattern pattern opener toks).Ended := by
  unfold parse_paren_pattern
  split_ifs
  · refine Run.ended_bind (expect_close_ended _ _ _) ?_
    rintro toks -
    exact ok_ended _
  · refine Run.ended_bind (hreads.ended _) ?_
    rintro ⟨first, toks⟩ -
    dsimp only
    split_ifs
    · refine Run.ended_bind (manyAfter_ended hreads _) ?_
      rintro ⟨elems, toks⟩ -
      refine Run.ended_bind (expect_close_ended _ _ _) ?_
      rintro toks -
      exact ok_ended _
    · refine Run.ended_bind (expect_close_ended _ _ _) ?_
      rintro toks -
      exact ok_ended _

theorem parse_list_body_ended {pattern : List Token → ParseM (Pattern_ × List Token)}
    (hreads : Reads pattern) (opener : Span) (toks : List Token) :
    (parse_list_body pattern opener toks).Ended := by
  unfold parse_list_body
  split_ifs
  · refine Run.ended_bind (bump_ended _ _) ?_
    rintro ⟨tok, toks⟩ -
    exact ok_ended _
  · refine Run.ended_bind (hreads.ended _) ?_
    rintro ⟨first, toks⟩ -
    refine Run.ended_bind (manyAfter_ended hreads _) ?_
    rintro ⟨elems, toks⟩ -
    refine Run.ended_bind (expect_close_ended _ _ _) ?_
    rintro toks -
    exact ok_ended _

theorem parse_subs_ended {atom : List Token → ParseM (Pattern_ × List Token)} (hreads : Reads atom)
    (head : Pattern_) (toks : List Token) : (parse_subs atom head toks).Ended := by
  unfold parse_subs
  split_ifs
  · refine Run.ended_bind (many_ended hreads _) ?_
    rintro ⟨ps, toks⟩ -
    exact ok_ended _
  · exact ok_ended _

theorem parse_tail_ended {cons_as : List Token → ParseM (Pattern_ × List Token)}
    (hended : ∀ toks, (cons_as toks).Ended) (pat : Pattern_) (toks : List Token) :
    (parse_tail cons_as pat toks).Ended := by
  unfold parse_tail
  split_ifs
  · refine Run.ended_bind (bump_ended _ _) ?_
    rintro ⟨tok, toks⟩ -
    refine Run.ended_bind (hended _) ?_
    rintro ⟨tail, toks⟩ -
    exact ok_ended _
  · exact ok_ended _

theorem parse_alias_ended (pat : Pattern_) (toks : List Token) : (parse_alias pat toks).Ended := by
  unfold parse_alias
  split_ifs
  · refine Run.ended_bind (bump_ended _ _) ?_
    rintro ⟨tok, toks⟩ -
    refine Run.ended_bind (parse_lower_name_ended _) ?_
    rintro ⟨name, toks⟩ -
    exact ok_ended _
  · exact ok_ended _

theorem parse_ended (levels : ℕ) :
    (∀ toks, (parse_pattern levels toks).Ended) ∧ (∀ toks, (parse_cons_as levels toks).Ended) ∧
    (∀ toks, (parse_pattern_atom levels toks).Ended) ∧
    ∀ opener toks, (parse_list_pattern levels opener toks).Ended := by
  induction levels with
  | zero =>
    refine ⟨fun _ => ?_, fun _ => ?_, fun _ => ?_, fun _ _ => ?_⟩
    · exact fail_ended _
    · exact fail_ended _
    · exact fail_ended _
    · exact fail_ended _
  | succ levels ih =>
    obtain ⟨hpattern, hcons, hatom, hlist⟩ := ih
    obtain ⟨gpattern, gcons, gatom, -⟩ := gives_parse levels
    have rpattern := reads_pattern gpattern hpattern (by simp)
    refine ⟨fun toks => ?_, fun toks => ?_, fun toks => ?_, fun opener toks => ?_⟩
    · rw [parse_pattern]
      refine Run.ended_bind (hcons _) ?_
      rintro ⟨first, toks⟩ -
      dsimp only
      split_ifs
      · exact ok_ended _
      · refine Run.ended_bind (manyAfter_ended (reads_pattern gcons hcons (by simp)) _) ?_
        rintro ⟨alts, toks⟩ -
        exact ok_ended _
    · rw [parse_cons_as]
      refine Run.ended_bind (hatom _) ?_
      rintro ⟨head, toks⟩ -
      refine Run.ended_bind (parse_subs_ended (reads_pattern gatom hatom (by simp)) _ _) ?_
      rintro ⟨app, toks⟩ -
      refine Run.ended_bind (parse_tail_ended hcons _ _) ?_
      rintro ⟨pat, toks⟩ -
      exact parse_alias_ended _ _
    · rw [parse_pattern_atom]
      refine Run.ended_bind (bump_ended _ _) ?_
      rintro ⟨tok, toks⟩ -
      dsimp only
      split
      · exact ok_ended _
      · split
        · exact ok_ended _
        · exact fail_ended _
      · exact ok_ended _
      · exact ok_ended _
      · exact ok_ended _
      · exact parse_neg_pattern_ended _ _
      · exact parse_paren_pattern_ended rpattern _ _
      · exact parse_record_pattern_ended _
      · exact hlist _ _
      · refine Run.ended_bind (ident_pattern_ended _) ?_
        rintro pat -
        exact ok_ended _
      · exact fail_ended _
    · rw [parse_list_pattern]
      exact parse_list_body_ended rpattern _ _

end PatSyn

/-! ### Whole patterns -/

/-- A pattern is written in which a group that has arguments is given further ones. -/
def PatternReapplies (toks : List Tok) : Prop :=
  ∃ s : PatSyn .pattern, s.AliasInnermost ∧ s.tokens = toks ∧ s.reapplies = true

/-- The tokens that are read of an accepted pattern, and that its tree has all that is written in
them exactly if no group that has arguments is given further ones. -/
theorem pattern_leaves_iff {levels : ℕ} {toks rest : List Token} {p : Pattern_}
    (h : parse_pattern levels toks = .ok (p, rest)) : ∃ read, toks = read ++ rest ∧
      (written (kinds read) = p.leaves ↔ ¬ PatternReapplies (kinds read)) := by
  obtain ⟨read, s, rfl, hread, rfl, hs, ha, -⟩ := (PatSyn.gives_parse levels).1 _ _ _ h
  refine ⟨read, rfl, ?_⟩
  have hleaves := s.written_tokens []
  rw [List.append_nil, written_nil, List.append_nil] at hleaves
  rw [hread, hleaves]
  have hiff : s.leaves = Pattern_.leaves s.tree ↔ s.reapplies = false := PatSyn.leaves_tree_iff hs
  rw [hiff]
  constructor
  · rintro hr ⟨s', ha', htokens, hr'⟩
    have hends : ∀ s : PatSyn .pattern, s.Ends [] := by rintro s u ⟨⟩
    have heq : s.tokens ++ [] = s'.tokens ++ [] := by rw [htokens]
    obtain ⟨rfl, -⟩ := PatSyn.unique ha ha' heq (hends s) (hends s')
    rw [hr] at hr'
    cases hr'
  · intro hno
    by_contra hr
    exact hno ⟨s, ha, rfl, by simpa using hr⟩

end IpeLang.Parse
