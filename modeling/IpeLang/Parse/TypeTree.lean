import IpeLang.Parse.TypeGrammar

/-!
# The tree of a type

The tree that the parser makes of a syntax, and what of the syntax is in it.

* `TypeSyn.leaves_tree_iff`: a tree has all leaves of its syntax exactly if no group that already has
  arguments is given further ones, which replace them;
* `gives_parse`: the parser reads the syntax of what it gives;
* `parse_ended`: the fuel of its loops does not run out;
* `type_leaves_iff`: which types keep all that is written.
-/

namespace IpeLang.Parse

open Lib (Str Run)

/-! ### Leaves -/

/-- The name of a type, with its qualifier. -/
def typeText (qualifier : Str) (segs : List Str) : Str :=
  (if qualifier.isEmpty then [] else qualifier ++ ['.']) ++ ['.'].intercalate segs

mutual

/-- The names and the empty groups of a tree, from left to right. -/
def TypeAnn.leaves : TypeAnn → List Leaf
  | .TLambda dom cod => dom.leaves ++ cod.leaves
  | .TVar name => [.name name]
  | .TType qualifier segs args => .name (typeText qualifier segs) :: leavesList args
  | .TUnit => [.unit]
  | .TTuple elems => leavesList elems
  | .TRecord fields => if fields.isEmpty then [.emptyRecord] else leavesFields fields
  | .TRecordOpen row fields => .name row :: leavesFields fields

def leavesList : List TypeAnn → List Leaf
  | [] => []
  | t :: ts => t.leaves ++ leavesList ts

def leavesFields : List (Str × TypeAnn) → List Leaf
  | [] => []
  | (label, t) :: fields => .name label :: (t.leaves ++ leavesFields fields)

end

/-- The trees of the parts of a type. -/
@[reducible] def TypeCat.Tree : TypeCat → Type
  | .type | .app | .atom => TypeAnn
  | .args | .elems => List TypeAnn
  | .fields => List (Str × TypeAnn)

/-- The leaves of a part. -/
def TypeCat.leaves : (k : TypeCat) → k.Tree → List Leaf
  | .type, t => TypeAnn.leaves t
  | .app, t => TypeAnn.leaves t
  | .atom, t => TypeAnn.leaves t
  | .args, ts => leavesList ts
  | .elems, ts => leavesList ts
  | .fields, fs => leavesFields fs

/-- A head with arguments. Those that it has are replaced. -/
def withArgs (head : TypeAnn) (args : List TypeAnn) : TypeAnn :=
  match head, args with
  | head, [] => head
  | .TType q segs _, a :: args => .TType q segs (a :: args)
  | head, _ => head

namespace TypeSyn

variable {k : TypeCat}

/-- The tree of a syntax. -/
def tree : {k : TypeCat} → TypeSyn k → k.Tree
  | _, single a => a.tree
  | _, arrow a t => TypeAnn.TLambda a.tree t.tree
  | _, apply head as => withArgs head.tree as.tree
  | _, noArgs => ([] : List TypeAnn)
  | _, arg a as => (a.tree :: as.tree : List TypeAnn)
  | _, name text => nameType text
  | _, unit => TypeAnn.TUnit
  | _, group t => t.tree
  | _, tuple t es => TypeAnn.TTuple (t.tree :: es.tree)
  | _, emptyRecord => TypeAnn.TRecord []
  | _, record fs => TypeAnn.TRecord fs.tree
  | _, openRecord row fs => TypeAnn.TRecordOpen row fs.tree
  | _, lastElem t => ([t.tree] : List TypeAnn)
  | _, elem t es => (t.tree :: es.tree : List TypeAnn)
  | _, lastField label t => ([(label, t.tree)] : List (Str × TypeAnn))
  | _, field label t fs => ((label, t.tree) :: fs.tree : List (Str × TypeAnn))

/-- There are arguments. -/
def hasArgs : TypeSyn .args → Bool
  | noArgs => false
  | arg _ _ => true

/-- A constructor with arguments, or a group of one. -/
def applied : {k : TypeCat} → TypeSyn k → Bool
  | _, single a => a.applied
  | _, apply head as => as.hasArgs || head.applied
  | _, group t => t.applied
  | _, _ => false

/-- A group of a constructor with arguments is given further ones somewhere. -/
def reapplies : {k : TypeCat} → TypeSyn k → Bool
  | _, single a => a.reapplies
  | _, arrow a t => a.reapplies || t.reapplies
  | _, apply head as => (as.hasArgs && head.applied) || head.reapplies || as.reapplies
  | _, noArgs => false
  | _, arg a as => a.reapplies || as.reapplies
  | _, name _ => false
  | _, unit => false
  | _, group t => t.reapplies
  | _, tuple t es => t.reapplies || es.reapplies
  | _, emptyRecord => false
  | _, record fs => fs.reapplies
  | _, openRecord _ fs => fs.reapplies
  | _, lastElem t => t.reapplies
  | _, elem t es => t.reapplies || es.reapplies
  | _, lastField _ t => t.reapplies
  | _, field _ t fs => t.reapplies || fs.reapplies

/-- Only constructors have arguments, and a name that is no constructor has no qualifier. -/
def Valid : {k : TypeCat} → TypeSyn k → Prop
  | _, single a => a.Valid
  | _, arrow a t => a.Valid ∧ t.Valid
  | _, apply head as => head.Valid ∧ as.Valid ∧
      (as.hasArgs = true → ∃ q segs args, (head.tree : TypeAnn) = .TType q segs args)
  | _, noArgs => True
  | _, arg a as => a.Valid ∧ as.Valid
  | _, name text => text.contains '.' = true → first_upper text = true
  | _, unit => True
  | _, group t => t.Valid
  | _, tuple t es => t.Valid ∧ es.Valid
  | _, emptyRecord => True
  | _, record fs => fs.Valid
  | _, openRecord _ fs => fs.Valid
  | _, lastElem t => t.Valid
  | _, elem t es => t.Valid ∧ es.Valid
  | _, lastField _ t => t.Valid
  | _, field _ t fs => t.Valid ∧ fs.Valid

/-! ### Names -/

theorem splitLastDot_spec {text : Str} (h : text.contains '.' = true) :
    (splitLastDot text).1 ++ '.' :: (splitLastDot text).2 = text := by
  have hmem : '.' ∈ text := by simpa using h
  have hne : text.rdropWhile (· != '.') ≠ [] := by
    intro hnil
    have hall := List.rdropWhile_eq_nil_iff.1 hnil '.' hmem
    cases hall
  have hlast : (text.rdropWhile (· != '.')).getLast hne = '.' := by
    simpa using List.rdropWhile_last_not (· != '.') text hne
  have hconcat := List.dropLast_append_getLast hne
  rw [hlast] at hconcat
  have hsplit : text.rdropWhile (· != '.') ++ text.rtakeWhile (· != '.') = text := by
    rw [List.rdropWhile, List.rtakeWhile, ← List.reverse_append, List.takeWhile_append_dropWhile,
      List.reverse_reverse]
  unfold splitLastDot
  rw [← hconcat, List.append_assoc] at hsplit
  exact hsplit

theorem leaves_nameType {text : Str} (_h : text.contains '.' = true → first_upper text = true) :
    (nameType text).leaves = [.name text] := by
  unfold nameType
  split_ifs with hupper hdot
  · have hspec := splitLastDot_spec hdot
    have hne : (splitLastDot text).1 ≠ [] := by
      intro hnil
      rw [hnil] at hspec
      rw [← hspec] at hupper
      cases hupper
    simp [TypeAnn.leaves, leavesList, typeText, hne, hspec]
  · simp [TypeAnn.leaves, leavesList, typeText]
  · rfl

/-! ### The leaves of the tree -/

theorem leavesFields_ne_nil {fields : List (Str × TypeAnn)} (h : fields ≠ []) :
    leavesFields fields ≠ [] := by
  cases fields with
  | nil => exact absurd rfl h
  | cons f fields => simp [leavesFields]

theorem tree_fields_ne_nil (fs : TypeSyn .fields) : (fs.tree : List (Str × TypeAnn)) ≠ [] := by
  cases fs <;> exact List.cons_ne_nil _ _

theorem leaves_TRecord {fields : List (Str × TypeAnn)} (h : fields ≠ []) :
    (TypeAnn.TRecord fields).leaves = leavesFields fields := by
  simp [TypeAnn.leaves, h]

theorem tree_args (as : TypeSyn .args) :
    (as.hasArgs = false ∧ as = noArgs) ∨
      (as.hasArgs = true ∧ ∃ t ts, (as.tree : List TypeAnn) = t :: ts) := by
  cases as with
  | noArgs => exact Or.inl ⟨rfl, rfl⟩
  | arg a as => exact Or.inr ⟨rfl, _, _, rfl⟩

theorem withArgs_nil (t : TypeAnn) : withArgs t [] = t := by
  cases t <;> rfl

/-- The tree of a head with arguments. -/
theorem withArgs_eq {head : TypeSyn .atom} {as : TypeSyn .args} {q : Str} {segs : List Str}
    {args : List TypeAnn} (hhead : (head.tree : TypeAnn) = .TType q segs args)
    (has : as.hasArgs = true) : withArgs head.tree as.tree = .TType q segs as.tree := by
  rcases as.tree_args with ⟨hno, -⟩ | ⟨-, t, ts, hts⟩
  · rw [hno] at has
    cases has
  · rw [hts, hhead]
    rfl

/-- A tree has a leaf. -/
theorem leaves_tree_ne_nil (s : TypeSyn k) (hs : s.Valid) (hk : k ≠ .args) :
    k.leaves s.tree ≠ [] := by
  induction s with
  | single a ih => exact ih hs (by simp)
  | arrow a t iha iht =>
    have ha := iha hs.1 (by simp)
    simp only [TypeCat.leaves] at ha
    simp [TypeCat.leaves, tree, TypeAnn.leaves, ha]
  | apply head as ihh _ =>
    obtain ⟨hhead, -, hargs⟩ := hs
    rcases as.tree_args with ⟨-, rfl⟩ | ⟨has, -⟩
    · have h := ihh hhead (by simp)
      cases hh : (head.tree : TypeAnn) <;> rw [hh] at h <;>
        simpa [TypeCat.leaves, tree, withArgs, hh] using h
    · obtain ⟨q, segs, args, hq⟩ := hargs has
      rw [tree, withArgs_eq hq has]
      simp [TypeCat.leaves, TypeAnn.leaves]
  | noArgs => exact absurd rfl hk
  | arg a as _ _ => exact absurd rfl hk
  | name text =>
    have hleaves := leaves_nameType hs
    simp [TypeCat.leaves, tree, hleaves]
  | unit => simp [TypeCat.leaves, tree, TypeAnn.leaves]
  | group t ih => exact ih hs (by simp)
  | tuple t es iht _ =>
    have ht := iht hs.1 (by simp)
    simp only [TypeCat.leaves] at ht
    simp [TypeCat.leaves, tree, TypeAnn.leaves, leavesList, ht]
  | emptyRecord => simp [TypeCat.leaves, tree, TypeAnn.leaves]
  | record fs _ =>
    have hne := fs.tree_fields_ne_nil
    simp only [TypeCat.leaves, tree]
    rw [leaves_TRecord hne]
    exact leavesFields_ne_nil hne
  | openRecord row fs _ => simp [TypeCat.leaves, tree, TypeAnn.leaves]
  | lastElem t ih =>
    have ht := ih hs (by simp)
    simp only [TypeCat.leaves] at ht
    simp [TypeCat.leaves, tree, leavesList, ht]
  | elem t es iht _ =>
    have ht := iht hs.1 (by simp)
    simp only [TypeCat.leaves] at ht
    simp [TypeCat.leaves, tree, leavesList, ht]
  | lastField label t _ => simp [TypeCat.leaves, tree, leavesFields]
  | field label t fs _ _ => simp [TypeCat.leaves, tree, leavesFields]

/-- Whether a constructor has arguments. -/
def Carries (t : TypeAnn) (b : Bool) : Prop :=
  ∀ q segs args, t = .TType q segs args → (b = false → args = []) ∧ (b = true → leavesList args ≠ [])

/-- Whether the tree of a part that is a type has arguments. -/
def CatCarries : (k : TypeCat) → k.Tree → Bool → Prop
  | .type, t, b => Carries t b
  | .app, t, b => Carries t b
  | .atom, t, b => Carries t b
  | _, _, _ => True

theorem carries_nameType (text : Str) : Carries (nameType text) false := by
  unfold nameType
  split_ifs <;> rintro q segs args ⟨⟩ <;> simp

/-- A constructor has arguments in the tree exactly if it has in the syntax. -/
theorem carries_tree (s : TypeSyn k) (hs : s.Valid) : CatCarries k s.tree s.applied := by
  induction s with
  | single a ih => exact ih hs
  | arrow a t _ _ => rintro q segs args ⟨⟩
  | apply head as ihh iha =>
    obtain ⟨hhead, has, hargs⟩ := hs
    cases as with
    | noArgs =>
      have h : Carries head.tree head.applied := ihh hhead
      show Carries (withArgs head.tree []) head.applied
      rw [withArgs_nil]
      exact h
    | arg a as =>
      obtain ⟨q, segs, args, hq⟩ := hargs rfl
      rintro q' segs' args' htree
      have htype : withArgs head.tree (arg a as).tree = _ := withArgs_eq hq rfl
      have heq := htype.symm.trans htree
      cases heq
      have hne := a.leaves_tree_ne_nil has.1 (by simp)
      simp only [TypeCat.leaves] at hne
      refine ⟨fun hb => (Bool.noConfusion hb), fun _ => ?_⟩
      simp [tree, leavesList, hne]
  | name text => exact carries_nameType text
  | group t ih => exact ih hs
  | noArgs => trivial
  | arg a as _ _ => trivial
  | lastElem t _ => trivial
  | elem t es _ _ => trivial
  | lastField label t _ => trivial
  | field label t fs _ _ => trivial
  | unit => rintro q segs args ⟨⟩
  | tuple t es _ _ => rintro q segs args ⟨⟩
  | emptyRecord => rintro q segs args ⟨⟩
  | record fs _ => rintro q segs args ⟨⟩
  | openRecord row fs _ => rintro q segs args ⟨⟩

/-- The head of an application with arguments, and what there is of it in the tree. -/
theorem exists_head {head : TypeSyn .atom} {as : TypeSyn .args} (hs : (apply head as).Valid)
    (has : as.hasArgs = true) : ∃ q segs args,
      TypeAnn.leaves head.tree = .name (typeText q segs) :: leavesList args ∧
      TypeAnn.leaves (apply head as).tree = .name (typeText q segs) :: leavesList as.tree ∧
      (head.applied = false → args = []) ∧ (head.applied = true → leavesList args ≠ []) := by
  obtain ⟨hhead, -, hargs⟩ := hs
  obtain ⟨q, segs, args, hq⟩ := hargs has
  have hcarries : Carries head.tree head.applied := head.carries_tree hhead
  refine ⟨q, segs, args, ?_, ?_, hcarries q segs args hq⟩
  · rw [hq]
    rfl
  · rw [tree, withArgs_eq hq has]
    rfl

theorem leaves_apply_noArgs (head : TypeSyn .atom) :
    TypeAnn.leaves (apply head noArgs).tree = TypeAnn.leaves head.tree := by
  show TypeAnn.leaves (withArgs head.tree []) = _
  rw [withArgs_nil]

/-- A tree has the leaves of its syntax, if no group that has arguments is given further ones. -/
theorem leaves_tree (s : TypeSyn k) (hs : s.Valid) (hr : s.reapplies = false) :
    k.leaves s.tree = s.leaves := by
  induction s with
  | single a ih => exact ih hs hr
  | arrow a t iha iht =>
    obtain ⟨hra, hrt⟩ := Bool.or_eq_false_iff.1 hr
    have ha := iha hs.1 hra
    have ht := iht hs.2 hrt
    exact congrArg₂ (· ++ ·) ha ht
  | apply head as ihh iha =>
    obtain ⟨hr, hras⟩ := Bool.or_eq_false_iff.1 hr
    obtain ⟨hboth, hrhead⟩ := Bool.or_eq_false_iff.1 hr
    have hhead : TypeAnn.leaves head.tree = head.leaves := ihh hs.1 hrhead
    have hargs : leavesList as.tree = as.leaves := iha hs.2.1 hras
    show TypeAnn.leaves (apply head as).tree = head.leaves ++ as.leaves
    rcases as.tree_args with ⟨-, rfl⟩ | ⟨has, -⟩
    · rw [leaves_apply_noArgs, hhead]
      exact (List.append_nil _).symm
    · obtain ⟨q, segs, args, hold, hnew, hnone, -⟩ := exists_head hs has
      have happlied : head.applied = false := by simpa [has] using hboth
      rw [hnew, ← hhead, hold, hnone happlied, hargs]
      rfl
  | noArgs => rfl
  | arg a as iha ihs =>
    obtain ⟨hra, hrs⟩ := Bool.or_eq_false_iff.1 hr
    exact congrArg₂ (· ++ ·) (iha hs.1 hra) (ihs hs.2 hrs)
  | name text => exact leaves_nameType hs
  | unit => rfl
  | group t ih => exact ih hs hr
  | tuple t es iht ihe =>
    obtain ⟨hrt, hre⟩ := Bool.or_eq_false_iff.1 hr
    exact congrArg₂ (· ++ ·) (iht hs.1 hrt) (ihe hs.2 hre)
  | emptyRecord => rfl
  | record fs ih =>
    have hfs : leavesFields fs.tree = fs.leaves := ih hs hr
    exact (leaves_TRecord fs.tree_fields_ne_nil).trans hfs
  | openRecord row fs ih => exact congrArg (Leaf.name row :: ·) (ih hs hr)
  | lastElem t ih =>
    have ht := ih hs hr
    exact (List.append_nil _).trans ht
  | elem t es iht ihe =>
    obtain ⟨hrt, hre⟩ := Bool.or_eq_false_iff.1 hr
    exact congrArg₂ (· ++ ·) (iht hs.1 hrt) (ihe hs.2 hre)
  | lastField label t ih =>
    have ht := ih hs hr
    exact congrArg (Leaf.name label :: ·) ((List.append_nil _).trans ht)
  | field label t fs iht ihf =>
    obtain ⟨hrt, hrf⟩ := Bool.or_eq_false_iff.1 hr
    exact congrArg (Leaf.name label :: ·) (congrArg₂ (· ++ ·) (iht hs.1 hrt) (ihf hs.2 hrf))

/-- What a group that has arguments loses: a tree with that has fewer leaves than its syntax. -/
theorem fewer_tree (s : TypeSyn k) (hs : s.Valid) :
    Fewer (k.leaves s.tree) s.leaves s.reapplies := by
  induction s with
  | single a ih => exact ih hs
  | arrow a t iha iht => exact (iha hs.1).append (iht hs.2)
  | apply head as ihh iha =>
    have hhead : Fewer (TypeAnn.leaves head.tree) head.leaves head.reapplies := ihh hs.1
    have hargs : Fewer (leavesList as.tree) as.leaves as.reapplies := iha hs.2.1
    show Fewer (TypeAnn.leaves (apply head as).tree) (head.leaves ++ as.leaves)
      ((as.hasArgs && head.applied) || head.reapplies || as.reapplies)
    rcases as.tree_args with ⟨hno, rfl⟩ | ⟨has, -⟩
    · rw [leaves_apply_noArgs, hno, Bool.false_and, Bool.false_or]
      have happend := hhead.append hargs
      rwa [show leavesList noArgs.tree = [] from rfl, List.append_nil] at happend
    · obtain ⟨q, segs, args, hold, hnew, -, hsome⟩ := exists_head hs has
      rw [has, Bool.true_and, hnew]
      rw [hold] at hhead
      exact fewer_replace hhead hargs hsome
  | noArgs => exact ⟨le_rfl, fun h => (Bool.noConfusion h)⟩
  | arg a as iha ihs => exact (iha hs.1).append (ihs hs.2)
  | name text =>
    have hleaves := leaves_nameType hs
    simp [Fewer, TypeCat.leaves, tree, hleaves, leaves, reapplies]
  | unit => exact ⟨le_rfl, fun h => (Bool.noConfusion h)⟩
  | group t ih => exact ih hs
  | tuple t es iht ihe => exact (iht hs.1).append (ihe hs.2)
  | emptyRecord => exact ⟨le_rfl, fun h => (Bool.noConfusion h)⟩
  | record fs ih =>
    have hfs : Fewer (leavesFields fs.tree) fs.leaves fs.reapplies := ih hs
    rw [← leaves_TRecord fs.tree_fields_ne_nil] at hfs
    exact hfs
  | openRecord row fs ih => exact Fewer.cons (ih hs) (.name row)
  | lastElem t ih =>
    have ht : Fewer (TypeAnn.leaves t.tree) t.leaves t.reapplies := ih hs
    rw [← List.append_nil (TypeAnn.leaves t.tree)] at ht
    exact ht
  | elem t es iht ihe => exact (iht hs.1).append (ihe hs.2)
  | lastField label t ih =>
    have ht : Fewer (TypeAnn.leaves t.tree) t.leaves t.reapplies := ih hs
    rw [← List.append_nil (TypeAnn.leaves t.tree)] at ht
    exact ht.cons (.name label)
  | field label t fs iht ihf => exact ((iht hs.1).append (ihf hs.2)).cons (.name label)

/-- A tree has the leaves of its syntax exactly if no group that has arguments is given further
ones. -/
theorem leaves_tree_iff {s : TypeSyn k} (hs : s.Valid) :
    s.leaves = k.leaves s.tree ↔ s.reapplies = false := by
  constructor
  · intro h
    by_contra hr
    have hlt := (s.fewer_tree hs).2 (by simpa using hr)
    rw [h] at hlt
    exact lt_irrefl _ hlt
  · intro hr
    exact (s.leaves_tree hs hr).symm

end TypeSyn

/-! ### What the parser reads -/

/-- The tokens are those of a syntax with a tree, and the rest. -/
def Gives (k : TypeCat) (toks : List Token) (v : k.Tree) (rest : List Token) : Prop :=
  ∃ (read : List Token) (s : TypeSyn k), toks = read ++ rest ∧ kinds read = s.tokens ∧
    s.tree = v ∧ s.Valid

/-- Type parsers that read types. -/
def GivesType (type : List Token → ParseM (TypeAnn × List Token)) : Prop :=
  ∀ toks t rest, type toks = .ok (t, rest) → Gives .type toks t rest

theorem gives_parse_field {type : List Token → ParseM (TypeAnn × List Token)}
    (htype : GivesType type) {toks rest : List Token} {label : Str} {t : TypeAnn}
    (h : parse_field type toks = .ok ((label, t), rest)) :
    ∃ tok colon toks', toks = tok :: colon :: toks' ∧ tok.kind = .Ident label ∧
      colon.kind = .Colon ∧ Gives .type toks' t rest := by
  unfold parse_field at h
  obtain ⟨⟨name, toks₁⟩, hname, h⟩ := Run.bind_eq_ok.1 h
  obtain ⟨toks₂, hcolon, h⟩ := Run.bind_eq_ok.1 h
  obtain ⟨⟨ty, toks₃⟩, hty, h⟩ := Run.bind_eq_ok.1 h
  cases h
  obtain ⟨tok, rfl, htok⟩ := parse_record_field_name_eq_ok hname
  obtain ⟨colon, rfl, hc⟩ := expect_field_colon_eq_ok hcolon
  exact ⟨tok, colon, toks₂, rfl, htok, hc, htype _ _ _ hty⟩

/-- Further elements of a tuple. -/
theorem gives_elems {type : List Token → ParseM (TypeAnn × List Token)}
    (htype : GivesType type) {toks rest : List Token} {ts : List TypeAnn}
    (h : manyAfter .Comma .Type type toks = .ok (ts, rest)) :
    (ts = [] ∧ toks = rest ∧ peek_kind toks ≠ some .Comma) ∨ Gives .elems toks ts rest := by
  refine manyAfter_induction (fun toks ts rest => (ts = [] ∧ toks = rest ∧
    peek_kind toks ≠ some .Comma) ∨ Gives .elems toks ts rest) ?_ ?_ h
  · intro toks hpeek
    exact Or.inl ⟨rfl, rfl, hpeek⟩
  intro sep toks t rest ts rest' hsep ht hrest
  obtain ⟨read, s, rfl, hread, rfl, hs⟩ := htype _ _ _ ht
  right
  rcases hrest with ⟨rfl, rfl, -⟩ | ⟨read', s', rfl, hread', rfl, hs'⟩
  · exact ⟨sep :: read, .lastElem s, rfl, by simp [TypeSyn.tokens, hsep, hread], rfl, hs⟩
  · exact ⟨sep :: (read ++ read'), .elem s s', by simp, by simp [TypeSyn.tokens, hsep, hread, hread'],
      rfl, hs, hs'⟩

theorem gives_parse_record_type_fields {type : List Token → ParseM (TypeAnn × List Token)}
    (htype : GivesType type) {toks rest : List Token} {fields : List (Str × TypeAnn)}
    (h : parse_record_type_fields type toks = .ok (fields, rest)) : Gives .fields toks fields rest := by
  unfold parse_record_type_fields at h
  obtain ⟨⟨⟨label, t⟩, toks₁⟩, hfirst, h⟩ := Run.bind_eq_ok.1 h
  obtain ⟨⟨fields', toks₂⟩, hrest, h⟩ := Run.bind_eq_ok.1 h
  cases h
  -- The fields after the first one: none, or a list of fields after a comma.
  have hmore : (fields' = [] ∧ toks₁ = rest) ∨ ∃ comma toks', toks₁ = comma :: toks' ∧
      comma.kind = .Comma ∧ Gives .fields toks' fields' rest := by
    refine manyAfter_induction (fun toks fields rest => (fields = [] ∧ toks = rest) ∨
      ∃ comma toks', toks = comma :: toks' ∧ comma.kind = .Comma ∧ Gives .fields toks' fields rest)
      ?_ ?_ hrest
    · intro toks _
      exact Or.inl ⟨rfl, rfl⟩
    rintro sep toks ⟨label, t⟩ rest fields rest' hsep hfield hfields
    obtain ⟨tok, colon, toks', rfl, htok, hcolon, read, s, rfl, hread, rfl, hs⟩ :=
      gives_parse_field htype hfield
    refine Or.inr ⟨sep, _, rfl, hsep, ?_⟩
    rcases hfields with ⟨rfl, rfl⟩ | ⟨comma, toks', rfl, hcomma, read', s', rfl, hread', rfl, hs'⟩
    · exact ⟨tok :: colon :: read, .lastField label s, rfl,
        by simp [TypeSyn.tokens, htok, hcolon, hread], rfl, hs⟩
    · exact ⟨tok :: colon :: (read ++ comma :: read'), .field label s s', by simp,
        by simp [TypeSyn.tokens, htok, hcolon, hread, hcomma, hread'], rfl, hs, hs'⟩
  obtain ⟨tok, colon, toks', rfl, htok, hcolon, read, s, rfl, hread, rfl, hs⟩ :=
    gives_parse_field htype hfirst
  rcases hmore with ⟨rfl, rfl⟩ | ⟨comma, toks', rfl, hcomma, read', s', rfl, hread', rfl, hs'⟩
  · exact ⟨tok :: colon :: read, .lastField label s, rfl,
      by simp [TypeSyn.tokens, htok, hcolon, hread], rfl, hs⟩
  · exact ⟨tok :: colon :: (read ++ comma :: read'), .field label s s', by simp,
      by simp [TypeSyn.tokens, htok, hcolon, hread, hcomma, hread'], rfl, hs, hs'⟩

/-- The atom of a group or a tuple, with its parenthesis. -/
theorem gives_parse_paren_type {type : List Token → ParseM (TypeAnn × List Token)}
    (htype : GivesType type) {opener : Span} {tok : Token} (htok : tok.kind = .LParen)
    {toks rest : List Token} {t : TypeAnn}
    (h : parse_paren_type type opener toks = .ok (t, rest)) : Gives .atom (tok :: toks) t rest := by
  unfold parse_paren_type at h
  split_ifs at h with hunit
  · obtain ⟨toks', hclose, h⟩ := Run.bind_eq_ok.1 h
    cases h
    obtain ⟨close, rfl, hc⟩ := expect_close_eq_ok.1 hclose
    exact ⟨[tok, close], .unit, rfl, by simp [TypeSyn.tokens, htok, hc], rfl, trivial⟩
  · obtain ⟨⟨first, toks₁⟩, hfirst, h⟩ := Run.bind_eq_ok.1 h
    obtain ⟨read, s, rfl, hread, rfl, hs⟩ := htype _ _ _ hfirst
    dsimp only at h
    split_ifs at h with hcomma
    · obtain ⟨toks₂, hclose, h⟩ := Run.bind_eq_ok.1 h
      cases h
      obtain ⟨close, rfl, hc⟩ := expect_close_eq_ok.1 hclose
      exact ⟨tok :: (read ++ [close]), .group s, by simp,
        by simp [TypeSyn.tokens, htok, hread, hc], rfl, hs⟩
    · obtain ⟨⟨ts, toks₂⟩, hts, h⟩ := Run.bind_eq_ok.1 h
      obtain ⟨toks₃, hclose, h⟩ := Run.bind_eq_ok.1 h
      cases h
      obtain ⟨close, rfl, hc⟩ := expect_close_eq_ok.1 hclose
      rcases gives_elems htype hts with ⟨-, -, hpeek⟩ | ⟨read', s', rfl, hread', rfl, hs'⟩
      · exact absurd (not_not.1 hcomma) hpeek
      · exact ⟨tok :: (read ++ (read' ++ [close])), .tuple s s', by simp,
          by simp [TypeSyn.tokens, htok, hread, hread', hc], rfl, hs, hs'⟩

/-- The atom of a record, with its brace. -/
theorem gives_parse_record_type_body {type : List Token → ParseM (TypeAnn × List Token)}
    (htype : GivesType type) {tok : Token} (htok : tok.kind = .LBrace)
    {toks rest : List Token} {t : TypeAnn}
    (h : parse_record_type_body type toks = .ok (t, rest)) : Gives .atom (tok :: toks) t rest := by
  unfold parse_record_type_body at h
  split_ifs at h with hempty hopen
  · obtain ⟨⟨close, toks'⟩, hclose, h⟩ := Run.bind_eq_ok.1 h
    cases h
    rw [bump_eq_ok] at hclose
    subst hclose
    have hc : close.kind = .RBrace := by simpa [peek_kind] using hempty
    exact ⟨[tok, close], .emptyRecord, rfl, by simp [TypeSyn.tokens, htok, hc], rfl, trivial⟩
  · obtain ⟨⟨row, toks₁⟩, hrow, h⟩ := Run.bind_eq_ok.1 h
    obtain ⟨⟨bar, toks₂⟩, hbar, h⟩ := Run.bind_eq_ok.1 h
    obtain ⟨⟨fields, toks₃⟩, hfields, h⟩ := Run.bind_eq_ok.1 h
    obtain ⟨toks₄, hclose, h⟩ := Run.bind_eq_ok.1 h
    cases h
    obtain ⟨name, rfl, hname⟩ := parse_record_field_name_eq_ok hrow
    rw [bump_eq_ok] at hbar
    subst hbar
    have hb : bar.kind = .Pipe := by
      unfold peek_is_open_record_intro at hopen
      split at hopen
      · simpa [peek_kind] using ((Bool.and_eq_true _ _).mp hopen).2
      · cases hopen
    obtain ⟨close, rfl, hc⟩ := expect_record_close_eq_ok hclose
    obtain ⟨read, s, rfl, hread, rfl, hs⟩ := gives_parse_record_type_fields htype hfields
    exact ⟨tok :: name :: bar :: (read ++ [close]), .openRecord row s, by simp,
      by simp [TypeSyn.tokens, htok, hname, hb, hread, hc], rfl, hs⟩
  · obtain ⟨⟨fields, toks₁⟩, hfields, h⟩ := Run.bind_eq_ok.1 h
    obtain ⟨toks₂, hclose, h⟩ := Run.bind_eq_ok.1 h
    cases h
    obtain ⟨close, rfl, hc⟩ := expect_record_close_eq_ok hclose
    obtain ⟨read, s, rfl, hread, rfl, hs⟩ := gives_parse_record_type_fields htype hfields
    exact ⟨tok :: (read ++ [close]), .record s, by simp,
      by simp [TypeSyn.tokens, htok, hread, hc], rfl, hs⟩

/-- Arguments, as long as atoms follow. -/
theorem gives_args {atom : List Token → ParseM (TypeAnn × List Token)}
    (hatom : ∀ toks t rest, atom toks = .ok (t, rest) → Gives .atom toks t rest)
    {threshold : ℕ} {toks rest : List Token} {ts : List TypeAnn}
    (h : many (peek_is_type_atom_in_block threshold) atom toks = .ok (ts, rest)) :
    Gives .args toks ts rest := by
  refine repeatWhile_induction (fun toks _ => ⟨[], .noArgs, rfl, rfl, rfl, trivial⟩) ?_ h
  intro toks t rest ts rest' _ ht hrest
  obtain ⟨read, s, rfl, hread, rfl, hs⟩ := hatom _ _ _ ht
  obtain ⟨read', s', rfl, hread', rfl, hs'⟩ := hrest
  exact ⟨read ++ read', .arg s s', by simp, by simp [TypeSyn.tokens, hread, hread'], rfl, hs, hs'⟩

/-- What a head and its arguments are made to. -/
theorem applyType_eq_ok {head t : TypeAnn} {args : List TypeAnn}
    (h : applyType head args = .ok t) :
    withArgs head args = t ∧ (args ≠ [] → ∃ q segs old, head = .TType q segs old) := by
  unfold applyType at h
  cases args with
  | nil =>
    cases h
    exact ⟨TypeSyn.withArgs_nil head, fun hne => absurd rfl hne⟩
  | cons a args =>
    cases head with
    | TType q segs old =>
      cases h
      exact ⟨rfl, fun _ => ⟨q, segs, old, rfl⟩⟩
    | _ => cases h

/-- The parser reads the syntax of what it gives, at any number of levels. -/
theorem gives_parse (levels : ℕ) :
    (∀ threshold, GivesType (parse_type levels threshold)) ∧
    (∀ threshold toks t rest, parse_type_app levels threshold toks = .ok (t, rest) →
      Gives .app toks t rest) ∧
    (∀ toks t rest, parse_type_atom levels toks = .ok (t, rest) → Gives .atom toks t rest) ∧
    ∀ tok toks t rest, tok.kind = .LBrace → parse_record_type levels toks = .ok (t, rest) →
      Gives .atom (tok :: toks) t rest := by
  induction levels with
  | zero =>
    refine ⟨fun threshold toks t rest h => ?_, fun threshold toks t rest h => ?_,
      fun toks t rest h => ?_, fun tok toks t rest _ h => ?_⟩ <;> cases h
  | succ levels ih =>
    obtain ⟨htype, happ, hatom, hrecord⟩ := ih
    refine ⟨fun threshold toks t rest h => ?_, fun threshold toks t rest h => ?_,
      fun toks t rest h => ?_, fun tok toks t rest htok h => ?_⟩
    · rw [parse_type] at h
      obtain ⟨⟨left, toks₁⟩, hleft, h⟩ := Run.bind_eq_ok.1 h
      obtain ⟨read, s, rfl, hread, rfl, hs⟩ := happ _ _ _ _ hleft
      dsimp only at h
      split_ifs at h with harrow
      · obtain ⟨⟨arrow, toks₂⟩, hbump, h⟩ := Run.bind_eq_ok.1 h
        obtain ⟨⟨right, toks₃⟩, hright, h⟩ := Run.bind_eq_ok.1 h
        cases h
        rw [bump_eq_ok] at hbump
        subst hbump
        have ha : arrow.kind = .Arrow := by
          simpa using ((Bool.and_eq_true _ _).mp harrow).1
        obtain ⟨read', s', rfl, hread', rfl, hs'⟩ := htype _ _ _ _ hright
        exact ⟨read ++ arrow :: read', .arrow s s', by simp,
          by simp [TypeSyn.tokens, hread, ha, hread'], rfl, hs, hs'⟩
      · cases h
        exact ⟨read, .single s, rfl, hread, rfl, hs⟩
    · rw [parse_type_app] at h
      obtain ⟨⟨head, toks₁⟩, hhead, h⟩ := Run.bind_eq_ok.1 h
      obtain ⟨⟨args, toks₂⟩, hargs, h⟩ := Run.bind_eq_ok.1 h
      obtain ⟨t', ht, h⟩ := Run.bind_eq_ok.1 h
      cases h
      obtain ⟨read, s, rfl, hread, rfl, hs⟩ := hatom _ _ _ hhead
      obtain ⟨read', s', rfl, hread', rfl, hs'⟩ := gives_args hatom hargs
      obtain ⟨rfl, hctor⟩ := applyType_eq_ok ht
      refine ⟨read ++ read', .apply s s', by simp, by simp [TypeSyn.tokens, hread, hread'], rfl, hs,
        hs', fun has => hctor ?_⟩
      rcases s'.tree_args with ⟨hno, -⟩ | ⟨-, a, as, htree⟩
      · rw [hno] at has
        cases has
      · rw [htree]
        exact List.cons_ne_nil _ _
    · rw [parse_type_atom] at h
      obtain ⟨⟨tok, toks₁⟩, hbump, hatom'⟩ := Run.bind_eq_ok.1 h
      rw [bump_eq_ok] at hbump
      subst hbump
      dsimp only at hatom'
      split at hatom'
      · next hkind => exact gives_parse_paren_type (htype 0) hkind hatom'
      · next hkind => exact hrecord _ _ _ _ hkind hatom'
      · next text hkind =>
        split_ifs at hatom' with hbad
        · cases hatom'
        · cases hatom'
          refine ⟨[tok], .name text, rfl, by simp [TypeSyn.tokens, hkind], rfl, fun hdot => ?_⟩
          by_contra hupper
          rw [Bool.not_eq_true] at hupper
          exact hbad (by rw [hupper, hdot]; rfl)
      · cases hatom'
    · rw [parse_record_type] at h
      exact gives_parse_record_type_body (htype 0) htok h

/-! ### The loops end -/

theorem Gives.shorter {k : TypeCat} {toks rest : List Token} {v : k.Tree} (h : Gives k toks v rest)
    (hk : k ≠ .args) : rest.length < toks.length := by
  obtain ⟨read, s, rfl, hread, -⟩ := h
  obtain ⟨t, tail, htokens, -⟩ := s.exists_tokens hk
  have hlength := congrArg List.length (hread.trans htokens)
  simp only [kinds, List.length_map, List.length_cons] at hlength
  rw [List.length_append]
  omega

theorem parse_record_type_fields_ended {type : List Token → ParseM (TypeAnn × List Token)}
    (htype : GivesType type) (hended : ∀ toks, (type toks).Ended) (toks : List Token) :
    (parse_record_type_fields type toks).Ended := by
  have hfield : Reads (parse_field type) := by
    refine ⟨fun toks => ?_, ?_⟩
    · refine Run.ended_bind (parse_record_field_name_ended _) ?_
      rintro ⟨label, toks⟩ -
      refine Run.ended_bind (expect_field_colon_ended _) ?_
      rintro toks -
      refine Run.ended_bind (hended _) ?_
      rintro ⟨t, toks⟩ -
      exact ok_ended _
    · rintro toks ⟨label, t⟩ rest h
      obtain ⟨tok, colon, toks', rfl, -, -, hgives⟩ := gives_parse_field htype h
      have hlt := hgives.shorter (by simp)
      simp only [List.length_cons]
      omega
  refine Run.ended_bind (hfield.ended _) ?_
  rintro ⟨field, toks⟩ -
  refine Run.ended_bind (manyAfter_ended hfield _) ?_
  rintro ⟨fields, toks⟩ -
  exact ok_ended _

theorem parse_record_type_body_ended {type : List Token → ParseM (TypeAnn × List Token)}
    (htype : GivesType type) (hended : ∀ toks, (type toks).Ended) (toks : List Token) :
    (parse_record_type_body type toks).Ended := by
  unfold parse_record_type_body
  split_ifs
  · refine Run.ended_bind (bump_ended _ _) ?_
    rintro ⟨tok, toks⟩ -
    exact ok_ended _
  · refine Run.ended_bind (parse_record_field_name_ended _) ?_
    rintro ⟨row, toks⟩ -
    refine Run.ended_bind (bump_ended _ _) ?_
    rintro ⟨tok, toks⟩ -
    refine Run.ended_bind (parse_record_type_fields_ended htype hended _) ?_
    rintro ⟨fields, toks⟩ -
    refine Run.ended_bind (expect_record_close_ended _) ?_
    rintro toks -
    exact ok_ended _
  · refine Run.ended_bind (parse_record_type_fields_ended htype hended _) ?_
    rintro ⟨fields, toks⟩ -
    refine Run.ended_bind (expect_record_close_ended _) ?_
    rintro toks -
    exact ok_ended _

theorem parse_paren_type_ended {type : List Token → ParseM (TypeAnn × List Token)}
    (htype : GivesType type) (hended : ∀ toks, (type toks).Ended) (opener : Span)
    (toks : List Token) : (parse_paren_type type opener toks).Ended := by
  have hreads : Reads type :=
    ⟨hended, fun toks t rest h => (htype toks t rest h).shorter (by simp)⟩
  unfold parse_paren_type
  split_ifs
  · refine Run.ended_bind (expect_close_ended _ _ _) ?_
    rintro toks -
    exact ok_ended _
  · refine Run.ended_bind (hended _) ?_
    rintro ⟨first, toks⟩ -
    dsimp only
    split_ifs
    · refine Run.ended_bind (expect_close_ended _ _ _) ?_
      rintro toks -
      exact ok_ended _
    · refine Run.ended_bind (manyAfter_ended hreads _) ?_
      rintro ⟨elems, toks⟩ -
      refine Run.ended_bind (expect_close_ended _ _ _) ?_
      rintro toks -
      exact ok_ended _

theorem applyType_ended (head : TypeAnn) (args : List TypeAnn) :
    (applyType head args).Ended := by
  unfold applyType
  split_ifs
  · exact ok_ended _
  · cases head with
    | TType q segs old => exact ok_ended _
    | _ => exact fail_ended _

theorem parse_ended (levels : ℕ) :
    (∀ threshold toks, (parse_type levels threshold toks).Ended) ∧
    (∀ threshold toks, (parse_type_app levels threshold toks).Ended) ∧
    (∀ toks, (parse_type_atom levels toks).Ended) ∧
    ∀ toks, (parse_record_type levels toks).Ended := by
  induction levels with
  | zero =>
    refine ⟨fun _ _ => ?_, fun _ _ => ?_, fun _ => ?_, fun _ => ?_⟩
    · exact fail_ended _
    · exact fail_ended _
    · exact fail_ended _
    · exact fail_ended _
  | succ levels ih =>
    obtain ⟨htype, happ, hatom, hrecord⟩ := ih
    obtain ⟨gtype, -, gatom, -⟩ := gives_parse levels
    refine ⟨fun threshold toks => ?_, fun threshold toks => ?_, fun toks => ?_, fun toks => ?_⟩
    · rw [parse_type]
      refine Run.ended_bind (happ _ _) ?_
      rintro ⟨left, toks⟩ -
      dsimp only
      split_ifs
      · refine Run.ended_bind (bump_ended _ _) ?_
        rintro ⟨tok, toks⟩ -
        refine Run.ended_bind (htype _ _) ?_
        rintro ⟨right, toks⟩ -
        exact ok_ended _
      · exact ok_ended _
    · have hreads : Reads (parse_type_atom levels) :=
        ⟨hatom, fun toks t rest h => (gatom toks t rest h).shorter (by simp)⟩
      rw [parse_type_app]
      refine Run.ended_bind (hatom _) ?_
      rintro ⟨head, toks⟩ -
      refine Run.ended_bind (many_ended hreads _) ?_
      rintro ⟨args, toks⟩ -
      refine Run.ended_bind (applyType_ended _ _) ?_
      rintro t -
      exact ok_ended _
    · rw [parse_type_atom]
      refine Run.ended_bind (bump_ended _ _) ?_
      rintro ⟨tok, toks⟩ -
      dsimp only
      split
      · exact parse_paren_type_ended (gtype 0) (htype 0) _ _
      · exact hrecord _
      · split_ifs
        · exact fail_ended _
        · exact ok_ended _
      · exact fail_ended _
    · rw [parse_record_type]
      exact parse_record_type_body_ended (gtype 0) (htype 0) _

/-- The parser of types always ends. -/
theorem parse_type_standalone_ended (toks : List Token) : (parse_type_standalone toks).Ended := by
  refine Run.ended_bind ((parse_ended _).1 _ _) ?_
  rintro ⟨t, toks⟩ -
  cases toks with
  | nil => exact ok_ended _
  | cons t toks => exact fail_ended _

/-! ### Whole types -/

/-- A type is written in which a group that has arguments is given further ones. -/
def TypeReapplies (toks : List Tok) : Prop :=
  ∃ s : TypeSyn .type, s.tokens = toks ∧ s.reapplies = true

/-- The tree of an accepted type has all that is written exactly if no group that has arguments is
given further ones. -/
theorem type_leaves_iff {toks : List Token} {t : TypeAnn}
    (h : parse_type_standalone toks = .ok t) :
    written (kinds toks) = t.leaves ↔ ¬ TypeReapplies (kinds toks) := by
  unfold parse_type_standalone at h
  obtain ⟨⟨t', rest⟩, htype, hrest⟩ := Run.bind_eq_ok.1 h
  have hnil : rest = [] ∧ t' = t := by
    cases rest with
    | nil =>
      cases hrest
      exact ⟨rfl, rfl⟩
    | cons tok rest => cases hrest
  obtain ⟨rfl, rfl⟩ := hnil
  obtain ⟨read, s, rfl, hread, rfl, hs⟩ := (gives_parse _).1 _ _ _ _ htype
  have hleaves := s.written_tokens []
  rw [List.append_nil, written_nil, List.append_nil] at hleaves
  rw [List.append_nil, hread, hleaves]
  have hiff : s.leaves = TypeAnn.leaves s.tree ↔ s.reapplies = false := TypeSyn.leaves_tree_iff hs
  rw [hiff]
  constructor
  · rintro hr ⟨s', htokens, hr'⟩
    have hends : TypeSyn.Ends .type [] := by rintro u ⟨⟩
    have heq : s.tokens ++ [] = s'.tokens ++ [] := by rw [htokens]
    obtain ⟨rfl, -⟩ := TypeSyn.unique heq hends hends
    rw [hr] at hr'
    cases hr'
  · intro hno
    by_contra hr
    exact hno ⟨s, rfl, by simpa using hr⟩

end IpeLang.Parse
