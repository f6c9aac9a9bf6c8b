import IpeLang.Runtime.Html

/-!
# Addresses of elements

Every element of a tree is stamped with an address: that of its parent, its number among the elements of
the parent, its tag, and a key if it has one.

* `assign_ipe_ids`: the stamping;
* `Carries`: the addresses that the readers of an element find;
* `address`, `at?_assign_ipe_ids_depth`: every element is stamped with its address;
* `leftBehind`, `carries_set_attr`: a stamp leaves the attributes behind the first one of its name;
* `assign_ipe_ids_addressed_iff`: when every element of a stamped tree has an address of its own.
-/

namespace IpeLang.Runtime.Dom

open Lib (Str)

variable {M : Type}

def Html.isElement : Html M → Bool
  | .HElement _ _ _ => true
  | _ => false

/-! ### Stamping -/

/-- The segment of an element with a tag that is not safe. -/
def UNSAFE_TAG_ID_SEGMENT : Str := ['x']

def attr_value (attrs : List (Attribute M)) (key : Str) : Option Str :=
  attrs.findSome? fun
    | .Attr k v => if k = key then some v else none
    | _ => none

def sanitise_ipe_id_key (s : Str) : Str := s.map fun c => if c.isAlphanum || c == '-' || c == '_' then c else '_'

/-- Elements of forms, which a name tells apart. -/
def FORM_TAGS : List Str :=
  ["input".toList, "textarea".toList, "select".toList, "form".toList, "button".toList, "fieldset".toList]

/-- What tells an element from its siblings: its key, or its name in a form. -/
def ipe_id_key (tag : Str) (attrs : List (Attribute M)) : Option Str :=
  match (attr_value attrs "ipe-key".toList).filter fun k => !k.isEmpty with
  | some k => some (sanitise_ipe_id_key k)
  | none =>
    if FORM_TAGS.contains tag then
      ((attr_value attrs "name".toList).filter fun k => !k.isEmpty).map sanitise_ipe_id_key
    else none

def set_attr (key val : Str) : List (Attribute M) → List (Attribute M)
  | [] => [.Attr key val]
  | .Attr k v :: attrs => if k = key then .Attr k val :: attrs else .Attr k v :: set_attr key val attrs
  | a :: attrs => a :: set_attr key val attrs

/-- The segment of an element, after its number. -/
def segment (tag : Str) (attrs : List (Attribute M)) : Str :=
  (if is_safe_html_name tag then tag else UNSAFE_TAG_ID_SEGMENT) ++
    match ipe_id_key tag attrs with
    | some key => ':' :: key
    | none => []

/-- The address of the element with a number under a parent. -/
def childPath (path : Str) (idx : ℕ) : Html M → Str
  | .HElement tag attrs _ => path ++ '_' :: Nat.toDigits 10 idx ++ '_' :: segment tag attrs
  | _ => path

mutual

def assign_ipe_ids_depth : Html M → Str → ℕ → Html M
  | .HElement tag attrs kids, path, depth =>
    if MAX_HTML_DEPTH ≤ depth then .HElement tag attrs kids
    else .HElement tag (set_attr "ipe-id".toList path attrs) (assign_kids kids path 0 depth)
  | .HText t, _, _ => .HText t
  | .HRaw r, _, _ => .HRaw r

/-- Stamp the children of an element, from a number on. -/
def assign_kids : List (Html M) → Str → ℕ → ℕ → List (Html M)
  | [], _, _, _ => []
  | child :: kids, path, idx, depth =>
    if child.isElement then
      assign_ipe_ids_depth child (childPath path idx child) (depth + 1) :: assign_kids kids path (idx + 1) depth
    else child :: assign_kids kids path idx depth

end

def assign_ipe_ids (node : Html M) (path : Str) : Html M := assign_ipe_ids_depth node path 0

/-- The value that the text of an element gives to an attribute. -/
def rendered_value (attrs : List (Attribute M)) (key : Str) : Option Str :=
  ((attrPairs attrs).find? (·.1 = key)).map Prod.snd

/-- An address that a reader finds at an element: updates and handlers take the first attribute, widgets and the
markers of handlers the last one, and the page shows the last one that is set in any way. -/
def Carries (attrs : List (Attribute M)) (id : Str) : Prop :=
  attr_value attrs "ipe-id".toList = some id ∨ (attrValues attrs "ipe-id".toList).getLast? = some id ∨
    rendered_value attrs "ipe-id".toList = some id

/-- The attributes of an element. -/
def Html.attrs : Html M → List (Attribute M)
  | .HElement _ attrs _ => attrs
  | _ => []

/-- The node at a position: the place among the children of every node on the way. -/
def Html.at? : Html M → List ℕ → Option (Html M)
  | node, [] => some node
  | .HElement _ _ kids, i :: p => kids[i]?.bind (·.at? p)
  | _, _ :: _ => none

/-! ### Attributes -/

theorem attr_value_set_attr_self (key val : Str) (attrs : List (Attribute M)) :
    attr_value (set_attr key val attrs) key = some val := by
  unfold attr_value
  induction attrs with
  | nil => simp [set_attr]
  | cons a attrs ih =>
    cases a with
    | Attr k v =>
      by_cases hk : k = key
      · simp [set_attr, hk]
      · simpa [set_attr, hk] using ih
    | BoolAttr k present => simpa [set_attr] using ih
    | EventAttr event => simpa [set_attr] using ih
    | NoAttr => simpa [set_attr] using ih

theorem attr_value_set_attr_of_ne {key key' : Str} (h : key ≠ key') (val : Str) (attrs : List (Attribute M)) :
    attr_value (set_attr key val attrs) key' = attr_value attrs key' := by
  unfold attr_value
  induction attrs with
  | nil => simp [set_attr, h]
  | cons a attrs ih =>
    cases a with
    | Attr k v =>
      by_cases hk : k = key
      · simp [set_attr, hk, h]
      · by_cases hk' : k = key'
        · subst hk'
          simp [set_attr, hk]
        · simpa [set_attr, hk, hk'] using ih
    | BoolAttr k present => simpa [set_attr] using ih
    | EventAttr event => simpa [set_attr] using ih
    | NoAttr => simpa [set_attr] using ih

theorem set_attr_set_attr (key val : Str) (attrs : List (Attribute M)) :
    set_attr key val (set_attr key val attrs) = set_attr key val attrs := by
  induction attrs with
  | nil => simp [set_attr]
  | cons a attrs ih =>
    cases a with
    | Attr k v =>
      by_cases hk : k = key
      · simp [set_attr, hk]
      · simpa [set_attr, hk] using ih
    | BoolAttr k present => simpa [set_attr] using ih
    | EventAttr event => simpa [set_attr] using ih
    | NoAttr => simpa [set_attr] using ih

/-- A stamp does not change the segment. -/
theorem segment_set_attr (tag val : Str) (attrs : List (Attribute M)) :
    segment tag (set_attr "ipe-id".toList val attrs) = segment tag attrs := by
  have hkey := attr_value_set_attr_of_ne (show "ipe-id".toList ≠ "ipe-key".toList by decide) val attrs
  have hname := attr_value_set_attr_of_ne (show "ipe-id".toList ≠ "name".toList by decide) val attrs
  unfold segment ipe_id_key
  rw [hkey, hname]

/-! ### What the readers find

A stamp overwrites the first attribute of its name. Readers of the last one find what stands behind it. -/

theorem find?_put_self (k v : Str) (change : Str → Str) (pairs : List (Str × Str)) :
    ((put k change v pairs).find? (·.1 = k)).map Prod.snd =
      some (((pairs.find? (·.1 = k)).map fun p => change p.2).getD v) := by
  induction pairs with
  | nil => simp [put]
  | cons p pairs ih =>
    unfold put
    by_cases hk : p.1 = k
    · simp [hk]
    · simpa [hk] using ih

theorem find?_put_of_ne {k k' : Str} (h : k ≠ k') (v : Str) (change : Str → Str) (pairs : List (Str × Str)) :
    (put k change v pairs).find? (·.1 = k') = pairs.find? (·.1 = k') := by
  induction pairs with
  | nil => simp [put, h]
  | cons p pairs ih =>
    unfold put
    by_cases hk : p.1 = k
    · simp [hk, h]
    · rw [if_neg hk, List.find?_cons, List.find?_cons, ih]

/-- What an attribute sets a name to. -/
def Attribute.value (key : Str) : Attribute M → Option Str
  | .Attr k v => if k = key then some v else none
  | .BoolAttr k true => if k = key then some "true".toList else none
  | _ => none

/-- Of the values of a name, the page shows the last one. -/
theorem rendered_value_eq {key : Str} (hclass : key ≠ "class".toList) (hstyle : key ≠ "style".toList)
    (attrs : List (Attribute M)) :
    rendered_value attrs key = (attrs.filterMap (Attribute.value key)).getLast? := by
  have hjoin : ∀ v existing : Str, joinValue key v existing = v := by
    intro v existing
    unfold joinValue
    rw [beq_eq_false_iff_ne.2 hclass, beq_eq_false_iff_ne.2 hstyle, Bool.and_false, if_neg Bool.false_ne_true,
      if_neg Bool.false_ne_true]
  have hpair : ∀ (pairs : List (Str × Str)) (a : Attribute M),
      ((addPair pairs a).find? (·.1 = key)).map Prod.snd =
        (a.value key).or ((pairs.find? (·.1 = key)).map Prod.snd) := by
    intro pairs a
    cases a with
    | Attr k v =>
      by_cases hk : k = key
      · subst hk
        rw [addPair, find?_put_self, Attribute.value, if_pos rfl, Option.some_or]
        cases pairs.find? (·.1 = k) with
        | none => rfl
        | some p => exact congrArg some (hjoin v p.2)
      · rw [addPair, find?_put_of_ne hk, Attribute.value, if_neg hk, Option.none_or]
    | BoolAttr k present =>
      cases present with
      | false => rfl
      | true =>
        by_cases hk : k = key
        · subst hk
          rw [addPair, find?_put_self, Attribute.value, if_pos rfl, Option.some_or]
          cases pairs.find? (·.1 = k) <;> rfl
        · rw [addPair, find?_put_of_ne hk, Attribute.value, if_neg hk, Option.none_or]
    | EventAttr event => rfl
    | NoAttr => rfl
  unfold rendered_value attrPairs
  -- From the last attribute on, which takes the place of those before it.
  induction attrs using List.reverseRecOn with
  | nil => rfl
  | append_singleton attrs a ih =>
    rw [List.foldl_append, List.foldl_cons, List.foldl_nil, hpair, ih, List.filterMap_append, List.getLast?_append]
    cases ha : a.value key <;> simp [ha]

/-- The attributes behind the first one of a name. -/
def behind (key : Str) : List (Attribute M) → List (Attribute M)
  | [] => []
  | .Attr k _ :: attrs => if k = key then attrs else behind key attrs
  | _ :: attrs => behind key attrs

theorem set_attr_eq (key val : Str) (attrs : List (Attribute M)) :
    ∃ front, set_attr key val attrs = front ++ .Attr key val :: behind key attrs := by
  induction attrs with
  | nil => exact ⟨[], rfl⟩
  | cons a attrs ih =>
    obtain ⟨front, hfront⟩ := ih
    cases a with
    | Attr k v =>
      by_cases hk : k = key
      · exact ⟨[], by simp [set_attr, behind, hk]⟩
      · exact ⟨.Attr k v :: front, by simp [set_attr, behind, hk, hfront]⟩
    | BoolAttr k present => exact ⟨.BoolAttr k present :: front, by simp [set_attr, behind, hfront]⟩
    | EventAttr event => exact ⟨.EventAttr event :: front, by simp [set_attr, behind, hfront]⟩
    | NoAttr => exact ⟨.NoAttr :: front, by simp [set_attr, behind, hfront]⟩

/-- The addresses that readers find behind a stamp. -/
def leftBehind (attrs : List (Attribute M)) : List Str :=
  let rest := behind "ipe-id".toList attrs
  (attrValues rest "ipe-id".toList).getLast?.toList ++
    (rest.filterMap (Attribute.value "ipe-id".toList)).getLast?.toList

/-- At a stamped element, readers find the stamp, or what is left behind it. -/
theorem carries_set_attr {val id : Str} {attrs : List (Attribute M)} :
    Carries (set_attr "ipe-id".toList val attrs) id ↔ id = val ∨ id ∈ leftBehind attrs := by
  obtain ⟨front, hfront⟩ := set_attr_eq "ipe-id".toList val attrs
  have hlast : ∀ (values : List Str) (more : Option Str),
      ((some (values.getLast?.getD val)).or more = some id) ↔ values.getLast? = some id ∨ values = [] ∧ id = val := by
    intro values more
    cases values using List.reverseRecOn with
    | nil => simp [eq_comm]
    | append_singleton values v => simp
  unfold Carries leftBehind
  rw [attr_value_set_attr_self, hfront, rendered_value_eq (by decide) (by decide), List.filterMap_append,
    List.getLast?_append]
  unfold attrValues
  rw [List.filterMap_append, List.getLast?_append]
  simp only [List.filterMap_cons, Attribute.value, if_true, List.getLast?_cons, hlast, Option.some.injEq,
    List.mem_append, Option.mem_toList]
  grind

/-! ### Stamps -/

theorem assign_of_not_element {node : Html M} (h : node.isElement = false) (path : Str) (depth : ℕ) :
    assign_ipe_ids_depth node path depth = node := by
  cases node with
  | HElement tag attrs kids => cases h
  | HText t => rfl
  | HRaw r => rfl

theorem assign_of_le {depth : ℕ} (h : MAX_HTML_DEPTH ≤ depth) (node : Html M) (path : Str) :
    assign_ipe_ids_depth node path depth = node := by
  cases node with
  | HElement tag attrs kids => exact if_pos h
  | HText t => rfl
  | HRaw r => rfl

theorem isElement_assign (node : Html M) (path : Str) (depth : ℕ) :
    (assign_ipe_ids_depth node path depth).isElement = node.isElement := by
  cases node with
  | HElement tag attrs kids =>
    unfold assign_ipe_ids_depth
    split <;> rfl
  | HText t => rfl
  | HRaw r => rfl

theorem childPath_assign (path : Str) (idx : ℕ) (node : Html M) (path' : Str) (depth : ℕ) :
    childPath path idx (assign_ipe_ids_depth node path' depth) = childPath path idx node := by
  cases node with
  | HElement tag attrs kids =>
    unfold assign_ipe_ids_depth
    split
    · rfl
    · exact congrArg (fun s => path ++ '_' :: Nat.toDigits 10 idx ++ '_' :: s) (segment_set_attr tag path' attrs)
  | HText t => rfl
  | HRaw r => rfl

theorem attrs_assign {node : Html M} (h : node.isElement = true) {path : Str} {depth : ℕ}
    (hdepth : depth < MAX_HTML_DEPTH) :
    (assign_ipe_ids_depth node path depth).attrs = set_attr "ipe-id".toList path node.attrs := by
  cases node with
  | HElement tag attrs kids =>
    unfold assign_ipe_ids_depth
    rw [if_neg (Nat.not_le.2 hdepth)]
    rfl
  | HText t => cases h
  | HRaw r => cases h

/-- The children are stamped with the number of elements before them. -/
theorem getElem?_assign_kids (kids : List (Html M)) (path : Str) (idx depth i : ℕ) :
    (assign_kids kids path idx depth)[i]? = kids[i]?.map fun child =>
      assign_ipe_ids_depth child (childPath path (idx + (kids.take i).countP Html.isElement) child) (depth + 1) := by
  induction kids generalizing idx i with
  | nil => simp [assign_kids]
  | cons child kids ih =>
    unfold assign_kids
    by_cases hchild : child.isElement = true
    · rw [if_pos hchild]
      cases i with
      | zero => simp
      | succ i =>
        rw [List.getElem?_cons_succ, List.getElem?_cons_succ, ih, List.take_succ_cons, List.countP_cons_of_pos hchild]
        simp only [Nat.add_assoc, Nat.add_comm 1]
    · rw [if_neg hchild]
      cases i with
      | zero =>
        have := assign_of_not_element (Bool.eq_false_iff.2 hchild) (childPath path idx child) (depth + 1)
        simp [this]
      | succ i =>
        rw [List.getElem?_cons_succ, List.getElem?_cons_succ, ih, List.take_succ_cons, List.countP_cons_of_neg hchild]

/-! ### Addresses -/

/-- The address of the node at a position. -/
def address : Html M → Str → List ℕ → Str
  | _, path, [] => path
  | .HElement _ _ kids, path, i :: p =>
    match kids[i]? with
    | some child => address child (childPath path ((kids.take i).countP Html.isElement) child) p
    | none => path
  | _, path, _ :: _ => path

/-- Every node is stamped with its address. -/
theorem at?_assign_ipe_ids_depth (p : List ℕ) (node : Html M) (path : Str) (depth : ℕ) :
    (assign_ipe_ids_depth node path depth).at? p =
      (node.at? p).map fun e => assign_ipe_ids_depth e (address node path p) (depth + p.length) := by
  induction p generalizing node path depth with
  | nil => simp [Html.at?, address]
  | cons i p ih =>
    by_cases hdepth : MAX_HTML_DEPTH ≤ depth
    · have hid : ∀ e : Html M, assign_ipe_ids_depth e (address node path (i :: p)) (depth + (i :: p).length) = e :=
        fun e => assign_of_le (le_trans hdepth (Nat.le_add_right _ _)) e _
      rw [assign_of_le hdepth, funext hid]
      exact Option.map_id'.symm
    · cases node with
      | HElement tag attrs kids =>
        rw [assign_ipe_ids_depth, if_neg hdepth, Html.at?, Html.at?, getElem?_assign_kids, address]
        cases hchild : kids[i]? with
        | none => rfl
        | some child =>
          rw [Option.map_some, Option.bind_some, Option.bind_some, ih, Nat.zero_add, List.length_cons,
            Nat.add_assoc depth 1, Nat.add_comm 1]
      | HText t => rfl
      | HRaw r => rfl

theorem prefix_address (p : List ℕ) (node : Html M) (path : Str) : path <+: address node path p := by
  induction p generalizing node path with
  | nil => exact List.prefix_rfl
  | cons i p ih =>
    cases node with
    | HElement tag attrs kids =>
      unfold address
      split
      · rename_i child _
        refine List.IsPrefix.trans ?_ (ih child _)
        cases child with
        | HElement ctag cattrs ckids => exact ⟨_, (List.append_assoc _ _ _).symm⟩
        | HText t => exact List.prefix_rfl
        | HRaw r => exact List.prefix_rfl
      · exact List.prefix_rfl
    | HText t => exact List.prefix_rfl
    | HRaw r => exact List.prefix_rfl

/-- The nodes on the way to an element are elements. -/
theorem isElement_of_at? {node e : Html M} {p : List ℕ} (h : node.at? p = some e) (he : e.isElement = true) :
    node.isElement = true := by
  cases p with
  | nil =>
    cases h
    exact he
  | cons i p =>
    cases node with
    | HElement tag attrs kids => rfl
    | HText t => cases h
    | HRaw r => cases h

/-- The address of an element below another one begins with the number of the child on the way. -/
theorem address_cons {tag : Str} {attrs : List (Attribute M)} {kids : List (Html M)} {i : ℕ} {p : List ℕ}
    {e : Html M} (h : (Html.HElement tag attrs kids).at? (i :: p) = some e) (he : e.isElement = true) (path : Str) :
    ∃ child rest, kids[i]? = some child ∧ child.at? p = some e ∧ child.isElement = true ∧
      address (.HElement tag attrs kids) path (i :: p) =
        address child (childPath path ((kids.take i).countP Html.isElement) child) p ∧
      address (.HElement tag attrs kids) path (i :: p) =
        path ++ '_' :: Nat.toDigits 10 ((kids.take i).countP Html.isElement) ++ '_' :: rest := by
  obtain ⟨child, hchild, hat⟩ := Option.bind_eq_some_iff.1 h
  have helem := isElement_of_at? hat he
  have haddress : address (.HElement tag attrs kids) path (i :: p) =
      address child (childPath path ((kids.take i).countP Html.isElement) child) p := by
    rw [address, hchild]
  obtain ⟨rest, hrest⟩ := prefix_address p child (childPath path ((kids.take i).countP Html.isElement) child)
  cases child with
  | HElement ctag cattrs ckids =>
    refine ⟨_, segment ctag cattrs ++ rest, hchild, hat, rfl, haddress, ?_⟩
    rw [haddress, ← hrest, childPath]
    simp only [List.append_assoc, List.cons_append]
  | HText t => cases helem
  | HRaw r => cases helem

theorem toDigits_underscore_inj {m n : ℕ} {s t : Str}
    (h : Nat.toDigits 10 m ++ '_' :: s = Nat.toDigits 10 n ++ '_' :: t) : m = n := by
  have htake : ∀ (n : ℕ) (s : Str), (Nat.toDigits 10 n ++ '_' :: s).takeWhile (· != '_') = Nat.toDigits 10 n := by
    intro n s
    have hdigits : ∀ c ∈ Nat.toDigits 10 n, (c != '_') = true := by
      intro c hc
      rw [bne_iff_ne]
      rintro rfl
      exact Nat.underscore_not_in_toDigits hc
    rw [List.takeWhile_append_of_pos hdigits, List.takeWhile_cons_of_neg (by decide), List.append_nil]
  have hdigits : Nat.toDigits 10 m = Nat.toDigits 10 n := by rw [← htake m s, h, htake]
  rw [← Nat.ofDigitChars_ten_toDigits (n := m), hdigits, Nat.ofDigitChars_ten_toDigits]

/-- Different elements have different numbers. -/
theorem countP_take_lt {α : Type} {q : α → Bool} {l : List α} {i j : ℕ} (hij : i < j) {a : α}
    (ha : l[i]? = some a) (hq : q a = true) : (l.take i).countP q < (l.take j).countP q := by
  have hsucc : (l.take (i + 1)).countP q = (l.take i).countP q + 1 := by
    rw [List.take_add_one, List.countP_append, ha]
    simp [hq]
  have hle : (l.take (i + 1)).countP q ≤ (l.take j).countP q :=
    (List.take_sublist_take_left hij).countP_le
  omega

/-- Addresses of different elements are different. -/
theorem address_ne {p q : List ℕ} (hpq : p ≠ q) {node e₁ e₂ : Html M} (h₁ : node.at? p = some e₁)
    (h₂ : node.at? q = some e₂) (he₁ : e₁.isElement = true) (he₂ : e₂.isElement = true) (path : Str) :
    address node path p ≠ address node path q := by
  -- An address goes on below its element.
  have hlonger : ∀ (n : ℕ) (rest : Str), path ≠ path ++ '_' :: Nat.toDigits 10 n ++ '_' :: rest := by
    intro n rest h
    have := congrArg List.length h
    simp only [List.length_append, List.length_cons] at this
    omega
  induction p generalizing node q path with
  | nil =>
    cases q with
    | nil => exact absurd rfl hpq
    | cons j q =>
      cases node with
      | HElement tag attrs kids =>
        obtain ⟨child, rest, -, -, -, -, hq⟩ := address_cons h₂ he₂ path
        rw [hq, address]
        exact hlonger _ rest
      | HText t => cases h₂
      | HRaw r => cases h₂
  | cons i p ih =>
    cases node with
    | HElement tag attrs kids =>
      obtain ⟨child, rest, hi, hat, helem, hchild, hp⟩ := address_cons h₁ he₁ path
      cases q with
      | nil =>
        rw [hp, address]
        exact (hlonger _ rest).symm
      | cons j q =>
        obtain ⟨child', rest', hj, hat', helem', hchild', hq⟩ := address_cons h₂ he₂ path
        by_cases hij : i = j
        · subst hij
          cases hi.symm.trans hj
          rw [hchild, hchild']
          have hne : p ≠ q := fun h => hpq (congrArg (i :: ·) h)
          refine ih hne hat hat' _ fun n rest h => ?_
          have := congrArg List.length h
          simp only [List.length_append, List.length_cons] at this
          omega
        · -- the numbers differ, and each ends before the next underscore
          have hcount : (kids.take i).countP Html.isElement ≠ (kids.take j).countP Html.isElement := by
            rcases Nat.lt_or_gt_of_ne hij with hlt | hlt
            · exact (countP_take_lt hlt hi helem).ne
            · exact (countP_take_lt hlt hj helem').ne'
          intro h
          rw [hp, hq, List.append_assoc, List.append_assoc] at h
          have htail := List.cons.inj (List.append_cancel_left h)
          exact hcount (toDigits_underscore_inj htail.2)
    | HText t => cases h₁
    | HRaw r => cases h₁

/-! ### Characters of addresses -/

theorem isNameChar_of_isAlphanum {c : Char} (h : c.isAlphanum = true) : isNameChar c = true := by
  unfold isNameChar
  rw [h]
  rfl

theorem all_sanitise_ipe_id_key (s : Str) : (sanitise_ipe_id_key s).all isNameChar = true := by
  rw [List.all_eq_true]
  intro c hc
  obtain ⟨d, -, rfl⟩ := List.mem_map.1 hc
  split
  · rename_i hd
    simp only [Bool.or_eq_true, beq_iff_eq] at hd
    rcases hd with (hd | rfl) | rfl
    · exact isNameChar_of_isAlphanum hd
    · decide
    · decide
  · decide

theorem all_segment (tag : Str) (attrs : List (Attribute M)) : (segment tag attrs).all isNameChar = true := by
  have hkey : ∀ key, ipe_id_key tag attrs = some key → key.all isNameChar = true := by
    intro key hkey
    unfold ipe_id_key at hkey
    split at hkey
    · cases hkey
      exact all_sanitise_ipe_id_key _
    · split at hkey
      · obtain ⟨k, -, rfl⟩ := Option.map_eq_some_iff.1 hkey
        exact all_sanitise_ipe_id_key k
      · cases hkey
  unfold segment
  rw [List.all_append, Bool.and_eq_true]
  constructor
  · split
    · rename_i hsafe
      exact (Bool.and_eq_true_iff.1 hsafe).2
    · decide
  · cases hk : ipe_id_key tag attrs with
    | none => rfl
    | some key => exact Bool.and_eq_true_iff.2 ⟨by decide, hkey key hk⟩

theorem all_childPath {path : Str} (h : path.all isNameChar = true) (idx : ℕ) (node : Html M) :
    (childPath path idx node).all isNameChar = true := by
  have hdigits : (Nat.toDigits 10 idx).all isNameChar = true := by
    rw [List.all_eq_true]
    intro c hc
    refine isNameChar_of_isAlphanum ?_
    have := Nat.isDigit_of_mem_toDigits (by decide) (by decide) hc
    simp [Char.isAlphanum, this]
  cases node with
  | HElement tag attrs kids =>
    have hunderscore : isNameChar '_' = true := by decide
    simp only [childPath, List.all_append, List.all_cons, h, hdigits, hunderscore, all_segment, Bool.and_self]
  | HText t => exact h
  | HRaw r => exact h

theorem all_address {path : Str} (h : path.all isNameChar = true) (node : Html M) (p : List ℕ) :
    (address node path p).all isNameChar = true := by
  induction p generalizing node path with
  | nil => exact h
  | cons i p ih =>
    cases node with
    | HElement tag attrs kids =>
      unfold address
      split
      · exact ih (all_childPath h _ _) _
      · exact h
    | HText t => exact h
    | HRaw r => exact h

/-! ### Stamping twice -/

mutual

theorem assign_assign : ∀ (node : Html M) (path : Str) (depth : ℕ),
    assign_ipe_ids_depth (assign_ipe_ids_depth node path depth) path depth = assign_ipe_ids_depth node path depth
  | .HElement tag attrs kids, path, depth => by
    by_cases hdepth : MAX_HTML_DEPTH ≤ depth
    · rw [assign_of_le hdepth, assign_of_le hdepth]
    · rw [assign_ipe_ids_depth, if_neg hdepth, assign_ipe_ids_depth, if_neg hdepth, set_attr_set_attr,
        assign_kids_assign_kids kids]
  | .HText _, _, _ => rfl
  | .HRaw _, _, _ => rfl

theorem assign_kids_assign_kids : ∀ (kids : List (Html M)) (path : Str) (idx depth : ℕ),
    assign_kids (assign_kids kids path idx depth) path idx depth = assign_kids kids path idx depth
  | [], _, _, _ => rfl
  | child :: kids, path, idx, depth => by
    by_cases hchild : child.isElement = true
    · rw [assign_kids, if_pos hchild, assign_kids, isElement_assign, if_pos hchild, childPath_assign,
        assign_assign child, assign_kids_assign_kids kids]
    · rw [assign_kids, if_neg hchild, assign_kids, if_neg hchild, assign_kids_assign_kids kids]

end

/-! ### Trees without addresses -/

def Attribute.isIpeId : Attribute M → Bool
  | .Attr k _ => k == "ipe-id".toList
  | _ => false

mutual

/-- A tree without the attributes that are stamped. -/
def unstamped : Html M → Html M
  | .HElement tag attrs kids => .HElement tag (attrs.filter fun a => !a.isIpeId) (unstampedKids kids)
  | .HText t => .HText t
  | .HRaw r => .HRaw r

def unstampedKids : List (Html M) → List (Html M)
  | [] => []
  | child :: kids => unstamped child :: unstampedKids kids

end

theorem filter_set_attr (val : Str) (attrs : List (Attribute M)) :
    (set_attr "ipe-id".toList val attrs).filter (fun a => !a.isIpeId) = attrs.filter fun a => !a.isIpeId := by
  induction attrs with
  | nil => simp [set_attr, Attribute.isIpeId]
  | cons a attrs ih =>
    cases a with
    | Attr k v =>
      by_cases hk : k = "ipe-id".toList
      · simp [set_attr, Attribute.isIpeId, hk]
      · rw [set_attr, if_neg hk, List.filter_cons, List.filter_cons, ih]
    | BoolAttr k present => exact congrArg (Attribute.BoolAttr k present :: ·) ih
    | EventAttr event => exact congrArg (Attribute.EventAttr event :: ·) ih
    | NoAttr => exact congrArg (Attribute.NoAttr :: ·) ih

mutual

theorem unstamped_assign : ∀ (node : Html M) (path : Str) (depth : ℕ),
    unstamped (assign_ipe_ids_depth node path depth) = unstamped node
  | .HElement tag attrs kids, path, depth => by
    by_cases hdepth : MAX_HTML_DEPTH ≤ depth
    · rw [assign_of_le hdepth]
    · rw [assign_ipe_ids_depth, if_neg hdepth, unstamped, unstamped, filter_set_attr, unstampedKids_assign kids]
  | .HText _, _, _ => rfl
  | .HRaw _, _, _ => rfl

theorem unstampedKids_assign : ∀ (kids : List (Html M)) (path : Str) (idx depth : ℕ),
    unstampedKids (assign_kids kids path idx depth) = unstampedKids kids
  | [], _, _, _ => rfl
  | child :: kids, path, idx, depth => by
    by_cases hchild : child.isElement = true
    · rw [assign_kids, if_pos hchild, unstampedKids, unstampedKids, unstamped_assign child,
        unstampedKids_assign kids]
    · rw [assign_kids, if_neg hchild, unstampedKids, unstampedKids, unstampedKids_assign kids]

end

/-! ### Stamped trees -/

/-- An element at a position above the cap. -/
structure Above (node : Html M) (p : List ℕ) (e : Html M) : Prop where
  depth : p.length < MAX_HTML_DEPTH
  at_eq : node.at? p = some e
  element : e.isElement = true

/-- The elements of a tree have addresses of their own, of characters of names, and stay as they are when they are
stamped again. -/
structure Addressed (node : Html M) (path : Str) (stamped : Html M) : Prop where
  kept : unstamped stamped = unstamped node
  carries : ∀ p e, Above stamped p e → ∃ id, Carries e.attrs id
  distinct : ∀ p q e e', p ≠ q → Above stamped p e → Above stamped q e' →
    ∀ id, Carries e.attrs id → ¬ Carries e'.attrs id
  chars : ∀ p e id, Above stamped p e → Carries e.attrs id → id.all isNameChar = true
  idempotent : assign_ipe_ids stamped path = stamped

/-- What is left behind the stamp of an element is of characters of names, and is no address of another element
and not left at one. -/
structure LeftApart (node : Html M) (path : Str) : Prop where
  chars : ∀ p e id, Above node p e → id ∈ leftBehind e.attrs → id.all isNameChar = true
  unlike : ∀ p q e e', p ≠ q → Above node p e → Above node q e' → address node path q ∉ leftBehind e.attrs
  apart : ∀ p q e e', p ≠ q → Above node p e → Above node q e' → ∀ id ∈ leftBehind e.attrs, id ∉ leftBehind e'.attrs

/-- The elements of a stamped tree are those of the tree. -/
theorem above_assign {node : Html M} {path : Str} {p : List ℕ} {e : Html M}
    (h : Above (assign_ipe_ids node path) p e) :
    ∃ e', Above node p e' ∧ e.attrs = set_attr "ipe-id".toList (address node path p) e'.attrs := by
  have hat := h.at_eq
  unfold assign_ipe_ids at hat
  rw [at?_assign_ipe_ids_depth, Nat.zero_add] at hat
  obtain ⟨e', he', rfl⟩ := Option.map_eq_some_iff.1 hat
  have helem := h.element
  rw [isElement_assign] at helem
  exact ⟨e', ⟨h.depth, he', helem⟩, attrs_assign helem h.depth⟩

theorem Above.assign {node : Html M} {p : List ℕ} {e : Html M} (h : Above node p e) (path : Str) :
    ∃ e', Above (assign_ipe_ids node path) p e' ∧
      e'.attrs = set_attr "ipe-id".toList (address node path p) e.attrs := by
  refine ⟨assign_ipe_ids_depth e (address node path p) p.length, ⟨h.depth, ?_, ?_⟩, attrs_assign h.element h.depth⟩
  · unfold assign_ipe_ids
    rw [at?_assign_ipe_ids_depth, Nat.zero_add, h.at_eq, Option.map_some]
  · rw [isElement_assign]
    exact h.element

theorem LeftApart.distinct {node : Html M} {path : Str} (h : LeftApart node path) {p q : List ℕ} {e e' : Html M}
    (hpq : p ≠ q) (he : Above node p e) (he' : Above node q e') {id : Str}
    (hp : id = address node path p ∨ id ∈ leftBehind e.attrs) : ¬ (id = address node path q ∨ id ∈ leftBehind e'.attrs) := by
  rintro (hq | hq)
  · rcases hp with hp | hp
    · exact address_ne hpq he.at_eq he'.at_eq he.element he'.element path (hp.symm.trans hq)
    · exact h.unlike p q e e' hpq he he' (hq ▸ hp)
  · rcases hp with hp | hp
    · exact h.unlike q p e' e hpq.symm he' he (hp ▸ hq)
    · exact h.apart p q e e' hpq he he' id hp hq

/-- Stamping gives the elements above the cap addresses of their own if, and only if, what is left behind the
stamps does not stand in the way. -/
theorem assign_ipe_ids_addressed_iff (node : Html M) (path : Str) (hpath : path.all isNameChar = true) :
    Addressed node path (assign_ipe_ids node path) ↔ LeftApart node path := by
  constructor
  · intro h
    refine ⟨fun p e id he hid => ?_, fun p q e e' hpq he he' hmem => ?_, fun p q e e' hpq he he' id hid hid' => ?_⟩
    · obtain ⟨s, hs, hattrs⟩ := he.assign path
      exact h.chars p s id hs (hattrs ▸ carries_set_attr.2 (.inr hid))
    · obtain ⟨s, hs, hattrs⟩ := he.assign path
      obtain ⟨s', hs', hattrs'⟩ := he'.assign path
      exact h.distinct p q s s' hpq hs hs' _ (hattrs ▸ carries_set_attr.2 (.inr hmem))
        (hattrs' ▸ carries_set_attr.2 (.inl rfl))
    · obtain ⟨s, hs, hattrs⟩ := he.assign path
      obtain ⟨s', hs', hattrs'⟩ := he'.assign path
      exact h.distinct p q s s' hpq hs hs' id (hattrs ▸ carries_set_attr.2 (.inr hid))
        (hattrs' ▸ carries_set_attr.2 (.inr hid'))
  · intro h
    refine ⟨unstamped_assign node path 0, fun p s hs => ?_, fun p q s s' hpq hs hs' id hid hid' => ?_,
      fun p s id hs hid => ?_, assign_assign node path 0⟩
    · obtain ⟨e, -, hattrs⟩ := above_assign hs
      exact ⟨_, hattrs ▸ carries_set_attr.2 (.inl rfl)⟩
    · obtain ⟨e, he, hattrs⟩ := above_assign hs
      obtain ⟨e', he', hattrs'⟩ := above_assign hs'
      rw [hattrs, carries_set_attr] at hid
      rw [hattrs', carries_set_attr] at hid'
      exact h.distinct hpq he he' hid hid'
    · obtain ⟨e, he, hattrs⟩ := above_assign hs
      rw [hattrs, carries_set_attr] at hid
      rcases hid with rfl | hid
      · exact all_address hpath node p
      · exact h.chars p e id he hid

/-- A list with two items, of which the second one has a key and a second address. -/
def itemList : Html ℕ :=
  .HElement "ul".toList [] [.HElement "li".toList [] [], .HText "and".toList,
    .HElement "li".toList [.Attr "ipe-key".toList "0_li".toList, .Attr "ipe-id".toList "r_0_li".toList,
      .Attr "ipe-id".toList "second".toList] []]

/-- Only the second item has something behind its address. -/
theorem above_itemList {p : List ℕ} {e : Html ℕ} (h : Above itemList p e) {id : Str} (hid : id ∈ leftBehind e.attrs) :
    p = [2] ∧ id = "second".toList := by
  obtain ⟨-, hat, helem⟩ := h
  rcases p with _ | ⟨_ | _ | _ | i, _ | ⟨j, q⟩⟩
  · cases hat
    cases (hid : id ∈ [])
  · cases hat
    cases (hid : id ∈ [])
  · cases (hat : none = some e)
  · cases hat
    cases helem
  · cases hat
  · cases hat
    have hleft : id ∈ ["second".toList, "second".toList] := hid
    simpa using hleft
  · cases (hat : none = some e)
  · cases hat
  · cases hat

theorem assign_ipe_ids_addressed_iff_items : Addressed itemList ['r'] (assign_ipe_ids itemList ['r']) := by
  refine (assign_ipe_ids_addressed_iff itemList ['r'] (by decide)).2 ⟨fun p e id he hid => ?_,
    fun p q e e' _ he _ hid => ?_, fun p q e e' hpq he he' id hid hid' => ?_⟩
  · rw [(above_itemList he hid).2]
    decide
  · -- every address starts with that of the root
    have hroot := prefix_address q itemList ['r']
    rw [(above_itemList he hid).2] at hroot
    exact absurd hroot (by decide)
  · exact hpq ((above_itemList he hid).1.trans (above_itemList he' hid').1.symm)

/-- A paragraph whose second address is that of the root. -/
def rootTwice : Html ℕ :=
  .HElement "div".toList [] [.HElement "p".toList [.Attr "ipe-id".toList "a".toList, .Attr "ipe-id".toList ['r']] []]

theorem rootTwice_not_addressed : ¬ Addressed rootTwice ['r'] (assign_ipe_ids rootTwice ['r']) := by
  intro h
  have hdiv : Carries (set_attr "ipe-id".toList ['r'] ([] : List (Attribute ℕ))) ['r'] := carries_set_attr.2 (.inl rfl)
  have hp : Carries (set_attr "ipe-id".toList "r_0_p".toList
      ([.Attr "ipe-id".toList "a".toList, .Attr "ipe-id".toList ['r']] : List (Attribute ℕ))) ['r'] :=
    carries_set_attr.2 (.inr (by decide))
  exact h.distinct [] [0] _ _ (by decide) ⟨by decide, rfl, rfl⟩ ⟨by decide, rfl, rfl⟩ ['r'] hdiv hp

end IpeLang.Runtime.Dom
