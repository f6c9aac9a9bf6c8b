import IpeLang.Types.Occurs

/-!
# What one obligation does to the partition

`unifyStep` reads the descriptors of two classes and then either refuses them or merges the two
classes, possibly next to new ones. `meet` is that decision as a function of the two descriptors:
what the merged class keeps, what is minted and which pairs are left to unify. `unifyStep_outcome`
lists everything that a step can do, in terms of the partition only.
-/

namespace IpeLang.Types

open IpeLang.Lib

/-- What two descriptors that agree leave behind. -/
structure Meet where
  keep : Content
  minted : List Content
  pairs : Pending

/-- The descriptor that two variables without a structure merge into. -/
def joinContent : Content → Content → Option Content
  | .flex, .flex => some .flex
  | .flex, .rigid => some .rigid
  | .rigid, .flex => some .rigid
  | .super rigid bounds, .flex => some (.super rigid bounds)
  | .flex, .super rigid bounds => some (.super rigid bounds)
  | .super r₁ b₁, .super r₂ b₂ =>
    let concreteDispatch := b₁.hasNumber || b₂.hasNumber || b₁.hasAppend || b₂.hasAppend
    if !(r₁ && r₂) && ((r₁ == r₂) || !concreteDispatch) then
      some (.super (r₁ || r₂) (b₁.union b₂))
    else none
  | .super false bounds, .rigid => some (.super true bounds)
  | .rigid, .super false bounds => some (.super true bounds)
  | _, _ => none

/-- Whether a row tail is the closed-tail sentinel. -/
def isClosed (S : Store) (v : VarId) : Bool := S.desc v == some (.struct .emptyRecord)

/-- What two records leave behind, `only₁` and `only₂` being the fields of one side only. The
minted classes are numbered from `n`. -/
def rowsMeet (n : ℕ) (fs₁ : SortedMap Symbol VarId) (ext₁ ext₂ : VarId)
    (only₁ only₂ : SortedMap Symbol VarId) (shared : Pending) : Meet :=
  let merged := fs₁.insertAll only₂
  match only₁.isEmpty, only₂.isEmpty with
  | true, true => ⟨.struct (.record fs₁ ext₁), [], (ext₁, ext₂) :: shared⟩
  | true, false =>
    ⟨.struct (.record merged ext₂), [.struct (.record only₂ ext₂)], (ext₁, n) :: shared⟩
  | false, true =>
    ⟨.struct (.record merged ext₁), [.struct (.record only₁ ext₁)], (ext₂, n) :: shared⟩
  | false, false =>
    ⟨.struct (.record merged n), [.flex, .struct (.record only₂ n), .struct (.record only₁ n)],
      (ext₁, n + 1) :: (ext₂, n + 2) :: shared⟩

theorem mem_rowsMeet_pairs {n : ℕ} {fs₁ only₁ only₂ : SortedMap Symbol VarId} {ext₁ ext₂ : VarId}
    {shared : Pending} {p : VarId × VarId} (h : p ∈ shared) :
    p ∈ (rowsMeet n fs₁ ext₁ ext₂ only₁ only₂ shared).pairs := by
  unfold rowsMeet
  split <;> simp [h]

/-- Two records meet, unless one that is closed lacks a field of the other. -/
def meetRows (S : Store) (fs₁ : SortedMap Symbol VarId) (ext₁ : VarId)
    (fs₂ : SortedMap Symbol VarId) (ext₂ : VarId) : Option Meet :=
  let only₁ := fs₁.filterKeys fun k => !fs₂.contains k
  let only₂ := fs₂.filterKeys fun k => !fs₁.contains k
  if isClosed S ext₂ && !only₁.isEmpty || isClosed S ext₁ && !only₂.isEmpty then none
  else some (rowsMeet S.size fs₁ ext₁ ext₂ only₁ only₂ (fs₁.shared fs₂).reverse)

/-- Two structures meet. -/
def meetFlat (ι : Interner) (S : Store) : FlatType → FlatType → Option Meet
  | .unit, .unit => some ⟨.struct .unit, [], []⟩
  | .fn a₁ r₁, .fn a₂ r₂ => some ⟨.struct (.fn a₁ r₁), [], [(a₁, a₂), (r₁, r₂)]⟩
  | .con m₁ n₁ as₁, .con m₂ n₂ as₂ =>
    if !conHeadsCompatible ι m₁ n₁ m₂ n₂ || as₁.length != as₂.length then none
    else some ⟨.struct (.con (if m₁.isEmpty then m₂ else m₁) n₁ as₁), [], as₁.zip as₂⟩
  | .tuple es₁, .tuple es₂ =>
    if es₁.length != es₂.length then none
    else some ⟨.struct (.tuple es₁), [], es₁.zip es₂⟩
  | .record fs₁ ext₁, .record fs₂ ext₂ => meetRows S fs₁ ext₁ fs₂ ext₂
  | .emptyRecord, .emptyRecord => some ⟨.struct .emptyRecord, [], []⟩
  | _, _ => none

/-- A super-typed variable meets a structure. -/
def meetSuper (ι : Interner) (rigid : Bool) (bounds : TyBounds) (flat : FlatType) : Option Meet :=
  if !rigid && superConcreteOk ι bounds flat then some ⟨.struct flat, [], []⟩ else none

/-- Two descriptors meet. -/
def meet (ι : Interner) (S : Store) : Content → Content → Option Meet
  | .flex, .struct f => some ⟨.struct f, [], []⟩
  | .struct f, .flex => some ⟨.struct f, [], []⟩
  | .super rigid bounds, .struct f => meetSuper ι rigid bounds f
  | .struct f, .super rigid bounds => meetSuper ι rigid bounds f
  | .rigid, .struct _ => none
  | .struct _, .rigid => none
  | .struct fa, .struct fb => meetFlat ι S fa fb
  | ca, cb => (joinContent ca cb).map fun keep => ⟨keep, [], []⟩

/-! ### Inversion -/

/-- The ways in which two structures can meet. -/
inductive FlatMeet (ι : Interner) (S : Store) : FlatType → FlatType → Meet → Prop
  | unit : FlatMeet ι S .unit .unit ⟨.struct .unit, [], []⟩
  | emptyRecord : FlatMeet ι S .emptyRecord .emptyRecord ⟨.struct .emptyRecord, [], []⟩
  | fn {a₁ r₁ a₂ r₂} :
      FlatMeet ι S (.fn a₁ r₁) (.fn a₂ r₂) ⟨.struct (.fn a₁ r₁), [], [(a₁, a₂), (r₁, r₂)]⟩
  | con {m₁ m₂ n as₁ as₂} : conHeadsCompatible ι m₁ n m₂ n = true → as₁.length = as₂.length →
      FlatMeet ι S (.con m₁ n as₁) (.con m₂ n as₂)
        ⟨.struct (.con (if m₁.isEmpty then m₂ else m₁) n as₁), [], as₁.zip as₂⟩
  | tuple {es₁ es₂} : es₁.length = es₂.length →
      FlatMeet ι S (.tuple es₁) (.tuple es₂) ⟨.struct (.tuple es₁), [], es₁.zip es₂⟩
  | record {fs₁ ext₁ fs₂ ext₂} :
      (isClosed S ext₂ = true → (fs₁.filterKeys fun k => !fs₂.contains k).isEmpty = true) →
      (isClosed S ext₁ = true → (fs₂.filterKeys fun k => !fs₁.contains k).isEmpty = true) →
      FlatMeet ι S (.record fs₁ ext₁) (.record fs₂ ext₂)
        (rowsMeet S.size fs₁ ext₁ ext₂ (fs₁.filterKeys fun k => !fs₂.contains k)
          (fs₂.filterKeys fun k => !fs₁.contains k) (fs₁.shared fs₂).reverse)

theorem meetFlat_iff {ι : Interner} {S : Store} {fa fb : FlatType} {m : Meet} :
    meetFlat ι S fa fb = some m ↔ FlatMeet ι S fa fb m := by
  constructor
  · intro h
    cases fa <;> cases fb
    case unit.unit =>
      cases h
      exact .unit
    case emptyRecord.emptyRecord =>
      cases h
      exact .emptyRecord
    case fn.fn =>
      cases h
      exact .fn
    case con.con m₁ n₁ as₁ m₂ n₂ as₂ =>
      by_cases hc : (!conHeadsCompatible ι m₁ n₁ m₂ n₂ || as₁.length != as₂.length) = true
      · rw [meetFlat, if_pos hc] at h
        cases h
      · rw [meetFlat, if_neg hc] at h
        cases h
        simp only [Bool.or_eq_true, Bool.not_eq_true', bne_iff_ne, not_or, Bool.not_eq_false,
          ne_eq, not_not] at hc
        obtain rfl : n₁ = n₂ := by
          have := hc.1
          simp only [conHeadsCompatible, Bool.and_eq_true, beq_iff_eq] at this
          exact this.1
        exact .con hc.1 hc.2
    case tuple.tuple es₁ es₂ =>
      rw [meetFlat] at h
      split_ifs at h with hc
      cases h
      exact .tuple (by simpa using hc)
    case record.record fs₁ ext₁ fs₂ ext₂ =>
      rw [meetFlat, meetRows] at h
      split_ifs at h with hc
      cases h
      simp only [Bool.or_eq_true, Bool.and_eq_true, Bool.not_eq_true', not_or, not_and,
        Bool.not_eq_false] at hc
      exact .record hc.1 hc.2
    all_goals cases h
  · intro h
    cases h with
    | con hc hl => simp [meetFlat, hc, hl]
    | tuple hl => simp [meetFlat, hl]
    | record h₁ h₂ =>
      rw [meetFlat, meetRows, if_neg]
      simp only [Bool.or_eq_true, Bool.and_eq_true, Bool.not_eq_true', not_or, not_and,
        Bool.not_eq_false]
      exact ⟨h₁, h₂⟩
    | _ => rfl

/-- The ways in which two descriptors can meet. -/
inductive Meets (ι : Interner) (S : Store) : Content → Content → Meet → Prop
  | bindLeft {f} : Meets ι S .flex (.struct f) ⟨.struct f, [], []⟩
  | bindRight {f} : Meets ι S (.struct f) .flex ⟨.struct f, [], []⟩
  | pinLeft {bounds f} : superConcreteOk ι bounds f = true →
      Meets ι S (.super false bounds) (.struct f) ⟨.struct f, [], []⟩
  | pinRight {bounds f} : superConcreteOk ι bounds f = true →
      Meets ι S (.struct f) (.super false bounds) ⟨.struct f, [], []⟩
  | flat {fa fb m} : FlatMeet ι S fa fb m → Meets ι S (.struct fa) (.struct fb) m
  | join {ca cb keep} : ca.isStructure = false → cb.isStructure = false →
      joinContent ca cb = some keep → Meets ι S ca cb ⟨keep, [], []⟩

theorem meetSuper_eq_some {ι : Interner} {rigid : Bool} {bounds : TyBounds} {flat : FlatType}
    {m : Meet} (h : meetSuper ι rigid bounds flat = some m) :
    rigid = false ∧ superConcreteOk ι bounds flat = true ∧ m = ⟨.struct flat, [], []⟩ := by
  rw [meetSuper] at h
  split_ifs at h with hc
  cases h
  simpa using hc

theorem meet_inv {ι : Interner} {S : Store} {ca cb : Content} {m : Meet}
    (h : meet ι S ca cb = some m) : Meets ι S ca cb m := by
  have hjoin : ca.isStructure = false → cb.isStructure = false →
      (joinContent ca cb).map (fun keep => (⟨keep, [], []⟩ : Meet)) = some m →
      Meets ι S ca cb m := by
    intro ha hb h
    obtain ⟨keep, hk, rfl⟩ := Option.map_eq_some_iff.1 h
    exact .join ha hb hk
  cases ca with
  | struct fa =>
    cases cb with
    | struct fb => exact .flat (meetFlat_iff.1 h)
    | flex =>
      cases h
      exact .bindRight
    | rigid => cases h
    | super rigid bounds =>
      obtain ⟨rfl, hok, rfl⟩ := meetSuper_eq_some h
      exact .pinRight hok
  | flex =>
    cases cb with
    | struct fb =>
      cases h
      exact .bindLeft
    | _ => exact hjoin rfl rfl h
  | rigid =>
    cases cb with
    | struct fb => cases h
    | _ => exact hjoin rfl rfl h
  | super rigid bounds =>
    cases cb with
    | struct fb =>
      obtain ⟨rfl, hok, rfl⟩ := meetSuper_eq_some h
      exact .pinLeft hok
    | _ => exact hjoin rfl rfl h

theorem joinContent_isStructure {ca cb keep : Content} (h : joinContent ca cb = some keep) :
    keep.isStructure = false := by
  unfold joinContent at h
  split at h
  case h_6 =>
    dsimp only at h
    split_ifs at h
    cases h
    rfl
  all_goals cases h
  all_goals rfl

theorem Content.children_of_not_isStructure {c : Content} (h : c.isStructure = false) :
    c.children = [] := by
  cases c with
  | struct f => cases h
  | _ => rfl

/-- The children that `mergesIntoSelf` looks at before two structures are merged. -/
def guardedChildren : FlatType → FlatType → List VarId
  | .con _ _ as₁, .con _ _ as₂ => as₁ ++ as₂
  | .tuple es₁, .tuple es₂ => es₁ ++ es₂
  | _, _ => []

/-- What is checked before the classes of `a` and `b` are merged: a plain variable does not occur
in the structure that it is bound to, and the children of two type constructors or tuples are in
neither class. -/
def Guard (S : Store) (a b : VarId) : Content → Content → Prop
  | .flex, .struct _ => Free S (S.root a) b
  | .struct _, .flex => Free S (S.root b) a
  | .struct fa, .struct fb => ∀ c ∈ guardedChildren fa fb, ¬ S.Same c a ∧ ¬ S.Same c b
  | _, _ => True

/-- The arena has room for what a step mints. -/
def Room (S : Store) (m : Meet) : Prop := m.minted = [] ∨ S.size + m.minted.length ≤ 2 ^ 32

/-- The error of a refused pair: a report on its types, or what went wrong while these were read
back. -/
inductive Refusal (ι : Interner) (fuel : ℕ) (S : Store) : Stop Diagnostic → Prop
  | mismatch {uf budget span ra rb} : uf.view = S →
      Refusal ι fuel S (mismatch fuel uf budget ι span ra rb)
  | infiniteType {uf budget span ra rb} : uf.view = S →
      Refusal ι fuel S (infiniteType fuel uf budget ι span ra rb)
  | unsatisfied {bounds ty span} : Refusal ι fuel S (.diag (superUnsatisfied ι bounds ty span))
  | unread {uf budget v e} : uf.view = S → zonk fuel uf budget v = .error e → Refusal ι fuel S e

/-- When a plain variable is to be bound to a structure, the occurs walk came to a verdict. -/
def Walked (fuel : ℕ) (S : Store) (budget : Budget) (a b : VarId) : Prop :=
  ∀ var node flat, (var = a ∧ node = b ∨ var = b ∧ node = a) → S.desc var = some .flex →
    S.desc node = some (.struct flat) → ∃ uf r, uf.view = S ∧
      occurs fuel uf budget (S.root var) (S.root node) = .ok r

/-- Everything that one step can do with the pair `(a, b)` on top of `stack`. -/
inductive Outcome (ι : Interner) (fuel : ℕ) (S : Store) (budget : Budget) (a b : VarId)
    (stack : Pending) : DResult UnifyState → Prop
  | exhausted {e} : ¬ budget.isUnbounded → e ≠ .fuel →
      Outcome ι fuel S budget a b stack (.error e)
  | same {uf' budget'} : (budget.isUnbounded → budget' = budget) → S.Same a b → uf'.view = S →
      Outcome ι fuel S budget a b stack (.ok (uf', budget', stack))
  | met {ca cb m uf' budget'} : (budget.isUnbounded → budget' = budget) → ¬ S.Same a b →
      S.desc a = some ca → S.desc b = some cb → meet ι S ca cb = some m → Guard S a b ca cb →
      Room S m → S.Merge uf'.view a b m.keep m.minted →
      Outcome ι fuel S budget a b stack (.ok (uf', budget', m.pairs ++ stack))
  | clash {ca cb e} : ¬ S.Same a b → S.desc a = some ca → S.desc b = some cb →
      meet ι S ca cb = none → Refusal ι fuel S e →
      Outcome ι fuel S budget a b stack (.error e)
  | cyclic {ca cb e} : ¬ S.Same a b → S.desc a = some ca → S.desc b = some cb →
      ¬ Guard S a b ca cb → (budget.isUnbounded → Walked fuel S budget a b) →
      Refusal ι fuel S e → Outcome ι fuel S budget a b stack (.error e)
  | full {ca cb m} : ¬ S.Same a b → S.desc a = some ca → S.desc b = some cb →
      meet ι S ca cb = some m → ¬ Room S m →
      Outcome ι fuel S budget a b stack (.error (.diag UnionFind.arenaExceeded))
  | walk {var node flat uf' budget' e} : ¬ S.Same a b →
      (var = a ∧ node = b ∨ var = b ∧ node = a) → S.desc var = some .flex →
      S.desc node = some (.struct flat) → uf'.view = S → (budget.isUnbounded → budget' = budget) →
      occurs fuel uf' budget' (S.root var) (S.root node) = .error e →
      Outcome ι fuel S budget a b stack (.error e)

/-! ### The functions that a step calls -/

variable {ι : Interner} {fuel : ℕ} {uf : UnionFind Content} {budget : Budget} {span : Span}
  {ra rb : VarId} {stack : Pending}

/-- What is true of the errors of a refused pair. -/
structure Raised (fuel : ℕ) (S : Store) (e : Stop Diagnostic) : Prop where
  room : e ≠ .diag UnionFind.arenaExceeded
  ended : zonkBound S ≤ fuel → e ≠ .fuel

theorem raised_of_zonk {S : Store} {v : VarId} {e : Stop Diagnostic} (hv : uf.view = S)
    (h : zonk fuel uf budget v = .error e) : Raised fuel S e := by
  subst hv
  refine ⟨zonk_error h, ?_⟩
  rintro hn rfl
  exact zonk_ended hn budget v h

theorem raised_of_unresolved {S : Store} {d : Diagnostic} (h : d.IsUnresolved) :
    Raised fuel S (.diag d) := by
  obtain ⟨detail, rfl⟩ := h
  exact ⟨by simp [UnionFind.arenaExceeded, UnionFind.STAGE], by simp⟩

theorem raised_of_type {S : Store} (span : Span) (msg : TypeError) :
    Raised fuel S (.diag (.type span msg)) :=
  ⟨by simp [UnionFind.arenaExceeded], by simp⟩

theorem raised_mismatch {S : Store} (hv : uf.view = S) :
    Raised fuel S (mismatch fuel uf budget ι span ra rb) := by
  unfold mismatch
  split
  · rename_i bug hz
    exact raised_of_zonk hv hz
  · rename_i uf₁ budget₁ hz
    split
    · rename_i bug hz'
      exact raised_of_zonk ((zonk_view hz).trans hv) hz'
    · split_ifs
      · exact raised_of_type _ _
      · split
        · rename_i hd
          exact raised_of_unresolved (tyToDoc_error _ hd)
        · split
          · rename_i hd
            exact raised_of_unresolved (tyToDoc_error _ hd)
          · exact raised_of_type _ _

theorem raised_infiniteType {S : Store} (hv : uf.view = S) :
    Raised fuel S (infiniteType fuel uf budget ι span ra rb) := by
  unfold infiniteType
  split
  · rename_i bug hz
    exact raised_of_zonk hv hz
  · rename_i uf₁ budget₁ hz
    split
    · rename_i hd
      exact raised_of_unresolved (tyToDoc_error _ hd)
    · dsimp only
      split
      · rename_i bug hz'
        exact raised_of_zonk ((zonk_view hz).trans hv) hz'
      · split
        · rename_i hd
          exact raised_of_unresolved (tyToDoc_error _ hd)
        · exact raised_of_type _ _

theorem raised_superUnsatisfied {S : Store} (bounds : TyBounds) (ty : Ty) :
    Raised fuel S (.diag (superUnsatisfied ι bounds ty span)) := by
  unfold superUnsatisfied
  dsimp only
  split
  · rename_i hd
    exact raised_of_unresolved (tyToDoc_error _ hd)
  · exact raised_of_type _ _

/-- A refusal is not for want of room in the arena, nor, given enough of it, of fuel. -/
theorem Refusal.raised {S : Store} {e : Stop Diagnostic} (h : Refusal ι fuel S e) :
    Raised fuel S e := by
  cases h with
  | mismatch hv => exact raised_mismatch hv
  | infiniteType hv => exact raised_infiniteType hv
  | unsatisfied => exact raised_superUnsatisfied _ _
  | unread hv hz => exact raised_of_zonk hv hz

theorem unifyNonstructure_eq (ca cb : Content) :
    unifyNonstructure fuel uf budget ι span ra rb ca cb =
      match joinContent ca cb with
      | some keep => uf.union ra rb keep
      | none => .error (mismatch fuel uf budget ι span ra rb) := by
  cases ca with
  | flex => cases cb <;> rfl
  | rigid =>
    cases cb with
    | super r b => cases r <;> rfl
    | _ => rfl
  | super r b =>
    cases cb with
    | rigid => cases r <;> rfl
    | super r' b' =>
      simp only [unifyNonstructure, joinContent]
      split_ifs <;> rfl
    | _ => cases r <;> rfl
  | struct f => cases cb <;> rfl

theorem mergesIntoSelf_spec {children : List VarId} (hc : ∀ c ∈ children, c < uf.view.size)
    (hra : uf.view.root ra = ra) (hrb : uf.view.root rb = rb) :
    ∃ found uf', mergesIntoSelf uf ra rb children = .ok (found, uf') ∧ uf'.view = uf.view ∧
      (found = true ↔ ∃ c ∈ children, uf.view.Same c ra ∨ uf.view.Same c rb) := by
  induction children generalizing uf with
  | nil => exact ⟨false, uf, rfl, rfl, by simp⟩
  | cons c children ih =>
    obtain ⟨uf₁, hf, hv⟩ := UnionFind.find_spec (hc c (by simp))
    have hsame : uf.view.root c = ra ∨ uf.view.root c = rb ↔
        uf.view.Same c ra ∨ uf.view.Same c rb := by
      unfold ClassStore.Same
      rw [hra, hrb]
    by_cases hself : uf.view.root c = ra ∨ uf.view.root c = rb
    · exact ⟨true, uf₁, by simp [mergesIntoSelf, hf, hself], hv, by simp [← hsame, hself]⟩
    · obtain ⟨found, uf₂, h, hv₂, hiff⟩ := @ih uf₁
        (fun x hx => by rw [hv]; exact hc x (by simp [hx])) (by rw [hv, hra]) (by rw [hv, hrb])
      refine ⟨found, uf₂, by simpa [mergesIntoSelf, hf, hself] using h, hv₂.trans hv, ?_⟩
      rw [hiff, hv]
      simp [← hsame, hself]

theorem isEmptyRecord_spec {v : VarId} (hv : v < uf.view.size) :
    ∃ uf', isEmptyRecord uf v = .ok (isClosed uf.view v, uf') ∧ uf'.view = uf.view := by
  obtain ⟨uf₁, hf, hv₁⟩ := UnionFind.find_spec hv
  obtain ⟨c, uf₂, hc, hd, hv₂⟩ := UnionFind.content_spec
    (show uf.view.root v < uf₁.view.size from hv₁ ▸ uf.view.root_lt hv)
  refine ⟨uf₂, ?_, hv₂.trans hv₁⟩
  rw [hv₁, ClassStore.desc_root] at hd
  simp [isEmptyRecord, hf, hc, isClosed, hd]

/-- What `unifyFlat` can do at two roots. -/
inductive FlatOutcome (ι : Interner) (fuel : ℕ) (S : Store) (ra rb : VarId) (fa fb : FlatType)
    (stack : Pending) : DResult (UnionFind Content × Pending) → Prop
  | met {m uf'} : meetFlat ι S fa fb = some m →
      (∀ c ∈ guardedChildren fa fb, ¬ S.Same c ra ∧ ¬ S.Same c rb) → Room S m →
      S.Merge uf'.view ra rb m.keep m.minted →
      FlatOutcome ι fuel S ra rb fa fb stack (.ok (uf', m.pairs ++ stack))
  | clash {e} : meetFlat ι S fa fb = none → Refusal ι fuel S e →
      FlatOutcome ι fuel S ra rb fa fb stack (.error e)
  | cyclic {e} : ¬ (∀ c ∈ guardedChildren fa fb, ¬ S.Same c ra ∧ ¬ S.Same c rb) →
      Refusal ι fuel S e → FlatOutcome ι fuel S ra rb fa fb stack (.error e)
  | full {m} : meetFlat ι S fa fb = some m → ¬ Room S m →
      FlatOutcome ι fuel S ra rb fa fb stack (.error (.diag UnionFind.arenaExceeded))

theorem union_fresh (hra : ra < uf.view.size) (hrb : rb < uf.view.size) (keep c : Content) :
    ∃ uf₁, uf.union ra rb keep = .ok uf₁ ∧
      ((uf.view.size + 1 ≤ 2 ^ 32 ∧ ∃ uf₂, uf₁.fresh c = .ok (uf.view.size, uf₂) ∧
          uf.view.Merge uf₂.view ra rb keep [c]) ∨
        (¬ uf.view.size + 1 ≤ 2 ^ 32 ∧
          uf₁.fresh c = .error (.diag UnionFind.arenaExceeded))) := by
  obtain ⟨uf₁, hu, hm⟩ := UnionFind.union_spec hra hrb keep
  have hsize : uf₁.view.size = uf.view.size := hm.size_eq
  refine ⟨uf₁, hu, ?_⟩
  by_cases hroom : uf.view.size + 1 ≤ 2 ^ 32
  · obtain ⟨uf₂, hf, hmint⟩ := UnionFind.fresh_spec (show uf₁.view.size < 2 ^ 32 by omega) c
    exact Or.inl ⟨hroom, uf₂, hsize ▸ hf, hm.mint hmint⟩
  · exact Or.inr ⟨hroom, UnionFind.fresh_full (by omega) c⟩

/-- The three mints around a merge of the case in which both sides have fields of their own. -/
theorem fresh_union_fresh (hra : ra < uf.view.size) (hrb : rb < uf.view.size)
    (keep c₀ c₁ c₂ : Content) :
    (uf.view.size + 3 ≤ 2 ^ 32 ∧ ∃ uf₀ uf₁ uf₂ uf₃, uf.fresh c₀ = .ok (uf.view.size, uf₀) ∧
      uf₀.union ra rb keep = .ok uf₁ ∧ uf₁.fresh c₁ = .ok (uf.view.size + 1, uf₂) ∧
      uf₂.fresh c₂ = .ok (uf.view.size + 2, uf₃) ∧
      uf.view.Merge uf₃.view ra rb keep [c₀, c₁, c₂]) ∨
    (¬ uf.view.size + 3 ≤ 2 ^ 32 ∧ (uf.fresh c₀ = .error (.diag UnionFind.arenaExceeded) ∨
      ∃ uf₀ uf₁, uf.fresh c₀ = .ok (uf.view.size, uf₀) ∧ uf₀.union ra rb keep = .ok uf₁ ∧
        (uf₁.fresh c₁ = .error (.diag UnionFind.arenaExceeded) ∨
          ∃ uf₂, uf₁.fresh c₁ = .ok (uf.view.size + 1, uf₂) ∧
            uf₂.fresh c₂ = .error (.diag UnionFind.arenaExceeded)))) := by
  by_cases hroom₀ : uf.view.size < 2 ^ 32
  swap
  · exact Or.inr ⟨by omega, Or.inl (UnionFind.fresh_full (not_lt.1 hroom₀) c₀)⟩
  obtain ⟨uf₀, h₀, hm₀⟩ := UnionFind.fresh_spec hroom₀ c₀
  have hs₀ : uf₀.view.size = uf.view.size + 1 := hm₀.size_eq
  obtain ⟨uf₁, h₁, hm₁⟩ := UnionFind.union_spec
    (show ra < uf₀.view.size from (Nat.lt_succ_of_lt hra).trans_eq hs₀.symm)
    ((Nat.lt_succ_of_lt hrb).trans_eq hs₀.symm) keep
  have hs₁ : uf₁.view.size = uf.view.size + 1 := hm₁.size_eq.trans hs₀
  by_cases hroom₁ : uf₁.view.size < 2 ^ 32
  swap
  · exact Or.inr ⟨by omega, Or.inr ⟨uf₀, uf₁, h₀, h₁,
      Or.inl (UnionFind.fresh_full (not_lt.1 hroom₁) c₁)⟩⟩
  obtain ⟨uf₂, h₂, hm₂⟩ := UnionFind.fresh_spec hroom₁ c₁
  have hs₂ : uf₂.view.size = uf.view.size + 2 := by rw [hm₂.size_eq, hs₁]; rfl
  by_cases hroom₂ : uf₂.view.size < 2 ^ 32
  swap
  · exact Or.inr ⟨by omega, Or.inr ⟨uf₀, uf₁, h₀, h₁,
      Or.inr ⟨uf₂, hs₁ ▸ h₂, UnionFind.fresh_full (not_lt.1 hroom₂) c₂⟩⟩⟩
  obtain ⟨uf₃, h₃, hm₃⟩ := UnionFind.fresh_spec hroom₂ c₂
  exact Or.inl ⟨by omega, uf₀, uf₁, uf₂, uf₃, h₀, h₁, hs₁ ▸ h₂, hs₂ ▸ h₃,
    ((hm₀.merge hm₁ hra hrb).mint hm₂).mint hm₃⟩

/-- The two arms of `unifyFlat` that merge rows. -/
theorem unifyRows_outcome (fs₁ only₁ only₂ : SortedMap Symbol VarId) (ext₁ ext₂ : VarId)
    (shared stack : Pending) (hra : ra < uf.view.size) (hrb : rb < uf.view.size) :
    let m := rowsMeet uf.view.size fs₁ ext₁ ext₂ only₁ only₂ shared
    let code : DResult (UnionFind Content × Pending) :=
      if (only₁.isEmpty && only₂.isEmpty) = true then do
        let uf ← uf.union ra rb (.struct (.record fs₁ ext₁))
        .ok (uf, (ext₁, ext₂) :: (shared ++ stack))
      else unifyOpenRecordRows uf ra rb fs₁ ext₁ ext₂ only₁ only₂ (shared ++ stack)
    (Room uf.view m ∧ ∃ uf', code = .ok (uf', m.pairs ++ stack) ∧
        uf.view.Merge uf'.view ra rb m.keep m.minted) ∨
      (¬ Room uf.view m ∧ code = .error (.diag UnionFind.arenaExceeded)) := by
  rcases h₁ : only₁.isEmpty with _ | _ <;> rcases h₂ : only₂.isEmpty with _ | _ <;>
    simp only [rowsMeet, h₁, h₂, Bool.and_false, Bool.and_true, Bool.false_eq_true, if_false,
      if_true, unifyOpenRecordRows]
  · rcases fresh_union_fresh hra hrb (.struct (.record (fs₁.insertAll only₂) uf.view.size)) .flex
      (.struct (.record only₂ uf.view.size)) (.struct (.record only₁ uf.view.size))
      with ⟨hroom, u₀, u₁, u₂, u₃, f₀, f₁, f₂, f₃, hm⟩ | ⟨hroom, hfull⟩
    · exact Or.inl ⟨Or.inr hroom, u₃, by simp [f₀, f₁, f₂, f₃], hm⟩
    · refine Or.inr ⟨by simpa [Room] using hroom, ?_⟩
      rcases hfull with f₀ | ⟨u₀, u₁, f₀, f₁, f₂ | ⟨u₂, f₂, f₃⟩⟩
      · simp [f₀]
      · simp [f₀, f₁, f₂]
      · simp [f₀, f₁, f₂, f₃]
  · obtain ⟨u₁, f₁, ⟨hroom, u₂, f₂, hm⟩ | ⟨hroom, f₂⟩⟩ := union_fresh hra hrb
      (.struct (.record (fs₁.insertAll only₂) ext₁)) (.struct (.record only₁ ext₁))
    · exact Or.inl ⟨Or.inr hroom, u₂, by simp [f₁, f₂], hm⟩
    · exact Or.inr ⟨by simpa [Room] using hroom, by simp [f₁, f₂]⟩
  · obtain ⟨u₁, f₁, ⟨hroom, u₂, f₂, hm⟩ | ⟨hroom, f₂⟩⟩ := union_fresh hra hrb
      (.struct (.record (fs₁.insertAll only₂) ext₂)) (.struct (.record only₂ ext₂))
    · exact Or.inl ⟨Or.inr hroom, u₂, by simp [f₁, f₂], hm⟩
    · exact Or.inr ⟨by simpa [Room] using hroom, by simp [f₁, f₂]⟩
  · obtain ⟨u₁, f₁, hm⟩ := UnionFind.union_spec hra hrb (.struct (.record fs₁ ext₁))
    exact Or.inl ⟨Or.inl rfl, u₁, by simp [f₁], hm⟩

/-- The record arm of `unifyFlat`. -/
theorem unifyRecords_outcome {fs₁ fs₂ : SortedMap Symbol VarId} {ext₁ ext₂ : VarId}
    (hra : ra < uf.view.size) (hrb : rb < uf.view.size) (he₁ : ext₁ < uf.view.size)
    (he₂ : ext₂ < uf.view.size) :
    FlatOutcome ι fuel uf.view ra rb (.record fs₁ ext₁) (.record fs₂ ext₂) stack
      (unifyFlat fuel uf budget ι span ra rb (.record fs₁ ext₁) (.record fs₂ ext₂) stack) := by
  obtain ⟨uf₁, hc₁, hv₁⟩ := isEmptyRecord_spec he₁
  obtain ⟨uf₂, hc₂, hv₂⟩ := isEmptyRecord_spec (show ext₂ < uf₁.view.size from hv₁ ▸ he₂)
  rw [hv₁] at hv₂ hc₂
  have hguard : ∀ c ∈ guardedChildren (.record fs₁ ext₁) (.record fs₂ ext₂),
      ¬ uf.view.Same c ra ∧ ¬ uf.view.Same c rb := by simp [guardedChildren]
  simp only [unifyFlat, hc₁, hc₂, Run.ok_bind]
  by_cases hill : (isClosed uf.view ext₂ && !(fs₁.filterKeys fun k => !fs₂.contains k).isEmpty ||
      isClosed uf.view ext₁ && !(fs₂.filterKeys fun k => !fs₁.contains k).isEmpty) = true
  · rw [if_pos hill]
    refine .clash ?_ (.mismatch hv₂)
    simp only [meetFlat, meetRows, if_pos hill]
  rw [if_neg hill]
  have hmeet : meetFlat ι uf.view (.record fs₁ ext₁) (.record fs₂ ext₂) =
      some (rowsMeet uf.view.size fs₁ ext₁ ext₂ (fs₁.filterKeys fun k => !fs₂.contains k)
        (fs₂.filterKeys fun k => !fs₁.contains k) (fs₁.shared fs₂).reverse) := by
    simp only [meetFlat, meetRows, if_neg hill]
  rcases unifyRows_outcome fs₁ (fs₁.filterKeys fun k => !fs₂.contains k)
    (fs₂.filterKeys fun k => !fs₁.contains k) ext₁ ext₂ (fs₁.shared fs₂).reverse stack
    (show ra < uf₂.view.size from hv₂ ▸ hra) (show rb < uf₂.view.size from hv₂ ▸ hrb) with ⟨hroom, uf', h, hm⟩ | ⟨hroom, h⟩
  · rw [hv₂] at hroom h hm
    rw [h]
    exact .met hmeet hguard hroom hm
  · rw [hv₂] at hroom
    rw [h]
    exact .full hmeet hroom

/-- The two shallow guards and the merge of two type constructors or two tuples. -/
theorem unifyChildren_outcome {fa fb flat : FlatType} {cs₁ cs₂ : List VarId} {pairs : Pending}
    (hra : uf.view.root ra = ra) (hrb : uf.view.root rb = rb) (hralt : ra < uf.view.size)
    (hrblt : rb < uf.view.size) (h₁ : ∀ c ∈ cs₁, c < uf.view.size)
    (h₂ : ∀ c ∈ cs₂, c < uf.view.size) (hg : guardedChildren fa fb = cs₁ ++ cs₂)
    (hmeet : meetFlat ι uf.view fa fb = some ⟨.struct flat, [], pairs⟩) :
    FlatOutcome ι fuel uf.view ra rb fa fb stack (do
      let (self₂, uf) ← mergesIntoSelf uf ra rb cs₂
      if self₂ then .error (infiniteType fuel uf budget ι span ra rb)
      else
        let (self₁, uf) ← mergesIntoSelf uf ra rb cs₁
        if self₁ then .error (infiniteType fuel uf budget ι span ra rb)
        else
          let uf ← uf.union ra rb (.struct flat)
          .ok (uf, pairs ++ stack)) := by
  obtain ⟨self₂, uf₂, hs₂, hv₂, hiff₂⟩ := mergesIntoSelf_spec h₂ hra hrb
  obtain ⟨self₁, uf₁, hs₁, hv₁, hiff₁⟩ := mergesIntoSelf_spec
    (show ∀ c ∈ cs₁, c < uf₂.view.size by rwa [hv₂]) (show uf₂.view.root ra = ra by rw [hv₂, hra])
    (show uf₂.view.root rb = rb by rw [hv₂, hrb])
  rw [hv₂] at hv₁ hiff₁
  simp only [hs₂, Run.ok_bind]
  split_ifs with hself₂
  · refine .cyclic (fun h => ?_) (.infiniteType hv₂)
    obtain ⟨c, hc, hsame⟩ := hiff₂.1 hself₂
    exact not_or.2 (h c (by simp [hg, hc])) hsame
  simp only [hs₁, Run.ok_bind]
  split_ifs with hself₁
  · refine .cyclic (fun h => ?_) (.infiniteType hv₁)
    obtain ⟨c, hc, hsame⟩ := hiff₁.1 hself₁
    exact not_or.2 (h c (by simp [hg, hc])) hsame
  obtain ⟨uf', hu, hm⟩ := UnionFind.union_spec (show ra < uf₁.view.size from hv₁ ▸ hralt)
    (show rb < uf₁.view.size from hv₁ ▸ hrblt) (.struct flat)
  rw [hv₁] at hm
  simp only [hu, Run.ok_bind]
  refine .met hmeet (fun c hc => ?_) (Or.inl rfl) hm
  rw [hg, List.mem_append] at hc
  rcases hc with hc | hc
  · exact not_or.1 fun hsame => hself₁ (hiff₁.2 ⟨c, hc, hsame⟩)
  · exact not_or.1 fun hsame => hself₂ (hiff₂.2 ⟨c, hc, hsame⟩)

/-- Everything that `unifyFlat` can do. -/
theorem unifyFlat_outcome (ι : Interner) (fuel : ℕ) (budget : Budget) (span : Span)
    (stack : Pending) {fa fb : FlatType} (hra : uf.view.root ra = ra)
    (hrb : uf.view.root rb = rb) (hralt : ra < uf.view.size) (hrblt : rb < uf.view.size)
    (ha : ∀ c ∈ fa.children, c < uf.view.size) (hb : ∀ c ∈ fb.children, c < uf.view.size) :
    FlatOutcome ι fuel uf.view ra rb fa fb stack
      (unifyFlat fuel uf budget ι span ra rb fa fb stack) := by
  -- a merge that checks nothing and mints nothing
  have hplain : ∀ {flat pairs}, meetFlat ι uf.view fa fb = some ⟨.struct flat, [], pairs⟩ →
      guardedChildren fa fb = [] → FlatOutcome ι fuel uf.view ra rb fa fb stack (do
        let uf ← uf.union ra rb (.struct flat)
        .ok (uf, pairs ++ stack)) := by
    intro flat pairs hmeet hg
    obtain ⟨uf', hu, hm⟩ := UnionFind.union_spec hralt hrblt (.struct flat)
    simp only [hu, Run.ok_bind]
    exact .met hmeet (by simp [hg]) (Or.inl rfl) hm
  cases fa <;> cases fb
  case unit.unit => exact hplain rfl rfl
  case fn.fn => exact hplain rfl rfl
  case emptyRecord.emptyRecord => exact hplain rfl rfl
  case record.record =>
    exact unifyRecords_outcome hralt hrblt (ha _ (by simp [FlatType.children]))
      (hb _ (by simp [FlatType.children]))
  case con.con m₁ n₁ as₁ m₂ n₂ as₂ =>
    by_cases h : (!conHeadsCompatible ι m₁ n₁ m₂ n₂ || as₁.length != as₂.length) = true
    · rw [unifyFlat, if_pos h]
      exact .clash (by rw [meetFlat, if_pos h]) (.mismatch rfl)
    · rw [unifyFlat, if_neg h]
      exact unifyChildren_outcome hra hrb hralt hrblt ha hb rfl (by rw [meetFlat, if_neg h])
  case tuple.tuple es₁ es₂ =>
    rw [unifyFlat]
    split_ifs with h
    · exact .clash (by rw [meetFlat, if_pos h]) (.mismatch rfl)
    · exact unifyChildren_outcome hra hrb hralt hrblt ha hb rfl (by rw [meetFlat, if_neg h])
  all_goals exact .clash rfl (.mismatch rfl)

theorem unifySuperStructure_eq (ι : Interner) (fuel : ℕ) (budget : Budget) (span : Span)
    (v : VarId) (rigid : Bool) (bounds : TyBounds) (flat : FlatType)
    (hralt : ra < uf.view.size) (hrblt : rb < uf.view.size) :
    (∃ uf', meetSuper ι rigid bounds flat = some ⟨.struct flat, [], []⟩ ∧
      unifySuperStructure fuel uf budget ι span ra rb v rigid bounds flat = .ok uf' ∧
      uf.view.Merge uf'.view ra rb (.struct flat) []) ∨
    (∃ e, meetSuper ι rigid bounds flat = none ∧
      unifySuperStructure fuel uf budget ι span ra rb v rigid bounds flat = .error e ∧
      Refusal ι fuel uf.view e) := by
  by_cases hpin : (!rigid && superConcreteOk ι bounds flat) = true
  · obtain ⟨uf', hu, hm⟩ := UnionFind.union_spec hralt hrblt (.struct flat)
    exact Or.inl ⟨uf', by rw [meetSuper, if_pos hpin], by rw [unifySuperStructure, if_pos hpin, hu],
      hm⟩
  · refine Or.inr ?_
    rw [meetSuper, if_neg hpin, unifySuperStructure, if_neg hpin]
    split_ifs
    · rcases hz : zonk fuel uf budget v with e | ⟨ty, uf', budget'⟩
      · exact ⟨e, rfl, rfl, Refusal.unread rfl hz⟩
      · exact ⟨_, rfl, rfl, Refusal.unsatisfied⟩
    · exact ⟨_, rfl, rfl, (.mismatch rfl)⟩

/-! ### One step -/

section Step

variable {S : Store} {a b : VarId}

theorem occursGuard_spec (ι : Interner) (fuel : ℕ) (budget : Budget) (span : Span)
    {var node : VarId} (hS : Scoped uf.view) (hvar : var < uf.view.size)
    (hnode : node < uf.view.size) :
    (∃ uf' budget', occursGuard fuel uf budget ι span var node = .ok (uf', budget') ∧
      uf'.view = uf.view ∧ (budget.isUnbounded → budget' = budget) ∧
      Free uf.view (uf.view.root var) node) ∨
    (∃ e uf' r, occursGuard fuel uf budget ι span var node = .error e ∧
      ¬ Free uf.view (uf.view.root var) node ∧ uf'.view = uf.view ∧
      occurs fuel uf' budget (uf.view.root var) node = .ok r ∧ Refusal ι fuel uf.view e) ∨
    (∃ e uf', occursGuard fuel uf budget ι span var node = .error e ∧ uf'.view = uf.view ∧
      occurs fuel uf' budget (uf.view.root var) node = .error e) := by
  obtain ⟨uf₁, hf, hv₁⟩ := UnionFind.find_spec hvar
  rcases ho : occurs fuel uf₁ budget (uf.view.root var) node with e | ⟨found, uf₂, budget₂⟩
  · exact Or.inr (Or.inr ⟨e, uf₁, by simp [occursGuard, hf, ho], hv₁, ho⟩)
  obtain ⟨hv₂, hub, hfalse, htrue⟩ := occurs_spec (hv₁ ▸ hS) (hv₁ ▸ hnode) ho
  rw [hv₁] at hv₂ hfalse htrue
  cases found with
  | false =>
    exact Or.inl ⟨uf₂, budget₂, by simp [occursGuard, hf, ho], hv₂, hub, hfalse rfl⟩
  | true =>
    refine Or.inr (Or.inl ⟨infiniteType fuel uf₂ budget₂ ι span (uf.view.root var) node, uf₁, _,
      by simp [occursGuard, hf, ho], fun hfree => hfree.2 _ (htrue rfl) rfl, hv₁, ho,
      .infiniteType hv₂⟩)

/-- A step that started with a tick. -/
theorem Outcome.of_tick {budget' : Budget} {x : DResult UnifyState}
    (hb : budget.isUnbounded → budget' = budget) (h : Outcome ι fuel S budget' a b stack x) :
    Outcome ι fuel S budget a b stack x := by
  have hub : ∀ {b'' : Budget}, (budget'.isUnbounded → b'' = budget') →
      budget.isUnbounded → b'' = budget := by
    intro b'' h' hu
    rw [h' (hb hu ▸ hu), hb hu]
  cases h with
  | exhausted hne he => exact .exhausted (fun hu => hne (hb hu ▸ hu)) he
  | same h₁ h₂ h₃ => exact .same (hub h₁) h₂ h₃
  | met h₁ h₂ h₃ h₄ h₅ h₆ h₇ h₈ => exact .met (hub h₁) h₂ h₃ h₄ h₅ h₆ h₇ h₈
  | clash h₁ h₂ h₃ h₄ h₅ => exact .clash h₁ h₂ h₃ h₄ h₅
  | cyclic h₁ h₂ h₃ h₄ h₅ h₆ => exact .cyclic h₁ h₂ h₃ h₄ (fun hu => hb hu ▸ h₅ (hb hu ▸ hu)) h₆
  | full h₁ h₂ h₃ h₄ h₅ => exact .full h₁ h₂ h₃ h₄ h₅
  | walk h₁ h₂ h₃ h₄ h₅ h₆ h₇ => exact .walk h₁ h₂ h₃ h₄ h₅ (hub h₆) h₇

/-- Only one of the two is the variable. -/
theorem eq_of_flex_struct {var node var' node' : VarId} {flat : FlatType}
    (hvn : var = a ∧ node = b ∨ var = b ∧ node = a)
    (hvn' : var' = a ∧ node' = b ∨ var' = b ∧ node' = a) (hvar : S.desc var = some .flex)
    (hnode' : S.desc node' = some (.struct flat)) : var' = var ∧ node' = node := by
  rcases hvn with ⟨rfl, rfl⟩ | ⟨rfl, rfl⟩ <;> rcases hvn' with ⟨rfl, rfl⟩ | ⟨rfl, rfl⟩
  · exact ⟨rfl, rfl⟩
  · cases hvar.symm.trans hnode'
  · cases hvar.symm.trans hnode'
  · exact ⟨rfl, rfl⟩

/-- A flexible variable is bound to a structure. -/
theorem bind_outcome {var node rv rn : VarId} {flat : FlatType} {ca cb : Content}
    (hS : Scoped uf.view) (hne : ¬ uf.view.Same a b) (hvn : var = a ∧ node = b ∨ var = b ∧ node = a)
    (ha : uf.view.desc a = some ca) (hb : uf.view.desc b = some cb)
    (hvar : uf.view.desc var = some .flex) (hnode : uf.view.desc node = some (.struct flat))
    (hmeet : meet ι uf.view ca cb = some ⟨.struct flat, [], []⟩)
    (hguard : Guard uf.view a b ca cb ↔ Free uf.view (uf.view.root var) node)
    (hra : ra = uf.view.root a) (hrb : rb = uf.view.root b) (hrv : rv = uf.view.root var)
    (hrn : rn = uf.view.root node) :
    Outcome ι fuel uf.view budget a b stack (do
      let (uf, budget) ← occursGuard fuel uf budget ι span rv rn
      let uf ← uf.union ra rb (.struct flat)
      .ok (uf, budget, stack)) := by
  subst hra hrb hrv hrn
  have hralt := uf.view.root_lt (ClassStore.lt_of_desc ha)
  have hrblt := uf.view.root_lt (ClassStore.lt_of_desc hb)
  have hfree : Free uf.view (uf.view.root (uf.view.root var)) (uf.view.root node) ↔
      Guard uf.view a b ca cb := by
    rw [hguard, Free, Free, uf.view.root_root, uf.view.root_root]
  rcases occursGuard_spec ι fuel budget span hS
    (uf.view.root_lt (ClassStore.lt_of_desc hvar)) (uf.view.root_lt (ClassStore.lt_of_desc hnode))
    with ⟨uf₁, budget₁, h, hv, hub, hf⟩ | ⟨e, uf₁, r, h, hf, hv, ho, he⟩ | ⟨e, uf₁, h, hv, ho⟩
  · obtain ⟨uf', hu, hm⟩ := UnionFind.union_spec
      (show uf.view.root a < uf₁.view.size from hv ▸ hralt)
      (show uf.view.root b < uf₁.view.size from hv ▸ hrblt) (.struct flat)
    rw [hv] at hm
    simp only [h, hu, Run.ok_bind]
    exact .met hub hne ha hb hmeet (hfree.1 hf) (Or.inl rfl) hm.of_root
  · simp only [h, Run.error_bind]
    rw [uf.view.root_root] at ho
    refine .cyclic hne ha hb (fun hg => hf (hfree.2 hg))
      (fun _ var' node' flat' hvn' hvar' hnode' => ?_) he
    obtain ⟨rfl, rfl⟩ := eq_of_flex_struct hvn hvn' hvar hnode'
    exact ⟨uf₁, r, hv, ho⟩
  · simp only [h, Run.error_bind]
    rw [uf.view.root_root] at ho
    exact .walk hne hvn hvar hnode hv (fun _ => rfl) ho

/-- A super-typed variable is pinned to a structure, or not. -/
theorem super_outcome {v : VarId} {rigid : Bool} {bounds : TyBounds} {flat : FlatType}
    {ca cb : Content} (hne : ¬ uf.view.Same a b) (ha : uf.view.desc a = some ca)
    (hb : uf.view.desc b = some cb) (hmeet : meet ι uf.view ca cb = meetSuper ι rigid bounds flat)
    (hguard : Guard uf.view a b ca cb) (hra : ra = uf.view.root a) (hrb : rb = uf.view.root b) :
    Outcome ι fuel uf.view budget a b stack (do
      let uf ← unifySuperStructure fuel uf budget ι span ra rb v rigid bounds flat
      .ok (uf, budget, stack)) := by
  subst hra hrb
  rcases unifySuperStructure_eq ι fuel budget span v rigid bounds flat
    (uf.view.root_lt (ClassStore.lt_of_desc ha)) (uf.view.root_lt (ClassStore.lt_of_desc hb))
    with ⟨uf', hs, h, hm⟩ | ⟨e, hs, h, he⟩
  · simp only [h, Run.ok_bind]
    exact .met (fun _ => rfl) hne ha hb (hmeet.trans hs) hguard (Or.inl rfl) hm.of_root
  · simp only [h, Run.error_bind]
    exact .clash hne ha hb (hmeet.trans hs) he

/-- Two structures are merged, or not. -/
theorem flat_outcome {fa fb : FlatType} (hS : Scoped uf.view) (hne : ¬ uf.view.Same a b)
    (ha : uf.view.desc a = some (.struct fa)) (hb : uf.view.desc b = some (.struct fb))
    (hra : ra = uf.view.root a) (hrb : rb = uf.view.root b) :
    Outcome ι fuel uf.view budget a b stack (do
      let (uf, stack) ← unifyFlat fuel uf budget ι span ra rb fa fb stack
      .ok (uf, budget, stack)) := by
  have hralt := uf.view.root_lt (ClassStore.lt_of_desc ha)
  have hrblt := uf.view.root_lt (ClassStore.lt_of_desc hb)
  have hsame : ∀ c, (¬ uf.view.Same c ra ∧ ¬ uf.view.Same c rb) ↔
      ¬ uf.view.Same c a ∧ ¬ uf.view.Same c b := by
    intro c
    simp only [ClassStore.Same, hra, hrb, uf.view.root_root]
  subst hra hrb
  have hout := unifyFlat_outcome ι fuel budget span stack (uf.view.root_root a) (uf.view.root_root b) hralt hrblt (hS a _ ha) (hS b _ hb)
  generalize unifyFlat fuel uf budget ι span _ _ fa fb stack = x at hout
  cases hout with
  | met hm hg hroom hmerge =>
    exact .met (fun _ => rfl) hne ha hb hm (fun c hc => (hsame c).1 (hg c hc)) hroom
      hmerge.of_root
  | clash hm he => exact .clash hne ha hb hm he
  | cyclic hg he =>
    refine .cyclic hne ha hb (fun h => hg fun c hc => (hsame c).2 (h c hc))
      (fun _ var node flat hvn hvar _ => ?_) he
    rcases hvn with ⟨rfl, -⟩ | ⟨rfl, -⟩
    · cases hvar.symm.trans ha
    · cases hvar.symm.trans hb
  | full hm hroom => exact .full hne ha hb hm hroom

/-- Two variables without a structure are merged, or not. -/
theorem nonstructure_outcome {ca cb : Content} (hne : ¬ uf.view.Same a b)
    (ha : uf.view.desc a = some ca) (hb : uf.view.desc b = some cb)
    (hca : ca.isStructure = false) (hcb : cb.isStructure = false) (hra : ra = uf.view.root a)
    (hrb : rb = uf.view.root b) :
    Outcome ι fuel uf.view budget a b stack (do
      let uf ← unifyNonstructure fuel uf budget ι span ra rb ca cb
      .ok (uf, budget, stack)) := by
  subst hra hrb
  have hmeet : meet ι uf.view ca cb = (joinContent ca cb).map fun keep => ⟨keep, [], []⟩ := by
    cases ca <;> cases cb <;> first | rfl | simp [Content.isStructure] at hca hcb
  have hguard : Guard uf.view a b ca cb := by
    cases ca <;> cases cb <;> trivial
  rw [unifyNonstructure_eq]
  rcases hj : joinContent ca cb with _ | keep <;> rw [hj] at hmeet
  · exact .clash hne ha hb hmeet (.mismatch rfl)
  · obtain ⟨uf', hu, hm⟩ := UnionFind.union_spec
      (uf.view.root_lt (ClassStore.lt_of_desc ha)) (uf.view.root_lt (ClassStore.lt_of_desc hb)) keep
    simp only [hu, Run.ok_bind]
    exact .met (fun _ => rfl) hne ha hb hmeet hguard (Or.inl rfl) hm.of_root

theorem unifyStructure_outcome (hS : Scoped uf.view) (hne : ¬ uf.view.Same a b) {ca cb : Content}
    (hca : uf.view.desc a = some ca) (hcb : uf.view.desc b = some cb)
    (hstruct : ca.isStructure = true ∨ cb.isStructure = true) (hra : ra = uf.view.root a)
    (hrb : rb = uf.view.root b) :
    Outcome ι fuel uf.view budget a b stack
      (unifyStructure fuel uf budget ι span ra rb stack) := by
  have ha := ClassStore.lt_of_desc hca
  have hb := ClassStore.lt_of_desc hcb
  obtain ⟨ca', uf₁, hc₁, hd₁, hv₁⟩ := UnionFind.content_spec
    (show ra < uf.view.size from hra ▸ uf.view.root_lt ha)
  obtain ⟨cb', uf₂, hc₂, hd₂, hv₂⟩ := UnionFind.content_spec
    (show rb < uf₁.view.size from hv₁ ▸ hrb ▸ uf.view.root_lt hb)
  rw [hv₁] at hv₂ hd₂
  rw [hra, uf.view.desc_root] at hd₁
  rw [hrb, uf.view.desc_root] at hd₂
  cases hca.symm.trans hd₁
  cases hcb.symm.trans hd₂
  simp only [unifyStructure, hc₁, hc₂, Run.ok_bind]
  rw [← hv₂] at hS hne hca hcb ha hb hra hrb ⊢
  cases ca <;> cases cb
  case flex.struct f =>
    exact bind_outcome hS hne (Or.inl ⟨rfl, rfl⟩) hca hcb hca hcb rfl Iff.rfl hra hrb hra hrb
  case struct.flex f =>
    exact bind_outcome hS hne (Or.inr ⟨rfl, rfl⟩) hca hcb hcb hca rfl Iff.rfl hra hrb hrb hra
  case super.struct => exact super_outcome hne hca hcb rfl trivial hra hrb
  case struct.super => exact super_outcome hne hca hcb rfl trivial hra hrb
  case rigid.struct => exact .clash hne hca hcb rfl (.mismatch rfl)
  case struct.rigid => exact .clash hne hca hcb rfl (.mismatch rfl)
  case struct.struct => exact flat_outcome hS hne hca hcb hra hrb
  all_goals simp [Content.isStructure] at hstruct

/-- Everything that one step can do. -/
theorem unifyStep_outcome (ι : Interner) (fuel : ℕ) (budget : Budget) (span : Span)
    (stack : Pending) (hS : Scoped uf.view) (ha : a < uf.view.size) (hb : b < uf.view.size) :
    Outcome ι fuel uf.view budget a b stack
      (unifyStep fuel uf budget ι span a b stack) := by
  rcases ht : budget.tick with e | budget₁
  · have hended := budget.tick_ended
    simp only [unifyStep, ht, Run.error_bind]
    refine .exhausted (fun hu => ?_) fun he => hended (by rw [ht, he])
    cases ht.symm.trans (Budget.tick_of_isUnbounded hu)
  have hub : budget.isUnbounded → budget₁ = budget := fun hu => by
    cases ht.symm.trans (Budget.tick_of_isUnbounded hu)
    rfl
  refine Outcome.of_tick hub ?_
  obtain ⟨uf₁, hf₁, hv₁⟩ := UnionFind.find_spec ha
  obtain ⟨uf₂, hf₂, hv₂⟩ := UnionFind.find_spec (show b < uf₁.view.size from hv₁ ▸ hb)
  rw [hv₁] at hf₂ hv₂
  simp only [unifyStep, ht, hf₁, hf₂, Run.ok_bind]
  by_cases hne : uf.view.root a = uf.view.root b
  · rw [if_pos hne]
    exact .same (fun _ => rfl) hne hv₂
  rw [if_neg hne]
  obtain ⟨ca, hca, hda⟩ := UnionFind.rootContent_spec (show a < uf₂.view.size from hv₂ ▸ ha)
  obtain ⟨cb, hcb, hdb⟩ := UnionFind.rootContent_spec (show b < uf₂.view.size from hv₂ ▸ hb)
  rw [hv₂] at hca hcb
  simp only [hca, hcb, Run.ok_bind]
  have hne' : ¬ uf₂.view.Same a b := hv₂ ▸ hne
  obtain ⟨ra, hra⟩ : ∃ ra, ra = uf.view.root a := ⟨_, rfl⟩
  obtain ⟨rb, hrb⟩ : ∃ rb, rb = uf.view.root b := ⟨_, rfl⟩
  rw [← hra, ← hrb]
  rw [← hv₂] at hS hra hrb ⊢
  split_ifs with hsa hsb
  · exact unifyStructure_outcome hS hne' hda hdb (Or.inl hsa) hra hrb
  · exact unifyStructure_outcome hS hne' hda hdb (Or.inr hsb) hra hrb
  · exact nonstructure_outcome hne' hda hdb (by simpa using hsa) (by simpa using hsb) hra hrb

end Step

end IpeLang.Types
