import IpeLang.Package.Index

/-!
# Enforced semver

`ipe-cli/src/diff.rs`: the changes between two public interfaces, the bump that they require and the
floor of the next version, and the rule of `enforced_semver` in `ipe-cli/src/audit.rs`, which
compares a release with the highest release below it.

* `Includes old new`: the new interface has all that the old one has;
  `diffApi_compatible_iff` says that this is when no change is breaking;
* `Published history`: every version is above all earlier ones and passes the rule;
* `caret_compatible`: in such a history, a caret range never receives a breaking change.
-/

namespace IpeLang.Package

open IpeLang.Lib Semver

/-! ### Interfaces -/

/-- An exported union: the number of its parameters and the arguments of its constructors. -/
structure UnionApi where
  params : ℕ
  ctors : SortedMap Str (List Str)
  deriving DecidableEq

/-- The exported values with their signatures, and the exported unions of a module. -/
structure ModuleApi where
  values : SortedMap Str Str
  unions : SortedMap Str UnionApi
  deriving DecidableEq

abbrev ModulePath := List Str

structure PublicApi where
  modules : SortedMap ModulePath ModuleApi
  deriving DecidableEq

/-! ### Changes -/

inductive Compatibility
  | compatible
  | breaking
  deriving DecidableEq, Repr

/-- The size of a delta. -/
inductive Magnitude
  | unchanged
  | additive
  | breaking
  deriving DecidableEq, Repr

inductive ApiChange
  | moduleRemoved (module : Str)
  | moduleAdded (module : Str)
  | valueRemoved (module name : Str)
  | valueAdded (module name : Str)
  | valueChanged (module name old new : Str)
  | unionRemoved (module name : Str)
  | unionAdded (module name : Str)
  | unionArityChanged (module name : Str) (old new : ℕ)
  | constructorRemoved (module union ctor : Str)
  | constructorAdded (module union ctor : Str)
  | constructorChanged (module union ctor : Str)
  deriving DecidableEq, Repr

def ApiChange.compatibility : ApiChange → Compatibility
  | .moduleAdded _ | .valueAdded _ _ | .unionAdded _ _ => .compatible
  | _ => .breaking

section Diff

variable (module : Str)

/-- The changes of the constructors of a union that both have. -/
def diffUnion (name : Str) (old new : UnionApi) : List ApiChange :=
  (if new.params ≠ old.params then [.unionArityChanged module name old.params new.params] else []) ++
    old.ctors.entries.flatMap (fun p =>
      match new.ctors.get? p.1 with
      | none => [.constructorRemoved module name p.1]
      | some newArgs => if newArgs ≠ p.2 then [.constructorChanged module name p.1] else []) ++
    (new.ctors.keys.filter fun ctor => !old.ctors.contains ctor).map
      (.constructorAdded module name)

/-- The changes of a module that both have. -/
def diffModule (old new : ModuleApi) : List ApiChange :=
  old.values.entries.flatMap (fun p =>
      match new.values.get? p.1 with
      | none => [.valueRemoved module p.1]
      | some newSig => if newSig ≠ p.2 then [.valueChanged module p.1 p.2 newSig] else []) ++
    (new.values.keys.filter fun name => !old.values.contains name).map (.valueAdded module) ++
    old.unions.entries.flatMap (fun p =>
      match new.unions.get? p.1 with
      | none => [.unionRemoved module p.1]
      | some newUnion => diffUnion module p.1 p.2 newUnion) ++
    (new.unions.keys.filter fun name => !old.unions.contains name).map (.unionAdded module)

end Diff

/-- The dotted name of a module. -/
def joinPath (path : ModulePath) : Str := ['.'].intercalate path

/-- The changes from one interface to another. -/
def diffApi (old new : PublicApi) : List ApiChange :=
  (old.modules.keys.filter fun m => !new.modules.contains m).map
      (fun m => .moduleRemoved (joinPath m)) ++
    (new.modules.keys.filter fun m => !old.modules.contains m).map
      (fun m => .moduleAdded (joinPath m)) ++
    old.modules.entries.flatMap fun p =>
      match new.modules.get? p.1 with
      | none => []
      | some newApi => diffModule (joinPath p.1) p.2 newApi

def magnitude (changes : List ApiChange) : Magnitude :=
  if changes.any fun c => c.compatibility == .breaking then .breaking
  else if changes.isEmpty then .unchanged
  else .additive

/-! ### Bumps -/

inductive ReleaseLine
  | initial
  | stable
  deriving DecidableEq, Repr

inductive RequiredBump
  | patch
  | minor
  | major
  deriving DecidableEq, Repr

/-- The version that a floor is measured from. -/
inductive Predecessor
  | release (core : Version)
  | prereleaseOf (core : Version)
  deriving DecidableEq

namespace Predecessor

def of (version : Version) : Predecessor :=
  if version.pre.isEmpty then .release version.core else .prereleaseOf version.core

def core : Predecessor → Version
  | .release core => core
  | .prereleaseOf core => core

end Predecessor

def ReleaseLine.of (predecessor : Predecessor) : ReleaseLine :=
  if predecessor.core.major = 0 then .initial else .stable

def requiredBump : ReleaseLine → Magnitude → RequiredBump
  | _, .unchanged => .patch
  | .initial, .additive => .patch
  | .initial, .breaking => .minor
  | .stable, .additive => .minor
  | .stable, .breaking => .major

/-- No version can clear the floor. -/
structure FloorOverflow where
  predecessor : Predecessor
  required : RequiredBump
  deriving DecidableEq

/-- The lowest acceptable next version. -/
def bumpFloor (predecessor : Predecessor) (required : RequiredBump) :
    Except FloorOverflow Version :=
  let orOverflow (n : Option U64) (f : U64 → Version) : Except FloorOverflow Version :=
    match n with
    | some n => .ok (f n)
    | none => .error ⟨predecessor, required⟩
  match predecessor, required with
  | .prereleaseOf core, .patch => .ok core
  | .release core, .patch =>
    orOverflow (U64.succ? core.patch) fun patch => ⟨core.major, core.minor, patch, []⟩
  | predecessor, .minor =>
    orOverflow (U64.succ? predecessor.core.minor) fun minor => ⟨predecessor.core.major, minor, 0, []⟩
  | predecessor, .major => orOverflow (U64.succ? predecessor.core.major) fun major => ⟨major, 0, 0, []⟩

structure SemverReport where
  changes : List ApiChange
  magnitude : Magnitude
  required : RequiredBump
  floor : Version
  satisfied : Bool
  deriving DecidableEq

/-- Compare two interfaces and the versions that they are published under. -/
def report [Library] (oldApi newApi : PublicApi) (oldVersion newVersion : Version) :
    Except FloorOverflow SemverReport := do
  let changes := diffApi oldApi newApi
  let magnitude := magnitude changes
  let predecessor := Predecessor.of oldVersion
  let required := requiredBump (.of predecessor) magnitude
  let floor ← bumpFloor predecessor required
  return ⟨changes, magnitude, required, floor, decide (floor ≤ newVersion)⟩

/-! ### The rule -/

/-- A version with its interface. -/
structure Release where
  version : PublishedVersion
  api : PublicApi
  deriving DecidableEq

/-- The highest release, no prerelease, below a version. -/
def stableBaseline [Library] (published : List Release) (newVersion : PublishedVersion) : Option Release :=
  maxBy Release.version
    (published.filter fun r => !r.version.isPrerelease && decide (r.version < newVersion))

inductive SemverRefusal
  | floorOverflow (overflow : FloorOverflow)
  | underBump (previous newVersion : PublishedVersion) (required : RequiredBump) (floor : Version)
  deriving DecidableEq

/-- The rule that a new version must pass. -/
def enforcedSemver [Library] (published : List Release) (new : Release) : Except SemverRefusal Unit :=
  if new.version.isPrerelease then .ok ()
  else
    match stableBaseline published new.version with
    | none => .ok ()
    | some previous =>
      match report previous.api new.api previous.version new.version with
      | .error overflow => .error (.floorOverflow overflow)
      | .ok report =>
        if report.satisfied then .ok ()
        else .error (.underBump previous.version new.version report.required report.floor)

/-! ### Inclusion of interfaces -/

/-- All values and unions of a module are there, unchanged. -/
structure ModuleApi.Includes (old new : ModuleApi) : Prop where
  values : ∀ name sig, old.values.get? name = some sig → new.values.get? name = some sig
  unions : ∀ name union, old.unions.get? name = some union → new.unions.get? name = some union

/-- All modules are there, with all that they export. -/
def Includes (old new : PublicApi) : Prop :=
  ∀ path m, old.modules.get? path = some m →
    ∃ m', new.modules.get? path = some m' ∧ m.Includes m'

theorem ModuleApi.Includes.trans {a b c : ModuleApi} (hab : a.Includes b) (hbc : b.Includes c) :
    a.Includes c :=
  ⟨fun name sig h => hbc.values name sig (hab.values name sig h),
    fun name union h => hbc.unions name union (hab.unions name union h)⟩

theorem Includes.refl (a : PublicApi) : Includes a a :=
  fun _ m h => ⟨m, h, fun _ _ h => h, fun _ _ h => h⟩

theorem Includes.trans {a b c : PublicApi} (hab : Includes a b) (hbc : Includes b c) :
    Includes a c := by
  intro path m hm
  obtain ⟨m', hm', hi'⟩ := hab path m hm
  obtain ⟨m'', hm'', hi''⟩ := hbc path m' hm'
  exact ⟨m'', hm'', hi'.trans hi''⟩

/-- No change of the list is breaking. -/
def Compatible (changes : List ApiChange) : Prop := ∀ c ∈ changes, c.compatibility = .compatible

theorem magnitude_ne_breaking {changes : List ApiChange} :
    magnitude changes ≠ .breaking ↔ Compatible changes := by
  have hcases : ∀ c : ApiChange, c.compatibility ≠ .breaking ↔ c.compatibility = .compatible := by
    intro c
    cases c.compatibility <;> decide
  have hall : (changes.any fun c => c.compatibility == .breaking) = true ↔ ¬ Compatible changes := by
    simp only [Compatible, List.any_eq_true, beq_iff_eq, ← hcases]
    push Not
    rfl
  unfold magnitude
  by_cases hc : Compatible changes
  · rw [if_neg (fun h => hall.1 h hc)]
    refine iff_of_true ?_ hc
    split_ifs <;> decide
  · rw [if_pos (hall.2 hc)]
    exact iff_of_false (fun h => h rfl) hc

section Diff

variable {module name : Str}

@[simp] theorem compatible_append {xs ys : List ApiChange} :
    Compatible (xs ++ ys) ↔ Compatible xs ∧ Compatible ys := List.forall_mem_append

theorem compatible_flatMap {α : Type} {f : α → List ApiChange} {xs : List α} :
    Compatible (xs.flatMap f) ↔ ∀ x ∈ xs, Compatible (f x) := List.forall_mem_flatMap

/-- Changes that are all compatible. -/
theorem compatible_map {α : Type} {f : α → ApiChange} (hf : ∀ x, (f x).compatibility = .compatible)
    (xs : List α) : Compatible (xs.map f) := List.forall_mem_map.2 fun x _ => hf x

/-- Changes that are all breaking. -/
theorem compatible_map_iff {α : Type} {f : α → ApiChange}
    (hf : ∀ x, (f x).compatibility = .breaking) {xs : List α} :
    Compatible (xs.map f) ↔ xs = [] := by
  constructor
  · intro h
    refine List.eq_nil_iff_forall_not_mem.2 fun x hx => ?_
    have := (hf x).symm.trans (h _ (List.mem_map_of_mem hx))
    cases this
  · rintro rfl
    simp [Compatible]

@[simp] theorem compatible_nil : Compatible [] := List.forall_mem_nil _

theorem compatible_singleton {c : ApiChange} :
    Compatible [c] ↔ c.compatibility = .compatible := List.forall_mem_singleton

/-- What a look-up gives, as a condition on a list of changes. -/
theorem forall_entries {K V : Type} [LinearOrder K] {m : SortedMap K V} {p : K × V → Prop} :
    (∀ e ∈ m.entries, p e) ↔ ∀ k v, m.get? k = some v → p (k, v) := by
  simp only [SortedMap.get?_eq_some, Prod.forall]

theorem filter_keys_eq_nil {K V W : Type} [LinearOrder K] {m : SortedMap K V}
    {n : SortedMap K W} :
    (m.keys.filter fun k => !n.contains k) = [] ↔
      ∀ k v, m.get? k = some v → ∃ w, n.get? k = some w := by
  simp only [List.filter_eq_nil_iff, SortedMap.mem_keys, Bool.not_eq_true', Bool.not_eq_false,
    SortedMap.contains_iff]
  constructor
  · intro h k v hv
    exact h k ⟨v, hv⟩
  · rintro h k ⟨v, hv⟩
    exact h k v hv

/-- Every change of a union is breaking. -/
theorem diffUnion_compatible_iff {old new : UnionApi} :
    Compatible (diffUnion module name old new) ↔ new = old := by
  have hparams : Compatible (if new.params ≠ old.params then
      [ApiChange.unionArityChanged module name old.params new.params] else []) ↔
      new.params = old.params := by
    split_ifs with h
    · simpa [compatible_singleton, ApiChange.compatibility] using h
    · simpa using h
  have hkept : ∀ k v, Compatible (match new.ctors.get? k with
      | none => [ApiChange.constructorRemoved module name k]
      | some newArgs => if newArgs ≠ v then [.constructorChanged module name k] else []) ↔
      new.ctors.get? k = some v := by
    intro k v
    cases new.ctors.get? k with
    | none => simp [compatible_singleton, ApiChange.compatibility]
    | some args =>
      by_cases hargs : args = v
      · simp [hargs]
      · simp [hargs, compatible_singleton, ApiChange.compatibility]
  have hadded : Compatible ((new.ctors.keys.filter fun ctor => !old.ctors.contains ctor).map
      (.constructorAdded module name)) ↔
      ∀ k v, new.ctors.get? k = some v → ∃ w, old.ctors.get? k = some w := by
    rw [compatible_map_iff fun _ => rfl, filter_keys_eq_nil]
  rw [diffUnion, compatible_append, compatible_append, compatible_flatMap, forall_entries, hparams,
    hadded]
  simp only [hkept]
  constructor
  · rintro ⟨⟨hp, hk⟩, ha⟩
    have hctors : new.ctors = old.ctors := SortedMap.ext_get fun k => by
      cases hn : new.ctors.get? k with
      | none =>
        cases ho : old.ctors.get? k with
        | none => rfl
        | some v => rw [hk k v ho] at hn; cases hn
      | some v =>
        obtain ⟨w, hw⟩ := ha k v hn
        rw [hw, ← hn, hk k w hw]
    obtain ⟨newParams, newCtors⟩ := new
    obtain rfl : newParams = old.params := hp
    obtain rfl : newCtors = old.ctors := hctors
    rfl
  · rintro rfl
    exact ⟨⟨rfl, fun _ _ h => h⟩, fun k v h => ⟨v, h⟩⟩

theorem diffModule_compatible_iff {old new : ModuleApi} :
    Compatible (diffModule module old new) ↔ old.Includes new := by
  have hvalue : ∀ k v, Compatible (match new.values.get? k with
      | none => [ApiChange.valueRemoved module k]
      | some newSig => if newSig ≠ v then [.valueChanged module k v newSig] else []) ↔
      new.values.get? k = some v := by
    intro k v
    cases new.values.get? k with
    | none => simp [compatible_singleton, ApiChange.compatibility]
    | some sig =>
      by_cases hsig : sig = v
      · simp [hsig]
      · simp [hsig, compatible_singleton, ApiChange.compatibility]
  have hunion : ∀ k v, Compatible (match new.unions.get? k with
      | none => [ApiChange.unionRemoved module k]
      | some newUnion => diffUnion module k v newUnion) ↔ new.unions.get? k = some v := by
    intro k v
    cases new.unions.get? k with
    | none => simp [compatible_singleton, ApiChange.compatibility]
    | some union => simp [diffUnion_compatible_iff]
  have hadded := compatible_map (f := .valueAdded module) (fun _ => rfl)
    (new.values.keys.filter fun name => !old.values.contains name)
  have hadded' := compatible_map (f := .unionAdded module) (fun _ => rfl)
    (new.unions.keys.filter fun name => !old.unions.contains name)
  rw [diffModule, compatible_append, compatible_append, compatible_append, compatible_flatMap,
    compatible_flatMap, forall_entries, forall_entries]
  simp only [hvalue, hunion, hadded, hadded', and_true]
  exact ⟨fun h => ⟨h.1, h.2⟩, fun h => ⟨h.values, h.unions⟩⟩

end Diff

/-- No change between two interfaces is breaking exactly when the new one includes the old one. -/
theorem diffApi_compatible_iff {old new : PublicApi} :
    Compatible (diffApi old new) ↔ Includes old new := by
  have hremoved : Compatible ((old.modules.keys.filter fun m => !new.modules.contains m).map
      (fun m => .moduleRemoved (joinPath m))) ↔
      ∀ k v, old.modules.get? k = some v → ∃ w, new.modules.get? k = some w := by
    rw [compatible_map_iff fun _ => rfl, filter_keys_eq_nil]
  have hadded := compatible_map (f := fun m => .moduleAdded (joinPath m)) (fun _ => rfl)
    (new.modules.keys.filter fun m => !old.modules.contains m)
  have hkept : ∀ k v, Compatible (match new.modules.get? k with
      | none => []
      | some newApi => diffModule (joinPath k) v newApi) ↔
      ∀ m', new.modules.get? k = some m' → v.Includes m' := by
    intro k v
    cases new.modules.get? k with
    | none => simp
    | some m' => simp [diffModule_compatible_iff]
  rw [diffApi, compatible_append, compatible_append, compatible_flatMap, forall_entries, hremoved]
  simp only [hadded, hkept, and_true]
  constructor
  · rintro ⟨hr, hk⟩ path m hm
    obtain ⟨m', hm'⟩ := hr path m hm
    exact ⟨m', hm', hk path m hm m' hm'⟩
  · intro h
    refine ⟨fun k v hv => ?_, fun k v hv m' hm' => ?_⟩
    · obtain ⟨m', hm', -⟩ := h k v hv
      exact ⟨m', hm'⟩
    · obtain ⟨m'', hm'', hi⟩ := h k v hv
      rwa [Option.some.inj (hm'.symm.trans hm'')]

/-! ### Caret ranges -/

section Caret

variable [Library] {v p w : Version}

/-- Releases compare by their three numbers. -/
theorem release_le_iff (hv : v.isPrerelease = false) (hw : w.isPrerelease = false) :
    v ≤ w ↔ v.major < w.major ∨ v.major = w.major ∧
      (v.minor < w.minor ∨ v.minor = w.minor ∧ v.patch ≤ w.patch) := Library.release_le hv hw

/-- A caret range that holds a release holds every release on the way to it, and that one's range
holds the release, too. -/
theorem caretReq_between (hv : v.isPrerelease = false) (hp : p.isPrerelease = false)
    (hvp : v ≤ p) (hpw : p ≤ w) (h : caretReq v w = true) :
    caretReq v p = true ∧ caretReq p w = true := by
  rw [Library.caretReq_iff hv] at h ⊢
  rw [Library.caretReq_iff hp]
  obtain ⟨hw, hmajor, h⟩ := h
  rw [release_le_iff hv hp] at hvp
  rw [release_le_iff hp hw] at hpw
  have hvmajor : p.major = v.major := by grind
  unfold CaretMatches
  rw [hmajor, hvmajor]
  split_ifs at h ⊢ with h₁ h₂ h₃ h₄ <;> grind

end Caret

/-- A release in the caret range of its baseline that clears the floor breaks nothing. -/
theorem Includes.of_satisfied [Library] {old new : PublicApi} {v w : Version} {r : SemverReport}
    (hv : v.isPrerelease = false) (hc : caretReq v w = true) (hr : report old new v w = .ok r)
    (hs : r.satisfied = true) : Includes old new := by
  by_contra hbreak
  rw [← diffApi_compatible_iff, ← magnitude_ne_breaking, not_not] at hbreak
  have hpre : v.pre.isEmpty = true := by simpa [Version.isPrerelease] using hv
  obtain ⟨hw, hmajor, hc⟩ := (Library.caretReq_iff hv).1 hc
  have hfloor : ∀ a b c : U64, (⟨a, b, c, []⟩ : Version) ≤ w ↔
      a < w.major ∨ a = w.major ∧ (b < w.minor ∨ b = w.minor ∧ c ≤ w.patch) :=
    fun a b c => release_le_iff rfl hw
  have hsucc : ∀ n m : U64, U64.succ? n = some m → n < m := by
    intro n m h
    unfold U64.succ? at h
    split_ifs at h
    cases h
    exact Fin.lt_def.2 (Nat.lt_succ_self _)
  unfold report at hr
  simp only [hbreak, Predecessor.of, hpre, if_true, ReleaseLine.of, Predecessor.core,
    Version.core] at hr
  by_cases hz : v.major = 0
  · -- a break raises the minor number of an initial release
    rw [if_pos hz] at hr
    cases hm : U64.succ? v.minor with
    | none => simp [requiredBump, bumpFloor, Predecessor.core, hm, bind, Except.bind] at hr
    | some m =>
      simp only [requiredBump, bumpFloor, Predecessor.core, hm, bind, Except.bind, pure,
        Except.pure, Except.ok.injEq] at hr
      subst hr
      have hlt := hsucc _ _ hm
      have hle := (hfloor _ _ _).1 (of_decide_eq_true hs)
      rw [if_neg (by rw [hz]; exact lt_irrefl 0)] at hc
      split_ifs at hc <;> grind
  · rw [if_neg hz] at hr
    cases hm : U64.succ? v.major with
    | none => simp [requiredBump, bumpFloor, Predecessor.core, hm, bind, Except.bind] at hr
    | some m =>
      simp only [requiredBump, bumpFloor, Predecessor.core, hm, bind, Except.bind, pure,
        Except.pure, Except.ok.injEq] at hr
      subst hr
      have hlt := hsucc _ _ hm
      have hle := (hfloor _ _ _).1 (of_decide_eq_true hs)
      grind

/-! ### Histories -/

/-- The releases of a package, published one by one. -/
inductive Published [Library] : List Release → Prop
  | nil : Published []
  | publish {published : List Release} {new : Release} (h : Published published)
      (above : ∀ r ∈ published, r.version < new.version)
      (accepted : enforcedSemver published new = .ok ()) : Published (published ++ [new])

/-- What an accepted release has to do with its baseline. -/
theorem enforcedSemver_eq_ok [Library] {published : List Release} {new : Release} :
    enforcedSemver published new = .ok () ↔ (new.version.isPrerelease = false →
      ∀ previous, stableBaseline published new.version = some previous →
        ∃ r, report previous.api new.api previous.version new.version = .ok r ∧
          r.satisfied = true) := by
  unfold enforcedSemver
  by_cases hp : new.version.isPrerelease = true
  · simp [hp]
  · rw [if_neg hp]
    simp only [Bool.not_eq_true] at hp
    simp only [hp, forall_const]
    cases hb : stableBaseline published new.version with
    | none => simp
    | some previous =>
      simp only [Option.some.injEq, forall_eq']
      cases hr : report previous.api new.api previous.version new.version with
      | error overflow => simp
      | ok r => cases hs : r.satisfied <;> simp [hs]

/-- The baseline is the greatest release below the version. -/
theorem exists_stableBaseline [Library] {published : List Release} {version : PublishedVersion} {v : Release}
    (hv : v ∈ published) (hs : v.version.isPrerelease = false) (hlt : v.version < version) :
    ∃ p ∈ published, stableBaseline published version = some p ∧ p.version.isPrerelease = false ∧
      v.version ≤ p.version ∧ p.version < version := by
  unfold stableBaseline
  set below := published.filter fun r => !r.version.isPrerelease && decide (r.version < version)
    with hbelow
  have hmem : ∀ r, r ∈ below ↔
      r ∈ published ∧ r.version.isPrerelease = false ∧ r.version < version := by
    intro r
    simp [hbelow, List.mem_filter]
  have hvb : v ∈ below := (hmem v).2 ⟨hv, hs, hlt⟩
  cases hp : maxBy Release.version below with
  | none => rw [maxBy_eq_none.1 hp] at hvb; cases hvb
  | some p =>
    obtain ⟨l, r, heq, hl, hr⟩ := maxBy_spec hp
    obtain ⟨hpp, hps, hpv⟩ := (hmem p).1 (by rw [heq]; simp)
    refine ⟨p, hpp, rfl, hps, ?_, hpv⟩
    rw [heq, List.mem_append, List.mem_cons] at hvb
    rcases hvb with h | rfl | h
    · exact hl v h
    · exact le_rfl
    · exact (hr v h).le

/-- No version is published twice. -/
theorem Published.eq_of_version [Library] {published : List Release} (h : Published published) {v w : Release}
    (hv : v ∈ published) (hw : w ∈ published) (heq : v.version = w.version) : v = w := by
  induction h with
  | nil => cases hv
  | publish _ above _ ih =>
    rw [List.mem_append, List.mem_singleton] at hv hw
    rcases hv with hv | rfl
    · rcases hw with hw | rfl
      · exact ih hv hw
      · exact absurd heq (above v hv).ne
    · rcases hw with hw | rfl
      · exact absurd heq (above w hw).ne'
      · rfl

/-- Every release passed the rule when it was published. -/
theorem Published.accepted_of_split [Library] {history : List Release} (h : Published history)
    {earlier later : List Release} {new : Release} (hsplit : history = earlier ++ new :: later) :
    enforcedSemver earlier new = .ok () := by
  induction h generalizing later with
  | nil => simp at hsplit
  | publish _ _ accepted ih =>
    rcases List.eq_nil_or_concat' later with rfl | ⟨later, last, rfl⟩
    · obtain ⟨rfl, heq⟩ := List.append_inj' hsplit rfl
      exact (List.cons.inj heq).1 ▸ accepted
    · rw [← List.cons_append, ← List.append_assoc] at hsplit
      exact ih (List.append_inj' hsplit rfl).1

/-- Caret ranges break nothing among these releases. -/
def CaretSafe [Library] (published : List Release) : Prop :=
  ∀ v ∈ published, ∀ w ∈ published, v.version.isPrerelease = false → v.version < w.version →
    caretReq v.version w.version = true → Includes v.api w.api

theorem CaretSafe.publish [Library] {published : List Release} {new : Release} (h : CaretSafe published)
    (hpub : Published published)
    (above : ∀ r ∈ published, r.version < new.version)
    (accepted : enforcedSemver published new = .ok ()) : CaretSafe (published ++ [new]) := by
  intro v hv w hw hvs hlt hc
  rw [List.mem_append, List.mem_singleton] at hv hw
  rcases hv with hv | rfl
  · rcases hw with hw | rfl
    · exact h v hv w hw hvs hlt hc
    · obtain ⟨p, hp, hb, hps, hvp, hpw⟩ := exists_stableBaseline hv hvs hlt
      obtain ⟨hcp, hcw⟩ := caretReq_between hvs hps hvp hpw.le hc
      have hws : w.version.isPrerelease = false := ((Library.caretReq_iff hvs).1 hc).1
      obtain ⟨r, hr, hsat⟩ := enforcedSemver_eq_ok.1 accepted hws p hb
      have hlast := Includes.of_satisfied hps hcw hr hsat
      -- the baseline is the release itself, or above it and included by the invariant
      rcases hvp.lt_or_eq with hlt' | heq
      · exact (h v hv p hp hvs hlt' hcp).trans hlast
      · exact hpub.eq_of_version hv hp heq ▸ hlast
  · rcases hw with hw | rfl
    · exact absurd hlt (above w hw).not_gt
    · exact absurd hlt (lt_irrefl _)

theorem Published.caretSafe [Library] {published : List Release} (h : Published published) :
    CaretSafe published := by
  induction h with
  | nil => exact fun v hv => absurd hv List.not_mem_nil
  | publish h above accepted ih => exact ih.publish h above accepted

/-- In every history, the caret range of a release receives no breaking change, and a floor that
overflows accepts nothing. -/
theorem caret_compatible [Library] {history : List Release} (h : Published history) :
    (∀ v ∈ history, ∀ w ∈ history, v.version.isPrerelease = false →
      w.version.isPrerelease = false → v.version < w.version →
      caretReq v.version w.version = true →
      ∀ c ∈ diffApi v.api w.api, c.compatibility ≠ .breaking) ∧
    ∀ earlier new later previous overflow, history = earlier ++ new :: later →
      new.version.isPrerelease = false → stableBaseline earlier new.version = some previous →
      report previous.api new.api previous.version new.version ≠ .error overflow := by
  constructor
  · intro v hv w hw hvs _ hlt hc c hcm hbreak
    have := diffApi_compatible_iff.2 (h.caretSafe v hv w hw hvs hlt hc) c hcm
    rw [hbreak] at this
    cases this
  · intro earlier new later previous overflow hsplit hs hb herr
    obtain ⟨r, hr, -⟩ := enforcedSemver_eq_ok.1 (h.accepted_of_split hsplit) hs previous hb
    rw [herr] at hr
    cases hr

/-- A module `M` that exports these values of type `Int`. -/
def sampleApi (values : List Str) : PublicApi :=
  ⟨SortedMap.empty.insert [['M']]
    ⟨values.foldl (fun m v => m.insert v "Int".toList) .empty, .empty⟩⟩

theorem sample_caret_compatible :
    Published [⟨⟨1, 0, 0, []⟩, sampleApi [['f']]⟩, ⟨⟨1, 1, 0, []⟩, sampleApi [['f'], ['g']]⟩] ∧
      ApiChange.valueAdded ['M'] ['g'] ∈ diffApi (sampleApi [['f']]) (sampleApi [['f'], ['g']]) ∧
      ∀ c ∈ diffApi (sampleApi [['f']]) (sampleApi [['f'], ['g']]),
        c.compatibility ≠ .breaking := by
  have h : Published [⟨⟨1, 0, 0, []⟩, sampleApi [['f']]⟩,
      ⟨⟨1, 1, 0, []⟩, sampleApi [['f'], ['g']]⟩] :=
    @Published.publish _ [⟨⟨1, 0, 0, []⟩, sampleApi [['f']]⟩] _
      (.publish .nil (by decide) rfl) (by decide) rfl
  refine ⟨h, by decide, ?_⟩
  exact (caret_compatible h).1 ⟨⟨1, 0, 0, []⟩, sampleApi [['f']]⟩ (by simp)
    ⟨⟨1, 1, 0, []⟩, sampleApi [['f'], ['g']]⟩ (by simp) rfl rfl (by decide) rfl

end IpeLang.Package
