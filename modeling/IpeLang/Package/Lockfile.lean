import IpeLang.Lib.BinarySearch
import IpeLang.Lib.Machine
import IpeLang.Lib.Tables
import IpeLang.Package.Fields

/-!
# The lockfile

`ipe-cli/src/lockfile.rs`: the packages that a build pins, kept in the order of their names. `parse`
reads the text of a lockfile and `render` writes it; `upsert` and `remove` look a name up with a
binary search.

* `parse_render`: what is written of a lockfile in order is read back;
* `Functional`: along a run of edits, the lockfile is a function from names to pins;
* `functional_iff`: a run from the text of a lockfile is, exactly when no two of its tables name the
  same package.
-/

namespace IpeLang.Package

open IpeLang.Lib Semver

inductive LockError
  | nameInvalid (raw : Str) (refusal : NameRefusal)
  | missingField (field : Str)
  | versionRefused (package : Str) (refusal : VersionRefusal)
  | unknownKind (package : PackageName) (kind : Str)
  | indexDepLocalRev (package : PackageName)
  | unrecordableLocalSource (package : PackageName) (raw : Str)
  | revNotImmutable (package : PackageName) (raw : Str)
  | sourceRefused (package : PackageName) (raw : Str) (refusal : SourceRefusal)
  | sha256Invalid (package : PackageName) (raw : Str)
  deriving DecidableEq

/-! ### Origins -/

/-- What stands for the revision of a local path. -/
def LOCAL_REV : Str := "local".toList

/-- The longest local path, in bytes. -/
def MAX_LOCAL_SOURCE_LEN : ℕ := 4096

/-- Whether a local path can be recorded. -/
def isRecordable (raw : Str) : Bool :=
  !raw.isEmpty && decide (utf8Len raw ≤ MAX_LOCAL_SOURCE_LEN) && !breaksOut raw

/-- The path of a local dependency, as its author wrote it. -/
structure LocalSource where
  raw : Str
  valid : isRecordable raw = true
  deriving DecidableEq

def LocalSource.parse (pkg : PackageName) (raw : Str) : Except LockError LocalSource :=
  if h : isRecordable raw = true then .ok ⟨raw, h⟩
  else .error (.unrecordableLocalSource pkg raw)

@[simp] theorem LocalSource.parse_raw (pkg : PackageName) (source : LocalSource) :
    LocalSource.parse pkg source.raw = .ok source := by
  rw [LocalSource.parse, dif_pos source.valid]

/-- Where a dependency comes from, and the revision that pins it. -/
inductive LockedOrigin
  | index (source : SourceUrl) (rev : PinnedRev)
  | git (source : SourceUrl) (rev : PinnedRev)
  | path (source : LocalSource)
  deriving DecidableEq

namespace LockedOrigin

def INDEX : Str := "index".toList

def ESCAPE : Str := "escape".toList

/-- The fields `source`, `rev` and `kind` of an origin. -/
def fields : LockedOrigin → Str × Str × Str
  | .index source rev => (source.raw, rev.raw, INDEX)
  | .git source rev => (source.raw, rev.raw, ESCAPE)
  | .path source => (source.raw, LOCAL_REV, ESCAPE)

/-- Whether an origin bypasses the index. Without a `kind`, this shows in the version. -/
def isEscape (pkg : PackageName) (version : PublishedVersion) (kind : Option Str) :
    Except LockError Bool :=
  match kind with
  | none => .ok (version == ⟨0, 0, 0, []⟩)
  | some kind =>
    if kind = INDEX then .ok false
    else if kind = ESCAPE then .ok true
    else .error (.unknownKind pkg kind)

/-- Read the fields of an origin. -/
def parse (pkg : PackageName) (version : PublishedVersion) (source rev : Str)
    (kind : Option Str) : Except LockError LockedOrigin := do
  let escape ← isEscape pkg version kind
  if rev = LOCAL_REV then
    if escape then (LocalSource.parse pkg source).map .path else .error (.indexDepLocalRev pkg)
  else do
    let rev ← orError (.revNotImmutable pkg rev) (PinnedRev.parseSha rev)
    let source ← (SourceUrl.parse source).mapError (.sourceRefused pkg source)
    return if escape then .git source rev else .index source rev

end LockedOrigin

/-- A locked dependency. -/
structure LockedDep where
  name : PackageName
  version : PublishedVersion
  origin : LockedOrigin
  sha256 : Sha256Hex
  deriving DecidableEq

/-- The locked dependencies. -/
structure Lockfile where
  packages : List LockedDep := []
  deriving DecidableEq

/-! ### Reading -/

/-- What starts a table of a dependency. -/
def PACKAGE_HEADER : Str := "[[package]]".toList

/-- The fields of a table, as they are found. -/
structure RawLocked where
  name : Option Str := none
  version : Option Str := none
  source : Option Str := none
  rev : Option Str := none
  sha256 : Option Str := none
  kind : Option Str := none
  deriving DecidableEq

/-- A field replaces an earlier one with its key. -/
def RawLocked.set (record : RawLocked) (key value : Str) : RawLocked :=
  if key = "name".toList then { record with name := some value }
  else if key = "version".toList then { record with version := some value }
  else if key = "source".toList then { record with source := some value }
  else if key = "rev".toList then { record with rev := some value }
  else if key = "sha256".toList then { record with sha256 := some value }
  else if key = "kind".toList then { record with kind := some value }
  else record

/-- The dependency of a table. -/
def RawLocked.intoDep [Library] (raw : RawLocked) : Except LockError LockedDep := do
  let missing : Str → LockError := .missingField
  let rawName ← orError (missing "name".toList) raw.name
  let name ← (PackageName.parse rawName).mapError (.nameInvalid rawName)
  let versionStr ← orError (missing "version".toList) raw.version
  let version ← (PublishedVersion.parse versionStr).mapError (.versionRefused name.raw)
  let source ← orError (missing "source".toList) raw.source
  let rev ← orError (missing "rev".toList) raw.rev
  let origin ← LockedOrigin.parse name version source rev raw.kind
  let rawSha256 ← orError (missing "sha256".toList) raw.sha256
  let sha256 ← orError (.sha256Invalid name rawSha256) (Sha256Hex.parse rawSha256)
  return ⟨name, version, origin, sha256⟩

/-- What the reader has found so far, and the table that it is in. -/
structure LockScan where
  packages : List LockedDep := []
  current : Option RawLocked := none
  deriving DecidableEq

/-- The dependencies with the one of the table that ends. -/
def LockScan.flush [Library] (s : LockScan) : Except LockError (List LockedDep) :=
  match s.current with
  | none => .ok s.packages
  | some raw => do
    let dep ← raw.intoDep
    return s.packages ++ [dep]

def LockScan.step [Library] (s : LockScan) : TableLine → Except LockError LockScan
  | .skip => .ok s
  | .table => do
    let packages ← s.flush
    return ⟨packages, some {}⟩
  | .other => do
    let packages ← s.flush
    return ⟨packages, none⟩
  | .field key value => .ok { s with current := s.current.map (·.set key (unquote value)) }

/-- The dependencies in the order of their names. -/
def byName (packages : List LockedDep) : List LockedDep :=
  packages.mergeSort fun a b => decide (a.name ≤ b.name)

/-- Read the text of a lockfile. -/
def parse [Library] (text : Str) : Except LockError Lockfile := do
  let scan ← (tableLines PACKAGE_HEADER text).foldlM LockScan.step {}
  let packages ← scan.flush
  return ⟨byName packages⟩

namespace Lockfile

/-! ### Writing -/

/-- The comment at the start of a lockfile. -/
def PREAMBLE : List Str :=
  ["# ipe.lock — resolved dependencies, pinned for a reproducible build.".toList,
    "# Generated by `ipe add`; do not edit by hand.".toList]

/-- The lines of a dependency. -/
def depLines [Library] (dep : LockedDep) : List Str :=
  let (source, rev, kind) := dep.origin.fields
  [[], PACKAGE_HEADER, fieldLine "name".toList (quote dep.name.raw),
    fieldLine "version".toList (quote (display dep.version)),
    fieldLine "source".toList (quote source), fieldLine "rev".toList (quote rev),
    fieldLine "sha256".toList (quote dep.sha256.raw), fieldLine "kind".toList (quote kind)]

def render [Library] (l : Lockfile) : Str := unlines (PREAMBLE ++ (byName l.packages).flatMap depLines)

/-! ### Edits -/

/-- The order of two texts. -/
def strCmp (a b : Str) : Ordering := if a < b then .lt else if b < a then .gt else .eq

/-- Insert a dependency, or put it in the place of one with its name. -/
def upsert (l : Lockfile) (dep : LockedDep) : Lockfile :=
  match binarySearchBy l.packages fun p => strCmp p.name.raw dep.name.raw with
  | .found index => ⟨l.packages.set index dep⟩
  | .absent index => ⟨l.packages.insertIdx index dep⟩

/-- Remove the dependency of this name, and tell whether there was one. -/
def remove (l : Lockfile) (name : Str) : Bool × Lockfile :=
  match binarySearchBy l.packages fun p => strCmp p.name.raw name with
  | .found index => (true, ⟨l.packages.eraseIdx index⟩)
  | .absent _ => (false, l)

end Lockfile

/-! ### What is written is read back -/

section Order

variable {packages : List LockedDep}

theorem byName_perm (packages : List LockedDep) : (byName packages).Perm packages :=
  List.mergeSort_perm packages _

theorem byName_pairwise (packages : List LockedDep) :
    (byName packages).Pairwise fun p q => p.name ≤ q.name := by
  have hle : (byName packages).Pairwise fun p q => decide (p.name ≤ q.name) = true :=
    List.pairwise_mergeSort (fun a b c hab hbc => by
      rw [decide_eq_true_eq] at hab hbc ⊢
      exact hab.trans hbc) (fun a b => by simpa using le_total a.name b.name) packages
  exact hle.imp of_decide_eq_true

theorem byName_of_pairwise (h : packages.Pairwise fun p q => p.name ≤ q.name) :
    byName packages = packages := List.mergeSort_of_pairwise (h.imp decide_eq_true)

end Order

/-- The fields of the table of a dependency. -/
def rawOfDep [Library] (dep : LockedDep) : RawLocked :=
  ⟨some dep.name.raw, some (display dep.version), some dep.origin.fields.1,
    some dep.origin.fields.2.1, some dep.sha256.raw, some dep.origin.fields.2.2⟩

theorem PinnedRev.raw_ne_local (rev : PinnedRev) : rev.raw ≠ LOCAL_REV := by
  intro h
  have hvalid := rev.valid
  rw [h] at hvalid
  cases hvalid

theorem LockedOrigin.parse_fields (pkg : PackageName) (version : PublishedVersion)
    (origin : LockedOrigin) :
    LockedOrigin.parse pkg version origin.fields.1 origin.fields.2.1 (some origin.fields.2.2) =
      .ok origin := by
  have hindex : isEscape pkg version (some INDEX) = .ok false := rfl
  have hescape : isEscape pkg version (some ESCAPE) = .ok true := rfl
  unfold LockedOrigin.parse
  cases origin with
  | index source rev =>
    simp only [fields, hindex, rev.raw_ne_local, orError, PinnedRev.parseSha_raw,
      SourceUrl.parse_raw, Except.mapError, bind, Except.bind, pure, Except.pure, if_false,
      Bool.false_eq_true]
  | git source rev =>
    simp only [fields, hescape, rev.raw_ne_local, orError, PinnedRev.parseSha_raw,
      SourceUrl.parse_raw, Except.mapError, bind, Except.bind, pure, Except.pure, if_false,
      if_true]
  | path source =>
    simp only [fields, hescape, bind, Except.bind, if_true, LocalSource.parse_raw, Except.map]

theorem intoDep_rawOfDep [Library] (dep : LockedDep) : (rawOfDep dep).intoDep = .ok dep := by
  have hversion : PublishedVersion.parse (display dep.version) = .ok dep.version := by
    simp [PublishedVersion.parse, parse_display]
  unfold RawLocked.intoDep rawOfDep
  simp only [orError, hversion, PackageName.parse_raw, LockedOrigin.parse_fields,
    Sha256Hex.parse_raw, Except.mapError, bind, Except.bind, pure, Except.pure]

theorem isLine_depLines [Library] (dep : LockedDep) : ∀ l ∈ Lockfile.depLines dep, IsLine l := by
  have hdisplay : '\n' ∉ display dep.version := fun hmem => by
    cases Library.display_chars _ _ hmem
  have hsource : '\n' ∉ dep.origin.fields.1 := by
    cases dep.origin with
    | index source _ => exact source.not_mem_raw
    | git source _ => exact source.not_mem_raw
    | path source =>
      intro hmem
      have hbreak : breaksOut source.raw = true := List.any_eq_true.2 ⟨_, hmem, rfl⟩
      have hvalid := source.valid
      simp [isRecordable, hbreak] at hvalid
  have hrev : '\n' ∉ dep.origin.fields.2.1 := by
    cases dep.origin with
    | index _ rev => exact not_mem_of_isHex rev.valid
    | git _ rev => exact not_mem_of_isHex rev.valid
    | path _ => exact (by decide : '\n' ∉ LOCAL_REV)
  have hkind : '\n' ∉ dep.origin.fields.2.2 := by
    cases dep.origin with
    | index _ _ => exact (by decide : '\n' ∉ LockedOrigin.INDEX)
    | _ => exact (by decide : '\n' ∉ LockedOrigin.ESCAPE)
  intro l hl
  unfold Lockfile.depLines at hl
  simp only [List.mem_cons, List.not_mem_nil, or_false] at hl
  rcases hl with rfl | rfl | rfl | rfl | rfl | rfl | rfl | rfl
  · exact ⟨List.not_mem_nil, by simp⟩
  · decide
  · exact isLine_quote (by decide) dep.name.not_mem_raw
  · exact isLine_quote (by decide) hdisplay
  · exact isLine_quote (by decide) hsource
  · exact isLine_quote (by decide) hrev
  · exact isLine_quote (by decide) (not_mem_of_isHex dep.sha256.valid)
  · exact isLine_quote (by decide) hkind

/-- The reader makes one record of the table of a dependency. -/
theorem scan_depLines [Library] {s : LockScan} {packages : List LockedDep} (h : s.flush = .ok packages)
    (dep : LockedDep) :
    ((Lockfile.depLines dep).map (TableLine.read PACKAGE_HEADER)).foldlM LockScan.step s =
      .ok ⟨packages, some (rawOfDep dep)⟩ := by
  have hheader : TableLine.read PACKAGE_HEADER PACKAGE_HEADER = .table := by decide
  have hname := @read_quote PACKAGE_HEADER "name".toList dep.name.raw rfl (by decide)
  have hversion := @read_quote PACKAGE_HEADER "version".toList (display dep.version) rfl (by decide)
  have hsource := @read_quote PACKAGE_HEADER "source".toList dep.origin.fields.1 rfl (by decide)
  have hrev := @read_quote PACKAGE_HEADER "rev".toList dep.origin.fields.2.1 rfl (by decide)
  have hsha256 := @read_quote PACKAGE_HEADER "sha256".toList dep.sha256.raw rfl (by decide)
  have hkind := @read_quote PACKAGE_HEADER "kind".toList dep.origin.fields.2.2 rfl (by decide)
  unfold Lockfile.depLines rawOfDep
  simp only [List.map_cons, List.map_nil, List.foldlM_cons, List.foldlM_nil, read_nil, hheader,
    hname, hversion, hsource, hrev, hsha256, hkind, LockScan.step, h, bind, Except.bind, pure,
    Except.pure, Option.map_some, unquote_quote]
  simp [RawLocked.set]

theorem scan_deps [Library] {s : LockScan} {packages : List LockedDep} (h : s.flush = .ok packages)
    (deps : List LockedDep) :
    ∃ s', ((deps.flatMap Lockfile.depLines).map (TableLine.read PACKAGE_HEADER)).foldlM
      LockScan.step s = .ok s' ∧ s'.flush = .ok (packages ++ deps) := by
  induction deps generalizing s packages with
  | nil => exact ⟨s, rfl, by rw [h, List.append_nil]⟩
  | cons dep deps ih =>
    have hflush : LockScan.flush ⟨packages, some (rawOfDep dep)⟩ = .ok (packages ++ [dep]) := by
      unfold LockScan.flush
      simp only [intoDep_rawOfDep]
      rfl
    obtain ⟨s', hrest, hs'⟩ := ih hflush
    refine ⟨s', ?_, by rw [hs', List.append_assoc]; rfl⟩
    rw [List.flatMap_cons, List.map_append, List.foldlM_append, scan_depLines h]
    exact hrest

/-- What is written of a lockfile in order is read back. -/
theorem parse_render [Library] {l : Lockfile} (h : l.packages.Pairwise fun p q => p.name ≤ q.name) :
    parse l.render = .ok l := by
  have hlines : ∀ line ∈ Lockfile.PREAMBLE ++ l.packages.flatMap Lockfile.depLines,
      IsLine line := by
    intro line hl
    rcases List.mem_append.1 hl with hl | hl
    · rcases List.mem_pair.1 hl with rfl | rfl
      · decide
      · decide
    · obtain ⟨dep, -, hl⟩ := List.mem_flatMap.1 hl
      exact isLine_depLines dep line hl
  have hpreamble : (Lockfile.PREAMBLE.map (TableLine.read PACKAGE_HEADER)).foldlM LockScan.step {} =
      .ok {} := by
    rfl
  have hflush : LockScan.flush {} = .ok [] := rfl
  obtain ⟨s', hscan, hs'⟩ := scan_deps hflush l.packages
  unfold parse Lockfile.render
  rw [byName_of_pairwise h, tableLines_unlines hlines, List.map_append, List.foldlM_append,
    hpreamble]
  simp only [hscan, hs', bind, Except.bind, pure, Except.pure, List.nil_append,
    byName_of_pairwise h]

/-! ### Edits in a strict order -/

open Lockfile (strCmp)

/-- No name is there twice, and the names are in order. -/
def Lockfile.Sorted (l : Lockfile) : Prop := l.packages.Pairwise fun p q => p.name < q.name

/-- An update of a lockfile. -/
inductive Edit
  | upsert (dep : LockedDep)
  | remove (name : Str)
  deriving DecidableEq

/-- Apply an update; a removal tells whether there was something to remove. -/
def edit (l : Lockfile) : Edit → Option Bool × Lockfile
  | .upsert dep => (none, l.upsert dep)
  | .remove name => (some (l.remove name).1, (l.remove name).2)

/-- The update did what it is for, and left the other dependencies alone. -/
def Done (m : Move Lockfile Edit (Option Bool)) : Prop :=
  match m.input with
  | .upsert dep =>
    m.after.packages.filter (fun p => p.name = dep.name) = [dep] ∧
      m.after.packages.filter (fun p => p.name ≠ dep.name) =
        m.before.packages.filter fun p => p.name ≠ dep.name
  | .remove name =>
    (∀ p ∈ m.after.packages, p.name.raw ≠ name) ∧
      m.after.packages = m.before.packages.filter (fun p => p.name.raw ≠ name) ∧
      m.output = some (m.before.packages.any fun p => p.name.raw = name)

section Edits

variable {l : Lockfile} {a b : Str}

theorem strCmp_eq_lt : strCmp a b = .lt ↔ a < b := by
  unfold strCmp
  split_ifs with h h' <;> simp [h]

theorem strCmp_eq_gt : strCmp a b = .gt ↔ b < a := by
  unfold strCmp
  split_ifs with h h'
  · simpa using h.le
  · simpa using h'
  · simpa using h'

theorem strCmp_eq_eq : strCmp a b = .eq ↔ a = b := by
  unfold strCmp
  split_ifs with h h'
  · simpa using h.ne
  · simpa using h'.ne'
  · simpa using le_antisymm (not_lt.1 h') (not_lt.1 h)

/-- The dependencies before and after the place of a name. -/
structure Around (name : Str) (left right : List LockedDep) : Prop where
  left : ∀ p ∈ left, p.name.raw < name
  right : ∀ p ∈ right, name < p.name.raw

theorem Lockfile.Sorted.cut (h : l.Sorted) (name : Str) :
    ∃ left right, Around name left right ∧
      ((l.packages = left ++ right ∧
          binarySearchBy l.packages (fun p => strCmp p.name.raw name) = .absent left.length) ∨
        ∃ p, l.packages = left ++ p :: right ∧ p.name.raw = name ∧
          binarySearchBy l.packages (fun p => strCmp p.name.raw name) = .found left.length) := by
  have hgraded : Graded (fun p : LockedDep => strCmp p.name.raw name) l.packages := by
    refine List.Pairwise.imp (fun {p q} hpq => ?_) h
    have hlt : p.name.raw < q.name.raw := hpq
    rw [strCmp_eq_lt, strCmp_eq_lt, strCmp_eq_gt, strCmp_eq_gt]
    exact ⟨hlt.trans, fun h => h.trans hlt⟩
  cases hs : binarySearchBy l.packages (fun p => strCmp p.name.raw name) with
  | found i =>
    obtain ⟨left, p, right, heq, rfl, hp⟩ := found_spec hs
    obtain rfl : p.name.raw = name := strCmp_eq_eq.1 hp
    unfold Lockfile.Sorted at h
    rw [heq, List.pairwise_append, List.pairwise_cons] at h
    obtain ⟨-, ⟨hright, -⟩, hleft⟩ := h
    exact ⟨left, right, ⟨fun q hq => hleft q hq p List.mem_cons_self, hright⟩,
      Or.inr ⟨p, heq, rfl, rfl⟩⟩
  | absent i =>
    obtain ⟨left, right, heq, rfl, hleft, hright⟩ := absent_spec hs hgraded
    exact ⟨left, right, ⟨fun p hp => strCmp_eq_lt.1 (hleft p hp),
      fun p hp => strCmp_eq_gt.1 (hright p hp)⟩, Or.inl ⟨heq, rfl⟩⟩

variable {name : Str} {left right : List LockedDep}

/-- The dependencies of other names. -/
theorem Around.filter (h : Around name left right) {packages : List LockedDep}
    (heq : packages = left ++ right ∨ ∃ p, packages = left ++ p :: right ∧ p.name.raw = name) :
    packages.filter (fun p => p.name.raw ≠ name) = left ++ right := by
  have hl : left.filter (fun p => p.name.raw ≠ name) = left :=
    List.filter_eq_self.2 fun p hp => by simpa using (h.left p hp).ne
  have hr : right.filter (fun p => p.name.raw ≠ name) = right :=
    List.filter_eq_self.2 fun p hp => by simpa using (h.right p hp).ne'
  rcases heq with rfl | ⟨p, rfl, hp⟩
  · rw [List.filter_append, hl, hr]
  · rw [List.filter_append, List.filter_cons_of_neg (by simpa using hp), hl, hr]

theorem insertIdx_append {α : Type} (l r : List α) (a : α) :
    (l ++ r).insertIdx l.length a = l ++ a :: r := by
  induction l with
  | nil => rfl
  | cons b l ih => rw [List.cons_append, List.length_cons, List.insertIdx_succ_cons, ih]; rfl

theorem Lockfile.Sorted.upsert_eq (h : l.Sorted) (dep : LockedDep) :
    ∃ left right, Around dep.name.raw left right ∧ (l.upsert dep).packages = left ++ dep :: right ∧
      l.packages.filter (fun p => p.name.raw ≠ dep.name.raw) = left ++ right := by
  obtain ⟨left, right, har, ⟨heq, hs⟩ | ⟨p, heq, hp, hs⟩⟩ := h.cut dep.name.raw
  · refine ⟨left, right, har, ?_, har.filter (Or.inl heq)⟩
    unfold Lockfile.upsert
    rw [hs]
    show l.packages.insertIdx left.length dep = _
    rw [heq]
    exact insertIdx_append left right dep
  · refine ⟨left, right, har, ?_, har.filter (Or.inr ⟨p, heq, hp⟩)⟩
    unfold Lockfile.upsert
    rw [hs]
    show l.packages.set left.length dep = _
    rw [heq, List.set_append_right _ _ le_rfl]
    simp

theorem Lockfile.Sorted.remove_eq (h : l.Sorted) (name : Str) :
    (l.remove name).2.packages = l.packages.filter (fun p => p.name.raw ≠ name) ∧
      (l.remove name).1 = l.packages.any fun p => p.name.raw = name := by
  obtain ⟨left, right, har, ⟨heq, hs⟩ | ⟨p, heq, hp, hs⟩⟩ := h.cut name
  · unfold Lockfile.remove
    rw [hs, har.filter (Or.inl heq)]
    refine ⟨heq, Eq.symm (List.any_eq_false.2 fun q hq => ?_)⟩
    rw [heq, List.mem_append] at hq
    rcases hq with hq | hq
    · simpa using (har.left q hq).ne
    · simpa using (har.right q hq).ne'
  · unfold Lockfile.remove
    rw [hs, har.filter (Or.inr ⟨p, heq, hp⟩)]
    constructor
    · show l.packages.eraseIdx left.length = _
      rw [heq, List.eraseIdx_append_of_length_le le_rfl]
      simp
    · refine Eq.symm (List.any_eq_true.2 ⟨p, ?_, by simpa using hp⟩)
      rw [heq]
      simp

/-- An edit keeps the order and does what it is for. -/
theorem Lockfile.Sorted.edit (h : l.Sorted) (e : Edit) :
    (Package.edit l e).2.Sorted ∧ Done (moveOf Package.edit l e) := by
  have hsub : ∀ name : Str, (l.packages.filter fun p => p.name.raw ≠ name).Pairwise
      fun p q => p.name < q.name := fun name => h.sublist List.filter_sublist
  have hname : ∀ n m : PackageName, n = m ↔ n.raw = m.raw := fun n m =>
    PackageName.raw_injective.eq_iff.symm
  cases e with
  | upsert dep =>
    obtain ⟨left, right, har, hup, hrest⟩ := h.upsert_eq dep
    have hpair := hsub dep.name.raw
    rw [hrest, List.pairwise_append] at hpair
    obtain ⟨hl, hr, hlr⟩ := hpair
    constructor
    · show (l.upsert dep).packages.Pairwise fun p q => p.name < q.name
      rw [hup, List.pairwise_append, List.pairwise_cons]
      refine ⟨hl, ⟨har.right, hr⟩, fun p hp q hq => ?_⟩
      rcases List.mem_cons.1 hq with rfl | hq
      · exact har.left p hp
      · exact hlr p hp q hq
    · show (l.upsert dep).packages.filter (fun p => p.name = dep.name) = [dep] ∧
        (l.upsert dep).packages.filter (fun p => p.name ≠ dep.name) =
          l.packages.filter fun p => p.name ≠ dep.name
      simp only [ne_eq, hname]
      have hother := har.filter (Or.inr ⟨dep, hup, rfl⟩)
      refine ⟨?_, hother.trans hrest.symm⟩
      rw [hup, List.filter_append, List.filter_cons_of_pos (by simp)]
      rw [List.filter_eq_nil_iff.2 fun p hp => by simpa using (har.left p hp).ne,
        List.filter_eq_nil_iff.2 fun p hp => by simpa using (har.right p hp).ne']
      rfl
  | remove name =>
    obtain ⟨hpackages, hany⟩ := h.remove_eq name
    constructor
    · show (l.remove name).2.packages.Pairwise fun p q => p.name < q.name
      rw [hpackages]
      exact hsub name
    · refine ⟨fun p hp => ?_, hpackages, congrArg some hany⟩
      have hmem : p ∈ (l.remove name).2.packages := hp
      rw [hpackages, List.mem_filter] at hmem
      simpa using hmem.2

end Edits

/-! ### Runs of edits -/

/-- The names are in strict order, and the text of the lockfile gives the lockfile. -/
structure Sound [Library] (l : Lockfile) : Prop where
  sorted : l.Sorted
  parse_render : parse l.render = .ok l

/-- Along these edits, the lockfile is a function from names to pins. -/
def Functional [Library] (l : Lockfile) (edits : List Edit) : Prop :=
  Sound l ∧ ∀ m ∈ moves edit l edits, Done m ∧ Sound m.after

theorem Lockfile.Sorted.sound [Library] {l : Lockfile} (h : l.Sorted) : Sound l :=
  ⟨h, Package.parse_render (h.imp le_of_lt)⟩

theorem Lockfile.Sorted.functional [Library] {l : Lockfile} (h : l.Sorted) (edits : List Edit) :
    Functional l edits := by
  refine ⟨h.sound, ?_⟩
  induction edits generalizing l with
  | nil => simp
  | cons e edits ih =>
    obtain ⟨hnext, hdone⟩ := h.edit e
    rw [moves_cons, List.forall_mem_cons]
    exact ⟨⟨hdone, hnext.sound⟩, ih hnext⟩

/-! ### The names of the tables -/

/-- The names that tables give, if any; `current` is the table that the lines are in, with its name
so far. -/
def namesFrom (current : Option (Option Str)) : List TableLine → List (Option Str)
  | [] => current.toList
  | .skip :: ls => namesFrom current ls
  | .table :: ls => current.toList ++ namesFrom (some none) ls
  | .other :: ls => current.toList ++ namesFrom none ls
  | .field key value :: ls =>
    namesFrom (if key = "name".toList then current.map fun _ => some (unquote value) else current)
      ls

/-- The name of each table of a text: what its last `name` field says. -/
def tableNames (text : Str) : List (Option Str) :=
  namesFrom none (tableLines PACKAGE_HEADER text)

theorem name_of_intoDep [Library] {raw : RawLocked} {dep : LockedDep} (h : raw.intoDep = .ok dep) :
    raw.name = some dep.name.raw := by
  unfold RawLocked.intoDep at h
  dsimp only at h
  obtain ⟨rawName, hraw, h⟩ := except_bind_eq_ok.1 h
  obtain ⟨name, hname, h⟩ := except_bind_eq_ok.1 h
  iterate 7
    obtain ⟨_, -, h⟩ := except_bind_eq_ok.1 h
  cases h
  rw [orError_eq_ok.1 hraw, PackageName.raw_of_parse (mapError_eq_ok.1 hname)]

theorem flush_names [Library] {s : LockScan} {packages : List LockedDep} (h : s.flush = .ok packages) :
    packages.map (fun p => some p.name.raw) =
      s.packages.map (fun p => some p.name.raw) ++ (s.current.map RawLocked.name).toList := by
  unfold LockScan.flush at h
  cases hc : s.current with
  | none =>
    simp only [hc, Except.ok.injEq] at h
    simp [h]
  | some raw =>
    simp only [hc] at h
    obtain ⟨dep, hdep, h⟩ := except_bind_eq_ok.1 h
    cases h
    simp [name_of_intoDep hdep]

theorem name_set (raw : RawLocked) (key value : Str) :
    (raw.set key value).name = if key = "name".toList then some value else raw.name := by
  unfold RawLocked.set
  split_ifs <;> rfl

/-- The names that were found are those of the tables. -/
theorem scan_names [Library] {ls : List TableLine} {s s' : LockScan} {packages : List LockedDep}
    (h : ls.foldlM LockScan.step s = .ok s') (hflush : s'.flush = .ok packages) :
    packages.map (fun p => some p.name.raw) =
      s.packages.map (fun p => some p.name.raw) ++
        namesFrom (s.current.map RawLocked.name) ls := by
  induction ls generalizing s with
  | nil =>
    cases h
    exact flush_names hflush
  | cons line ls ih =>
    obtain ⟨s₁, hstep, hrest⟩ := except_bind_eq_ok.1 (by rwa [List.foldlM_cons] at h)
    have hnext := ih hrest
    cases line with
    | skip =>
      cases hstep
      exact hnext
    | field key value =>
      cases hstep
      have hname : (s.current.map fun raw => raw.set key (unquote value)).map RawLocked.name =
          if key = "name".toList then
            (s.current.map RawLocked.name).map fun _ => some (unquote value)
          else s.current.map RawLocked.name := by
        cases s.current with
        | none => simp
        | some raw =>
          simp only [Option.map_some, name_set]
          split_ifs <;> rfl
      rw [hnext, namesFrom, ← hname]
    | table =>
      obtain ⟨packages₁, hf, hs⟩ := except_bind_eq_ok.1 hstep
      cases hs
      rw [hnext, flush_names hf, List.append_assoc]
      rfl
    | other =>
      obtain ⟨packages₁, hf, hs⟩ := except_bind_eq_ok.1 hstep
      cases hs
      rw [hnext, flush_names hf, List.append_assoc]
      rfl

/-- The text of a lockfile in strict order names no package twice. -/
theorem sorted_iff_of_parse [Library] {text : Str} {l : Lockfile} (h : parse text = .ok l) :
    l.Sorted ↔ (tableNames text).Nodup := by
  obtain ⟨scan, hscan, h⟩ := except_bind_eq_ok.1 h
  obtain ⟨packages, hflush, h⟩ := except_bind_eq_ok.1 h
  cases h
  have hnames : packages.map (fun p => some p.name.raw) = tableNames text :=
    scan_names hscan hflush
  have hperm : ((byName packages).map fun p => some p.name.raw).Perm (tableNames text) :=
    hnames ▸ (byName_perm packages).map _
  have hinj : Function.Injective fun n : PackageName => some n.raw :=
    (Option.some_injective _).comp PackageName.raw_injective
  have hnodup : (tableNames text).Nodup ↔ ((byName packages).map LockedDep.name).Nodup := by
    rw [← hperm.nodup_iff, ← List.nodup_map_iff hinj, List.map_map]
    rfl
  rw [hnodup]
  show (byName packages).Pairwise (fun p q => p.name < q.name) ↔ _
  constructor
  · intro hs
    exact List.pairwise_map.2 (hs.imp ne_of_lt)
  · intro hn
    exact (byName_pairwise packages).imp₂ (fun p q hle hne => lt_of_le_of_ne hle hne)
      (List.pairwise_map.1 hn)

/-- A run from the empty lockfile is a function from names to pins all along, and a run from the
text of a lockfile is, exactly when no two tables of the text name the same package. -/
theorem functional_iff [Library] {text : Str} {l : Lockfile} (h : parse text = .ok l) (edits : List Edit) :
    Functional {} edits ∧ (Functional l edits ↔ (tableNames text).Nodup) := by
  constructor
  · have hempty : Lockfile.Sorted {} := List.Pairwise.nil
    exact hempty.functional edits
  · rw [← sorted_iff_of_parse h]
    exact ⟨fun hf => hf.1.sorted, fun hs => hs.functional edits⟩

/-! ### Two lockfiles -/

/-- The dependency `pin` of a version, from a local path with spaces around it. -/
def pinOf (minor : U64) : LockedDep where
  name := ⟨"pin".toList, rfl⟩
  version := ⟨0, minor, 0, []⟩
  origin := .path ⟨" = # [ ".toList, rfl⟩
  sha256 := ⟨List.replicate 64 'f', rfl⟩

/-- A run from the text of a lockfile with one table. -/
theorem pin_functional :
    Functional {} [.upsert (pinOf 2), .remove "pin".toList] ∧
      (Functional ⟨[pinOf 1]⟩ [.upsert (pinOf 2), .remove "pin".toList] ↔
        (tableNames (Lockfile.render ⟨[pinOf 1]⟩)).Nodup) := by
  have hparse : parse (Lockfile.render ⟨[pinOf 1]⟩) = .ok ⟨[pinOf 1]⟩ :=
    parse_render (List.pairwise_singleton _ _)
  exact functional_iff hparse _

/-- The text of a lockfile with two tables of one name is accepted, and after the removal of that
name there is still a dependency of it. -/
theorem pin_survives_removal :
    ∃ text l, parse text = .ok l ∧ ¬ l.Sorted ∧
      ∃ p ∈ (l.remove "pin".toList).2.packages, p.name.raw = "pin".toList := by
  have hparse : parse (Lockfile.render ⟨[pinOf 1, pinOf 2]⟩) = .ok ⟨[pinOf 1, pinOf 2]⟩ :=
    parse_render (by simp [pinOf])
  refine ⟨_, _, hparse, by simp [Lockfile.Sorted, pinOf], ?_⟩
  have hsearch : binarySearchBy [pinOf 1, pinOf 2]
      (fun p => strCmp p.name.raw "pin".toList) = .found 1 := by
    simp [binarySearchBy, narrow, pinOf, strCmp]
  refine ⟨pinOf 1, ?_, rfl⟩
  unfold Lockfile.remove
  rw [hsearch]
  simp

end IpeLang.Package
