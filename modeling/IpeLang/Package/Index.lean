import IpeLang.Lib.SortedMap
import IpeLang.Package.Capability

/-!
# Index entries

`IndexEntry` and `EntryVersion` of `ipe-cli/src/index.rs` with `resolve_version`, which picks a row
of an entry, and `admission_precheck`, which compares a submitted entry with the published one.

The published rows are put into a map by version, so of two rows with one version the later one
counts. `admissionPrecheck_eq_ok` says what an accepted submission satisfies.
-/

namespace IpeLang.Package

open IpeLang.Lib Semver

/-! ### Entries -/

/-- One published version of a package. -/
structure EntryVersion where
  version : PublishedVersion
  source : SourceUrl
  rev : PinnedRev
  sha256 : Sha256Hex
  capabilities : CapabilitySet
  signature : Option SignatureBundle
  deriving DecidableEq

/-- A package and all its published versions, in the order of the file. -/
structure IndexEntry where
  name : PackageName
  publisher : SelfDeclaredPublisher
  versions : List EntryVersion
  deriving DecidableEq

/-- The refusals of the index, with the data that their messages show. -/
inductive IndexError
  | entryTooManyVersions (name : PackageName) (count max : ℕ)
  | entryVersionRewritten (name : PackageName) (version : PublishedVersion)
  | entryVersionDropped (name : PackageName) (version : PublishedVersion)
  | entryVersionDroppedResetRefused (name : PackageName) (version : PublishedVersion)
      (refusal : BlessingRefusal)
  | versionRefused (package : Str) (refusal : VersionRefusal)
  | entrySourceMoved (name : PackageName) (version : PublishedVersion) (source expected : Str)
  | noVersionSatisfies (name : PackageName) (available : List PublishedVersion)
  deriving DecidableEq

/-! ### Resolution -/

/-- The later one of two elements, unless it is less. -/
def better {α β : Type} [LinearOrder β] (key : α → β) (best y : α) : α :=
  if key y < key best then best else y

/-- The last one of the greatest elements of a list. -/
def maxBy {α β : Type} [LinearOrder β] (key : α → β) : List α → Option α
  | [] => none
  | x :: xs => some (xs.foldl (better key) x)

/-- The highest published version that satisfies a requirement. -/
def resolveVersion [Library] (entry : IndexEntry) (req : PublishedVersion → Bool) :
    Except IndexError EntryVersion :=
  match maxBy EntryVersion.version (entry.versions.filter fun v => req v.version) with
  | some v => .ok v
  | none => .error (.noVersionSatisfies entry.name (entry.versions.map EntryVersion.version))

/-! ### Admission -/

/-- The most versions that an entry may list. -/
def MAX_ENTRY_VERSIONS : ℕ := 1024

/-- The first refusal of a check on the elements of a list. -/
def checkEach {α ε : Type} (f : α → Option ε) (xs : List α) : Except ε Unit :=
  match xs.findSome? f with
  | some e => .error e
  | none => .ok ()

/-- The published rows by their version; a later row replaces an earlier one. -/
def byVersion [Library] (rows : List EntryVersion) : SortedMap PublishedVersion EntryVersion :=
  rows.foldl (fun m v => m.insert v.version v) .empty

def baselineByVersion [Library] (baseline : Option IndexEntry) : SortedMap PublishedVersion EntryVersion :=
  byVersion ((baseline.map IndexEntry.versions).getD [])

/-- Whether a submission may drop published versions. -/
def resetAllowed (submitted : IndexEntry) (attested : Option AttestedActor) : Bool :=
  (reservedPackagePrefixOf submitted.name.raw).isSome &&
    match BlessedPublisher.fromAttested attested submitted.publisher with
    | .ok blessed => blessed.vouchesFor submitted.publisher
    | .error _ => false

/-- Why a submission for a reserved name may not drop published versions. -/
def resetRefusal (submitted : IndexEntry) (attested : Option AttestedActor) :
    Option BlessingRefusal :=
  match BlessedPublisher.fromAttested attested submitted.publisher with
  | .ok _ => none
  | .error refusal =>
    if (reservedPackagePrefixOf submitted.name.raw).isSome then some refusal else none

/-- The source that all rows must name: that of the first published row, or of the first submitted
one. -/
def establishedSource (submitted : IndexEntry) (baseline : Option IndexEntry) : Option SourceUrl :=
  ((baseline.bind fun e => e.versions.head?).map EntryVersion.source).or
    (submitted.versions.head?.map EntryVersion.source)

section Checks

variable [Library] (submitted : IndexEntry) (published : SortedMap PublishedVersion EntryVersion)

/-- A version that is published must stay as it is. -/
def checkRewritten (v : EntryVersion) : Option IndexError :=
  match published.get? v.version with
  | some prior =>
    if prior ≠ v then some (.entryVersionRewritten submitted.name v.version) else none
  | none => none

/-- A version that is published must stay. -/
def checkDropped (refusal : Option BlessingRefusal) (version : PublishedVersion) :
    Option IndexError :=
  if (submitted.versions.map EntryVersion.version).contains version then none
  else
    match refusal with
    | none => some (.entryVersionDropped submitted.name version)
    | some refusal => some (.entryVersionDroppedResetRefused submitted.name version refusal)

/-- A version that is new must be above the greatest published one. -/
def checkMonotone (v : EntryVersion) : Option IndexError :=
  if published.contains v.version then none
  else
    match requireSuccessor published.keys.getLast?.toList v.version with
    | .error refusal => some (.versionRefused submitted.name.raw refusal)
    | .ok () => none

/-- A row must name the source of the package. -/
def checkSource (expected : SourceUrl) (v : EntryVersion) : Option IndexError :=
  if v.source.raw ≠ expected.raw then
    some (.entrySourceMoved submitted.name v.version v.source.raw expected.raw)
  else none

end Checks

/-- There are not too many rows. -/
def checkCount (submitted : IndexEntry) : Except IndexError Unit :=
  if MAX_ENTRY_VERSIONS < submitted.versions.length then
    .error (.entryTooManyVersions submitted.name submitted.versions.length MAX_ENTRY_VERSIONS)
  else .ok ()

/-- No published version is dropped, unless the submission may do so. -/
def checkAppendOnly [Library] (submitted : IndexEntry) (attested : Option AttestedActor)
    (published : SortedMap PublishedVersion EntryVersion) : Except IndexError Unit :=
  if resetAllowed submitted attested then .ok ()
  else checkEach (checkDropped submitted (resetRefusal submitted attested)) published.keys

/-- All rows name one source. -/
def checkSources (submitted : IndexEntry) (expected : Option SourceUrl) : Except IndexError Unit :=
  match expected with
  | some expected => checkEach (checkSource submitted expected) submitted.versions
  | none => .ok ()

/-- The checks of a submission that need nothing but the published entry. -/
def admissionPrecheck [Library] (submitted : IndexEntry) (baseline : Option IndexEntry)
    (attested : Option AttestedActor) : Except IndexError Unit := do
  checkCount submitted
  let published := baselineByVersion baseline
  checkEach (checkRewritten submitted published) submitted.versions
  checkAppendOnly submitted attested published
  checkEach (checkMonotone submitted published) submitted.versions
  checkSources submitted (establishedSource submitted baseline)

/-! ### What these functions give -/

section Spec

variable {α β ε : Type} [LinearOrder β] {key : α → β} {f : α → Option ε} {xs : List α} {x : α}

theorem checkEach_eq_ok : checkEach f xs = .ok () ↔ ∀ x ∈ xs, f x = none := by
  unfold checkEach
  cases h : xs.findSome? f with
  | none => simpa using List.findSome?_eq_none_iff.1 h
  | some e =>
    obtain ⟨x, hx, hfx⟩ := List.exists_of_findSome?_eq_some h
    simp only [reduceCtorEq, false_iff, not_forall]
    exact ⟨x, hx, by simp [hfx]⟩

theorem foldl_better (xs : List α) (x : α) : ∃ l r, x :: xs = l ++ xs.foldl (better key) x :: r ∧
    (∀ y ∈ l, key y ≤ key (xs.foldl (better key) x)) ∧
      ∀ y ∈ r, key y < key (xs.foldl (better key) x) := by
  induction xs generalizing x with
  | nil => exact ⟨[], [], rfl, by simp, by simp⟩
  | cons y ys ih =>
    obtain ⟨l, r, heq, hl, hr⟩ := ih (better key x y)
    rw [List.foldl_cons]
    set m := ys.foldl (better key) (better key x y) with hm
    by_cases hlt : key y < key x
    · rw [better, if_pos hlt] at heq
      cases l with
      | nil =>
        obtain ⟨hx, hys⟩ := List.cons.inj heq
        refine ⟨[], y :: r, by rw [hys, List.nil_append, ← hx], by simp, ?_⟩
        exact List.forall_mem_cons.2 ⟨hx ▸ hlt, hr⟩
      | cons x' l =>
        obtain ⟨rfl, hys⟩ := List.cons.inj heq
        obtain ⟨hx, hl⟩ := List.forall_mem_cons.1 hl
        refine ⟨x :: y :: l, r, by rw [hys]; rfl, ?_, hr⟩
        exact List.forall_mem_cons.2 ⟨hx, List.forall_mem_cons.2 ⟨hlt.le.trans hx, hl⟩⟩
    · rw [better, if_neg hlt] at heq
      refine ⟨x :: l, r, by rw [heq]; rfl, ?_, hr⟩
      refine List.forall_mem_cons.2 ⟨?_, hl⟩
      cases l with
      | nil => exact (List.cons.inj heq).1 ▸ not_lt.1 hlt
      | cons y' l =>
        obtain ⟨rfl, -⟩ := List.cons.inj heq
        exact (not_lt.1 hlt).trans (hl y List.mem_cons_self)

/-- `maxBy` gives the last one of the greatest elements. -/
theorem maxBy_spec (h : maxBy key xs = some x) : ∃ l r, xs = l ++ x :: r ∧
    (∀ y ∈ l, key y ≤ key x) ∧ ∀ y ∈ r, key y < key x := by
  cases xs with
  | nil => cases h
  | cons a xs =>
    cases h
    exact foldl_better xs a

theorem maxBy_eq_none : maxBy key xs = none ↔ xs = [] := by
  cases xs <;> simp [maxBy]

end Spec

/-! ### The row of a version -/

/-- The last row of a version. -/
def lastRow (rows : List EntryVersion) (version : PublishedVersion) : Option EntryVersion :=
  (rows.filter fun v => v.version == version).getLast?

section LastRow

variable {rows : List EntryVersion} {version : PublishedVersion} {row : EntryVersion}

theorem lastRow_mem (h : lastRow rows version = some row) : row ∈ rows ∧ row.version = version := by
  simpa using List.mem_filter.1 (List.mem_of_getLast? h)

theorem lastRow_isSome : (lastRow rows version).isSome ↔ ∃ v ∈ rows, v.version = version := by
  have hne : lastRow rows version = none ↔ ¬ ∃ v ∈ rows, v.version = version := by
    unfold lastRow
    rw [List.getLast?_eq_none_iff, List.filter_eq_nil_iff]
    simp
  rw [Option.isSome_iff_ne_none, ne_eq, hne, not_not]

/-- The row that a map of the rows has for a version. -/
theorem get?_byVersion [Library] (rows : List EntryVersion) (version : PublishedVersion) :
    (byVersion rows).get? version = lastRow rows version := by
  unfold byVersion lastRow
  induction rows using List.reverseRecOn with
  | nil => rfl
  | append_singleton rows v ih =>
    rw [List.foldl_append, List.foldl_cons, List.foldl_nil, SortedMap.get?_insert, ih,
      List.filter_append]
    by_cases hv : version = v.version
    · simp [hv]
    · simp [hv, Ne.symm hv]

/-- An exact requirement resolves to the last row of its version. -/
theorem resolveVersion_exact [Library] (entry : IndexEntry) (version : PublishedVersion) :
    resolveVersion entry (exactReq version) = .ok row ↔
      lastRow entry.versions version = some row := by
  unfold resolveVersion lastRow
  have hreq : (entry.versions.filter fun v => exactReq version v.version) =
      entry.versions.filter fun v => v.version == version :=
    List.filter_congr fun v _ => Bool.eq_iff_iff.2 (Library.exactReq_iff.trans beq_iff_eq.symm)
  rw [hreq]
  set rows := entry.versions.filter fun v => v.version == version with hrows
  have hversion : ∀ v ∈ rows, v.version = version := fun v hv => by
    simpa using (List.mem_filter.1 hv).2
  cases hm : maxBy EntryVersion.version rows with
  | none =>
    rw [maxBy_eq_none] at hm
    simp [hm]
  | some best =>
    obtain ⟨l, r, heq, -, hr⟩ := maxBy_spec hm
    -- a row after the best one would have a lower version
    have hnil : r = [] := by
      refine List.eq_nil_iff_forall_not_mem.2 fun v hv => ?_
      have hlt := hr v hv
      rw [hversion v (by simp [heq, hv]), hversion best (by simp [heq])] at hlt
      exact lt_irrefl _ hlt
    subst hnil
    rw [heq, List.getLast?_concat]
    simp

end LastRow

/-! ### What an accepted submission satisfies -/

section Accepted

variable {submitted : IndexEntry} {baseline : Option IndexEntry} {attested : Option AttestedActor}

/-- The published rows. -/
def publishedRows (baseline : Option IndexEntry) : List EntryVersion :=
  (baseline.map IndexEntry.versions).getD []

/-- The conditions under which a submission is accepted. -/
structure Admissible [Library] (submitted : IndexEntry) (baseline : Option IndexEntry)
    (attested : Option AttestedActor) : Prop where
  count : submitted.versions.length ≤ MAX_ENTRY_VERSIONS
  kept : ∀ v ∈ submitted.versions, ∀ prior,
    lastRow (publishedRows baseline) v.version = some prior → v = prior
  appended : resetAllowed submitted attested = false → ∀ v ∈ publishedRows baseline,
    ∃ w ∈ submitted.versions, w.version = v.version
  above : ∀ v ∈ submitted.versions, (∀ w ∈ publishedRows baseline, w.version ≠ v.version) →
    ∀ w ∈ publishedRows baseline, w.version < v.version
  source : ∀ expected, establishedSource submitted baseline = some expected →
    ∀ v ∈ submitted.versions, v.source = expected

theorem SourceUrl.ext_raw {a b : SourceUrl} (h : a.raw = b.raw) : a = b := by
  obtain ⟨a, t, ha⟩ := a
  obtain ⟨b, u, hb⟩ := b
  obtain rfl : a = b := h
  obtain rfl : t = u := by simpa using ha.symm.trans hb
  rfl

theorem mem_keys_byVersion [Library] {rows : List EntryVersion} {version : PublishedVersion} :
    version ∈ (byVersion rows).keys ↔ ∃ v ∈ rows, v.version = version := by
  rw [SortedMap.mem_keys, ← lastRow_isSome, Option.isSome_iff_exists, get?_byVersion]

theorem checkMonotone_eq_none [Library] {rows : List EntryVersion} {v : EntryVersion} :
    checkMonotone submitted (byVersion rows) v = none ↔
      ((∀ w ∈ rows, w.version ≠ v.version) → ∀ w ∈ rows, w.version < v.version) := by
  have hcontains : (byVersion rows).contains v.version = true ↔
      ∃ w ∈ rows, w.version = v.version := by
    rw [SortedMap.contains, get?_byVersion, lastRow_isSome]
  have hsorted := (byVersion rows).keys_sorted
  unfold checkMonotone
  by_cases hc : (byVersion rows).contains v.version = true
  · obtain ⟨w, hw, hv⟩ := hcontains.1 hc
    simp only [hc, if_true, true_iff]
    exact fun h => absurd hv (h w hw)
  · have hnew : ∀ w ∈ rows, w.version ≠ v.version := fun w hw hv => hc (hcontains.2 ⟨w, hw, hv⟩)
    rw [if_neg hc]
    rcases List.eq_nil_or_concat' (byVersion rows).keys with hk | ⟨ks, g, hk⟩
    · have hrows : ∀ w ∈ rows, False := fun w hw => by
        have := mem_keys_byVersion.2 ⟨w, hw, rfl⟩
        simp [hk] at this
      rw [hk]
      simp only [List.getLast?_nil, Option.toList_none, requireSuccessor, List.max?_nil, true_iff]
      exact fun _ w hw => (hrows w hw).elim
    · -- the last key is the greatest version
      have hg : ∀ w ∈ rows, w.version ≤ g := fun w hw => by
        have hmem := mem_keys_byVersion.2 ⟨w, hw, rfl⟩
        rw [hk] at hmem hsorted
        rcases List.mem_append.1 hmem with hmem | hmem
        · exact ((List.pairwise_append.1 hsorted).2.2 _ hmem g (by simp)).le
        · exact (List.mem_singleton.1 hmem).le
      obtain ⟨w, hw, hwg⟩ := mem_keys_byVersion.1 (show g ∈ (byVersion rows).keys by simp [hk])
      rw [hk, List.getLast?_concat]
      simp only [Option.toList_some, requireSuccessor, List.max?_singleton]
      split_ifs with hle
      · simp only [false_iff, not_forall]
        exact ⟨hnew, w, hw, by rw [hwg]; exact not_lt.2 hle⟩
      · simp only [true_iff]
        exact fun _ w' hw' => (hg w' hw').trans_lt (not_le.1 hle)

theorem unit_bind_eq_ok {x y : Except IndexError Unit} :
    (do x; y) = .ok () ↔ x = .ok () ∧ y = .ok () := by
  rcases x with e | ⟨⟩ <;> simp [bind, Except.bind]

theorem checkRewritten_eq_none [Library] {rows : List EntryVersion} {v : EntryVersion} :
    checkRewritten submitted (byVersion rows) v = none ↔
      ∀ prior, lastRow rows v.version = some prior → v = prior := by
  unfold checkRewritten
  rw [get?_byVersion]
  cases lastRow rows v.version with
  | none => simp
  | some prior => simp [eq_comm]

theorem checkAppendOnly_eq_ok [Library] {rows : List EntryVersion} :
    checkAppendOnly submitted attested (byVersion rows) = .ok () ↔
      (resetAllowed submitted attested = false →
        ∀ v ∈ rows, ∃ w ∈ submitted.versions, w.version = v.version) := by
  have hdropped : ∀ refusal version, checkDropped submitted refusal version = none ↔
      ∃ w ∈ submitted.versions, w.version = version := by
    intro refusal version
    unfold checkDropped
    split_ifs with hc
    · simpa using hc
    · have : ¬ ∃ w ∈ submitted.versions, w.version = version := by simpa using hc
      cases refusal <;> simp only [reduceCtorEq, this]
  unfold checkAppendOnly
  split_ifs with hr
  · simp [hr]
  · rw [checkEach_eq_ok]
    simp only [hdropped, mem_keys_byVersion, hr, forall_const]
    simp

theorem checkSources_eq_ok {expected : Option SourceUrl} :
    checkSources submitted expected = .ok () ↔
      ∀ e, expected = some e → ∀ v ∈ submitted.versions, v.source = e := by
  have hsource : ∀ e v, checkSource submitted e v = none ↔ v.source = e := by
    intro e v
    unfold checkSource
    split_ifs with hne
    · exact iff_of_false (by simp) fun h => hne (congrArg SourceUrl.raw h)
    · exact iff_of_true rfl (SourceUrl.ext_raw (not_not.1 hne))
  cases expected with
  | none => simp [checkSources]
  | some e => simp [checkSources, checkEach_eq_ok, hsource]

/-- A submission is accepted exactly under these conditions. -/
theorem admissionPrecheck_eq_ok [Library] :
    admissionPrecheck submitted baseline attested = .ok () ↔
      Admissible submitted baseline attested := by
  have hcount : checkCount submitted = .ok () ↔
      submitted.versions.length ≤ MAX_ENTRY_VERSIONS := by
    unfold checkCount
    split_ifs with h
    · simpa using h
    · simpa using h
  unfold admissionPrecheck
  dsimp only
  rw [unit_bind_eq_ok, unit_bind_eq_ok, unit_bind_eq_ok, unit_bind_eq_ok, hcount, checkEach_eq_ok,
    checkEach_eq_ok, checkSources_eq_ok, baselineByVersion, checkAppendOnly_eq_ok]
  simp only [checkRewritten_eq_none, checkMonotone_eq_none]
  constructor
  · rintro ⟨h₁, h₂, h₃, h₄, h₅⟩
    exact ⟨h₁, h₂, h₃, h₄, h₅⟩
  · rintro ⟨h₁, h₂, h₃, h₄, h₅⟩
    exact ⟨h₁, h₂, h₃, h₄, h₅⟩

end Accepted

end IpeLang.Package
