import IpeLang.Lib.Tables
import IpeLang.Package.Admission

/-!
# The text of an index entry

`parse_entry` of `ipe-cli/src/index.rs` reads what `render_entry` of `ipe-cli/src/publish.rs`
writes: a header with the publisher and one `[[version]]` table for each row.

* `parseEntry_renderEntry`: the text of rows with different versions is read back, rows in order;
* `parseEntry_oneLine`: every entry that is read can be written;
* `mergeIntoEntry` adds a row, and `published_agrees` says that admission accepts the outcome.
-/

namespace IpeLang.Package

open IpeLang.Lib Semver

/-- What starts a table of a row. -/
def VERSION_HEADER : Str := "[[version]]".toList

inductive EntryError
  | missingPublisher (name : PackageName)
  | publisherNotLogin (name : PackageName) (refusal : LoginRefusal)
  | noVersions (name : PackageName)
  | missingField (name : PackageName) (field : Str)
  | versionRefused (package : Str) (refusal : VersionRefusal)
  | sourceRefused (name : PackageName) (raw : Str) (refusal : SourceRefusal)
  | revNotImmutable (name : PackageName) (raw : Str)
  | sha256Invalid (name : PackageName) (raw : Str)
  | capabilitiesNotArray (name : PackageName) (raw : Str)
  | capabilityUnknown (name : PackageName) (token : Str)
  | signatureRefused (package : Str) (refusal : SignatureRefusal)
  deriving DecidableEq

/-! ### Reading -/

/-- The fields of a table, as they are found. -/
structure RawVersion where
  version : Option Str := none
  source : Option Str := none
  rev : Option Str := none
  sha256 : Option Str := none
  capabilities : Option Str := none
  signature : Option Str := none
  deriving DecidableEq

/-- A field replaces an earlier one with its key. -/
def RawVersion.set (record : RawVersion) (key value : Str) : RawVersion :=
  if key = "version".toList then { record with version := some (unquote value) }
  else if key = "source".toList then { record with source := some (unquote value) }
  else if key = "rev".toList then { record with rev := some (unquote value) }
  else if key = "sha256".toList then { record with sha256 := some (unquote value) }
  else if key = "capabilities".toList then { record with capabilities := some value }
  else if key = "signature".toList then { record with signature := some (unquote value) }
  else record

/-- A text without this character at its two ends. -/
def trimMatches (c : Char) (s : Str) : Str := (s.dropWhile (· == c)).rdropWhile (· == c)

/-- Read an element of the array of capabilities. -/
def addCapability (name : PackageName) (set : CapabilitySet) (token : Str) :
    Except EntryError CapabilitySet :=
  let token := trimMatches '"' (trim token)
  if token.isEmpty then .ok set
  else
    match Capability.fromStr token with
    | some cap => .ok (insert cap set)
    | none => .error (.capabilityUnknown name token)

def parseCapabilities (name : PackageName) (raw : Option Str) : Except EntryError CapabilitySet :=
  match raw with
  | none => .ok ∅
  | some raw =>
    match ((trim raw).dropPrefix? ['[']).bind fun r => r.dropSuffix? [']'] with
    | none => .error (.capabilitiesNotArray name raw)
    | some inner => (inner.splitOn ',').foldlM (addCapability name) ∅

section Read

variable [Library] (json : Str → Except Str Bool)

def parseSignature (name : PackageName) :
    Option Str → Except EntryError (Option SignatureBundle)
  | none => .ok none
  | some raw => ((SignatureBundle.parse json raw).map some).mapError (.signatureRefused name.raw)

/-- The row of a table. -/
def RawVersion.intoVersion (name : PackageName) (raw : RawVersion) :
    Except EntryError EntryVersion := do
  let missing : Str → EntryError := .missingField name
  let versionStr ← orError (missing "version".toList) raw.version
  let version ← (PublishedVersion.parse versionStr).mapError (.versionRefused name.raw)
  let rawSource ← orError (missing "source".toList) raw.source
  let rawRev ← orError (missing "rev".toList) raw.rev
  let rawSha256 ← orError (missing "sha256".toList) raw.sha256
  let source ← (SourceUrl.parse rawSource).mapError (.sourceRefused name rawSource)
  let rev ← orError (.revNotImmutable name rawRev) (PinnedRev.parseSha rawRev)
  let sha256 ← orError (.sha256Invalid name rawSha256) (Sha256Hex.parse rawSha256)
  let capabilities ← parseCapabilities name raw.capabilities
  let signature ← parseSignature json name raw.signature
  return ⟨version, source, rev, sha256, capabilities, signature⟩

/-- What the reader has found so far, and the index of the table that it is in. -/
structure EntryScan where
  publisher : Option Str := none
  versions : List RawVersion := []
  current : Option ℕ := none
  deriving DecidableEq

def EntryScan.step (s : EntryScan) : TableLine → EntryScan
  | .skip => s
  | .table => { s with versions := s.versions ++ [{}], current := some s.versions.length }
  | .other => { s with current := none }
  | .field key value =>
    match s.current with
    | none =>
      if key = "publisher".toList then { s with publisher := some (unquote value) } else s
    | some idx => { s with versions := s.versions.modify idx (·.set key value) }

def scanEntry (text : Str) : EntryScan :=
  (tableLines VERSION_HEADER text).foldl EntryScan.step {}

/-- Read the text of an entry file. -/
def parseEntry (name : PackageName) (text : Str) : Except EntryError IndexEntry := do
  let scan := scanEntry text
  let claimed ← orError (.missingPublisher name) scan.publisher
  let publisher ← (SelfDeclaredPublisher.parse claimed).mapError (.publisherNotLogin name)
  if scan.versions.isEmpty then .error (.noVersions name)
  else do
    let versions ← scan.versions.mapM (RawVersion.intoVersion json name)
    return ⟨name, publisher, versions⟩

end Read

/-! ### Writing -/

def renderCapabilities (capabilities : CapabilitySet) : Str :=
  '[' :: ", ".toList.intercalate (capabilities.iter.map fun c => quote c.asStr) ++ [']']

/-- The lines of the table of a row. -/
def versionLines [Library] (version : EntryVersion) : List Str :=
  [VERSION_HEADER, fieldLine "version".toList (quote (display version.version)),
    fieldLine "source".toList (quote version.source.raw),
    fieldLine "rev".toList (quote version.rev.raw),
    fieldLine "sha256".toList (quote version.sha256.raw),
    fieldLine "capabilities".toList (renderCapabilities version.capabilities)] ++
  (version.signature.map fun sig => fieldLine "signature".toList (quote sig.raw)).toList

def renderEntryVersion [Library] (version : EntryVersion) : Str := unlines (versionLines version)

/-- The rows in ascending order. -/
def ordered [Library] (versions : List EntryVersion) : List EntryVersion :=
  versions.mergeSort fun a b => decide (a.version ≤ b.version)

/-- The text of an entry file. -/
def renderEntry [Library] (name publisher : Str) (versions : List EntryVersion) : Str :=
  unlines [fieldLine "name".toList (quote name), fieldLine "publisher".toList (quote publisher)] ++
    (ordered versions).flatMap fun v => '\n' :: renderEntryVersion v

inductive PublishError
  | entry (error : EntryError)
  | duplicateVersion (name : Str) (version : PublishedVersion)
  | versionRefused (name : Str) (refusal : VersionRefusal)
  deriving DecidableEq

section Merge

variable [Library] (json : Str → Except Str Bool) (file : Option Str) (name : PackageName)

/-- The entry in a file, if there is one. -/
def readExisting : Except PublishError (Option IndexEntry) :=
  match file with
  | none => .ok none
  | some text => ((parseEntry json name text).map some).mapError .entry

/-- Add a row to the entry in a file and write the outcome. -/
def mergeIntoEntry (publisher : Str) (newVersion : EntryVersion) : Except PublishError Str := do
  let existing ← readExisting json file name
  let versions := publishedRows existing
  if versions.any fun v => v.version == newVersion.version then
    .error (.duplicateVersion name.raw newVersion.version)
  else do
    (requireSuccessor (versions.map EntryVersion.version) newVersion.version).mapError
      (.versionRefused name.raw)
    return renderEntry name.raw publisher (versions ++ [newVersion])

end Merge

/-! ### The array of capabilities -/

section Capabilities

variable {name : PackageName}

theorem trimMatches_quote {c : Capability} : trimMatches '"' (quote c.asStr) = c.asStr := by
  have hne : ∀ a ∈ c.asStr, (a == '"') = false := by
    intro a ha
    rcases Capability.isNameChar_of_mem_asStr ha with h | rfl
    · rw [beq_eq_false_iff_ne]
      rintro rfl
      cases h
    · rfl
  obtain ⟨a, s, hs⟩ := List.exists_cons_of_ne_nil c.asStr_ne_nil
  have hdrop : (quote c.asStr).dropWhile (· == '"') = c.asStr ++ ['"'] := by
    rw [hs] at hne ⊢
    simp [quote, hne a List.mem_cons_self]
  unfold trimMatches
  rw [hdrop, List.rdropWhile_concat_pos _ _ _ (by decide)]
  exact rdropWhile_eq_self fun a ha => hne a (List.mem_of_getLast? ha)

theorem addCapability_quote {token : Str} {c : Capability} (h : trim token = quote c.asStr)
    (set : CapabilitySet) : addCapability name set token = .ok (insert c set) := by
  unfold addCapability
  rw [h, trimMatches_quote]
  dsimp only
  rw [if_neg (by simpa using c.asStr_ne_nil), Capability.fromStr_asStr]

theorem foldlM_addCapability {f : Capability → Str} (hf : ∀ c, trim (f c) = quote c.asStr)
    (cs : List Capability) (set : CapabilitySet) :
    (cs.map f).foldlM (addCapability name) set = .ok (cs.toFinset ∪ set) := by
  induction cs generalizing set with
  | nil => simp; rfl
  | cons c cs ih =>
    rw [List.map_cons, List.foldlM_cons, addCapability_quote (hf c)]
    have hset : cs.toFinset ∪ insert c set = (c :: cs).toFinset ∪ set := by
      rw [List.toFinset_cons, Finset.union_insert, Finset.insert_union]
    exact hset ▸ ih (insert c set)

/-- A separator of two characters, cut at the first one. -/
theorem splitOn_intercalate_pair {ts : List Str} (h : ∀ t ∈ ts, ',' ∉ t) {t : Str} (ht : ',' ∉ t) :
    (", ".toList.intercalate (t :: ts)).splitOn ',' = t :: ts.map (' ' :: ·) := by
  have hone : ∀ t : Str,
      ", ".toList.intercalate (t :: ts) = [','].intercalate (t :: ts.map (' ' :: ·)) := by
    induction ts with
    | nil => intro t; simp
    | cons u ts ih =>
      intro t
      rw [List.map_cons, List.intercalate_cons_cons, List.intercalate_cons_cons,
        ih (fun t ht => h t (List.mem_cons_of_mem u ht)) u]
      cases ts <;> simp [List.intercalate_cons_cons]
  rw [hone]
  refine List.splitOn_intercalate ',' ?_ (by simp)
  intro u hu
  rcases List.mem_cons.1 hu with rfl | hu
  · exact ht
  · obtain ⟨v, hv, rfl⟩ := List.mem_map.1 hu
    simpa using h v hv

theorem not_comma_mem_quote (c : Capability) : ',' ∉ quote c.asStr := by
  have hname : ',' ∉ c.asStr := fun h => by
    rcases Capability.isNameChar_of_mem_asStr h with h | h <;> cases h
  simpa [quote] using hname

theorem trimmed_renderCapabilities (set : CapabilitySet) : Trimmed (renderCapabilities set) := by
  constructor
  · intro c hc
    cases hc
    rfl
  · intro c hc
    have hlast : (renderCapabilities set).getLast? = some ']' := List.getLast?_concat
    cases hlast.symm.trans hc
    rfl

theorem parseCapabilities_render (set : CapabilitySet) :
    parseCapabilities name (some (renderCapabilities set)) = .ok set := by
  set inner := ", ".toList.intercalate (set.iter.map fun c => quote c.asStr) with hinner
  have hp : (renderCapabilities set).dropPrefix? ['['] = some (inner ++ [']']) := by
    simp [renderCapabilities, List.dropPrefix?, hinner]
  have hs : (inner ++ [']']).dropSuffix? [']'] = some inner :=
    List.dropSuffix?_eq_some_iff.2 ⟨[']'], rfl, by simp⟩
  have hfold : (inner.splitOn ',').foldlM (addCapability name) ∅ =
      .ok (set.iter.toFinset ∪ ∅) := by
    cases hcs : set.iter with
    | nil =>
      rw [hinner, hcs]
      rfl
    | cons c cs =>
      rw [hinner, hcs, List.map_cons, splitOn_intercalate_pair _ (not_comma_mem_quote c),
        List.foldlM_cons, addCapability_quote (trimmed_quote _).trim_eq, List.map_map]
      · have hset : (c :: cs).toFinset ∪ ∅ = cs.toFinset ∪ insert c ∅ := by
          rw [List.toFinset_cons, Finset.union_empty, Finset.union_insert, Finset.union_empty]
        rw [hset]
        exact foldlM_addCapability (fun c => trim_value (trimmed_quote _)) cs (insert c ∅)
      · intro t ht
        obtain ⟨c, -, rfl⟩ := List.mem_map.1 ht
        exact not_comma_mem_quote c
  unfold parseCapabilities
  dsimp only
  rw [(trimmed_renderCapabilities set).trim_eq, hp, Option.bind_some, hs]
  dsimp only
  rw [hfold, Finset.union_empty, CapabilitySet.toFinset_iter]

end Capabilities

/-! ### One table -/

/-- The fields of the table of a row. -/
def rawOf [Library] (v : EntryVersion) : RawVersion :=
  ⟨some (display v.version), some v.source.raw, some v.rev.raw, some v.sha256.raw,
    some (renderCapabilities v.capabilities), v.signature.map SignatureBundle.raw⟩

/-- The signature of a row, if there is one, is a bundle on one line. -/
def OneLine (json : Str → Except Str Bool) (v : EntryVersion) : Prop :=
  ∀ sig, v.signature = some sig → SignatureBundle.parse json sig.raw = .ok sig ∧ '\n' ∉ sig.raw

section Table

variable [Library] {json : Str → Except Str Bool} {name : PackageName} {v : EntryVersion}

omit [Library] in
theorem parseSignature_raw (h : OneLine json v) :
    parseSignature json name (v.signature.map SignatureBundle.raw) = .ok v.signature := by
  cases hsig : v.signature with
  | none => rfl
  | some sig => simp [parseSignature, (h sig hsig).1, Except.map, Except.mapError]

theorem intoVersion_rawOf (h : OneLine json v) : (rawOf v).intoVersion json name = .ok v := by
  have hversion : PublishedVersion.parse (display v.version) = .ok v.version := by
    simp [PublishedVersion.parse, parse_display]
  unfold RawVersion.intoVersion rawOf
  simp only [orError, hversion, SourceUrl.parse_raw, PinnedRev.parseSha_raw, Sha256Hex.parse_raw,
    parseCapabilities_render, parseSignature_raw h, Except.mapError, bind, Except.bind, pure,
    Except.pure]

omit [Library] in
theorem modify_concat {α : Type} (l : List α) (a : α) (f : α → α) :
    (l ++ [a]).modify l.length f = l ++ [f a] := by
  induction l with
  | nil => rfl
  | cons b l ih => rw [List.cons_append, List.length_cons, List.modify_succ_cons, ih]; rfl

/-- The reader makes one record of the table of a row. -/
theorem scan_versionLines (s : EntryScan) (v : EntryVersion) :
    (([] :: versionLines v).map (TableLine.read VERSION_HEADER)).foldl EntryScan.step s =
      ⟨s.publisher, s.versions ++ [rawOf v], some s.versions.length⟩ := by
  have hheader : TableLine.read VERSION_HEADER VERSION_HEADER = .table := by decide
  have hcaps : TableLine.read VERSION_HEADER
      (fieldLine "capabilities".toList (renderCapabilities v.capabilities)) =
      .field "capabilities".toList (renderCapabilities v.capabilities) :=
    read_field (by decide) (by simp [renderCapabilities]) (trimmed_renderCapabilities _) rfl
  have hversion := @read_quote VERSION_HEADER "version".toList (display v.version) rfl (by decide)
  have hsource := @read_quote VERSION_HEADER "source".toList v.source.raw rfl (by decide)
  have hrev := @read_quote VERSION_HEADER "rev".toList v.rev.raw rfl (by decide)
  have hsha256 := @read_quote VERSION_HEADER "sha256".toList v.sha256.raw rfl (by decide)
  have hsignature := fun sig : SignatureBundle =>
    @read_quote VERSION_HEADER "signature".toList sig.raw rfl (by decide)
  unfold versionLines rawOf
  simp only [List.map_cons, List.map_append, List.foldl_cons, List.foldl_append, List.map_nil,
    List.foldl_nil, read_nil, hheader, hversion, hsource, hrev, hsha256, hcaps, EntryScan.step,
    modify_concat]
  cases v.signature with
  | none => simp [RawVersion.set]
  | some sig =>
    simp only [Option.map_some, Option.toList_some, List.map_cons, List.map_nil, List.foldl_cons,
      List.foldl_nil, hsignature, EntryScan.step, modify_concat]
    simp [RawVersion.set]

end Table

/-! ### The whole text -/

section Entry

variable [Library] {json : Str → Except Str Bool} {name : PackageName} {publisher : SelfDeclaredPublisher}
  {vs : List EntryVersion}

theorem ordered_perm (vs : List EntryVersion) : (ordered vs).Perm vs := List.mergeSort_perm vs _

/-- Rows of different versions are in strictly ascending order. -/
theorem ordered_pairwise (h : vs.Pairwise fun v w => v.version ≠ w.version) :
    (ordered vs).Pairwise fun v w => v.version < w.version := by
  have hle : (ordered vs).Pairwise fun v w => decide (v.version ≤ w.version) = true :=
    List.pairwise_mergeSort (fun a b c hab hbc => by
      rw [decide_eq_true_eq] at hab hbc ⊢
      exact hab.trans hbc) (fun a b => by simpa using le_total a.version b.version) vs
  have hne : (ordered vs).Pairwise fun v w => v.version ≠ w.version :=
    (ordered_perm vs).symm.pairwise h fun hab => hab.symm
  refine hle.imp₂ (fun v w hvw hne => ?_) hne
  exact lt_of_le_of_ne (of_decide_eq_true hvw) hne

/-- The lines of an entry file. -/
def entryLines (name publisher : Str) (vs : List EntryVersion) : List Str :=
  [fieldLine "name".toList (quote name), fieldLine "publisher".toList (quote publisher)] ++
    vs.flatMap fun v => [] :: versionLines v

theorem renderEntry_eq (name publisher : Str) :
    renderEntry name publisher vs = unlines (entryLines name publisher (ordered vs)) := by
  unfold renderEntry entryLines renderEntryVersion
  rw [unlines_append]
  congr 1
  induction ordered vs with
  | nil => rfl
  | cons v vs ih =>
    rw [List.flatMap_cons, List.flatMap_cons, unlines_append, ih]
    rfl

theorem isLine_versionLines {v : EntryVersion} (h : OneLine json v) :
    ∀ l ∈ versionLines v, IsLine l := by
  have hdisplay : '\n' ∉ display v.version := fun hmem => by
    cases Library.display_chars _ _ hmem
  have hcaps : '\n' ∉ renderCapabilities v.capabilities := by
    intro hmem
    unfold renderCapabilities at hmem
    simp only [List.mem_append, List.mem_cons, List.not_mem_nil, or_false] at hmem
    rcases hmem with (h | h) | h
    · cases h
    · rcases mem_of_mem_intercalate h with h | ⟨l, hl, h⟩
      · exact absurd h (by decide)
      · obtain ⟨c, -, rfl⟩ := List.mem_map.1 hl
        have hname : '\n' ∈ c.asStr := by simpa [quote] using h
        rcases Capability.isNameChar_of_mem_asStr hname with h | h <;> cases h
    · cases h
  intro l hl
  unfold versionLines at hl
  rcases List.mem_append.1 hl with hl | hl
  · simp only [List.mem_cons, List.not_mem_nil, or_false] at hl
    rcases hl with rfl | rfl | rfl | rfl | rfl | rfl
    · decide
    · exact isLine_quote (by decide) hdisplay
    · exact isLine_quote (by decide) v.source.not_mem_raw
    · exact isLine_quote (by decide) (not_mem_of_isHex v.rev.valid)
    · exact isLine_quote (by decide) (not_mem_of_isHex v.sha256.valid)
    · exact isLine_fieldLine (by decide) hcaps (trimmed_renderCapabilities _)
  · cases hsig : v.signature with
    | none => simp [hsig] at hl
    | some sig =>
      simp only [hsig, Option.map_some, Option.toList_some, List.mem_singleton] at hl
      subst hl
      exact isLine_quote (by decide) (h sig hsig).2

theorem scan_versions (s : EntryScan) (vs : List EntryVersion) :
    ∃ current, ((vs.flatMap fun v => [] :: versionLines v).map
      (TableLine.read VERSION_HEADER)).foldl EntryScan.step s =
      ⟨s.publisher, s.versions ++ vs.map rawOf, current⟩ := by
  induction vs generalizing s with
  | nil => exact ⟨s.current, by simp⟩
  | cons v vs ih =>
    obtain ⟨current, hrest⟩ := ih ⟨s.publisher, s.versions ++ [rawOf v], some s.versions.length⟩
    refine ⟨current, ?_⟩
    rw [List.flatMap_cons, List.map_append, List.foldl_append, scan_versionLines, hrest]
    simp

theorem scanEntry_renderEntry (h : ∀ v ∈ vs, OneLine json v) :
    ∃ current, scanEntry (renderEntry name.raw publisher.raw vs) =
      ⟨some publisher.raw, (ordered vs).map rawOf, current⟩ := by
  have hlines : ∀ l ∈ entryLines name.raw publisher.raw (ordered vs), IsLine l := by
    intro l hl
    unfold entryLines at hl
    rcases List.mem_append.1 hl with hl | hl
    · simp only [List.mem_cons, List.not_mem_nil, or_false] at hl
      rcases hl with rfl | rfl
      · exact isLine_quote (by decide) name.not_mem_raw
      · exact isLine_quote (by decide) (not_mem_of_checkLoginShape publisher.valid)
    · obtain ⟨v, hv, hl⟩ := List.mem_flatMap.1 hl
      rcases List.mem_cons.1 hl with rfl | hl
      · exact ⟨List.not_mem_nil, by simp⟩
      · exact isLine_versionLines (h v ((ordered_perm vs).subset hv)) l hl
  obtain ⟨current, hscan⟩ := scan_versions ⟨some publisher.raw, [], none⟩ (ordered vs)
  refine ⟨current, ?_⟩
  rw [renderEntry_eq, scanEntry, tableLines_unlines hlines, entryLines, List.map_append,
    List.foldl_append]
  have hname := @read_quote VERSION_HEADER "name".toList name.raw rfl (by decide)
  have hpublisher := @read_quote VERSION_HEADER "publisher".toList publisher.raw rfl (by decide)
  have hhead : ([fieldLine "name".toList (quote name.raw),
      fieldLine "publisher".toList (quote publisher.raw)].map
        (TableLine.read VERSION_HEADER)).foldl EntryScan.step {} =
      ⟨some publisher.raw, [], none⟩ := by
    simp only [List.map_cons, List.map_nil, hname, hpublisher, List.foldl_cons, List.foldl_nil]
    simp [EntryScan.step]
  rw [hhead, hscan]
  rfl

theorem mapM_rawOf (h : ∀ v ∈ vs, OneLine json v) :
    (vs.map rawOf).mapM (RawVersion.intoVersion json name) = .ok vs := by
  induction vs with
  | nil => rfl
  | cons v vs ih =>
    obtain ⟨hv, hvs⟩ := List.forall_mem_cons.1 h
    rw [List.map_cons, List.mapM_cons, intoVersion_rawOf hv, ih hvs]
    rfl

/-- What is written of an entry is read back, with its rows in order. -/
theorem parseEntry_renderEntry (hne : vs ≠ []) (h : ∀ v ∈ vs, OneLine json v) :
    parseEntry json name (renderEntry name.raw publisher.raw vs) =
      .ok ⟨name, publisher, ordered vs⟩ := by
  obtain ⟨current, hscan⟩ := @scanEntry_renderEntry _ json name publisher vs h
  have hempty : ((ordered vs).map rawOf).isEmpty = false := by
    rw [List.isEmpty_eq_false_iff, ne_eq, List.map_eq_nil_iff]
    exact fun hnil => hne (List.perm_nil.1 (hnil ▸ (ordered_perm vs).symm))
  have hmap : ((ordered vs).map rawOf).mapM (RawVersion.intoVersion json name) =
      .ok (ordered vs) := mapM_rawOf fun v hv => h v ((ordered_perm vs).subset hv)
  unfold parseEntry
  rw [hscan]
  simp only [orError, SelfDeclaredPublisher.parse_raw, Except.mapError, hempty, hmap, bind,
    Except.bind, pure, Except.pure, Bool.false_eq_true, if_false]

/-- What is written of an entry without rows is refused. -/
theorem parseEntry_renderEntry_nil :
    parseEntry json name (renderEntry name.raw publisher.raw []) = .error (.noVersions name) := by
  have hnone : ∀ v ∈ ([] : List EntryVersion), OneLine json v := by simp
  obtain ⟨current, hscan⟩ := @scanEntry_renderEntry _ json name publisher [] hnone
  have hordered : ordered [] = [] := List.mergeSort_nil
  unfold parseEntry
  rw [hscan, hordered]
  simp only [orError, SelfDeclaredPublisher.parse_raw, Except.mapError, bind, Except.bind,
    List.map_nil, List.isEmpty_nil, if_true]

end Entry

/-! ### Entries that were read -/

section Parsed

variable [Library] {json : Str → Except Str Bool} {name : PackageName} {text : Str}

/-- No signature that was found has a line break. -/
def Unbroken (s : EntryScan) : Prop :=
  ∀ raw ∈ s.versions, ∀ sig, raw.signature = some sig → '\n' ∉ sig

omit [Library] in
theorem Unbroken.step {s : EntryScan} (h : Unbroken s) {line : TableLine}
    (hline : ∀ key value, line = .field key value → '\n' ∉ value) : Unbroken (s.step line) := by
  cases line with
  | skip => exact h
  | other => exact h
  | table =>
    intro raw hraw sig hsig
    rcases List.mem_append.1 hraw with hraw | hraw
    · exact h raw hraw sig hsig
    · rw [List.mem_singleton.1 hraw] at hsig
      cases hsig
  | field key value =>
    cases hc : s.current with
    | none =>
      unfold EntryScan.step
      simp only [hc]
      split_ifs <;> exact h
    | some idx =>
      intro raw hraw sig hsig
      simp only [EntryScan.step, hc] at hraw
      obtain ⟨i, hi⟩ := List.mem_iff_getElem?.1 hraw
      rw [List.getElem?_modify] at hi
      obtain ⟨raw', hraw', heq⟩ := Option.map_eq_some_iff.1 hi
      have hold := h raw' (List.mem_of_getElem? hraw')
      split_ifs at heq with hidx
      · -- only a signature field touches the signature
        subst heq
        unfold RawVersion.set at hsig
        split_ifs at hsig
        all_goals first
          | exact hold sig hsig
          | (cases hsig; exact fun hmem => hline key value rfl (unquote_subset value hmem))
      · exact hold sig (heq ▸ hsig)

omit [Library] in
theorem unbroken_scanEntry (text : Str) : Unbroken (scanEntry text) := by
  have hfold : ∀ (ls : List TableLine) (s : EntryScan), Unbroken s →
      (∀ key value, TableLine.field key value ∈ ls → '\n' ∉ value) →
      Unbroken (ls.foldl EntryScan.step s) := by
    intro ls
    induction ls with
    | nil => exact fun s h _ => h
    | cons line ls ih =>
      intro s h hls
      refine ih _ (h.step fun key value heq => ?_) fun key value hmem => ?_
      · exact hls key value (heq ▸ List.mem_cons_self)
      · exact hls key value (List.mem_cons_of_mem line hmem)
  refine hfold _ _ (fun raw hraw => ?_) fun key value => not_mem_of_field
  cases hraw

theorem oneLine_of_intoVersion {raw : RawVersion} {v : EntryVersion}
    (h : raw.intoVersion json name = .ok v) (hraw : ∀ sig, raw.signature = some sig → '\n' ∉ sig) :
    OneLine json v := by
  have hsig : parseSignature json name raw.signature = .ok v.signature := by
    unfold RawVersion.intoVersion at h
    dsimp only at h
    iterate 9
      obtain ⟨_, -, h⟩ := except_bind_eq_ok.1 h
    obtain ⟨sig, hsig, h⟩ := except_bind_eq_ok.1 h
    cases h
    exact hsig
  intro sig heq
  rw [heq] at hsig
  cases hr : raw.signature with
  | none =>
    rw [hr] at hsig
    cases hsig
  | some text =>
    rw [hr] at hsig
    unfold parseSignature at hsig
    rw [mapError_eq_ok] at hsig
    cases hp : SignatureBundle.parse json text with
    | error e =>
      rw [hp] at hsig
      cases hsig
    | ok b =>
      rw [hp] at hsig
      cases hsig
      refine ⟨SignatureBundle.parse_raw hp, fun hmem => hraw text hr ?_⟩
      rw [SignatureBundle.raw_of_parse hp] at hmem
      exact trim_subset text hmem

/-- Every row that was read can be written. -/
theorem parseEntry_oneLine {entry : IndexEntry} (h : parseEntry json name text = .ok entry) :
    ∀ v ∈ entry.versions, OneLine json v := by
  unfold parseEntry at h
  dsimp only at h
  obtain ⟨claimed, -, h⟩ := except_bind_eq_ok.1 h
  obtain ⟨publisher, -, h⟩ := except_bind_eq_ok.1 h
  split_ifs at h
  obtain ⟨versions, hmap, h⟩ := except_bind_eq_ok.1 h
  cases h
  intro v hv
  obtain ⟨raw, hraw, hinto⟩ := exists_of_mem_mapM hmap hv
  exact oneLine_of_intoVersion hinto (unbroken_scanEntry text raw hraw)

end Parsed

/-! ### Adding a row -/

section Merged

variable [Library] {json : Str → Except Str Bool} {name : PackageName} {file : Option Str}
  {publisher : SelfDeclaredPublisher} {new : EntryVersion} {existing : Option IndexEntry} {text : Str}

/-- What it means that a row was added. -/
theorem mergeIntoEntry_eq_ok (hread : readExisting json file name = .ok existing)
    (h : mergeIntoEntry json file name publisher.raw new = .ok text) :
    (∀ v ∈ publishedRows existing, v.version ≠ new.version) ∧
      (∀ v ∈ publishedRows existing, v.version < new.version) ∧
      text = renderEntry name.raw publisher.raw (publishedRows existing ++ [new]) := by
  unfold mergeIntoEntry at h
  rw [hread] at h
  obtain ⟨_, hok, h⟩ := except_bind_eq_ok.1 h
  cases hok
  dsimp only at h
  split_ifs at h with hdup
  obtain ⟨_, hsucc, h⟩ := except_bind_eq_ok.1 h
  rw [mapError_eq_ok] at hsucc
  cases h
  have hne : ∀ v ∈ publishedRows existing, v.version ≠ new.version := by
    intro v hv heq
    exact hdup (List.any_eq_true.2 ⟨v, hv, by simpa using heq⟩)
  refine ⟨hne, fun v hv => ?_, rfl⟩
  unfold requireSuccessor at hsucc
  have hmem : v.version ∈ (publishedRows existing).map EntryVersion.version :=
    List.mem_map_of_mem hv
  cases hmax : ((publishedRows existing).map EntryVersion.version).max? with
  | none =>
    rw [List.max?_eq_none_iff.1 hmax] at hmem
    cases hmem
  | some greatest =>
    simp only [hmax] at hsucc
    split_ifs at hsucc with hle
    exact ((List.max?_eq_some_iff.1 hmax).2 _ hmem).trans_lt (not_le.1 hle)

theorem readExisting_oneLine (hread : readExisting json file name = .ok existing) :
    ∀ v ∈ publishedRows existing, OneLine json v := by
  intro v hv
  cases file with
  | none =>
    cases hread
    cases hv
  | some text =>
    unfold readExisting at hread
    dsimp only at hread
    rw [mapError_eq_ok] at hread
    cases hp : parseEntry json name text with
    | error e =>
      rw [hp] at hread
      cases hread
    | ok entry =>
      rw [hp] at hread
      cases hread
      exact parseEntry_oneLine hp v hv

/-- An entry with one more row is admissible. -/
theorem admissible_added (hdist : (publishedRows existing).Pairwise fun v w => v.version ≠ w.version)
    (hcount : (publishedRows existing).length < MAX_ENTRY_VERSIONS)
    (hsource : ∀ v ∈ publishedRows existing, v.source = new.source)
    (hne : ∀ v ∈ publishedRows existing, v.version ≠ new.version)
    (hlt : ∀ v ∈ publishedRows existing, v.version < new.version) (attested : Option AttestedActor) :
    Admissible ⟨name, publisher, ordered (publishedRows existing ++ [new])⟩ existing attested := by
  have hmem : ∀ v, v ∈ ordered (publishedRows existing ++ [new]) ↔
      v ∈ publishedRows existing ∨ v = new := by
    intro v
    rw [(ordered_perm _).mem_iff, List.mem_append, List.mem_singleton]
  have hsame : ∀ v ∈ ordered (publishedRows existing ++ [new]), v.source = new.source := by
    intro v hv
    rcases (hmem v).1 hv with hv | rfl
    · exact hsource v hv
    · rfl
  constructor
  · show (ordered (publishedRows existing ++ [new])).length ≤ MAX_ENTRY_VERSIONS
    rw [(ordered_perm _).length_eq, List.length_append, List.length_singleton]
    omega
  · intro v hv prior hprior
    obtain ⟨hp, hpv⟩ := lastRow_mem hprior
    rcases (hmem v).1 hv with hv | rfl
    · -- two published rows of one version are one row
      by_contra hvp
      have : Std.Symm fun v w : EntryVersion => v.version ≠ w.version := ⟨fun _ _ h => h.symm⟩
      exact hdist.forall hv hp hvp hpv.symm
    · exact absurd hpv (hne prior hp)
  · intro _ v hv
    exact ⟨v, (hmem v).2 (Or.inl hv), rfl⟩
  · intro v hv hnew w hw
    rcases (hmem v).1 hv with hv | rfl
    · exact absurd rfl (hnew v hv)
    · exact hlt w hw
  · intro expected hexp v hv
    rw [hsame v hv]
    have hhead : ∀ o : Option EntryVersion, (∀ w ∈ o, w.source = new.source) →
        ∀ e ∈ o.map EntryVersion.source, e = new.source := by
      intro o ho e he
      obtain ⟨w, hw, rfl⟩ := Option.map_eq_some_iff.1 he
      exact ho w hw
    unfold establishedSource at hexp
    rcases Option.or_eq_some_iff.1 hexp with hexp | ⟨-, hexp⟩
    · cases existing with
      | none => cases hexp
      | some entry =>
        exact (hhead _ (fun w hw => hsource w (List.mem_of_head? hw)) expected hexp).symm
    · exact (hhead _ (fun w hw => hsame w (List.mem_of_head? hw)) expected hexp).symm

theorem mergeIntoEntry_added (hread : readExisting json file name = .ok existing)
    (hany : ((publishedRows existing).any fun v => v.version == new.version) = false)
    (hsucc : requireSuccessor ((publishedRows existing).map EntryVersion.version) new.version =
      .ok ()) :
    mergeIntoEntry json file name publisher.raw new =
      .ok (renderEntry name.raw publisher.raw (publishedRows existing ++ [new])) := by
  unfold mergeIntoEntry
  simp only [hread, hany, hsucc, bind, Except.bind, pure, Except.pure, Except.mapError,
    Bool.false_eq_true, if_false]

end Merged

/-- The text of one or more rows of different versions is read back, in ascending order, and where
a row of the established source was added to the entry of a file, the outcome is read and
accepted. -/
theorem published_agrees [Library] (json : Str → Except Str Bool) (name : PackageName)
    (publisher : SelfDeclaredPublisher) :
    (∀ versions : List EntryVersion, versions ≠ [] →
      versions.Pairwise (fun v w => v.version ≠ w.version) → (∀ v ∈ versions, OneLine json v) →
      ∃ entry, parseEntry json name (renderEntry name.raw publisher.raw versions) = .ok entry ∧
        entry.name = name ∧ entry.publisher = publisher ∧ entry.versions.Perm versions ∧
        entry.versions.Pairwise fun v w => v.version < w.version) ∧
    ∀ file existing new text attested, readExisting json file name = .ok existing →
      mergeIntoEntry json file name publisher.raw new = .ok text → OneLine json new →
      (publishedRows existing).Pairwise (fun v w => v.version ≠ w.version) →
      (publishedRows existing).length < MAX_ENTRY_VERSIONS →
      (∀ v ∈ publishedRows existing, v.source = new.source) →
      ∃ submitted, parseEntry json name text = .ok submitted ∧
        admissionPrecheck submitted existing attested = .ok () := by
  constructor
  · intro versions hne hdist hone
    exact ⟨_, parseEntry_renderEntry hne hone, rfl, rfl, ordered_perm versions,
      ordered_pairwise hdist⟩
  · intro file existing new text attested hread hmerge hone hdist hcount hsource
    obtain ⟨hne, hlt, rfl⟩ := mergeIntoEntry_eq_ok hread hmerge
    have hrows : ∀ v ∈ publishedRows existing ++ [new], OneLine json v := by
      intro v hv
      rcases List.mem_append.1 hv with hv | hv
      · exact readExisting_oneLine hread v hv
      · exact List.mem_singleton.1 hv ▸ hone
    refine ⟨_, parseEntry_renderEntry (by simp) hrows, admissionPrecheck_eq_ok.2 ?_⟩
    exact admissible_added hdist hcount hsource hne hlt attested

/-! ### Some entries -/

/-- A parser that knows one object. -/
def sampleJson (raw : Str) : Except Str Bool :=
  if raw = ['{', '}'] then .ok true else .error []

/-- A row with capabilities and a signature. -/
def signedRow (minor : U64) (digit : Fin 10) : EntryVersion :=
  { sampleRow minor digit with
    capabilities := {.network, .jsPort .clipboard}, signature := some ⟨['{', '}']⟩ }

/-- A row from another repository. -/
def forkedRow (minor : U64) (digit : Fin 10) : EntryVersion :=
  { sampleRow minor digit with source := ⟨"/fork".toList, .file, rfl⟩ }

theorem oneLine_signedRow (minor : U64) (digit : Fin 10) :
    OneLine sampleJson (signedRow minor digit) := by
  intro sig hsig
  cases hsig
  exact ⟨rfl, by decide⟩

theorem oneLine_of_unsigned {json : Str → Except Str Bool} {v : EntryVersion}
    (h : v.signature = none) : OneLine json v := by
  intro sig hsig
  rw [h] at hsig
  cases hsig

/-- The entry that a file of two rows gives. -/
theorem readExisting_pair {json : Str → Except Str Bool} {e : IndexEntry} {v w : EntryVersion}
    (hv : OneLine json v) (hw : OneLine json w) (hlt : v.version < w.version) :
    readExisting json (some (renderEntry e.name.raw e.publisher.raw [v, w])) e.name =
      .ok (some { e with versions := [v, w] }) := by
  have hordered : ordered [v, w] = [v, w] :=
    List.mergeSort_of_pairwise (by simpa using hlt.le)
  have hparse := @parseEntry_renderEntry _ json e.name e.publisher [v, w] (List.cons_ne_nil v [w])
    (by simp [hv, hw])
  rw [hordered] at hparse
  unfold readExisting
  dsimp only
  rw [hparse]
  rfl

/-- A signed row is written, and another one is added to it. -/
theorem signed_published_agrees :
    (∃ entry, parseEntry sampleJson (sampleEntry []).name (renderEntry (sampleEntry []).name.raw
        (sampleEntry []).publisher.raw [signedRow 1 1, sampleRow 0 0]) = .ok entry ∧
      entry.name = (sampleEntry []).name ∧ entry.publisher = (sampleEntry []).publisher ∧
      entry.versions.Perm [signedRow 1 1, sampleRow 0 0] ∧
      entry.versions.Pairwise fun v w => v.version < w.version) ∧
    ∃ text submitted, mergeIntoEntry sampleJson (some (renderEntry (sampleEntry []).name.raw
          (sampleEntry []).publisher.raw [sampleRow 0 0, signedRow 1 1])) (sampleEntry []).name
        (sampleEntry []).publisher.raw (signedRow 2 2) = .ok text ∧
      parseEntry sampleJson (sampleEntry []).name text = .ok submitted ∧
      admissionPrecheck submitted (some (sampleEntry [sampleRow 0 0, signedRow 1 1])) none =
        .ok () := by
  have hfirst : OneLine sampleJson (sampleRow 0 0) := oneLine_of_unsigned rfl
  have hread := @readExisting_pair sampleJson (sampleEntry []) _ _ hfirst (oneLine_signedRow 1 1)
    (by decide)
  have hmerge := @mergeIntoEntry_added _ _ _ _ (sampleEntry []).publisher (signedRow 2 2) _ hread
    (by decide) rfl
  constructor
  · refine (published_agrees sampleJson _ _).1 _ (List.cons_ne_nil _ _) (by decide) ?_
    intro v hv
    rcases List.mem_pair.1 hv with rfl | rfl
    · exact oneLine_signedRow 1 1
    · exact hfirst
  · obtain ⟨submitted, hparse, hok⟩ := (published_agrees sampleJson _ _).2 _ _ _ _ none hread hmerge
      (oneLine_signedRow 2 2) (by decide) (by decide) (by decide)
    exact ⟨_, submitted, hmerge, hparse, hok⟩

/-- An entry without rows is written but not read, and admission refuses an entry whose published
rows name two sources, whatever is added. -/
theorem empty_not_read_mixed_not_admitted :
    parseEntry sampleJson (sampleEntry []).name (renderEntry (sampleEntry []).name.raw
        (sampleEntry []).publisher.raw []) = .error (.noVersions (sampleEntry []).name) ∧
    ∃ text submitted, mergeIntoEntry sampleJson (some (renderEntry (sampleEntry []).name.raw
          (sampleEntry []).publisher.raw [sampleRow 0 0, forkedRow 1 1])) (sampleEntry []).name
        (sampleEntry []).publisher.raw (sampleRow 2 2) = .ok text ∧
      parseEntry sampleJson (sampleEntry []).name text = .ok submitted ∧
      establishedSource submitted (some (sampleEntry [sampleRow 0 0, forkedRow 1 1])) =
        some (sampleRow 2 2).source ∧
      admissionPrecheck submitted (some (sampleEntry [sampleRow 0 0, forkedRow 1 1])) none ≠
        .ok () := by
  have hfirst : OneLine sampleJson (sampleRow 0 0) := oneLine_of_unsigned rfl
  have hsecond : OneLine sampleJson (forkedRow 1 1) := oneLine_of_unsigned rfl
  have hread := @readExisting_pair sampleJson (sampleEntry []) _ _ hfirst hsecond (by decide)
  have hmerge := @mergeIntoEntry_added _ _ _ _ (sampleEntry []).publisher (sampleRow 2 2) _ hread
    (by decide) rfl
  have hrows : ordered [sampleRow 0 0, forkedRow 1 1, sampleRow 2 2] =
      [sampleRow 0 0, forkedRow 1 1, sampleRow 2 2] := List.mergeSort_of_pairwise (by decide)
  have hparse := @parseEntry_renderEntry _ sampleJson (sampleEntry []).name (sampleEntry []).publisher
    [sampleRow 0 0, forkedRow 1 1, sampleRow 2 2] (List.cons_ne_nil _ _) (by
      intro v hv
      simp only [List.mem_cons, List.not_mem_nil, or_false] at hv
      rcases hv with rfl | rfl | rfl
      · exact hfirst
      · exact hsecond
      · exact oneLine_of_unsigned rfl)
  rw [hrows] at hparse
  exact ⟨parseEntry_renderEntry_nil, _, _, hmerge, hparse, rfl, by decide⟩

end IpeLang.Package
