import IpeLang.Package.Index

/-!
# Histories of a package

What holds along every sequence of accepted submissions (`AcceptedFrom`). Without the privilege to
reset, an entry only grows: pins are permanent, new versions are above all earlier ones, and all
rows name one source (`accepted_extends`).

With it, two releases of one number are possible, and within one entry they always are
(`reset_forges`). `accepted_unambiguous` says what keeps a history free of them: no submission
lists a number with two different rows, and no reset goes below the greatest version that it drops.
-/

namespace IpeLang.Package

open IpeLang.Lib Semver

/-- An entry that is submitted, and by whom. -/
structure Submission where
  entry : IndexEntry
  attested : Option AttestedActor
  deriving DecidableEq

/-- Every submission is accepted against the one before, the first one against `baseline`. -/
def AcceptedFrom [Library] : Option IndexEntry → List Submission → Prop
  | _, [] => True
  | baseline, s :: ss =>
    admissionPrecheck s.entry baseline s.attested = .ok () ∧ AcceptedFrom (some s.entry) ss

/-! ### Without a reset -/

/-- A submission that may not reset: its name is not reserved, or no attested author is both the
claimed and the blessed publisher. -/
def Unprivileged (s : Submission) : Prop :=
  reservedPackagePrefixOf s.entry.name.raw = none ∨
    ∀ actor, s.attested = some actor →
      actor.raw ≠ s.entry.publisher.raw ∨ actor.raw ≠ BLESSED_PUBLISHER

theorem Unprivileged.resetAllowed {s : Submission} (h : Unprivileged s) :
    resetAllowed s.entry s.attested = false := by
  unfold Package.resetAllowed BlessedPublisher.fromAttested BlessedPublisher.fromProven
  rcases h with h | h
  · simp [h]
  · cases ha : s.attested with
    | none => simp
    | some actor =>
      by_cases hne : actor.raw ≠ s.entry.publisher.raw
      · simp [hne]
      · have hb := (h actor ha).resolve_left hne
        simp [hne, hb]

/-- What an entry that is accepted after the entries `past` satisfies. -/
structure Extends [Library] (past : List IndexEntry) (e : IndexEntry) : Prop where
  /-- An exact requirement resolves to the same row as before. -/
  pinned : ∀ e' ∈ past, ∀ version row, resolveVersion e' (exactReq version) = .ok row →
    resolveVersion e (exactReq version) = .ok row
  /-- A version that is new is above all earlier ones. -/
  above : ∀ v ∈ e.versions, (∀ e' ∈ past, ∀ w ∈ e'.versions, w.version ≠ v.version) →
    ∀ e' ∈ past, ∀ w ∈ e'.versions, w.version < v.version
  /-- All rows name one source. -/
  source : ∀ v ∈ e.versions, ∀ e' ∈ e :: past, ∀ w ∈ e'.versions, w.source = v.source

/-- What the published rows keep of all earlier entries. -/
structure Settled (past : List IndexEntry) (rows : List EntryVersion) : Prop where
  pinned : ∀ e ∈ past, ∀ version row, lastRow e.versions version = some row →
    lastRow rows version = some row
  source : ∀ e ∈ past, ∀ v ∈ e.versions, ∀ w ∈ rows, v.source = w.source

section Unprivileged

variable [Library] {past : List IndexEntry} {baseline : Option IndexEntry} {e : IndexEntry}
  {attested : Option AttestedActor}

/-- The published row of a version stays, when nothing may be dropped. -/
theorem Admissible.lastRow (h : Admissible e baseline attested)
    (hr : Package.resetAllowed e attested = false) {version : PublishedVersion} {row : EntryVersion}
    (hrow : lastRow (publishedRows baseline) version = some row) :
    lastRow e.versions version = some row := by
  obtain ⟨hmem, hv⟩ := lastRow_mem hrow
  obtain ⟨w, hw, hwv⟩ := h.appended hr row hmem
  obtain ⟨row', hrow'⟩ := Option.isSome_iff_exists.1 (lastRow_isSome.2 ⟨w, hw, hwv.trans hv⟩)
  obtain ⟨hmem', hv'⟩ := lastRow_mem hrow'
  rw [hrow', h.kept row' hmem' row (hv' ▸ hrow)]

omit [Library] in
/-- Every earlier row has a row of its version among the published ones. -/
theorem Settled.exists_row {rows : List EntryVersion} (h : Settled past rows) (he : e ∈ past)
    {v : EntryVersion} (hv : v ∈ e.versions) : ∃ w ∈ rows, w.version = v.version := by
  obtain ⟨row, hrow⟩ := Option.isSome_iff_exists.1 (lastRow_isSome.2 ⟨v, hv, rfl⟩)
  exact lastRow_isSome.1 (Option.isSome_iff_exists.2 ⟨row, h.pinned e he _ row hrow⟩)

omit [Library] in
theorem establishedSource_of_head {row : EntryVersion} {rows : List EntryVersion}
    (h : publishedRows baseline = row :: rows) :
    establishedSource e baseline = some row.source := by
  cases baseline with
  | none => cases h
  | some b =>
    have hb : b.versions = row :: rows := h
    simp [establishedSource, hb]

/-- All rows of an accepted entry name the source of the rows published before. -/
theorem Admissible.source_eq (h : Admissible e baseline attested) {v : EntryVersion}
    (hv : v ∈ e.versions) {rows : List EntryVersion} (hrows : rows = publishedRows baseline)
    (hsame : ∀ w ∈ rows, ∀ w' ∈ rows, w.source = w'.source) :
    (∀ w ∈ rows, w.source = v.source) ∧ ∀ w ∈ e.versions, w.source = v.source := by
  cases rows with
  | cons row rows =>
    have hexp := h.source _ (establishedSource_of_head hrows.symm)
    refine ⟨fun w hw => ?_, fun w hw => (hexp w hw).trans (hexp v hv).symm⟩
    exact (hsame w hw row List.mem_cons_self).trans (hexp v hv).symm
  | nil =>
    obtain ⟨u, us, hu⟩ := List.exists_cons_of_ne_nil (List.ne_nil_of_mem hv)
    have hexp := h.source u.source (by
      cases baseline with
      | none => simp [establishedSource, hu]
      | some b => simp [establishedSource, show b.versions = [] from hrows.symm, hu])
    exact ⟨by simp, fun w hw => (hexp w hw).trans (hexp v hv).symm⟩

theorem Admissible.extends (h : Admissible e baseline attested)
    (hr : Package.resetAllowed e attested = false) (hs : Settled past (publishedRows baseline))
    (hin : publishedRows baseline = [] ∨ ∃ e' ∈ past, e'.versions = publishedRows baseline) :
    Extends past e := by
  have hsame : ∀ w ∈ publishedRows baseline, ∀ w' ∈ publishedRows baseline,
      w.source = w'.source := by
    intro w hw w' hw'
    rcases hin with hnil | ⟨e', he', heq⟩
    · simp [hnil] at hw
    · exact hs.source e' he' w (heq ▸ hw) w' hw'
  refine ⟨fun e' he' version row hres => ?_, fun v hv hnew e' he' w hw => ?_,
    fun v hv e' he' w hw => ?_⟩
  · rw [resolveVersion_exact] at hres ⊢
    exact h.lastRow hr (hs.pinned e' he' version row hres)
  · -- the version is new to the published rows, too
    obtain ⟨row, hrow, hrv⟩ := hs.exists_row he' hw
    rw [← hrv]
    refine h.above v hv (fun u hu huv => ?_) row hrow
    rcases hin with hnil | ⟨e'', he'', heq⟩
    · simp [hnil] at hu
    · exact hnew e'' he'' u (heq ▸ hu) huv
  · obtain ⟨hpub, hown⟩ := h.source_eq hv rfl hsame
    rcases List.mem_cons.1 he' with rfl | he'
    · exact hown w hw
    · obtain ⟨row, hrow, -⟩ := hs.exists_row he' hw
      exact (hs.source e' he' w hw row hrow).trans (hpub row hrow)

theorem Extends.settled (he : Extends past e) : Settled (past ++ [e]) e.versions := by
  constructor
  · intro e' he' version row hrow
    rcases List.mem_append.1 he' with he' | he'
    · rw [← resolveVersion_exact] at hrow ⊢
      exact he.pinned e' he' version row hrow
    · rwa [List.mem_singleton.1 he'] at hrow
  · intro e' he' v hv w hw
    rcases List.mem_append.1 he' with he' | he'
    · exact he.source w hw e' (List.mem_cons_of_mem e he') v hv
    · rw [List.mem_singleton.1 he'] at hv
      exact he.source w hw e List.mem_cons_self v hv

end Unprivileged

theorem AcceptedFrom.extends [Library] {baseline : Option IndexEntry} {history : List Submission}
    {past : List IndexEntry} (h : AcceptedFrom baseline history)
    (hu : ∀ s ∈ history, Unprivileged s) (hs : Settled past (publishedRows baseline))
    (hin : publishedRows baseline = [] ∨ ∃ e ∈ past, e.versions = publishedRows baseline)
    {earlier later : List Submission} {s : Submission} (hsplit : history = earlier ++ s :: later) :
    Extends (past ++ earlier.map Submission.entry) s.entry := by
  induction history generalizing baseline past earlier with
  | nil => simp at hsplit
  | cons s' history ih =>
    obtain ⟨hok, hrest⟩ := h
    obtain ⟨hus, hu⟩ := List.forall_mem_cons.1 hu
    have hext := (admissionPrecheck_eq_ok.1 hok).extends hus.resetAllowed hs hin
    cases earlier with
    | nil =>
      obtain ⟨rfl, -⟩ := List.cons.inj hsplit
      simpa using hext
    | cons s'' earlier =>
      obtain ⟨rfl, hsplit'⟩ := List.cons.inj hsplit
      have := ih hrest hu hext.settled (Or.inr ⟨s'.entry, by simp, rfl⟩) hsplit'
      simpa using this

/-- In every sequence of accepted submissions without the privilege to reset, an entry resolves
exact requirements as all earlier ones did, its new versions are above all earlier ones, and all
rows name one source. -/
theorem accepted_extends [Library] {history earlier later : List Submission} {s : Submission}
    (h : AcceptedFrom none history) (hu : ∀ s ∈ history, Unprivileged s)
    (hsplit : history = earlier ++ s :: later) :
    Extends (earlier.map Submission.entry) s.entry := by
  have hs : Settled [] (publishedRows none) := ⟨by simp, by simp⟩
  simpa using h.extends hu hs (Or.inl rfl) hsplit

/-! ### Some submissions -/

/-- A row of version `1.minor.0` whose commit hash is all `digit`. -/
def sampleRow (minor : U64) (digit : Fin 10) : EntryVersion where
  version := ⟨1, minor, 0, []⟩
  source := ⟨"/repo".toList, .file, rfl⟩
  rev := ⟨List.replicate 40 (Nat.digitChar digit), by revert digit; decide⟩
  sha256 := ⟨List.replicate 64 '0', rfl⟩
  capabilities := ∅
  signature := none

/-- A package of anybody. -/
def sampleEntry (versions : List EntryVersion) : IndexEntry where
  name := ⟨"http".toList, rfl⟩
  publisher := ⟨"someone".toList, rfl⟩
  versions := versions

/-- A package of the blessed publisher. -/
def reservedEntry (versions : List EntryVersion) : IndexEntry where
  name := ⟨"ipe-registry-smoke-probe".toList, rfl⟩
  publisher := ⟨BLESSED_PUBLISHER, rfl⟩
  versions := versions

/-- A submission of the blessed publisher. -/
def blessed (versions : List EntryVersion) : Submission :=
  ⟨reservedEntry versions, some ⟨BLESSED_PUBLISHER, rfl⟩⟩

/-- A release is published after another one. -/
theorem accepted_extends_sample : Extends [sampleEntry [sampleRow 0 0]]
    (sampleEntry [sampleRow 0 0, sampleRow 1 1]) := by
  have hacc : AcceptedFrom none [⟨sampleEntry [sampleRow 0 0], none⟩,
      ⟨sampleEntry [sampleRow 0 0, sampleRow 1 1], none⟩] := ⟨rfl, rfl, trivial⟩
  refine @accepted_extends _ _ [_] [] _ hacc (fun s hs => Or.inl ?_) rfl
  rcases List.mem_pair.1 hs with rfl | rfl <;> rfl

/-! ### With a reset -/

/-- No number names two releases in these entries. -/
def Unambiguous (entries : List IndexEntry) : Prop :=
  ∀ e ∈ entries, ∀ e' ∈ entries, ∀ v ∈ e.versions, ∀ w ∈ e'.versions,
    v.version = w.version → v = w

/-- A submission that lists no number with two rows and does not go below the greatest published
version. -/
structure Orderly [Library] (s : Submission) (baseline : Option IndexEntry) : Prop where
  rows : ∀ v ∈ s.entry.versions, ∀ w ∈ s.entry.versions, v.version = w.version → v = w
  reset : ∀ v ∈ publishedRows baseline, ∃ w ∈ s.entry.versions, v.version ≤ w.version

/-- Every submission is orderly with respect to the one before. -/
def OrderlyFrom [Library] : Option IndexEntry → List Submission → Prop
  | _, [] => True
  | baseline, s :: ss => Orderly s baseline ∧ OrderlyFrom (some s.entry) ss

/-- What the published rows keep of all earlier rows, when some may have been dropped: a row is
still there, or its number is gone and below the greatest one. -/
structure Retained [Library] (past : List IndexEntry) (rows : List EntryVersion) : Prop where
  unambiguous : Unambiguous past
  own : ∀ v ∈ rows, ∀ w ∈ rows, v.version = w.version → v = w
  kept : ∀ e ∈ past, ∀ v ∈ e.versions, v ∈ rows ∨
    (∀ w ∈ rows, w.version ≠ v.version) ∧ ∃ w ∈ rows, v.version ≤ w.version

section Reset

variable [Library] {past : List IndexEntry} {baseline : Option IndexEntry} {s : Submission}

/-- A submitted row is published already or is above everything published. -/
theorem Admissible.mem_or_above (h : Admissible s.entry baseline s.attested) {v : EntryVersion}
    (hv : v ∈ s.entry.versions) :
    v ∈ publishedRows baseline ∨ ∀ w ∈ publishedRows baseline, w.version < v.version := by
  by_cases hex : ∃ w ∈ publishedRows baseline, w.version = v.version
  · obtain ⟨row, hrow⟩ := Option.isSome_iff_exists.1 (lastRow_isSome.2 hex)
    exact Or.inl (h.kept v hv row hrow ▸ (lastRow_mem hrow).1)
  · exact Or.inr (h.above v hv fun w hw hwv => hex ⟨w, hw, hwv⟩)

/-- A submitted row of an earlier number is the earlier row. -/
theorem Retained.eq_of_version (hr : Retained past (publishedRows baseline))
    (h : Admissible s.entry baseline s.attested) {e : IndexEntry} (he : e ∈ past)
    {v w : EntryVersion} (hv : v ∈ e.versions) (hw : w ∈ s.entry.versions)
    (hvw : v.version = w.version) : v = w := by
  rcases h.mem_or_above hw with hmem | habove
  · rcases hr.kept e he v hv with hv | ⟨hnone, -⟩
    · exact hr.own v hv w hmem hvw
    · exact absurd hvw.symm (hnone w hmem)
  · -- a new number is above all published ones, so above every earlier one
    rcases hr.kept e he v hv with hv | ⟨-, u, hu, hle⟩
    · exact absurd hvw (habove v hv).ne
    · exact absurd hvw (hle.trans_lt (habove u hu)).ne

theorem Retained.step (hr : Retained past (publishedRows baseline))
    (h : Admissible s.entry baseline s.attested) (ho : Orderly s baseline) :
    Retained (past ++ [s.entry]) s.entry.versions := by
  refine ⟨fun e he e' he' v hv w hw hvw => ?_, ho.rows, fun e he v hv => ?_⟩
  · rcases List.mem_append.1 he with he | he <;> rcases List.mem_append.1 he' with he' | he'
    · exact hr.unambiguous e he e' he' v hv w hw hvw
    · exact hr.eq_of_version h he hv (List.mem_singleton.1 he' ▸ hw) hvw
    · exact (hr.eq_of_version h he' hw (List.mem_singleton.1 he ▸ hv) hvw.symm).symm
    · exact ho.rows v (List.mem_singleton.1 he ▸ hv) w (List.mem_singleton.1 he' ▸ hw) hvw
  · rcases List.mem_append.1 he with he | he
    · by_cases hmem : v ∈ s.entry.versions
      · exact Or.inl hmem
      · refine Or.inr ⟨fun w hw hwv => hmem ?_, ?_⟩
        · exact hr.eq_of_version h he hv hw hwv.symm ▸ hw
        · rcases hr.kept e he v hv with hv | ⟨-, u, hu, hle⟩
          · exact ho.reset v hv
          · obtain ⟨w, hw, hle'⟩ := ho.reset u hu
            exact ⟨w, hw, hle.trans hle'⟩
    · exact Or.inl (List.mem_singleton.1 he ▸ hv)

theorem AcceptedFrom.retained {history : List Submission} (h : AcceptedFrom baseline history)
    (ho : OrderlyFrom baseline history) (hr : Retained past (publishedRows baseline)) :
    Unambiguous (past ++ history.map Submission.entry) := by
  induction history generalizing baseline past with
  | nil => simpa using hr.unambiguous
  | cons s history ih =>
    have := ih h.2 ho.2 (hr.step (admissionPrecheck_eq_ok.1 h.1) ho.1)
    simpa using this

end Reset

/-- In every sequence of accepted submissions, of any package and with any attestation, that are
orderly, no number names two releases. -/
theorem accepted_unambiguous [Library] {history : List Submission} (h : AcceptedFrom none history)
    (ho : OrderlyFrom none history) : Unambiguous (history.map Submission.entry) := by
  have hr : Retained [] (publishedRows none) := by
    refine ⟨fun _ he => ?_, fun _ hv => ?_, fun _ he => ?_⟩
    · cases he
    · cases hv
    · cases he
  simpa using h.retained ho hr

/-- A reset that keeps the greatest version. -/
theorem accepted_unambiguous_sample : Unambiguous
    [reservedEntry [sampleRow 0 0, sampleRow 1 1], reservedEntry [sampleRow 1 1]] := by
  have hacc : AcceptedFrom none [blessed [sampleRow 0 0, sampleRow 1 1], blessed [sampleRow 1 1]] :=
    ⟨rfl, rfl, trivial⟩
  refine accepted_unambiguous hacc ⟨⟨by decide, by decide⟩, ⟨by decide, by decide⟩, trivial⟩

/-- A reset drops the greatest version and keeps a lower one, and the number is published again with
other contents. One entry may also list a number twice. -/
theorem reset_forges :
    (AcceptedFrom none [blessed [sampleRow 0 0, sampleRow 1 1], blessed [sampleRow 0 0],
        blessed [sampleRow 0 0, sampleRow 1 2]] ∧
      ¬ Unambiguous [reservedEntry [sampleRow 0 0, sampleRow 1 1], reservedEntry [sampleRow 0 0],
        reservedEntry [sampleRow 0 0, sampleRow 1 2]]) ∧
    AcceptedFrom none [⟨sampleEntry [sampleRow 0 0, sampleRow 0 1], none⟩] ∧
      ¬ Unambiguous [sampleEntry [sampleRow 0 0, sampleRow 0 1]] := by
  refine ⟨⟨⟨rfl, rfl, rfl, trivial⟩, fun h => ?_⟩, ⟨rfl, trivial⟩, fun h => ?_⟩
  · have heq : sampleRow 1 1 = sampleRow 1 2 :=
      h _ (.head _) _ (.tail _ (.tail _ (.head _))) _ (.tail _ (.head _)) _ (.tail _ (.head _)) rfl
    exact absurd heq (by decide)
  · have heq : sampleRow 0 0 = sampleRow 0 1 :=
      h _ (.head _) _ (.head _) _ (.head _) _ (.tail _ (.head _)) rfl
    exact absurd heq (by decide)

end IpeLang.Package
