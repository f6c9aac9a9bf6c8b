import IpeLang.Watch.Process

/-!
# The last-good record

The supervisor keeps the path and the hash of the artifact that its process was spawned from. A
build may overwrite that path, and the fall-back after a failed candidate spawns whatever is there
then. So the record is truthful in a run exactly when the last good artifact is still on disk
whenever something falls back to it (`lastGood_truthful_iff`). In the run of
`fall_back_runs_candidate` it is not: the candidate was built over it.

* `step`: one event of a watch, and what may be an event;
* `Truthful`, `Faithful`: what is to hold of a state and of a move;
* `Recoverable`: the condition on the state before a move;
* `run_tended`: the supervised process is the only one that is alive.
-/

namespace IpeLang.Watch

open IpeLang.Lib SupervisorState

/-! ### Runs of a watch -/

/-- The supervisor and its world. -/
structure Supervised where
  state : SupervisorState
  world : World

/-- What may happen to them. -/
inductive Event
  | build (path : Path) (content : Option Bytes)
  | exit (child : Child)
  | applyGreen (candidate : Path) (first second : Attempt)
  | applyGreenBehindProxy (candidate : Path) (internalPort : UInt16) (attempt : Attempt)
  | shutdown
  deriving DecidableEq, Repr

/-- The artifact of a green build. -/
def Event.candidate? : Event → Option Path
  | .applyGreen candidate _ _ => some candidate
  | .applyGreenBehindProxy candidate _ _ => some candidate
  | _ => none

def World.write (w : World) (path : Path) (content : Option Bytes) : World :=
  { w with disk := fun p => if p = path then content else w.disk p }

def step (sha256 : Bytes → Digest) (σ : Supervised) :
    Event → Option RestartOutcome × Supervised
  | .build path content => (none, ⟨σ.state, σ.world.write path content⟩)
  | .exit child => (none, ⟨σ.state, σ.world.exit child⟩)
  | .applyGreen candidate first second =>
    let r := σ.state.applyGreen sha256 σ.world candidate first second
    (some r.1, ⟨r.2.1, r.2.2⟩)
  | .applyGreenBehindProxy candidate internalPort attempt =>
    let r := σ.state.applyGreenBehindProxy sha256 σ.world candidate internalPort attempt
    (some r.1, ⟨r.2.1, r.2.2⟩)
  | .shutdown =>
    let r := σ.state.shutdown σ.world
    (none, ⟨r.1, r.2⟩)

/-- Before the first build. -/
def init (disk : Path → Option Bytes) : Supervised := ⟨fresh, { disk := disk }⟩

/-! ### What a spawn and a green build do -/

section Inversion

variable {sha256 : Bytes → Digest} {s : SupervisorState} {w w' : World} {path candidate : Path}
  {attempt first second : Attempt} {image bytes : Bytes} {child : Child} {port : UInt16}
  {lg : LastGoodBinary}

/-- The world after a process of this image has become ready. -/
def World.serve (w : World) (image : Bytes) : World :=
  { w with
    live := ⟨w.nextPid, image⟩ :: w.live, nextPid := w.nextPid + 1, served := image :: w.served }

theorem launch_ready (h : w.disk path = some image) :
    w.launch .ready path = (.ok ⟨w.nextPid, image⟩, w.serve image) := by
  simp [World.launch, World.spawn, World.read, awaitReady, World.serve, h]

theorem launch_failed (h : attempt ≠ .ready ∨ w.disk path = none) :
    ∃ e n, w.launch attempt path = (.error e, { w with nextPid := n }) := by
  cases hd : w.disk path with
  | none =>
    have hread : w.read path = .error notFound := by simp [World.read, hd]
    cases attempt with
    | spawnFails e => exact ⟨_, w.nextPid, rfl⟩
    | _ => exact ⟨_, w.nextPid, by simp only [World.launch, World.spawn, hread, awaitReady]; rfl⟩
  | some image =>
    have hread : w.read path = .ok image := by simp [World.read, hd]
    cases attempt with
    | ready => simp [hd] at h
    | spawnFails e => exact ⟨_, w.nextPid, rfl⟩
    | _ =>
      simp only [World.launch, World.spawn, hread, awaitReady, World.stop, List.erase_cons_head]
      exact ⟨_, w.nextPid + 1, rfl⟩

/-- What a green build may do to the supervisor: nothing, run the candidate, go back to the last
good artifact, or leave nothing running. -/
inductive Applied (sha256 : Bytes → Digest) (s : SupervisorState) (w : World) (candidate : Path)
    (first second : Attempt) : RestartOutcome → SupervisorState → World → Prop
  | unreadable {e} : w.disk candidate = none →
      Applied sha256 s w candidate first second (.nothingRunning candidate (some e)) s w
  | unchanged {bytes child artifact} : w.disk candidate = some bytes →
      s = .running child artifact → artifact.contentHash = sha256 bytes →
      Applied sha256 s w candidate first second .unchangedBinary s w
  | ready {bytes outcome} : w.disk candidate = some bytes →
      s.isUnchanged (sha256 bytes) = false → first = .ready →
      (outcome = .restarted ∨ outcome = .spawned) →
      Applied sha256 s w candidate first second outcome
        (.running ⟨w.nextPid, bytes⟩ ⟨candidate, sha256 bytes⟩) ((s.stopRunning w).serve bytes)
  | fellBack {bytes lg image n} : w.disk candidate = some bytes →
      s.isUnchanged (sha256 bytes) = false → first ≠ .ready → s.lastGood = some lg →
      second = .ready → w.disk lg.artifactPath = some image →
      Applied sha256 s w candidate first second (.respawnedLastGood candidate)
        (.running ⟨n, image⟩ lg) ({ s.stopRunning w with nextPid := n }.serve image)
  | nothing {bytes e n lastGood} : w.disk candidate = some bytes →
      s.isUnchanged (sha256 bytes) = false → first ≠ .ready → s.lastGood = lastGood →
      (∀ lg, lastGood = some lg → second ≠ .ready ∨ w.disk lg.artifactPath = none) →
      Applied sha256 s w candidate first second (.nothingRunning candidate (some e))
        (.notRunning lastGood) { s.stopRunning w with nextPid := n }

@[simp] theorem stopRunning_disk : (s.stopRunning w).disk = w.disk := by
  cases s <;> rfl

@[simp] theorem stopRunning_nextPid : (s.stopRunning w).nextPid = w.nextPid := by
  cases s <;> rfl

@[simp] theorem stopRunning_served : (s.stopRunning w).served = w.served := by
  cases s <;> rfl

theorem isUnchanged_iff {h : Digest} :
    s.isUnchanged h = true ↔ ∃ child artifact, s = .running child artifact ∧
      artifact.contentHash = h := by
  cases s with
  | notRunning lg => simp [isUnchanged]
  | running child artifact => simp [isUnchanged]

theorem hash_error (h : w.disk path = none) :
    LastGoodBinary.hash sha256 w path = .error notFound := by
  simp only [LastGoodBinary.hash, World.read, h]
  rfl

theorem hash_ok (h : w.disk path = some bytes) :
    LastGoodBinary.hash sha256 w path = .ok ⟨path, sha256 bytes⟩ := by
  simp only [LastGoodBinary.hash, World.read, h]
  rfl

theorem applyGreen_applied (sha256 : Bytes → Digest) (s : SupervisorState) (w : World)
    (candidate : Path) (first second : Attempt) :
    Applied sha256 s w candidate first second (s.applyGreen sha256 w candidate first second).1
      (s.applyGreen sha256 w candidate first second).2.1
      (s.applyGreen sha256 w candidate first second).2.2 := by
  unfold applyGreen
  cases hd : w.disk candidate with
  | none =>
    rw [hash_error hd]
    exact .unreadable hd
  | some bytes =>
    rw [hash_ok hd]
    dsimp only
    cases hu : s.isUnchanged (sha256 bytes) with
    | true =>
      obtain ⟨child, artifact, hs, hh⟩ := isUnchanged_iff.1 hu
      exact .unchanged hd hs hh
    | false =>
      simp only [Bool.false_eq_true, if_false]
      have hd' : (s.stopRunning w).disk candidate = some bytes := by rwa [stopRunning_disk]
      by_cases hf : first = .ready
      · subst hf
        rw [launch_ready hd', stopRunning_nextPid]
        refine .ready hd hu rfl ?_
        cases s.isRunning <;> simp
      · obtain ⟨e, n, hl⟩ := @launch_failed (s.stopRunning w) candidate _ (Or.inl hf)
        rw [hl]
        dsimp only
        cases hlg : s.lastGood with
        | none => exact .nothing hd hu hf hlg (by simp)
        | some lg =>
          dsimp only
          by_cases hfail : second ≠ .ready ∨ w.disk lg.artifactPath = none
          · obtain ⟨e', n', hl'⟩ := @launch_failed { s.stopRunning w with nextPid := n }
              lg.artifactPath _ (by simpa using hfail)
            rw [hl']
            refine .nothing hd hu hf hlg fun lg' h => ?_
            cases h
            exact hfail
          · obtain ⟨hs, hi⟩ := not_or.1 hfail
            obtain ⟨image, hi⟩ := Option.ne_none_iff_exists'.1 hi
            obtain rfl := not_not.1 hs
            rw [launch_ready (w := { s.stopRunning w with nextPid := n }) (by simpa using hi)]
            exact .fellBack hd hu hf hlg rfl hi

/-- What a green build behind the proxy may do. -/
inductive Proxied (sha256 : Bytes → Digest) (s : SupervisorState) (w : World) (candidate : Path)
    (port : UInt16) (attempt : Attempt) : RestartOutcome → SupervisorState → World → Prop
  | unreadable {e} : w.disk candidate = none →
      Proxied sha256 s w candidate port attempt (.nothingRunning candidate (some e)) s w
  | unchanged {bytes child artifact} : w.disk candidate = some bytes →
      s = .running child artifact → artifact.contentHash = sha256 bytes →
      Proxied sha256 s w candidate port attempt .unchangedBinary s w
  | ready {bytes outcome} : w.disk candidate = some bytes →
      s.isUnchanged (sha256 bytes) = false → attempt = .ready →
      (outcome = .restarted ∨ outcome = .spawned) →
      Proxied sha256 s w candidate port attempt outcome
        (.running ⟨w.nextPid, bytes⟩ ⟨candidate, sha256 bytes⟩)
        (s.stopRunning { w.serve bytes with upstream := some port })
  | kept {bytes n} : w.disk candidate = some bytes → s.isUnchanged (sha256 bytes) = false →
      attempt ≠ .ready → s.isRunning = true →
      Proxied sha256 s w candidate port attempt (.respawnedLastGood candidate) s
        { w with nextPid := n }
  | nothing {bytes e n} : w.disk candidate = some bytes → s.isUnchanged (sha256 bytes) = false →
      attempt ≠ .ready → s.isRunning = false →
      Proxied sha256 s w candidate port attempt (.nothingRunning candidate (some e))
        (.notRunning none) { w with nextPid := n }

theorem applyGreenBehindProxy_proxied (sha256 : Bytes → Digest) (s : SupervisorState) (w : World)
    (candidate : Path) (port : UInt16) (attempt : Attempt) :
    Proxied sha256 s w candidate port attempt
      (s.applyGreenBehindProxy sha256 w candidate port attempt).1
      (s.applyGreenBehindProxy sha256 w candidate port attempt).2.1
      (s.applyGreenBehindProxy sha256 w candidate port attempt).2.2 := by
  unfold applyGreenBehindProxy
  cases hd : w.disk candidate with
  | none =>
    rw [hash_error hd]
    exact .unreadable hd
  | some bytes =>
    rw [hash_ok hd]
    dsimp only
    cases hu : s.isUnchanged (sha256 bytes) with
    | true =>
      obtain ⟨child, artifact, hs, hh⟩ := isUnchanged_iff.1 hu
      exact .unchanged hd hs hh
    | false =>
      simp only [Bool.false_eq_true, if_false]
      by_cases ha : attempt = .ready
      · subst ha
        rw [launch_ready hd]
        refine .ready hd hu rfl ?_
        cases s.isRunning <;> simp
      · obtain ⟨e, n, hl⟩ := @launch_failed w candidate _ (Or.inl ha)
        rw [hl]
        dsimp only
        cases hr : s.isRunning with
        | true => exact .kept hd hu ha hr
        | false => exact .nothing hd hu ha hr

end Inversion

/-! ### Truthful records -/

section Truthful

variable (sha256 : Bytes → Digest)

/-- The record of a state tells the truth: the process was spawned from bytes that have the recorded
hash and have passed readiness, and a record without a process is of such bytes, too. -/
def Truthful (σ : Supervised) : Prop :=
  match σ.state with
  | .running child artifact =>
    sha256 child.image = artifact.contentHash ∧ child.image ∈ σ.world.served
  | .notRunning (some artifact) => ∃ bytes ∈ σ.world.served, sha256 bytes = artifact.contentHash
  | .notRunning none => True

/-- What is to hold of a move of a watch. -/
structure Faithful (m : Move Supervised Event (Option RestartOutcome)) : Prop where
  truthful : Truthful sha256 m.after
  /-- What a fall-back spawns is not the candidate that has just failed. -/
  respawned : ∀ candidate first second broken, m.input = .applyGreen candidate first second →
    m.output = some (.respawnedLastGood broken) → ∃ child artifact,
      m.after.state = .running child artifact ∧ m.before.world.disk candidate ≠ some child.image
  /-- Behind the proxy nothing is spawned in its place at all. -/
  kept : ∀ candidate port attempt broken, m.input = .applyGreenBehindProxy candidate port attempt →
    m.output = some (.respawnedLastGood broken) → m.after.state = m.before.state
  /-- When nothing is done, the process that runs is the candidate. -/
  unchanged : ∀ candidate, m.input.candidate? = some candidate →
    m.output = some .unchangedBinary → m.after = m.before ∧ ∃ child artifact bytes,
      m.before.state = .running child artifact ∧ m.before.world.disk candidate = some bytes ∧
        sha256 child.image = sha256 bytes ∧
          ((∀ b, sha256 b = sha256 bytes → b = bytes) → child.image = bytes)

/-- When a candidate fails, the artifact that is spawned in its place is still the one that the
record is about, and is not the candidate again. -/
def Recoverable (m : Move Supervised Event (Option RestartOutcome)) : Prop :=
  match m.input with
  | .applyGreen candidate first second =>
    ∀ bytes artifact image, m.before.world.disk candidate = some bytes →
      m.before.state.isUnchanged (sha256 bytes) = false → first ≠ .ready →
      m.before.state.lastGood = some artifact → second = .ready →
      m.before.world.disk artifact.artifactPath = some image →
      sha256 image = artifact.contentHash ∧ image ≠ bytes
  | _ => True

variable {sha256 : Bytes → Digest} {s s' : SupervisorState} {w w' : World} {candidate : Path}
  {first second attempt : Attempt} {outcome : RestartOutcome} {σ : Supervised} {port : UInt16}

/-- The artifact that a truthful state falls back to has been ready once. -/
theorem Truthful.lastGood {artifact : LastGoodBinary} (h : Truthful sha256 ⟨s, w⟩)
    (hs : s.lastGood = some artifact) :
    ∃ bytes ∈ w.served, sha256 bytes = artifact.contentHash := by
  cases s with
  | notRunning lg =>
    obtain rfl : lg = some artifact := hs
    exact h
  | running child artifact' =>
    obtain rfl : artifact' = artifact := Option.some.inj hs
    exact ⟨child.image, h.2, h.1⟩

theorem Truthful.stopped {n : ℕ} (h : Truthful sha256 ⟨s, w⟩) :
    Truthful sha256 ⟨.notRunning s.lastGood, { s.stopRunning w with nextPid := n }⟩ := by
  cases hlg : s.lastGood with
  | none => trivial
  | some artifact =>
    show ∃ bytes ∈ (s.stopRunning w).served, _
    rw [stopRunning_served]
    exact h.lastGood hlg

/-- A move that neither falls back nor finds its candidate running is faithful when its state is. -/
theorem faithful_of_other {m : Move Supervised Event (Option RestartOutcome)}
    (h : Truthful sha256 m.after) (hr : ∀ broken, m.output ≠ some (.respawnedLastGood broken))
    (hu : m.output ≠ some .unchangedBinary) : Faithful sha256 m :=
  ⟨h, fun _ _ _ broken _ ho => absurd ho (hr broken), fun _ _ _ broken _ ho => absurd ho (hr broken),
    fun _ _ ho => absurd ho hu⟩

theorem faithful_of_unchanged {m : Move Supervised Event (Option RestartOutcome)} {child : Child}
    {artifact : LastGoodBinary} {bytes : Bytes} (h : Truthful sha256 m.before)
    (hc : m.input.candidate? = some candidate) (hd : m.before.world.disk candidate = some bytes)
    (hs : m.before.state = .running child artifact) (hh : artifact.contentHash = sha256 bytes)
    (ho : m.output = some .unchangedBinary) (ha : m.after = m.before) : Faithful sha256 m := by
  refine ⟨ha ▸ h, fun _ _ _ _ _ ho' => ?_, fun _ _ _ _ _ ho' => ?_, fun candidate' hc' _ => ?_⟩
  · cases ho.symm.trans ho'
  · cases ho.symm.trans ho'
  · obtain rfl : candidate = candidate' := Option.some.inj (hc.symm.trans hc')
    have himage : sha256 child.image = sha256 bytes := by
      unfold Truthful at h
      rw [hs] at h
      exact h.1.trans hh
    exact ⟨ha, child, artifact, bytes, hs, hd, himage, fun hinj => hinj _ himage⟩

theorem Applied.faithful_iff (h : Truthful sha256 ⟨s, w⟩)
    (ha : Applied sha256 s w candidate first second outcome s' w') :
    Faithful sha256 ⟨⟨s, w⟩, .applyGreen candidate first second, some outcome, ⟨s', w'⟩⟩ ↔
      Recoverable sha256
        ⟨⟨s, w⟩, .applyGreen candidate first second, some outcome, ⟨s', w'⟩⟩ := by
  cases ha with
  | unreadable hd =>
    refine iff_of_true (faithful_of_other h (by simp) (by simp)) fun bytes _ _ hd' => ?_
    cases hd.symm.trans hd'
  | unchanged hd hs hh =>
    refine iff_of_true (faithful_of_unchanged h rfl hd hs hh rfl rfl) fun bytes _ _ hd' hu => ?_
    cases hd.symm.trans hd'
    rw [isUnchanged_iff.2 ⟨_, _, hs, hh⟩] at hu
    cases hu
  | ready hd hu hf ho =>
    refine iff_of_true (faithful_of_other ⟨rfl, List.mem_cons_self⟩ ?_ ?_)
      fun _ _ _ _ _ hf' => absurd hf hf'
    · rcases ho with rfl | rfl <;> simp
    · rcases ho with rfl | rfl <;> simp
  | @fellBack bytes lg image n hd hu hf hlg hsec hi =>
    constructor
    · intro hfaithful bytes' lg' image' hd' _ _ hlg' _ hi'
      cases hd.symm.trans hd'
      cases hlg.symm.trans hlg'
      cases hi.symm.trans hi'
      obtain ⟨child, artifact, hstate, hne⟩ := hfaithful.respawned _ _ _ _ rfl rfl
      cases hstate
      exact ⟨hfaithful.truthful.1, fun heq => hne (heq ▸ hd)⟩
    · intro hrec
      obtain ⟨hhash, hne⟩ := hrec bytes lg image hd hu hf hlg hsec hi
      refine ⟨⟨hhash, List.mem_cons_self⟩, fun candidate' _ _ _ hin _ => ?_, fun _ _ _ _ hin => ?_,
        fun _ _ ho => ?_⟩
      · cases hin
        refine ⟨_, _, rfl, fun hd' => hne ?_⟩
        exact (Option.some.inj (hd.symm.trans hd')).symm
      · cases hin
      · cases ho
  | nothing hd hu hf hlg hno =>
    refine iff_of_true (faithful_of_other (hlg ▸ h.stopped) (by simp) (by simp))
      fun _ lg _ _ _ _ hlg' hs hi => ?_
    rcases hno lg (hlg.symm.trans hlg') with hn | hn
    · exact absurd hs hn
    · cases hn.symm.trans hi

theorem Proxied.faithful (h : Truthful sha256 ⟨s, w⟩)
    (ha : Proxied sha256 s w candidate port attempt outcome s' w') :
    Faithful sha256
      ⟨⟨s, w⟩, .applyGreenBehindProxy candidate port attempt, some outcome, ⟨s', w'⟩⟩ := by
  cases ha with
  | unreadable hd => exact faithful_of_other h (by simp) (by simp)
  | unchanged hd hs hh => exact faithful_of_unchanged h rfl hd hs hh rfl rfl
  | @ready bytes outcome hd hu hf ho =>
    refine faithful_of_other ⟨rfl, ?_⟩ ?_ ?_
    · show bytes ∈ (s.stopRunning { w.serve bytes with upstream := some port }).served
      rw [stopRunning_served]
      exact List.mem_cons_self
    · rcases ho with rfl | rfl <;> simp
    · rcases ho with rfl | rfl <;> simp
  | kept hd hu hf hr =>
    refine ⟨h, fun _ _ _ _ hin => ?_, fun _ _ _ _ _ _ => rfl, fun _ _ ho => ?_⟩
    · cases hin
    · cases ho
  | nothing hd hu hf hr => exact faithful_of_other trivial (by simp) (by simp)

/-- From a truthful state, a move is faithful exactly when the fall-back finds its artifact. -/
theorem step_faithful_iff (h : Truthful sha256 σ) (e : Event) :
    Faithful sha256 (moveOf (step sha256) σ e) ↔ Recoverable sha256 (moveOf (step sha256) σ e) := by
  cases e with
  | build path content => exact iff_of_true (faithful_of_other h (by simp [moveOf, step])
      (by simp [moveOf, step])) trivial
  | exit child => exact iff_of_true (faithful_of_other h (by simp [moveOf, step])
      (by simp [moveOf, step])) trivial
  | applyGreen candidate first second => exact (applyGreen_applied ..).faithful_iff h
  | applyGreenBehindProxy candidate port attempt =>
    exact iff_of_true ((applyGreenBehindProxy_proxied ..).faithful h) trivial
  | shutdown => exact iff_of_true (faithful_of_other (h.stopped (n := σ.world.nextPid))
      (by simp [moveOf, step]) (by simp [moveOf, step])) trivial

end Truthful

/-- The record is truthful all along a run, no fall-back spawns the candidate that failed and
nothing is left as it is but a running candidate, exactly when every fall-back of the run finds the
artifact that its record is about. -/
theorem lastGood_truthful_iff (sha256 : Bytes → Digest) (disk : Path → Option Bytes)
    (events : List Event) :
    (∀ m ∈ moves (step sha256) (init disk) events, Faithful sha256 m) ↔
      ∀ m ∈ moves (step sha256) (init disk) events, Recoverable sha256 m :=
  moves_iff (P := Truthful sha256) (fun _ _ h => h.truthful) (fun _ e h => step_faithful_iff h e)
    trivial

/-! ### Processes -/

/-- The supervised process is alive, unless it has ended by itself, and no other process is. -/
def Tended (σ : Supervised) : Prop :=
  match σ.state with
  | .running child _ =>
    σ.world.live = [child] ∨ σ.world.live = [] ∧ child ∈ σ.world.exited
  | .notRunning _ => σ.world.live = []

section Tended

variable {sha256 : Bytes → Digest} {s s' : SupervisorState} {w w' : World} {candidate : Path}
  {first second attempt : Attempt} {outcome : RestartOutcome} {σ : Supervised} {port : UInt16}

theorem Tended.stopRunning (h : Tended ⟨s, w⟩) : (s.stopRunning w).live = [] := by
  cases s with
  | notRunning lg => exact h
  | running child artifact =>
    show w.live.erase child = []
    rcases h with h | ⟨h, -⟩ <;> simp [show w.live = _ from h]

theorem Applied.tended (h : Tended ⟨s, w⟩)
    (ha : Applied sha256 s w candidate first second outcome s' w') : Tended ⟨s', w'⟩ := by
  cases ha with
  | unreadable _ => exact h
  | unchanged _ _ _ => exact h
  | ready _ _ _ _ => exact Or.inl (by simp [World.serve, h.stopRunning])
  | fellBack _ _ _ _ _ _ => exact Or.inl (by simp [World.serve, h.stopRunning])
  | nothing _ _ _ _ _ => exact h.stopRunning

theorem Proxied.tended (h : Tended ⟨s, w⟩)
    (ha : Proxied sha256 s w candidate port attempt outcome s' w') : Tended ⟨s', w'⟩ := by
  cases ha with
  | unreadable _ => exact h
  | unchanged _ _ _ => exact h
  | @ready bytes _ _ _ _ _ =>
    cases s with
    | notRunning lg =>
      refine Or.inl ?_
      show (⟨w.nextPid, bytes⟩ : Child) :: w.live = [⟨w.nextPid, bytes⟩]
      rw [show w.live = [] from h]
    | running child artifact =>
      -- the old process is stopped after the new one has been spawned
      show (_ :: w.live).erase child = [_] ∨ (_ :: w.live).erase child = [] ∧ _ ∈ w.exited
      by_cases hc : (⟨w.nextPid, bytes⟩ : Child) = child
      · rcases h with h | ⟨h, hx⟩
        · simp [show w.live = _ from h, hc]
        · exact Or.inr ⟨by simp [show w.live = _ from h, hc], hc ▸ hx⟩
      · rcases h with h | ⟨h, -⟩ <;> simp [show w.live = _ from h, hc]
  | kept _ _ _ _ => exact h
  | nothing _ _ _ hr =>
    cases s with
    | notRunning lg => exact h
    | running child artifact => cases hr

theorem step_tended (h : Tended σ) (e : Event) : Tended (step sha256 σ e).2 := by
  cases e with
  | build path content => exact h
  | exit child =>
    cases hs : σ.state with
    | notRunning lg =>
      simp only [Tended, step, World.exit, World.stop, hs] at h ⊢
      simp [h]
    | running c artifact =>
      simp only [Tended, step, World.exit, World.stop, hs] at h ⊢
      rcases h with h | ⟨h, hx⟩
      · by_cases hc : c = child <;> simp [h, hc]
      · exact Or.inr ⟨by simp [h], List.mem_cons_of_mem child hx⟩
  | applyGreen candidate first second => exact (applyGreen_applied ..).tended h
  | applyGreenBehindProxy candidate port attempt => exact (applyGreenBehindProxy_proxied ..).tended h
  | shutdown => exact h.stopRunning

/-- In every reachable state the supervised process is the only one that is alive. -/
theorem run_tended (sha256 : Bytes → Digest) (disk : Path → Option Bytes) (events : List Event) :
    Tended (runTo (step sha256) (init disk) events) :=
  runTo_invariant (fun _ e h => step_tended h e) rfl

end Tended

/-! ### A fall-back onto the candidate -/

/-- The digests of two programs of one byte. -/
def sampleSha256 (bytes : Bytes) : Digest :=
  if bytes = [0] then 0x6e340b9cffb37a989ca544e6bb780a2c78901d3fb33738768511a30617afa01d
  else if bytes = [1] then 0x4bf5122f344554c53bde2ebb8cd2b7e3d1600ad631c385a5d7cce23c7785459a
  else 0

/-- A program is built and runs, another one is built over it and exits at once, and the fall-back
spawns the same path again. -/
def overwritten : List Event :=
  [.build "app" (some [0]), .applyGreen "app" .ready .ready,
    .build "app" (some [1]), .applyGreen "app" (.exits "exit status: 1") .ready]

/-- The candidate that failed runs, under the record of the artifact that it replaced. -/
theorem fall_back_runs_candidate :
    (runTo (step sampleSha256) (init fun _ => none) overwritten).state =
        .running ⟨2, [1]⟩ ⟨"app", sampleSha256 [0]⟩ ∧
      ¬ Truthful sampleSha256 (runTo (step sampleSha256) (init fun _ => none) overwritten) ∧
      (runTo (step sampleSha256) (init fun _ => none) overwritten).world.disk "app" = some [1] := by
  have hstate : (runTo (step sampleSha256) (init fun _ => none) overwritten).state =
      .running ⟨2, [1]⟩ ⟨"app", sampleSha256 [0]⟩ := by rfl
  refine ⟨hstate, fun h => ?_, rfl⟩
  unfold Truthful at h
  rw [hstate] at h
  exact absurd h.1 (by decide)

end IpeLang.Watch
