import IpeLang.Watch.Flight

/-!
# The baseline of the classifier

The classifier compares a new emit with the emit that was built last. That is the one that runs if the
build that was launched last came to serve. After a build that was killed, failed or was refused the
baseline is of a program that does not run, and it stays so until a build serves again.

* `Undisturbed`: green compiles are written, their data stays steady while they are pushed to a program that
  serves, and a process is not kept with swaps on it when its program is built again;
* `Serves`: a program runs, with the swaps that the emits since then have made;
* `run_baseline`: unless the last build came to nothing, the baseline is what runs, and what was compiled last
  is served.
-/

namespace IpeLang.Watch

open IpeLang.Lib
open IpeLang.Hot (EmittedProject HotSwap classify Emitted SteadyData ReadsAs Swaps)

section Run

variable [Json.Library] {opts : Session} {o o' : Orchestrator} {emitted : EmittedProject}

/-- The emits that the registered swaps were made for. -/
def Orchestrator.swapped (o : Orchestrator) : List EmittedProject := o.swaps.map Prod.fst

/-- The registered swaps. -/
def Orchestrator.registered (o : Orchestrator) : List HotSwap := o.swaps.map Prod.snd

/-- The process that runs was spawned from the binary of an emit. -/
def Runs (opts : Session) (o : Orchestrator) (e : EmittedProject) : Prop :=
  ∃ child artifact, o.supervisor = .running child artifact ∧ child.image = opts.cargo e ∧
    artifact.contentHash = opts.sha256 (opts.cargo e)

/-- The program of `e₀` runs, and its swaps lead to what was compiled last. -/
structure Serves (opts : Session) (o : Orchestrator) (e₀ : EmittedProject) : Prop where
  runs : Runs opts o e₀
  baseline : ∀ e, o.running_emitted = some e → e = e₀
  newest : ∀ e, o.last_compile = .Green e → e = o.swapped.getLastD e₀
  swaps : Swaps opts.to_string e₀ o.swapped o.registered
  emitted : ∀ e ∈ e₀ :: o.swapped, Emitted e
  steady : SteadyData e₀ o.swapped

/-- A green compile that can be written. If it is pushed to a program that serves, the sites of that program are
steady. -/
structure Timely (opts : Session) (o : Orchestrator) (emitted : EmittedProject) (written : Bool) :
    Prop where
  onDisk : written = true
  wellEmitted : Emitted emitted
  steady : o.last_build = .served → ∀ running hot, baseline opts o = some running →
    classify opts.to_string running emitted = .HotSwappable hot → hot.is_empty = false →
    SteadyData running (o.swapped ++ [emitted])

/-- A process that hashes like a new build was spawned from it and has registered no swap. -/
def Unswapped (opts : Session) (o : Orchestrator) (emitted : EmittedProject) : Prop :=
  ∀ child artifact, o.supervisor = .running child artifact →
    artifact.contentHash = opts.sha256 (opts.cargo emitted) →
    child.image = opts.cargo emitted ∧ o.swaps = []

def Undisturbed (opts : Session) (o : Orchestrator) : OrchestratorEvent → Prop
  | .FsBatch _ => True
  | .CompileDone g outcome _ written _ => ∀ emitted, outcome = .Green emitted → g ∈ o.workers →
      g = o.generation → Timely opts o emitted written
  | .CargoDone g _ _ => ∀ build ∈ o.builds, build.generation = g → g = o.generation →
      Unswapped opts o build.emitted

/-- What a state of an undisturbed run is like, by what has become of the last build. Where it failed, nothing is
known of the program that runs. -/
structure Tidy (opts : Session) (o : Orchestrator) : Prop where
  flight : Flight opts o
  active : ∀ e, o.running_emitted = some e → opts.hot_appearance = true
  emitted : ∀ b ∈ o.builds, Emitted b.emitted
  unlaunched : o.last_build = .none → o.running_emitted = none ∧ ∀ e, o.last_compile ≠ .Green e
  running : o.last_build = .running → o.cargo_child ≠ none
  served : o.last_build = .served → ∃ e₀, Serves opts o e₀

theorem tidy_fresh (opts : Session) (disk : Path → Option Bytes) : Tidy opts (.fresh disk) where
  flight := flight_fresh opts disk
  active _ h := by cases h
  emitted _ h := absurd h List.not_mem_nil
  unlaunched _ := ⟨rfl, fun _ h => by cases h⟩
  running h := by cases h
  served h := by cases h

/-! ### A compile -/

/-- While nothing is built the baseline is what runs, if the last build has not failed. -/
theorem Tidy.consulted (h : Tidy opts o) (hchild : o.cargo_child = none) {running : EmittedProject}
    (hbase : baseline opts o = some running) :
    o.last_build = .failed ∨ o.last_build = .served ∧ Serves opts o running := by
  have hrunning : o.running_emitted = some running := by
    unfold baseline at hbase
    split_ifs at hbase
    exact hbase
  cases hlast : o.last_build with
  | none =>
    rw [(h.unlaunched hlast).1] at hrunning
    cases hrunning
  | running => exact absurd hchild (h.running hlast)
  | failed => exact .inl rfl
  | served =>
    obtain ⟨e₀, hserves⟩ := h.served hlast
    obtain rfl := hserves.baseline running hrunning
    exact .inr ⟨rfl, hserves⟩

/-- Another emit is pushed to the program that runs. -/
theorem Serves.pushed {e₀ : EmittedProject} {hot : HotSwap} (h : Serves opts o e₀)
    (hswap : classify opts.to_string e₀ emitted = .HotSwappable hot) (hempty : hot.is_empty = false)
    (hemitted : Emitted emitted) (hsteady : SteadyData e₀ (o.swapped ++ [emitted])) :
    Serves opts (register { o with last_compile := .Green emitted } emitted (some hot)) e₀ := by
  have hswapped : (register { o with last_compile := .Green emitted } emitted (some hot)).swapped =
      o.swapped ++ [emitted] := by
    simp [register, Orchestrator.swapped]
  have hregistered :
      (register { o with last_compile := .Green emitted } emitted (some hot)).registered =
        o.registered ++ [hot] := by
    simp [register, Orchestrator.registered]
  refine ⟨h.runs, h.baseline, ?_, ?_, ?_, ?_⟩
  · rintro e he
    obtain rfl : emitted = e := CompileOutcome.Green.inj he
    rw [hswapped, List.getLastD_concat]
  · rw [hswapped, hregistered]
    exact List.rel_append h.swaps (.cons ⟨hswap, hempty⟩ .nil)
  · rw [hswapped, ← List.cons_append]
    intro e he
    rcases List.mem_append.1 he with he | he
    · exact h.emitted e he
    · rw [List.mem_singleton.1 he]
      exact hemitted
  · rw [hswapped]
    exact hsteady

theorem Tidy.compiled (h : Tidy opts o) (hidle : Idle o) {outcome : CompileOutcome}
    {written started : Bool} {r : Report}
    (htimely : ∀ emitted, outcome = .Green emitted → Timely opts o emitted written)
    (hc : Compiled opts o written started outcome r o') :
    Tidy opts o' ∧ ∀ e, r.consulted = some e → o.last_build = .failed ∨ Runs opts o e := by
  have hflight := h.flight.compiled hidle hc
  cases hc with
  | stopped hred =>
    refine ⟨⟨hflight, h.active, h.emitted, fun hlast => ⟨(h.unlaunched hlast).1, hred⟩, h.running, fun hlast => ?_⟩, ?_⟩
    · obtain ⟨e₀, hserves⟩ := h.served hlast
      exact ⟨e₀, hserves.runs, hserves.baseline, fun e he => absurd he (hred e), hserves.swaps,
        hserves.emitted, hserves.steady⟩
    · rintro e he
      cases he
  | @pushed emitted running hot hbase hswap hempty _ =>
    have ht := htimely emitted rfl
    have hconsulted := h.consulted hidle.child hbase
    refine ⟨⟨hflight, h.active, h.emitted, fun hlast => ?_, h.running, fun hlast => ?_⟩, ?_⟩
    · -- Before the first launch there is no baseline to push against.
      have hnone : o.running_emitted = none := (h.unlaunched hlast).1
      unfold baseline at hbase
      rw [hnone, ite_self] at hbase
      cases hbase
    · have hserved : o.last_build = .served := hlast
      rcases hconsulted with hfailed | ⟨-, hserves⟩
      · exact absurd (hserved.symm.trans hfailed) (by decide)
      · exact ⟨_, hserves.pushed hswap hempty ht.wellEmitted (ht.steady hserved _ _ hbase hswap hempty)⟩
    · rintro e he
      obtain rfl : running = e := Option.some.inj he
      exact hconsulted.imp_right fun hserves => hserves.2.runs
  | @rebuilt emitted applied =>
    have ht := htimely emitted rfl
    refine ⟨?_, fun e he => (h.consulted hidle.child he).imp_right fun hserves => hserves.2.runs⟩
    rw [ht.onDisk] at hflight ⊢
    have hactive : ∀ e, (if opts.hot_appearance then some emitted else o.running_emitted) = some e →
        opts.hot_appearance = true := fun e he => by
      split_ifs at he with hhot
      · exact hhot
      · exact h.active e he
    cases started with
    | true =>
      refine ⟨hflight, hactive, List.forall_mem_cons.2 ⟨ht.wellEmitted, h.emitted⟩, ?_, ?_, ?_⟩
      · rintro ⟨⟩
      · rintro - ⟨⟩
      · rintro ⟨⟩
    | false =>
      refine ⟨hflight, hactive, h.emitted, ?_, ?_, ?_⟩
      · rintro ⟨⟩
      · rintro ⟨⟩
      · rintro ⟨⟩

/-! ### A build -/

/-- A process that was spawned from a build, or that was kept because it was spawned from one. -/
theorem serves_restarted {proxy : Bool} {outcome : RestartOutcome} {s : SupervisorState} {w : World}
    (hgreen : o.last_compile = .Green emitted) (hemitted : Emitted emitted)
    (hbase : ∀ e, o.running_emitted = some e → e = emitted)
    (hruns : ∃ child artifact, s = .running child artifact ∧ child.image = opts.cargo emitted ∧
      artifact.contentHash = opts.sha256 (opts.cargo emitted))
    (hswaps : s = o.supervisor → o.swaps = []) :
    Serves opts (restarted { o with cargo_child := none, building := none, proxy := proxy }
      (outcome, s, w)).2 emitted := by
  have hnil : (restarted { o with cargo_child := none, building := none, proxy := proxy }
      (outcome, s, w)).2.swaps = [] := by
    show (if s = o.supervisor then o.swaps else []) = []
    by_cases hs : s = o.supervisor
    · rw [if_pos hs, hswaps hs]
    · rw [if_neg hs]
  have hswapped : (restarted { o with cargo_child := none, building := none, proxy := proxy }
      (outcome, s, w)).2.swapped = [] := by
    rw [Orchestrator.swapped, hnil, List.map_nil]
  refine ⟨hruns, hbase, fun e he => ?_, ?_, ?_, ?_⟩
  · rw [hswapped]
    exact CompileOutcome.Green.inj (he.symm.trans hgreen)
  · rw [hswapped, Orchestrator.registered, hnil, List.map_nil]
    exact .nil
  · rw [hswapped]
    exact List.forall_mem_singleton.2 hemitted
  · rw [hswapped]
    exact Hot.steadyData_nil emitted

/-- What runs after a restart that worked: the process of before, which hashes alike, or a new one that
was spawned from the candidate. -/
def Brought (sha256 : Bytes → Digest) (before after : SupervisorState) (bytes : Bytes) : Prop :=
  ∃ child artifact, after = .running child artifact ∧ artifact.contentHash = sha256 bytes ∧
    (after = before ∨ child.image = bytes ∧ after ≠ before)

section Brought

omit [Json.Library]

theorem ne_of_changed {s : SupervisorState} {child : Child} {artifact : LastGoodBinary}
    (h : s.isUnchanged artifact.contentHash = false) : .running child artifact ≠ s := by
  rintro rfl
  simp [SupervisorState.isUnchanged] at h

variable {sha256 : Bytes → Digest} {s s' : SupervisorState} {w w' : World} {exe_path : Path}
  {first second : Attempt} {port : UInt16} {outcome : RestartOutcome} {bytes : Bytes}

theorem Applied.brought (h : Applied sha256 s w exe_path first second outcome s' w')
    (hdisk : w.disk exe_path = some bytes) (hrunning : outcome_is_running outcome = true) :
    Brought sha256 s s' bytes := by
  cases h with
  | unreadable hd =>
    rw [hdisk] at hd
    cases hd
  | unchanged hd hs hhash =>
    cases hdisk.symm.trans hd
    exact ⟨_, _, hs, hhash, .inl rfl⟩
  | ready hd hu _ _ =>
    cases hdisk.symm.trans hd
    exact ⟨_, _, rfl, rfl, .inr ⟨rfl, ne_of_changed hu⟩⟩
  | fellBack => cases hrunning
  | nothing => cases hrunning

theorem Proxied.brought (h : Proxied sha256 s w exe_path port first outcome s' w')
    (hdisk : w.disk exe_path = some bytes) (hrunning : outcome_is_running outcome = true) :
    Brought sha256 s s' bytes := by
  cases h with
  | unreadable hd =>
    rw [hdisk] at hd
    cases hd
  | unchanged hd hs hhash =>
    cases hdisk.symm.trans hd
    exact ⟨_, _, hs, hhash, .inl rfl⟩
  | ready hd hu _ _ =>
    cases hdisk.symm.trans hd
    exact ⟨_, _, rfl, rfl, .inr ⟨rfl, ne_of_changed hu⟩⟩
  | kept => cases hrunning
  | nothing => cases hrunning

end Brought

omit [Json.Library] in
/-- The build of this generation is what was compiled last. -/
theorem Flight.newest (h : Flight opts o) {build : Build} (hmem : build ∈ o.builds)
    (hgen : build.generation = o.generation) :
    o.last_compile = .Green build.emitted ∧
      (opts.hot_appearance = true → o.running_emitted = some build.emitted) := by
  obtain ⟨-, -, b, hb, hbgen, -, -, hgreen, hactive⟩ := h.child _ (h.current build hmem hgen)
  obtain rfl : b = build := List.inj_on_of_nodup_map h.distinct hb hmem (hbgen.trans hgen.symm)
  exact ⟨hgreen, hactive⟩

theorem Tidy.built (h : Tidy opts o) {build : Build} {exit : CargoExit} {how : Serving} {r : Report}
    (hmem : build ∈ o.builds) (hgen : build.generation = o.generation)
    (hunswapped : Unswapped opts o build.emitted)
    (hb : Built opts { o with
      builds := o.builds.filter fun b => b.generation != o.generation
      world := leave opts o.world build exit } exit how r o') :
    Tidy opts o' ∧ r.consulted = none := by
  have hflight := h.flight.built hb
  have hbuilds : ∀ b ∈ o.builds.filter fun b => b.generation != o.generation, Emitted b.emitted :=
    fun b hb => h.emitted b (List.mem_of_mem_filter hb)
  obtain ⟨hgreen, hactive⟩ := h.flight.newest hmem hgen
  have hbase : ∀ e, o.running_emitted = some e → e = build.emitted := fun e he =>
    Option.some.inj (he.symm.trans (hactive (h.active e he)))
  -- After a build that came to nothing `Tidy` says nothing of what runs.
  have hfailed : ∀ o'' : Orchestrator, Flight opts o'' → o''.running_emitted = o.running_emitted →
      o''.builds = (o.builds.filter fun b => b.generation != o.generation) →
      o''.last_build = .failed → Tidy opts o'' := by
    intro o'' hflight hrunning hb hlast
    refine ⟨hflight, hrunning ▸ h.active, hb ▸ hbuilds, ?_, ?_, ?_⟩ <;> rw [hlast] <;> rintro ⟨⟩
  have hserved : ∀ {proxy : Bool} {outcome : RestartOutcome} {s : SupervisorState} {w : World},
      (outcome_is_running outcome = true →
        Brought opts.sha256 o.supervisor s (opts.cargo build.emitted)) →
      Flight opts (restarted { o with
        builds := o.builds.filter fun b => b.generation != o.generation
        cargo_child := none, building := none, proxy := proxy } (outcome, s, w)).2 →
      Tidy opts (restarted { o with
        builds := o.builds.filter fun b => b.generation != o.generation
        cargo_child := none, building := none, proxy := proxy } (outcome, s, w)).2 := by
    intro proxy outcome s w hbrought hflight
    by_cases hrunning : outcome_is_running outcome = true
    · obtain ⟨child, artifact, rfl, hhash, hor⟩ := hbrought hrunning
      have himage : child.image = opts.cargo build.emitted ∧
          (.running child artifact = o.supervisor → o.swaps = []) := by
        -- The process of before stays only for the same binary, and then no swap is on it (`Unswapped`).
        rcases hor with hsame | ⟨himage, hne⟩
        · obtain ⟨himage, hswaps⟩ := hunswapped child artifact hsame.symm hhash
          exact ⟨himage, fun _ => hswaps⟩
        · exact ⟨himage, fun hsame => absurd hsame hne⟩
      refine ⟨hflight, h.active, hbuilds, ?_, ?_, fun _ => ⟨build.emitted, ?_⟩⟩
      · simp [restarted, hrunning]
      · simp [restarted, hrunning]
      · exact serves_restarted (o := { o with
          builds := o.builds.filter fun b => b.generation != o.generation }) hgreen
          (h.emitted build hmem) hbase ⟨child, artifact, rfl, himage.1, hhash⟩ himage.2
    · refine hfailed _ hflight rfl rfl ?_
      show (if outcome_is_running outcome = true then LastBuild.served else .failed) = .failed
      rw [if_neg hrunning]
  have hdisk : ∀ {exe_path : Path}, exit = .success (some exe_path) →
      (leave opts o.world build exit).disk exe_path = some (opts.cargo build.emitted) := by
    rintro exe_path rfl
    simp [leave, World.write]
  cases hb with
  | refused => exact ⟨hfailed _ hflight rfl rfl rfl, rfl⟩
  | ended => exact ⟨hfailed _ hflight rfl rfl rfl, rfl⟩
  | direct hexit _ happlied => exact ⟨hserved (happlied.brought (hdisk hexit)) hflight, rfl⟩
  | proxied hexit _ happlied => exact ⟨hserved (happlied.brought (hdisk hexit)) hflight, rfl⟩

/-! ### Runs -/

/-- Nothing but the workers and the builds that have not reported, and the disk, changes with a stale
report. -/
theorem Tidy.stale (h : Tidy opts o) {workers : List ℕ} {builds : List Build} {w : World}
    (hsub : ∀ b ∈ builds, b ∈ o.builds)
    (hflight : Flight opts { o with workers := workers, builds := builds, world := w }) :
    Tidy opts { o with workers := workers, builds := builds, world := w } where
  flight := hflight
  active := h.active
  emitted b hb := h.emitted b (hsub b hb)
  unlaunched := h.unlaunched
  running := h.running
  served hlast := by
    obtain ⟨e₀, hserves⟩ := h.served hlast
    exact ⟨e₀, hserves.runs, hserves.baseline, hserves.newest, hserves.swaps, hserves.emitted,
      hserves.steady⟩

theorem Tidy.fs_batch (h : Tidy opts o) (prepared : Bool) : Tidy opts (fs_batch o prepared) := by
  have hflight := h.flight.fs_batch prepared
  have hemitted : ∀ b ∈ o.builds.map (supersede o.cargo_child), Emitted b.emitted := by
    intro b' hb'
    obtain ⟨b, hb, rfl⟩ := List.mem_map.1 hb'
    have hsame : (supersede o.cargo_child b).emitted = b.emitted := by
      unfold supersede
      split <;> rfl
    rw [hsame]
    exact h.emitted b hb
  cases hchild : o.cargo_child with
  | some g =>
    -- The build that is killed counts as one that came to nothing.
    have hlast : (Watch.fs_batch o prepared).last_build = .failed := by
      simp [Watch.fs_batch, hchild]
    refine ⟨hflight, h.active, hemitted, ?_, ?_, ?_⟩ <;> rw [hlast] <;> rintro ⟨⟩
  | none =>
    have hlast : (Watch.fs_batch o prepared).last_build = o.last_build := by
      simp [Watch.fs_batch, hchild]
    refine ⟨hflight, h.active, hemitted, ?_, ?_, ?_⟩ <;> rw [hlast]
    · exact h.unlaunched
    · exact fun hrunning => absurd hchild (h.running hrunning)
    · intro hserved
      obtain ⟨e₀, hserves⟩ := h.served hserved
      exact ⟨e₀, hserves.runs, hserves.baseline, hserves.newest, hserves.swaps, hserves.emitted,
        hserves.steady⟩

theorem Tidy.step (h : Tidy opts o) {event : OrchestratorEvent} (hundisturbed : Undisturbed opts o event) :
    Tidy opts (watchStep opts o event).2 ∧
      ∀ e, (watchStep opts o event).1.consulted = some e → o.last_build = .failed ∨ Runs opts o e := by
  have hquiet : ∀ e, Report.nothing.consulted = some e → o.last_build = .failed ∨ Runs opts o e :=
    fun e he => by cases he
  have hstep := h.flight.step event
  unfold watchStep at hstep ⊢
  by_cases hlive : o.live = false
  · rw [if_pos hlive]
    exact ⟨h, hquiet⟩
  · rw [if_neg hlive] at hstep ⊢
    cases event with
    | FsBatch prepared => exact ⟨h.fs_batch prepared, hquiet⟩
    | CompileDone g outcome delivery written started =>
      dsimp only at hstep ⊢
      by_cases hg : g ∈ o.workers
      · rw [if_pos hg] at hstep ⊢
        obtain ⟨hflight, hidle⟩ := h.flight.worker hg
        have hstale := h.stale (fun _ hb => hb) hflight
        by_cases hgen : g = o.generation
        · rw [if_pos hgen]
          refine hstale.compiled (hidle hgen) (fun emitted hgreen => ?_) (compile_done_compiled ..)
          obtain ⟨hwritten, hemitted, hsteady⟩ := hundisturbed emitted hgreen hg hgen
          exact ⟨hwritten, hemitted, hsteady⟩
        · rw [if_neg hgen]
          exact ⟨hstale, hquiet⟩
      · rw [if_neg hg]
        exact ⟨h, hquiet⟩
    | CargoDone g exit how =>
      dsimp only at hstep ⊢
      cases hfind : o.builds.find? fun b => b.generation == g with
      | none => exact ⟨h, hquiet⟩
      | some build =>
        obtain ⟨hmem, hbgen⟩ := find_build hfind
        rw [hfind] at hstep
        dsimp only at hstep ⊢
        by_cases hgen : g = o.generation
        · rw [if_pos hgen, hgen]
          obtain ⟨htidy, hconsulted⟩ := h.built hmem (hbgen.trans hgen)
            (hundisturbed build hmem hbgen hgen) (cargo_done_built ..)
          refine ⟨htidy, fun e he => ?_⟩
          rw [hconsulted] at he
          cases he
        · rw [if_neg hgen] at hstep ⊢
          exact ⟨h.stale (fun _ hb => List.mem_of_mem_filter hb) hstep, hquiet⟩

theorem tidy_run {events : List OrchestratorEvent} (h : Tidy opts o)
    (hundisturbed : ∀ m ∈ moves (watchStep opts) o events, Undisturbed opts m.before m.input) :
    (∀ m ∈ moves (watchStep opts) o events, ∀ e, m.output.consulted = some e →
        m.before.last_build = .failed ∨ Runs opts m.before e) ∧
      Tidy opts (runTo (watchStep opts) o events) := by
  induction events generalizing o with
  | nil => exact ⟨by simp, h⟩
  | cons event events ih =>
    obtain ⟨hnow, hlater⟩ := List.forall_mem_cons.1 hundisturbed
    obtain ⟨htidy, hconsulted⟩ := h.step hnow
    obtain ⟨hmoves, hend⟩ := ih htidy hlater
    exact ⟨List.forall_mem_cons.2 ⟨hconsulted, hmoves⟩, hend⟩

/-- When nothing is built and the last compile was green, the program that runs reads what that compile
emitted, unless the last build came to nothing. -/
def NewestServed (opts : Session) (o : Orchestrator) : Prop :=
  ∀ e, o.cargo_child = none → o.last_compile = .Green e →
    o.last_build = .failed ∨ ∃ e₀, Runs opts o e₀ ∧ ReadsAs o.registered e₀ e

/-- In an undisturbed run, unless the last build came to nothing, the classifier is asked with the emit whose
binary runs, and what was compiled last is served. -/
theorem run_baseline (opts : Session) (disk : Path → Option Bytes) (events : List OrchestratorEvent)
    (hundisturbed : ∀ m ∈ moves (watchStep opts) (.fresh disk) events,
      Undisturbed opts m.before m.input) :
    (∀ m ∈ moves (watchStep opts) (.fresh disk) events, ∀ e, m.output.consulted = some e →
      m.before.last_build = .failed ∨ Runs opts m.before e) ∧
    NewestServed opts (runTo (watchStep opts) (.fresh disk) events) := by
  obtain ⟨hconsulted, htidy⟩ := tidy_run (tidy_fresh opts disk) hundisturbed
  refine ⟨hconsulted, fun e hchild hgreen => ?_⟩
  cases hlast : (runTo (watchStep opts) (.fresh disk) events).last_build with
  | none => exact absurd hgreen ((htidy.unlaunched hlast).2 e)
  | running => exact absurd hchild (htidy.running hlast)
  | failed => exact .inl rfl
  | served =>
    obtain ⟨e₀, hserves⟩ := htidy.served hlast
    refine .inr ⟨e₀, hserves.runs, ?_⟩
    rw [hserves.newest e hgreen]
    exact Hot.readsAs_of_steady hserves.swaps hserves.emitted hserves.steady

end Run

/-- A program of the web with a padding. -/
def webPadding (px : String) : EmittedProject :=
  Hot.oneFile ("use ipe_runtime::web::web_app;\n".toList ++ Hot.paddingView "main" px)

/-- The first build is killed by the next batch, its emit is built again and served, and then the padding is
edited. -/
def paddingRun : List OrchestratorEvent :=
  [.FsBatch true, .CompileDone 1 (.Green (webPadding "12")) .accepted true true, .FsBatch true,
    .CargoDone 1 .failure ⟨true, true, none, .ready, .ready⟩,
    .CompileDone 2 (.Green (webPadding "12")) .accepted true true,
    .CargoDone 2 (.success (some "app")) ⟨true, true, none, .ready, .ready⟩, .FsBatch true,
    .CompileDone 3 (.Green (webPadding "16")) .accepted true true]

theorem emitted_webPadding {px : String} (h : px ∈ ["12", "16"]) : Emitted (webPadding px) := by
  refine Hot.emitted_oneFile [] ?_
  revert px
  decide +kernel

theorem steadyData_webPadding : SteadyData (webPadding "12") [webPadding "16"] := by
  refine ⟨⟨?_, ?_⟩, ?_, ?_, ?_⟩
  all_goals
    unfold webPadding
    simp only [Hot.SteadyLeg, Hot.rounds, List.map_cons, List.map_nil, List.getLastD_cons, List.getLastD_nil,
      Hot.sites_oneFile]
    exact ⟨by decide +kernel, by decide +kernel⟩

/-- The edited padding is served by the program with the old one. -/
theorem run_baseline_padding :
    ∃ e₀, Runs appearanceSession (runTo (watchStep appearanceSession) (.fresh fun _ => none) paddingRun) e₀ ∧
      ReadsAs [⟨[⟨["12".toList], [(0, "16".toList)]⟩], [], [], [], [], []⟩] e₀ (webPadding "16") := by
  have h := (run_baseline appearanceSession (fun _ => none) paddingRun ?_).2 (webPadding "16")
    (by decide +kernel) ?_
  · have hlast : (runTo (watchStep appearanceSession) (.fresh fun _ => none) paddingRun).last_build = .served := by
      decide +kernel
    have hregistered : (runTo (watchStep appearanceSession) (.fresh fun _ => none) paddingRun).registered =
        [⟨[⟨["12".toList], [(0, "16".toList)]⟩], [], [], [], [], []⟩] := by
      decide +kernel
    rw [hlast, hregistered] at h
    exact h.resolve_left (by decide)
  · have htimely : ∀ {o : Orchestrator} {px : String}, px ∈ ["12", "16"] → (∀ running hot,
        o.last_build = .served → baseline appearanceSession o = some running →
          classify appearanceSession.to_string running (webPadding px) = .HotSwappable hot → hot.is_empty = false →
            SteadyData running (o.swapped ++ [webPadding px])) → ∀ emitted,
              CompileOutcome.Green (webPadding px) = .Green emitted → Timely appearanceSession o emitted true := by
      rintro o px hpx hsteady emitted ⟨⟩
      exact ⟨rfl, emitted_webPadding hpx, fun hserved running hot => hsteady running hot hserved⟩
    refine List.forall_mem_cons.2 ⟨trivial, List.forall_mem_cons.2 ⟨?_, List.forall_mem_cons.2 ⟨trivial,
      List.forall_mem_cons.2 ⟨?_, List.forall_mem_cons.2 ⟨?_, List.forall_mem_cons.2 ⟨?_,
        List.forall_mem_cons.2 ⟨trivial, List.forall_mem_cons.2 ⟨?_, fun m hm => absurd hm List.not_mem_nil⟩⟩⟩⟩⟩⟩⟩⟩
    · exact fun emitted hgreen _ _ => htimely (by decide) (by rintro running hot ⟨⟩) emitted hgreen
    · exact fun build _ _ hgen => absurd hgen (by decide +kernel)
    · exact fun emitted hgreen _ _ => htimely (by decide) (by rintro running hot ⟨⟩) emitted hgreen
    · intro build _ _ _ child artifact hrunning
      have hidle := (congrArg SupervisorState.isRunning hrunning).symm.trans (by decide +kernel : _ = false)
      cases hidle
    · refine fun emitted hgreen _ _ => htimely (by decide) (fun running hot _ hbase _ _ => ?_) emitted hgreen
      have hrunning : some running = some (webPadding "12") := hbase.symm.trans (by decide +kernel)
      obtain rfl := Option.some.inj hrunning
      refine Eq.mpr (congrArg (SteadyData (webPadding "12")) ?_) steadyData_webPadding
      decide +kernel
  · decide +kernel

end IpeLang.Watch
