import IpeLang.Watch.Orchestrator

/-!
# One build at a time

* `Flight`: the build that is not superseded is the child, of this generation and of what was compiled
  last;
* `run_single_flight`: no other build ever reaches the supervised process;
* `supervisedBy`: the events of the supervisor that a move of the watch loop amounts to.
-/

namespace IpeLang.Watch

open IpeLang.Lib
open IpeLang.Hot (EmittedProject HotSwap)

variable {opts : Session} {o o' : Orchestrator} {emitted : EmittedProject}

/-- The build of a generation starts when the compile of that generation has reported, and all builds
but the child are superseded. -/
structure Flight (opts : Session) (o : Orchestrator) : Prop where
  workers : ∀ g ∈ o.workers, g ≤ o.generation
  once : o.workers.Nodup
  builds : ∀ b ∈ o.builds, b.generation ≤ o.generation ∧ b.generation ∉ o.workers
  distinct : (o.builds.map Build.generation).Nodup
  alive : ∀ b ∈ o.builds, b.superseded = false → o.cargo_child = some b.generation
  current : ∀ b ∈ o.builds, b.generation = o.generation → o.cargo_child = some o.generation
  child : ∀ g, o.cargo_child = some g → g = o.generation ∧ o.last_build = .running ∧
    ∃ b ∈ o.builds, b.generation = g ∧ b.superseded = false ∧ o.building = some b.emitted ∧
      o.last_compile = .Green b.emitted ∧
      (opts.hot_appearance = true → o.running_emitted = some b.emitted)

/-- Nothing of this generation is compiled or built. -/
structure Idle (o : Orchestrator) : Prop where
  child : o.cargo_child = none
  builds : ∀ b ∈ o.builds, b.generation ≠ o.generation
  workers : o.generation ∉ o.workers

theorem flight_fresh (opts : Session) (disk : Path → Option Bytes) : Flight opts (.fresh disk) where
  workers _ h := absurd h List.not_mem_nil
  once := List.nodup_nil
  builds _ h := absurd h List.not_mem_nil
  distinct := List.nodup_nil
  alive _ h := absurd h List.not_mem_nil
  current _ h := absurd h List.not_mem_nil
  child _ h := by cases h

/-! ### The arms -/

theorem supersede_generation (child : Option ℕ) (b : Build) :
    (supersede child b).generation = b.generation := by
  unfold supersede
  split <;> rfl

theorem Flight.fs_batch (h : Flight opts o) (prepared : Bool) : Flight opts (fs_batch o prepared) where
  workers g hg := by
    cases prepared with
    | false => exact (h.workers g hg).trans (Nat.le_succ _)
    | true =>
      rcases List.mem_cons.1 hg with rfl | hg
      · exact le_refl _
      · exact (h.workers g hg).trans (Nat.le_succ _)
  once := by
    cases prepared with
    | false => exact h.once
    | true => exact List.nodup_cons.2 ⟨fun hmem => Nat.not_succ_le_self _ (h.workers _ hmem), h.once⟩
  builds b' hb' := by
    obtain ⟨b, hb, rfl⟩ := List.mem_map.1 hb'
    obtain ⟨hle, hworkers⟩ := h.builds b hb
    rw [supersede_generation]
    refine ⟨hle.trans (Nat.le_succ _), ?_⟩
    cases prepared with
    | false => exact hworkers
    | true =>
      rintro hmem
      rcases List.mem_cons.1 hmem with heq | hmem
      · rw [heq] at hle
        exact Nat.not_succ_le_self _ hle
      · exact hworkers hmem
  distinct := by
    have hmap : (o.builds.map (supersede o.cargo_child)).map Build.generation =
        o.builds.map Build.generation := by
      rw [List.map_map]
      exact List.map_congr_left fun b _ => supersede_generation _ b
    exact hmap ▸ h.distinct
  alive b' hb' halive := by
    obtain ⟨b, hb, rfl⟩ := List.mem_map.1 hb'
    -- The child was the only build that was not superseded, and now it is.
    by_cases hchild : o.cargo_child = some b.generation
    · rw [supersede, if_pos hchild] at halive
      cases halive
    · rw [supersede, if_neg hchild] at halive
      exact absurd (h.alive b hb halive) hchild
  current b' hb' hgen := by
    obtain ⟨b, hb, rfl⟩ := List.mem_map.1 hb'
    rw [supersede_generation] at hgen
    exact absurd ((h.builds b hb).1.trans_lt (Nat.lt_succ_self _)) hgen.not_lt
  child _ hg := by cases hg

/-- The compile of this generation has just reported. -/
theorem Flight.worker (h : Flight opts o) {g : ℕ} (hg : g ∈ o.workers) :
    Flight opts { o with workers := o.workers.erase g } ∧
      (g = o.generation → Idle { o with workers := o.workers.erase g }) := by
  have hsub : ∀ g', g' ∈ o.workers.erase g → g' ∈ o.workers := fun g' => List.mem_of_mem_erase
  refine ⟨⟨fun g' hg' => h.workers g' (hsub g' hg'), h.once.erase _, fun b hb => ?_, h.distinct,
    h.alive, h.current, h.child⟩, ?_⟩
  · exact ⟨(h.builds b hb).1, fun hmem => (h.builds b hb).2 (hsub _ hmem)⟩
  · rintro rfl
    have hbuilds : ∀ b ∈ o.builds, b.generation ≠ o.generation := fun b hb heq =>
      (h.builds b hb).2 (heq ▸ hg)
    refine ⟨?_, hbuilds, fun hmem => (h.once.mem_erase_iff.1 hmem).1 rfl⟩
    show o.cargo_child = none
    by_contra hchild
    obtain ⟨g', hg'⟩ := Option.ne_none_iff_exists'.1 hchild
    obtain ⟨rfl, -, b, hb, hgen, -⟩ := h.child g' hg'
    exact hbuilds b hb hgen

/-- Without a child only what was recorded may change. -/
theorem Flight.record (h : Flight opts o) (hchild : o.cargo_child = none) (outcome : CompileOutcome) :
    Flight opts { o with last_compile := outcome } where
  workers := h.workers
  once := h.once
  builds := h.builds
  distinct := h.distinct
  alive := h.alive
  current := h.current
  child g hg := by
    rw [show o.cargo_child = some g from hg] at hchild
    cases hchild

theorem Flight.register (h : Flight opts o) (applied : Option HotSwap) :
    Flight opts (register o emitted applied) where
  workers := h.workers
  once := h.once
  builds := h.builds
  distinct := h.distinct
  alive := h.alive
  current := h.current
  child := h.child

theorem Flight.rebuild (h : Flight opts o) (hidle : Idle o) (hgreen : o.last_compile = .Green emitted)
    (written started : Bool) : Flight opts (rebuild opts o emitted written started) := by
  have hnochild : ∀ g, o.cargo_child ≠ some g := fun g hg => by
    rw [hidle.child] at hg
    cases hg
  have hnoalive : ∀ b ∈ o.builds, b.superseded = true := fun b hb => by
    by_contra halive
    exact hnochild _ (h.alive b hb (Bool.eq_false_iff.2 halive))
  cases written with
  | false => exact h
  | true =>
    cases started with
    | false =>
      exact ⟨h.workers, h.once, h.builds, h.distinct, h.alive, h.current,
        fun g hg => absurd hg (hnochild g)⟩
    | true =>
      refine ⟨h.workers, h.once, ?_, ?_, ?_, fun _ _ _ => rfl, ?_⟩
      · exact List.forall_mem_cons.2 ⟨⟨le_refl _, hidle.workers⟩, h.builds⟩
      · refine List.nodup_cons.2 ⟨fun hmem => ?_, h.distinct⟩
        obtain ⟨b, hb, hgen⟩ := List.mem_map.1 hmem
        exact hidle.builds b hb hgen
      · refine List.forall_mem_cons.2 ⟨fun _ => rfl, fun b hb halive => ?_⟩
        rw [hnoalive b hb] at halive
        cases halive
      · intro g hg
        obtain rfl : o.generation = g := Option.some.inj hg
        exact ⟨rfl, rfl, _, List.mem_cons_self, rfl, rfl, rfl, hgreen, fun hactive => if_pos hactive⟩

theorem Flight.compiled [Json.Library] (h : Flight opts o) (hidle : Idle o) {outcome : CompileOutcome}
    {written started : Bool} {r : Report} (hc : Compiled opts o written started outcome r o') :
    Flight opts o' := by
  cases hc with
  | stopped => exact h.record hidle.child _
  | pushed => exact (h.record hidle.child _).register _
  | rebuilt =>
    refine ((h.record hidle.child _).register _).rebuild ?_ rfl _ _
    exact ⟨hidle.child, hidle.builds, hidle.workers⟩

/-- The build of a generation has just reported. If it is the child, no other build is left that is not
superseded. -/
theorem Flight.waiter (h : Flight opts o) (g : ℕ) (w : World) (hstale : g ≠ o.generation) :
    Flight opts { o with builds := o.builds.filter fun b => b.generation != g, world := w } where
  workers := h.workers
  once := h.once
  builds b hb := h.builds b (List.mem_of_mem_filter hb)
  distinct := h.distinct.sublist (List.filter_sublist.map _)
  alive b hb := h.alive b (List.mem_of_mem_filter hb)
  current b hb := h.current b (List.mem_of_mem_filter hb)
  child g' hg' := by
    obtain ⟨rfl, hrunning, b, hb, hgen, hrest⟩ := h.child g' hg'
    exact ⟨rfl, hrunning, b, List.mem_filter.2 ⟨hb, by simpa [hgen] using Ne.symm hstale⟩, hgen, hrest⟩

/-- All builds that are left when the one of this generation is over are superseded. -/
theorem Flight.rest (h : Flight opts o) {b : Build}
    (hb : b ∈ o.builds.filter fun b => b.generation != o.generation) : b.superseded = true := by
  obtain ⟨hmem, hne⟩ := List.mem_filter.1 hb
  by_contra halive
  obtain ⟨hgen, -⟩ := h.child _ (h.alive b hmem (Bool.eq_false_iff.2 halive))
  simp [hgen] at hne

theorem Flight.built (h : Flight opts o) {w : World} {exit : CargoExit} {how : Serving} {r : Report}
    (hb : Built opts { o with
      builds := o.builds.filter fun b => b.generation != o.generation, world := w } exit how r o') :
    Flight opts o' := by
  have hflight : ∀ o'' : Orchestrator, o''.generation = o.generation → o''.workers = o.workers →
      o''.builds = (o.builds.filter fun b => b.generation != o.generation) → o''.cargo_child = none →
      Flight opts o'' := by
    intro o'' hgen hworkers hbuilds hchild
    refine ⟨?_, ?_, ?_, ?_, ?_, ?_, fun g hg => ?_⟩
    · rw [hgen, hworkers]
      exact h.workers
    · rw [hworkers]
      exact h.once
    · rw [hgen, hworkers, hbuilds]
      exact fun b hb => h.builds b (List.mem_of_mem_filter hb)
    · rw [hbuilds]
      exact h.distinct.sublist (List.filter_sublist.map _)
    · rw [hbuilds]
      intro b hb halive
      rw [h.rest hb] at halive
      cases halive
    · rw [hgen, hbuilds]
      exact fun b hb heq => absurd heq (by simpa using (List.mem_filter.1 hb).2)
    · rw [hchild] at hg
      cases hg
  cases hb <;> exact hflight _ rfl rfl rfl rfl

/-! ### Runs -/

/-- The build of a generation that has one. -/
theorem find_build {g : ℕ} {build : Build} (h : (o.builds.find? fun b => b.generation == g) = some build) :
    build ∈ o.builds ∧ build.generation = g :=
  ⟨List.mem_of_find?_eq_some h, by simpa using List.find?_some h⟩

theorem Flight.step [Json.Library] (h : Flight opts o) (event : OrchestratorEvent) :
    Flight opts (watchStep opts o event).2 := by
  unfold watchStep
  by_cases hlive : o.live = false
  · rw [if_pos hlive]
    exact h
  · rw [if_neg hlive]
    cases event with
    | FsBatch prepared => exact h.fs_batch prepared
    | CompileDone g outcome delivery written started =>
      dsimp only
      by_cases hg : g ∈ o.workers
      · rw [if_pos hg]
        obtain ⟨hflight, hidle⟩ := h.worker hg
        by_cases hgen : g = o.generation
        · rw [if_pos hgen]
          exact hflight.compiled (hidle hgen) (compile_done_compiled ..)
        · rw [if_neg hgen]
          exact hflight
      · rw [if_neg hg]
        exact h
    | CargoDone g exit how =>
      dsimp only
      cases hfind : o.builds.find? fun b => b.generation == g with
      | none => exact h
      | some build =>
        dsimp only
        by_cases hgen : g = o.generation
        · rw [if_pos hgen, hgen]
          exact h.built (cargo_done_built ..)
        · rw [if_neg hgen]
          exact h.waiter g _ hgen

theorem flight_run [Json.Library] (opts : Session) (disk : Path → Option Bytes) (events : List OrchestratorEvent) :
    Flight opts (runTo (watchStep opts) (.fresh disk) events) :=
  runTo_invariant (fun _ event h => Flight.step h event) (flight_fresh opts disk)

/-- An event is the end of the build that runs, which builds what was compiled last. -/
def EndsChild (o : Orchestrator) (event : OrchestratorEvent) : Prop :=
  ∃ exit how b, event = .CargoDone o.generation exit how ∧ b ∈ o.builds ∧
    b.generation = o.generation ∧ b.superseded = false ∧ o.last_compile = .Green b.emitted ∧
    o.building = some b.emitted

/-- The supervised process and all others are left alone by every event but the end of a build of this
generation. -/
theorem step_alone [Json.Library] (h : Flight opts o) (event : OrchestratorEvent) :
    ((watchStep opts o event).2.supervisor = o.supervisor ∧
      (watchStep opts o event).2.world.live = o.world.live) ∨ EndsChild o event := by
  unfold watchStep
  by_cases hlive : o.live = false
  · rw [if_pos hlive]
    exact .inl ⟨rfl, rfl⟩
  · rw [if_neg hlive]
    cases event with
    | FsBatch prepared => exact .inl ⟨rfl, rfl⟩
    | CompileDone g outcome delivery written started =>
      refine .inl ?_
      dsimp only
      by_cases hg : g ∈ o.workers
      · rw [if_pos hg]
        by_cases hgen : g = o.generation
        · rw [if_pos hgen]
          obtain ⟨hsupervisor, hworld⟩ := (compile_done_compiled opts
            { o with workers := o.workers.erase g } outcome delivery written started).supervisor
          exact ⟨hsupervisor, congrArg World.live hworld⟩
        · rw [if_neg hgen]
          exact ⟨rfl, rfl⟩
      · rw [if_neg hg]
        exact ⟨rfl, rfl⟩
    | CargoDone g exit how =>
      dsimp only
      cases hfind : o.builds.find? fun b => b.generation == g with
      | none => exact .inl ⟨rfl, rfl⟩
      | some build =>
        dsimp only
        by_cases hgen : g = o.generation
        · obtain ⟨hbuild, hbgen⟩ := find_build hfind
          have hchild := h.current build hbuild (hbgen.trans hgen)
          obtain ⟨-, -, b, hb, hgen', halive, hclaim, hgreen, -⟩ := h.child _ hchild
          exact .inr ⟨exit, how, b, by rw [hgen], hb, hgen', halive, hgreen, hclaim⟩
        · rw [if_neg hgen]
          exact .inl ⟨rfl, leave_live ..⟩

/-- In every run there is one build that is not superseded, and no other event than its end reaches the
supervised process. It builds what was compiled last. -/
theorem run_single_flight [Json.Library] (opts : Session) (disk : Path → Option Bytes)
    (events : List OrchestratorEvent) :
    ∀ m ∈ moves (watchStep opts) (.fresh disk) events,
      (∀ b ∈ m.after.builds, ∀ b' ∈ m.after.builds,
        b.superseded = false → b'.superseded = false → b = b') ∧
      ((m.after.supervisor = m.before.supervisor ∧ m.after.world.live = m.before.world.live) ∨
        EndsChild m.before m.input) := by
  intro m hm
  obtain ⟨before, after, hmoves⟩ := List.append_of_mem hm
  obtain ⟨is₁, is₂, -, -, hrest⟩ := moves_eq_append hmoves
  obtain ⟨is', -, hmove, -⟩ := moves_eq_cons hrest.symm
  have hflight := flight_run opts disk is₁
  rw [hmove]
  refine ⟨fun b hb b' hb' halive halive' => ?_, step_alone hflight m.input⟩
  have hafter : Flight opts (moveOf (watchStep opts) _ m.input).after := hflight.step m.input
  have hgen : b.generation = b'.generation :=
    Option.some.inj ((hafter.alive b hb halive).symm.trans (hafter.alive b' hb' halive'))
  exact List.inj_on_of_nodup_map hafter.distinct hb hb' hgen

/-- A session with the appearance flag. -/
def appearanceSession : Session where
  sha256 _ := 0
  to_string j := j.print Hot.escape
  cargo _ := []
  hot_appearance := true
  bluegreen := false
  hot_token := true
  control_port := true

/-- A batch, its compile and its build. -/
def firstBuild : List OrchestratorEvent :=
  [.FsBatch true, .CompileDone 1 (.Green (Hot.oneFile [])) .accepted true true,
    .CargoDone 1 (.success (some "app")) ⟨true, true, none, .ready, .ready⟩]

/-- The last move of the first build starts the program. -/
theorem run_single_flight_first :
    ∃ m ∈ moves (watchStep appearanceSession) (.fresh fun _ => none) firstBuild,
      m.after.supervisor ≠ m.before.supervisor ∧ EndsChild m.before m.input := by
  refine ⟨_, .tail _ (.tail _ (.head _)), ?_, ?_⟩
  · rintro ⟨⟩
  · have h := run_single_flight appearanceSession (fun _ => none) firstBuild _
      (.tail _ (.tail _ (.head _)))
    rcases h.2 with ⟨hsame, -⟩ | hends
    · cases hsame
    · exact hends

/-! ### The supervisor below -/

/-- The supervisor and its world. -/
def Orchestrator.supervised (o : Orchestrator) : Supervised := ⟨o.supervisor, o.world⟩

/-- A state that some events of the supervisor lead to. -/
def Supervises (opts : Session) (σ σ' : Supervised) : Prop :=
  ∃ events : List Event, σ' = runTo (step opts.sha256) σ events

theorem Supervises.refl (opts : Session) (σ : Supervised) : Supervises opts σ σ := ⟨[], rfl⟩

theorem Supervises.trans {σ σ' σ'' : Supervised} (h : Supervises opts σ σ')
    (h' : Supervises opts σ' σ'') : Supervises opts σ σ'' := by
  obtain ⟨events, rfl⟩ := h
  obtain ⟨events', rfl⟩ := h'
  exact ⟨events ++ events', (runTo_append events').symm⟩

theorem leave_supervises (opts : Session) (s : SupervisorState) (w : World) (build : Build)
    (exit : CargoExit) : Supervises opts ⟨s, w⟩ ⟨s, leave opts w build exit⟩ := by
  unfold leave
  split
  · rename_i exe_path
    exact ⟨[.build exe_path (some (opts.cargo build.emitted))], rfl⟩
  · exact .refl ..

theorem serve_supervises (opts : Session) (o : Orchestrator) (exe_path : Path) (how : Serving) :
    Supervises opts o.supervised (serve opts o exe_path how).2.supervised := by
  unfold serve
  dsimp only
  by_cases hend : (!o.proxy && (opts.bluegreen && o.current_binds_http) && !how.bound) = true
  · rw [if_pos hend]
    exact .refl ..
  · rw [if_neg hend]
    by_cases hproxy : (o.proxy || (opts.bluegreen && o.current_binds_http)) = true
    · rw [if_pos hproxy]
      cases how.internal_port with
      | none => exact .refl ..
      | some port => exact ⟨[.applyGreenBehindProxy exe_path port how.first], rfl⟩
    · rw [if_neg hproxy]
      exact ⟨[.applyGreen exe_path how.first how.second], rfl⟩

theorem cargo_done_supervises (opts : Session) (o : Orchestrator) (build : Build) (exit : CargoExit)
    (how : Serving) :
    Supervises opts o.supervised (cargo_done opts o build exit how).2.supervised := by
  unfold cargo_done
  dsimp only
  cases cargo_outcome build.superseded exit with
  | Killed => exact .refl ..
  | Red => exact .refl ..
  | Green exe_path =>
    dsimp only
    by_cases hclaim : (o.building.isSome && how.verified) = true
    · rw [if_pos hclaim]
      exact serve_supervises opts { o with cargo_child := none, building := none } exe_path how
    · rw [if_neg hclaim]
      exact .refl ..

theorem step_supervises [Json.Library] (opts : Session) (o : Orchestrator) (event : OrchestratorEvent) :
    Supervises opts o.supervised (watchStep opts o event).2.supervised := by
  unfold watchStep
  by_cases hlive : o.live = false
  · rw [if_pos hlive]
    exact .refl ..
  · rw [if_neg hlive]
    cases event with
    | FsBatch prepared => exact .refl ..
    | CompileDone g outcome delivery written started =>
      dsimp only
      by_cases hg : g ∈ o.workers
      · rw [if_pos hg]
        by_cases hgen : g = o.generation
        · rw [if_pos hgen]
          obtain ⟨hsupervisor, hworld⟩ := (compile_done_compiled opts
            { o with workers := o.workers.erase g } outcome delivery written started).supervisor
          rw [Orchestrator.supervised, Orchestrator.supervised, hsupervisor, hworld]
          exact .refl ..
        · rw [if_neg hgen]
          exact .refl ..
      · rw [if_neg hg]
        exact .refl ..
    | CargoDone g exit how =>
      dsimp only
      cases o.builds.find? fun b => b.generation == g with
      | none => exact .refl ..
      | some build =>
        refine (leave_supervises opts o.supervisor o.world build exit).trans ?_
        dsimp only
        by_cases hgen : g = o.generation
        · rw [if_pos hgen]
          exact cargo_done_supervises opts { o with
            builds := o.builds.filter fun b => b.generation != g
            world := leave opts o.world build exit } build exit how
        · rw [if_neg hgen]
          exact .refl ..

/-- On the supervisor and its world every run of the watch loop is a run of the supervisor, so at any
time the supervised process is the only one that is alive. -/
theorem run_supervised [Json.Library] (opts : Session) (disk : Path → Option Bytes) (events : List OrchestratorEvent) :
    Supervises opts (init disk) (runTo (watchStep opts) (.fresh disk) events).supervised ∧
      Tended (runTo (watchStep opts) (.fresh disk) events).supervised := by
  have hrun : Supervises opts (init disk) (runTo (watchStep opts) (.fresh disk) events).supervised :=
    runTo_invariant (P := fun o => Supervises opts (init disk) o.supervised)
      (fun o event h => h.trans (step_supervises opts o event)) (.refl ..)
  refine ⟨hrun, ?_⟩
  obtain ⟨supervisorEvents, hto⟩ := hrun
  rw [hto]
  exact run_tended opts.sha256 disk supervisorEvents

end IpeLang.Watch
