import IpeLang.Hot.Legs
import IpeLang.Watch.LastGood

/-!
# The watch loop

The orchestrator of `ipe watch` takes the events of one channel: a settled batch of file changes, the
end of a compile, the end of a cargo build. Each batch starts a generation and kills the build of the
generation before. An emit that changes baked data only is pushed to the running app, any other one is
written and built, and what a green build made is given to the supervisor.

What the machine decides (whether sources resolve, whether a write or a spawn works, what the app
answers, how a process ends) is part of the events. `last_compile` and `last_build` only record what
has happened.

* `fs_batch`, `compile_done`, `cargo_done`, `step`: the arms of the loop;
* `Flight`: there is one build at a time, and it builds what was compiled last;
* `run_single_flight`: only the end of that build touches the supervised process;
* `run_supervised`: on the process and its world a watch is a run of the supervisor.
-/

namespace IpeLang.Watch

open IpeLang.Lib
open IpeLang.Hot (EmittedProject HotSwap classify)

/-! ### Emitted programs -/

/-- What stands behind the last dot of the last component of a path, unless the dot is its start. -/
def extension (path : Str) : Option Str :=
  let name := path.reverse.takeWhile (· != '/')
  if (name.dropWhile (· != '.')).drop 1 = [] then none
  else some (name.takeWhile (· != '.')).reverse

def emitted_source_contains (emitted : EmittedProject) (needle : Str) : Bool :=
  emitted.files.entries.any fun f =>
    ((extension f.1).any fun ext => ext.map Char.toLower == "rs".toList) &&
      (Hot.find needle f.2).isSome

def emitted_is_web (emitted : EmittedProject) : Bool :=
  emitted_source_contains emitted "ipe_runtime::web::web_app".toList

def emitted_is_tui (emitted : EmittedProject) : Bool :=
  emitted_source_contains emitted "ipe_runtime::tui::tui_app_ui".toList

def emitted_binds_http (emitted : EmittedProject) : Bool :=
  emitted_source_contains emitted "ipe_runtime::web::web_app".toList ||
    emitted_source_contains emitted "ipe_runtime::server::server_listen".toList

/-! ### Events -/

/-- What a session is started with. `cargo` gives the binary of an emit. -/
structure Session where
  sha256 : Bytes → Digest
  to_string : Json → Str
  cargo : EmittedProject → Bytes
  hot_appearance : Bool
  bluegreen : Bool
  hot_token : Bool
  control_port : Bool

inductive CompileOutcome
  | Green (emitted : EmittedProject)
  | Red
  | Cancelled
  deriving DecidableEq

/-- How a cargo process ends: with success, and maybe an executable in its output, with a failure, or
unseen. -/
inductive CargoExit
  | success (executable : Option Path)
  | failure
  | unobserved

inductive CargoOutcome
  | Green (exe_path : Path)
  | Red
  | Killed

/-- The outcome that the waiter of a build reports. -/
def cargo_outcome (superseded : Bool) : CargoExit → CargoOutcome
  | .success (some exe_path) => .Green exe_path
  | .success none => .Red
  | .failure => if superseded then .Killed else .Red
  | .unobserved => .Red

/-- What the app answers to the patches of a swap: it has taken all of them, or only these. -/
inductive Delivery
  | accepted
  | missed (applied : HotSwap)

/-- How a green build is brought up: whether its crate is still the one that was claimed, whether the
port of the proxy and an internal one can be had, and how the spawns go. -/
structure Serving where
  verified : Bool
  bound : Bool
  internal_port : Option UInt16
  first : Attempt
  second : Attempt

inductive OrchestratorEvent
  | FsBatch (prepared : Bool)
  | CompileDone (generation : ℕ) (outcome : CompileOutcome) (delivery : Delivery)
      (written started : Bool)
  | CargoDone (generation : ℕ) (exit : CargoExit) (serving : Serving)

/-! ### States -/

/-- A cargo build whose waiter has not reported yet. -/
structure Build where
  generation : ℕ
  emitted : EmittedProject
  superseded : Bool

/-- What has become of the build that was launched last. -/
inductive LastBuild
  | none
  | running
  | served
  | failed
  deriving DecidableEq

structure Orchestrator where
  live : Bool
  generation : ℕ
  running_emitted : Option EmittedProject
  current_is_web : Bool
  current_is_tui : Bool
  current_binds_http : Bool
  cargo_child : Option ℕ
  building : Option EmittedProject
  proxy : Bool
  supervisor : SupervisorState
  world : World
  workers : List ℕ
  builds : List Build
  /-- The swaps that the running app has registered, each with the emit that it was made for. -/
  swaps : List (EmittedProject × HotSwap)
  last_compile : CompileOutcome
  last_build : LastBuild

/-- Before the first batch. -/
def Orchestrator.fresh (disk : Path → Option Bytes) : Orchestrator where
  live := true
  generation := 0
  running_emitted := none
  current_is_web := false
  current_is_tui := false
  current_binds_http := false
  cargo_child := none
  building := none
  proxy := false
  supervisor := .fresh
  world := { disk := disk }
  workers := []
  builds := []
  swaps := []
  last_compile := .Cancelled
  last_build := .none

/-- What a move shows: the baseline that the classifier was asked with, and what came of a restart. -/
structure Report where
  consulted : Option EmittedProject
  restart : Option RestartOutcome

def Report.nothing : Report := ⟨none, none⟩

/-! ### The arms -/

/-- Record that a build is ended by the orchestrator. -/
def supersede (child : Option ℕ) (b : Build) : Build :=
  if child = some b.generation then { b with superseded := true } else b

/-- A batch of changes. The compile worker is only started when the sources are prepared. -/
def fs_batch (o : Orchestrator) (prepared : Bool) : Orchestrator :=
  { o with
    generation := o.generation + 1
    cargo_child := none
    builds := o.builds.map (supersede o.cargo_child)
    workers := if prepared then (o.generation + 1) :: o.workers else o.workers
    last_build := if o.cargo_child.isSome then .failed else o.last_build }

inductive AppearanceRoute
  | ControlSocket
  | WebPost
  | Rebuild
  deriving DecidableEq

def appearance_route (is_tui is_web : Bool) : AppearanceRoute :=
  if is_tui then .ControlSocket else if is_web then .WebPost else .Rebuild

def appearance_only (hot : HotSwap) : Bool :=
  hot.transitions.isEmpty && hot.msg_sets.isEmpty && hot.subs.isEmpty && hot.inits.isEmpty &&
    hot.wirings.isEmpty

/-- What the app has registered of a swap that is sent to it. -/
def reply (hot : HotSwap) : Delivery → Bool × Option HotSwap
  | .accepted => (true, some hot)
  | .missed applied => (false, some applied)

/-- Send a swap to the running app. Whether all of it was taken, and what was. -/
def push (opts : Session) (o : Orchestrator) (hot : HotSwap) (delivery : Delivery) :
    Bool × Option HotSwap :=
  if o.supervisor.isRunning then
    match appearance_route o.current_is_tui o.current_is_web with
    | .ControlSocket =>
      if appearance_only hot && opts.control_port then reply hot delivery else (false, none)
    | .WebPost => reply hot delivery
    | .Rebuild => (false, none)
  else (false, none)

/-- The app has registered a swap that was made for an emit. -/
def register (o : Orchestrator) (emitted : EmittedProject) (applied : Option HotSwap) : Orchestrator :=
  { o with swaps := o.swaps ++ applied.toList.map fun hot => (emitted, hot) }

/-- Write an emit and build it. It is the baseline of the classifier from then on. -/
def rebuild (opts : Session) (o : Orchestrator) (emitted : EmittedProject) (written started : Bool) :
    Orchestrator :=
  if written then
    let o := { o with
      running_emitted := if opts.hot_appearance then some emitted else o.running_emitted
      current_is_web := emitted_is_web emitted
      current_is_tui := emitted_is_tui emitted
      current_binds_http := emitted_binds_http emitted }
    if started then
      { o with
        cargo_child := some o.generation
        building := some emitted
        builds := ⟨o.generation, emitted, false⟩ :: o.builds
        last_build := .running }
    else { o with last_build := .failed }
  else o

/-- The baseline, if the classifier is asked at all. -/
def baseline (opts : Session) (o : Orchestrator) : Option EmittedProject :=
  if opts.hot_appearance && opts.hot_token then o.running_emitted else none

/-- A compile of this generation is over. -/
def compile_done [Json.Library] (opts : Session) (o : Orchestrator) (outcome : CompileOutcome)
    (delivery : Delivery) (written started : Bool) : Report × Orchestrator :=
  let o := { o with last_compile := outcome }
  match outcome with
  | .Cancelled => (.nothing, o)
  | .Red => (.nothing, o)
  | .Green emitted =>
    match baseline opts o with
    | none => (.nothing, rebuild opts o emitted written started)
    | some running =>
      match classify opts.to_string running emitted with
      | .Logic => (⟨some running, none⟩, rebuild opts o emitted written started)
      | .HotSwappable hot =>
        -- The same emit once more: a build that its batch has killed has to be started again.
        if hot.is_empty then (⟨some running, none⟩, rebuild opts o emitted written started)
        else
          let (ok, applied) := push opts o hot delivery
          let o := register o emitted applied
          if ok then (⟨some running, none⟩, o)
          else (⟨some running, none⟩, rebuild opts o emitted written started)

def outcome_is_running : RestartOutcome → Bool
  | .spawned | .restarted | .unchangedBinary => true
  | _ => false

/-- The supervisor has taken a green build. A new process has registered nothing yet. -/
def restarted (o : Orchestrator) (r : RestartOutcome × SupervisorState × World) :
    Report × Orchestrator :=
  (⟨none, some r.1⟩,
    { o with
      supervisor := r.2.1
      world := r.2.2
      swaps := if r.2.1 = o.supervisor then o.swaps else []
      last_build := if outcome_is_running r.1 then .served else .failed })

/-- Bring up a green build, behind the proxy once there is one. -/
def serve (opts : Session) (o : Orchestrator) (exe_path : Path) (how : Serving) :
    Report × Orchestrator :=
  let engages := opts.bluegreen && o.current_binds_http
  if !o.proxy && engages && !how.bound then (.nothing, { o with live := false, last_build := .failed })
  else
    let o := { o with proxy := o.proxy || engages }
    if o.proxy then
      match how.internal_port with
      | none => (.nothing, { o with last_build := .failed })
      | some port =>
        restarted o (o.supervisor.applyGreenBehindProxy opts.sha256 o.world exe_path port how.first)
    else restarted o (o.supervisor.applyGreen opts.sha256 o.world exe_path how.first how.second)

/-- A build of this generation is over. -/
def cargo_done (opts : Session) (o : Orchestrator) (build : Build) (exit : CargoExit) (how : Serving) :
    Report × Orchestrator :=
  let o := { o with cargo_child := none }
  match cargo_outcome build.superseded exit with
  | .Killed => (.nothing, { o with last_build := .failed })
  | .Red => (.nothing, { o with last_build := .failed })
  | .Green exe_path =>
    let claimed := o.building.isSome
    let o := { o with building := none }
    if claimed && how.verified then serve opts o exe_path how
    else (.nothing, { o with last_build := .failed })

/-- What a build that ends leaves on disk. -/
def leave (opts : Session) (w : World) (build : Build) : CargoExit → World
  | .success (some exe_path) => w.write exe_path (some (opts.cargo build.emitted))
  | _ => w

/-- One event. The events of earlier generations are stale, and a worker or a waiter reports once. -/
def watchStep [Json.Library] (opts : Session) (o : Orchestrator) (event : OrchestratorEvent) :
    Report × Orchestrator :=
  if o.live = false then (.nothing, o)
  else
    match event with
    | .FsBatch prepared => (.nothing, fs_batch o prepared)
    | .CompileDone g outcome delivery written started =>
      if g ∈ o.workers then
        let o := { o with workers := o.workers.erase g }
        if g = o.generation then compile_done opts o outcome delivery written started
        else (.nothing, o)
      else (.nothing, o)
    | .CargoDone g exit how =>
      match o.builds.find? fun b => b.generation == g with
      | none => (.nothing, o)
      | some build =>
        let o := { o with
          builds := o.builds.filter fun b => b.generation != g
          world := leave opts o.world build exit }
        if g = o.generation then cargo_done opts o build exit how else (.nothing, o)

/-! ### What the arms do -/

section Inversion

variable {opts : Session} {o o' : Orchestrator} {outcome : CompileOutcome} {emitted : EmittedProject}
  {delivery : Delivery} {written started : Bool} {build : Build} {exit : CargoExit} {how : Serving}
  {hot : HotSwap} {applied : Option HotSwap}

theorem push_ok (h : (push opts o hot delivery).1 = true) :
    (push opts o hot delivery).2 = some hot ∧ o.supervisor.isRunning = true := by
  have hreply : (reply hot delivery).1 = true → (reply hot delivery).2 = some hot := by
    cases delivery <;> simp [reply]
  unfold push at h ⊢
  by_cases hrun : o.supervisor.isRunning = true
  · rw [if_pos hrun] at h ⊢
    refine ⟨?_, hrun⟩
    cases hroute : appearance_route o.current_is_tui o.current_is_web with
    | ControlSocket =>
      rw [hroute] at h
      dsimp only at h ⊢
      by_cases honly : (appearance_only hot && opts.control_port) = true
      · rw [if_pos honly] at h ⊢
        exact hreply h
      · rw [if_neg honly] at h
        cases h
    | WebPost =>
      rw [hroute] at h
      exact hreply h
    | Rebuild =>
      rw [hroute] at h
      cases h
  · rw [if_neg hrun] at h
    cases h

/-- What the end of a compile may do: nothing, push a swap, or build the emit. -/
inductive Compiled [Json.Library] (opts : Session) (o : Orchestrator) (written started : Bool) :
    CompileOutcome → Report → Orchestrator → Prop
  | stopped {outcome : CompileOutcome} : (∀ emitted, outcome ≠ .Green emitted) →
      Compiled opts o written started outcome .nothing { o with last_compile := outcome }
  | pushed {emitted running : EmittedProject} {hot : HotSwap} : baseline opts o = some running →
      classify opts.to_string running emitted = .HotSwappable hot → hot.is_empty = false →
      o.supervisor.isRunning = true →
      Compiled opts o written started (.Green emitted) ⟨some running, none⟩
        (register { o with last_compile := .Green emitted } emitted (some hot))
  | rebuilt {emitted : EmittedProject} {applied : Option HotSwap} :
      Compiled opts o written started (.Green emitted) ⟨baseline opts o, none⟩
        (rebuild opts (register { o with last_compile := .Green emitted } emitted applied) emitted
          written started)

theorem compile_done_compiled [Json.Library] (opts : Session) (o : Orchestrator)
    (outcome : CompileOutcome) (delivery : Delivery) (written started : Bool) :
    Compiled opts o written started outcome
      (compile_done opts o outcome delivery written started).1
      (compile_done opts o outcome delivery written started).2 := by
  unfold compile_done
  cases outcome with
  | Red => exact .stopped (by simp)
  | Cancelled => exact .stopped (by simp)
  | Green emitted =>
    dsimp only
    have hregister : register { o with last_compile := .Green emitted } emitted none =
        { o with last_compile := .Green emitted } := by
      simp [register]
    have hnone := @Compiled.rebuilt _ opts o written started emitted none
    rw [hregister] at hnone
    have hbase : baseline opts { o with last_compile := .Green emitted } = baseline opts o := rfl
    rw [hbase]
    cases hb : baseline opts o with
    | none =>
      rw [hb] at hnone
      exact hnone
    | some running =>
      rw [hb] at hnone
      dsimp only
      cases hclass : classify opts.to_string running emitted with
      | Logic => exact hnone
      | HotSwappable hot =>
        dsimp only
        by_cases hempty : hot.is_empty = true
        · rw [if_pos hempty]
          exact hnone
        · rw [if_neg hempty]
          by_cases hok : (push opts { o with last_compile := .Green emitted } hot delivery).1 = true
          · obtain ⟨happlied, hrun⟩ := push_ok hok
            rw [if_pos hok, happlied]
            exact .pushed hb hclass (Bool.eq_false_iff.2 hempty) hrun
          · rw [if_neg hok, ← hb]
            exact .rebuilt

/-- What the end of a build may do: refuse it, end the session, or give it to the supervisor. -/
inductive Built (opts : Session) (o : Orchestrator) (exit : CargoExit) (how : Serving) :
    Report → Orchestrator → Prop
  | refused {building : Option EmittedProject} {proxy : Bool} : Built opts o exit how .nothing
      { o with cargo_child := none, building := building, proxy := proxy, last_build := .failed }
  | ended {building : Option EmittedProject} : Built opts o exit how .nothing
      { o with cargo_child := none, building := building, live := false, last_build := .failed }
  | direct {exe_path : Path} {outcome : RestartOutcome} {s : SupervisorState} {w : World} {proxy : Bool} :
      exit = .success (some exe_path) → how.verified = true →
      Applied opts.sha256 o.supervisor o.world exe_path how.first how.second outcome s w →
      Built opts o exit how
        (restarted { o with cargo_child := none, building := none, proxy := proxy } (outcome, s, w)).1
        (restarted { o with cargo_child := none, building := none, proxy := proxy } (outcome, s, w)).2
  | proxied {exe_path : Path} {outcome : RestartOutcome} {s : SupervisorState} {w : World} {proxy : Bool}
      {port : UInt16} : exit = .success (some exe_path) →
      how.verified = true →
      Proxied opts.sha256 o.supervisor o.world exe_path port how.first outcome s w →
      Built opts o exit how
        (restarted { o with cargo_child := none, building := none, proxy := proxy } (outcome, s, w)).1
        (restarted { o with cargo_child := none, building := none, proxy := proxy } (outcome, s, w)).2

theorem serve_built {exe_path : Path} (hexit : exit = .success (some exe_path))
    (hverified : how.verified = true) :
    Built opts o exit how
      (serve opts { o with cargo_child := none, building := none } exe_path how).1
      (serve opts { o with cargo_child := none, building := none } exe_path how).2 := by
  unfold serve
  dsimp only
  by_cases hend : (!o.proxy && (opts.bluegreen && o.current_binds_http) && !how.bound) = true
  · rw [if_pos hend]
    exact .ended
  · rw [if_neg hend]
    by_cases hproxy : (o.proxy || (opts.bluegreen && o.current_binds_http)) = true
    · rw [if_pos hproxy]
      cases how.internal_port with
      | none => exact .refused
      | some port => exact .proxied hexit hverified (applyGreenBehindProxy_proxied ..)
    · rw [if_neg hproxy]
      exact .direct hexit hverified (applyGreen_applied ..)

theorem cargo_done_built (opts : Session) (o : Orchestrator) (build : Build) (exit : CargoExit)
    (how : Serving) :
    Built opts o exit how (cargo_done opts o build exit how).1
      (cargo_done opts o build exit how).2 := by
  unfold cargo_done
  dsimp only
  cases hexit : cargo_outcome build.superseded exit with
  | Killed => exact .refused
  | Red => exact .refused
  | Green exe_path =>
    have hsuccess : exit = .success (some exe_path) := by
      unfold cargo_outcome at hexit
      split at hexit
      · exact congrArg _ (congrArg _ (CargoOutcome.Green.inj hexit))
      · cases hexit
      · split_ifs at hexit
      · cases hexit
    dsimp only
    by_cases hclaim : (o.building.isSome && how.verified) = true
    · rw [if_pos hclaim]
      exact serve_built hsuccess (Bool.and_eq_true_iff.1 hclaim).2
    · rw [if_neg hclaim]
      exact .refused

/-- A build and what is written before it leave the process alone. -/
theorem rebuild_supervisor (opts : Session) (o : Orchestrator) (emitted : EmittedProject)
    (written started : Bool) :
    (rebuild opts o emitted written started).supervisor = o.supervisor ∧
      (rebuild opts o emitted written started).world = o.world := by
  cases written <;> cases started <;> exact ⟨rfl, rfl⟩

theorem Compiled.supervisor [Json.Library] {r : Report} (h : Compiled opts o written started outcome r o') :
    o'.supervisor = o.supervisor ∧ o'.world = o.world := by
  cases h with
  | stopped => exact ⟨rfl, rfl⟩
  | pushed => exact ⟨rfl, rfl⟩
  | rebuilt => exact rebuild_supervisor ..

@[simp] theorem leave_live (opts : Session) (w : World) (build : Build) (exit : CargoExit) :
    (leave opts w build exit).live = w.live := by
  unfold leave
  split <;> rfl

end Inversion

end IpeLang.Watch
