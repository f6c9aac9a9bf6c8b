import IpeLang.Lib.Machine

/-!
# The supervised process

`compiler/watch/src/process.rs`: the state machine of the one process that a watch keeps running.
It is `SupervisorState`, next to the world that it acts on: what the disk holds, which processes
live and which upstream the front proxy has.

What the operating system decides (whether a process can be spawned, whether it answers its
readiness probe in time) is an input, an `Attempt` for every spawn. `World.served` records which
images have ever passed readiness, `World.exited` which processes have ended by themselves.

The last-good artifact is a path with a hash, and the fall-back spawns whatever is at that path.
`lastGood_truthful_iff` says when that is the artifact.
-/

namespace IpeLang.Watch

open IpeLang.Lib

abbrev Bytes := List UInt8

abbrev Path := String

/-- A SHA-256 digest. -/
abbrev Digest := BitVec 256

/-! ### The world -/

/-- A spawned process, with the bytes that it was spawned from. -/
structure Child where
  pid : ℕ
  image : Bytes
  deriving DecidableEq, Repr

/-- How a spawn goes: an error of the spawn itself, or else what the readiness probe finds. -/
inductive Attempt
  | spawnFails (error : String)
  | exits (status : String)
  | timesOut
  | ready
  deriving DecidableEq, Repr

/-- What the supervisor acts on. -/
structure World where
  disk : Path → Option Bytes
  live : List Child := []
  nextPid : ℕ := 0
  upstream : Option UInt16 := none
  served : List Bytes := []
  exited : List Child := []

/-- The error of reading a file that is not there. -/
def notFound : String := "No such file or directory (os error 2)"

def World.read (w : World) (path : Path) : Except String Bytes :=
  match w.disk path with
  | some bytes => .ok bytes
  | none => .error notFound

/-- Spawn what is on disk at a path. -/
def World.spawn (w : World) (attempt : Attempt) (path : Path) : Except String Child × World :=
  match attempt with
  | .spawnFails e => (.error e, w)
  | _ =>
    match w.read path with
    | .error e => (.error e, w)
    | .ok image =>
      let child : Child := ⟨w.nextPid, image⟩
      (.ok child, { w with live := child :: w.live, nextPid := w.nextPid + 1 })

/-- Stop a process and reap it. -/
def World.stop (w : World) (child : Child) : World := { w with live := w.live.erase child }

/-- A process ends by itself. -/
def World.exit (w : World) (child : Child) : World :=
  { w.stop child with exited := child :: w.exited }

/-- Stop a process, giving it some time to end by itself. -/
def stopGracefully (w : World) (child : Child) : World := w.stop child

/-- Wait until a spawned process is ready, or kill it. -/
def awaitReady (w : World) (attempt : Attempt) (spawned : Except String Child) :
    Except String Child × World :=
  match spawned with
  | .error e => (.error s!"spawn failed: {e}", w)
  | .ok child =>
    match attempt with
    | .ready => (.ok child, { w with served := child.image :: w.served })
    | .exits status => (.error s!"process exited before becoming ready: {status}", w.stop child)
    | _ => (.error "readiness probe timed out", w.stop child)

/-- Spawn what is on disk at a path and wait until it is ready. -/
def World.launch (w : World) (attempt : Attempt) (path : Path) : Except String Child × World :=
  let (spawned, w) := w.spawn attempt path
  awaitReady w attempt spawned

/-! ### The supervisor -/

/-- An artifact that has passed its readiness probe: where it is and what its bytes hash to. -/
structure LastGoodBinary where
  artifactPath : Path
  contentHash : Digest
  deriving DecidableEq, Repr

/-- Hash the bytes of an artifact. -/
def LastGoodBinary.hash (sha256 : Bytes → Digest) (w : World) (artifactPath : Path) :
    Except String LastGoodBinary := do
  let bytes ← w.read artifactPath
  return ⟨artifactPath, sha256 bytes⟩

inductive RestartOutcome
  | spawned
  | unchangedBinary
  | restarted
  | respawnedLastGood (broken : Path)
  | nothingRunning (broken : Path) (lastGoodError : Option String)
  deriving DecidableEq, Repr

inductive SupervisorState
  | notRunning (lastGood : Option LastGoodBinary)
  | running (child : Child) (artifact : LastGoodBinary)
  deriving DecidableEq, Repr

namespace SupervisorState

def fresh : SupervisorState := .notRunning none

def isRunning : SupervisorState → Bool
  | .running _ _ => true
  | .notRunning _ => false

/-- The artifact that a failed candidate falls back to. -/
def lastGood : SupervisorState → Option LastGoodBinary
  | .notRunning lastGood => lastGood
  | .running _ artifact => some artifact

/-- Whether the running artifact has this hash. -/
def isUnchanged (s : SupervisorState) (contentHash : Digest) : Bool :=
  match s with
  | .running _ artifact => artifact.contentHash == contentHash
  | .notRunning _ => false

/-- Stop what is running. -/
def stopRunning (s : SupervisorState) (w : World) : World :=
  match s with
  | .running child _ => stopGracefully w child
  | .notRunning _ => w

/-- A green build whose process takes over the port of the old one: the old process is stopped
first. `first` is the attempt with the candidate, `second` the one with the last good artifact. -/
def applyGreen (sha256 : Bytes → Digest) (s : SupervisorState) (w : World) (candidatePath : Path)
    (first second : Attempt) : RestartOutcome × SupervisorState × World :=
  match LastGoodBinary.hash sha256 w candidatePath with
  | .error e => (.nothingRunning candidatePath (some s!"cannot hash candidate: {e}"), s, w)
  | .ok candidate =>
    if s.isUnchanged candidate.contentHash then (.unchangedBinary, s, w)
    else
      let hadPriorRunning := s.isRunning
      let w := s.stopRunning w
      let (ready, w) := w.launch first candidatePath
      match ready with
      | .ok child =>
        (if hadPriorRunning then .restarted else .spawned, .running child candidate, w)
      | .error _ =>
        match s.lastGood with
        | none =>
          (.nothingRunning candidatePath (some "no prior last-good artifact to fall back to"),
            .notRunning none, w)
        | some lastGood =>
          let (ready, w) := w.launch second lastGood.artifactPath
          match ready with
          | .ok child => (.respawnedLastGood candidatePath, .running child lastGood, w)
          | .error e => (.nothingRunning candidatePath (some e), .notRunning (some lastGood), w)

/-- A green build whose process gets a port of its own behind the front proxy: the old process
stays until the new one is ready and the proxy has been switched. -/
def applyGreenBehindProxy (sha256 : Bytes → Digest) (s : SupervisorState) (w : World)
    (candidatePath : Path) (internalPort : UInt16) (attempt : Attempt) :
    RestartOutcome × SupervisorState × World :=
  match LastGoodBinary.hash sha256 w candidatePath with
  | .error e => (.nothingRunning candidatePath (some s!"cannot hash candidate: {e}"), s, w)
  | .ok candidate =>
    if s.isUnchanged candidate.contentHash then (.unchangedBinary, s, w)
    else
      let hadPriorRunning := s.isRunning
      let (ready, w) := w.launch attempt candidatePath
      match ready with
      | .ok child =>
        let w := { w with upstream := some internalPort }
        let w := s.stopRunning w
        (if hadPriorRunning then .restarted else .spawned, .running child candidate, w)
      | .error _ =>
        if hadPriorRunning then (.respawnedLastGood candidatePath, s, w)
        else
          (.nothingRunning candidatePath
            (some "new binary failed readiness and nothing was running to keep"),
            .notRunning none, w)

/-- The watcher goes away. -/
def shutdown (s : SupervisorState) (w : World) : SupervisorState × World :=
  (.notRunning s.lastGood, s.stopRunning w)

end SupervisorState

end IpeLang.Watch
