import Mathlib.Data.List.Infix
import ValyriaApp.State.Store

/-! # The reducer

A decoded event below the cursor is ignored. Any other event becomes a row,
moves the cursor, raises the gap flag when it jumps ahead, and is folded into
the task it names and into the workspace-global install and server maps.
-/

namespace ValyriaApp

/-! ## Payload fields -/

def field (payload : Option Json) (key : String) : Option Json := payload.bind (Json.get? key)

def strField (payload : Option Json) (key : String) : Option String :=
  (field payload key).bind Json.str?

def numField (payload : Option Json) (key : String) : Option Num :=
  (field payload key).bind Json.num?

/-- A finite number field, or the fallback. -/
def numOr (payload : Option Json) (key : String) (fallback : Num) : Num :=
  match numField payload key with
  | some n => if n.isFinite then n else fallback
  | none => fallback

/-- A string field that is present and not empty. -/
def nameField (payload : Option Json) (key : String) : Option String :=
  (strField payload key).filter (· ≠ "")

/-! ## Installs and servers -/

inductive InstallStep where
  | progress | completed | failed

/-- Fold an install event into the entry of the install it names, latest event wins. -/
def foldInstall (idKey : String) (sizeKey : Option String) (step : EventKind → Option InstallStep)
    (prev : Record ModelInstallProjection) (seq : Num) (kind : EventKind)
    (payload : Option Json) : Record ModelInstallProjection :=
  match step kind, nameField payload idKey with
  | some step, some id =>
    let cur := prev.get? id
    let phase := cur.bind (·.phase)
    let downloaded := (cur.map (·.downloadedBytes)).getD 0
    let total := (cur.map (·.totalBytes)).getD 0
    let size (fallback : Num) := (sizeKey.map fun k => numOr payload k fallback).getD fallback
    prev.set id (match step with
      | .progress =>
        { id, phase := (strField payload "phase").or phase
          downloadedBytes := numOr payload "downloaded_bytes" downloaded
          totalBytes := numOr payload "total_bytes" total
          status := .running, code := none, message := none, lastSeq := seq }
      | .completed =>
        { id, phase, downloadedBytes := size downloaded, totalBytes := size total
          status := .completed, code := none, message := none, lastSeq := seq }
      | .failed =>
        { id, phase, downloadedBytes := downloaded, totalBytes := total, status := .failed
          code := strField payload "code", message := strField payload "message"
          lastSeq := seq })
  | _, _ => prev

def modelInstallStep : EventKind → Option InstallStep
  | .modelInstallProgress => some .progress
  | .modelInstallCompleted => some .completed
  | .modelInstallFailed => some .failed
  | _ => none

def engineInstallStep : EventKind → Option InstallStep
  | .engineInstallProgress => some .progress
  | .engineInstallCompleted => some .completed
  | .engineInstallFailed => some .failed
  | _ => none

/-- Model installs are keyed by model id; a completed one reports its size. -/
def foldModelInstall := foldInstall "id" (some "size_bytes") modelInstallStep

/-- Engine installs are keyed by component name and keep their last byte counts. -/
def foldEngineInstall := foldInstall "component" none engineInstallStep

def serverState : EventKind → Option ServerState
  | .modelServerStarting => some .starting
  | .modelServerReady => some .ready
  | .modelServerFailed => some .failed
  | .modelServerStopped => some .stopped
  | _ => none

/-- Fold a server event into the entry of its role, latest event wins. -/
def foldModelServer (prev : Record ModelServerProjection) (seq : Num) (kind : EventKind)
    (payload : Option Json) : Record ModelServerProjection :=
  match serverState kind, nameField payload "role" with
  | some state, some role =>
    let cur := prev.get? role
    prev.set role
      { role, state, lastSeq := seq
        modelId := ((strField payload "id").or (cur.map (·.modelId))).getD ""
        port := if state = .ready then numField payload "port" else none
        code := if state = .failed then strField payload "code" else none
        message := match state with
          | .failed => strField payload "message"
          | .stopped => strField payload "reason"
          | _ => none }
  | _, _ => prev

/-! ## Files and tests of a task -/

/-- `/write|edit|patch/.test(tool)`. -/
def namesWriteTool (tool : String) : Bool :=
  ["write", "edit", "patch"].any fun w => w.toList <:+: tool.toList

/-- The path a file event names, with the change it reports. -/
def changedPath (kind : EventKind) (payload : Option Json) : Option (String × Option String) :=
  match kind with
  | .fileChanged => (nameField payload "path").map fun path => (path, strField payload "change")
  | .toolStarted =>
    if namesWriteTool ((strField payload "tool").getD "") then
      (nameField (field payload "input") "path").map fun path => (path, none)
    else none
  | _ => none

def touchFile (path : String) (change : Option String) (seq : Num) :
    List FileChangeProjection → List FileChangeProjection
  | [] => [{ path, change, firstSeq := seq, lastSeq := seq }]
  | f :: fs =>
    if f.path = path then { f with change := change.or f.change, lastSeq := seq } :: fs
    else f :: touchFile path change seq fs

/-- Fold an event into the changed files of its task. -/
def foldFileChange (prev : Option (List FileChangeProjection)) (seq : Num) (kind : EventKind)
    (payload : Option Json) : List FileChangeProjection :=
  match changedPath kind payload with
  | some (path, change) => touchFile path change seq (prev.getD [])
  | none => prev.getD []

def parseLocation (loc : Json) : Option FailureLocation :=
  (strField (some loc) "path").map fun path => { path, line := numField (some loc) "line" }

def parseFailure : Json → Option FailureProjection
  | .obj fields =>
    let f := some (Json.obj fields)
    some { kind := strField f "kind", message := strField f "message"
           failingTest := strField f "failing_test"
           locations := match field f "location" with
             | some (.arr locs) => locs.filterMap parseLocation
             | _ => [] }
  | .arr _ => some { kind := none, message := none, failingTest := none, locations := [] }
  | _ => none

/-- Core's parsed failures; a malformed entry has fewer fields or is left out. -/
def parseFailures : Option Json → List FailureProjection
  | some (.arr items) => items.filterMap parseFailure
  | _ => []

def testOutcome : EventKind → Option TestOutcome
  | .testStarted => some .started
  | .testPassed => some .passed
  | .testFailed => some .failed
  | _ => none

def recordRun (run : TestRunProjection) : List TestRunProjection → List TestRunProjection
  | [] => [run]
  | r :: rs => if r.command = run.command then run :: rs else r :: recordRun run rs

/-- Fold a test event into the runs of its task, one run for each command. -/
def foldTestRun (prev : Option TestProjection) (taskId : String) (seq : Num) (kind : EventKind)
    (payload : Option Json) : Option TestProjection :=
  match testOutcome kind with
  | none => prev
  | some outcome =>
    let run : TestRunProjection :=
      { command := (strField payload "command").getD "(unnamed run)"
        outcome
        runId := strField payload "run_id"
        failureCount := numField payload "failure_count"
        summary := (strField payload "summary").or (strField payload "outcome")
        failures := parseFailures (field payload "failures")
        seq }
    some { taskId, runs := recordRun run ((prev.map (·.runs)).getD []) }

/-! ## Tasks -/

/-- `TERMINAL_STATES`: a task never leaves one of these. -/
def terminalStates : List TaskState := [.completed, .failed, .cancelled]

def knownStates : List (String × TaskState) :=
  [("idle", .idle), ("understanding", .understanding), ("discovery", .discovery),
    ("planning", .planning), ("implementing", .implementing), ("verifying", .verifying),
    ("repairing", .repairing), ("waiting_for_permission", .waitingForPermission),
    ("paused", .paused), ("completed", .completed), ("failed", .failed),
    ("cancelled", .cancelled)]

/-- Core's state names are upper case on the wire. Lowering the ASCII letters is enough: no other
character lowers to a letter of a known name. -/
def normalizeState (wire : String) : TaskState :=
  ((knownStates.find? fun k => k.1.toList = wire.toList.map Char.toLower).map Prod.snd).getD
    .unknown

/-- The state a decoded event moves its task to. -/
def nextState (kind : EventKind) (payload : Option Json) : Option TaskState :=
  match kind with
  | .stateChanged => (strField payload "to").map normalizeState
  | .taskCompleted => some .completed
  | .taskFailed => some .failed
  | _ => none

def advanceTask (prev : Option TaskProjection) (id : String) (ev : DecodedEvent) :
    TaskProjection :=
  let base := prev.getD
    { id, state := .unknown, objective := none, lastSeq := ev.seq, firstSeenSeq := ev.seq
      firstTs := ev.ts, lastTs := ev.ts, terminal := false }
  let moved := { base with lastSeq := ev.seq, lastTs := ev.ts }
  match ev.body with
  | .failed .. => moved
  | .ok kind payload =>
    { moved with
      objective := if kind = .taskStarted then (strField payload "objective").or base.objective
        else base.objective
      state := (nextState kind payload).getD base.state
      terminal := base.terminal || (nextState kind payload).any (· ∈ terminalStates) }

/-! ## Applying events -/

/-- The task an event belongs to; an empty id counts as none. -/
def owningTask (ev : DecodedEvent) : Option String := ev.taskId.filter (· ≠ "")

def rowOf (ev : DecodedEvent) : EventRow :=
  match ev.body with
  | .ok kind payload =>
    { seq := ev.seq, ts := ev.ts, kind := kind.name, taskId := ev.taskId, payload
      degraded := false }
  | .failed _ kind raw =>
    { seq := ev.seq, ts := ev.ts, kind, taskId := ev.taskId, payload := raw, degraded := true }

/-- The workspace-global folds of a decoded event. -/
def foldGlobal (s : StoreState) (ev : DecodedEvent) : StoreState :=
  match ev.body with
  | .failed .. => s
  | .ok kind payload =>
    { s with
      modelInstalls := foldModelInstall s.modelInstalls ev.seq kind payload
      engineInstalls := foldEngineInstall s.engineInstalls ev.seq kind payload
      modelServers := foldModelServer s.modelServers ev.seq kind payload }

/-- The folds of a decoded event into the projections of the task it names. Where the source
compares references to skip a copy, the copy skipped would be equal. -/
def foldTask (s : StoreState) (id : String) (ev : DecodedEvent) : StoreState :=
  let s := { s with tasks := s.tasks.set id (advanceTask (s.tasks.get? id) id ev) }
  match ev.body with
  | .failed .. => s
  | .ok kind payload =>
    { s with
      plans := if kind = .planCreated then s.plans.set id { taskId := id, seq := ev.seq, payload }
        else s.plans
      approvals := if kind = .approvalRequested then
        s.approvals.set id { taskId := id, seq := ev.seq, payload } else s.approvals
      files := s.files.set id (foldFileChange (s.files.get? id) ev.seq kind payload)
      tests := match foldTestRun (s.tests.get? id) id ev.seq kind payload with
        | some tests => s.tests.set id tests
        | none => s.tests }

def moveCursor (s : StoreState) (ev : DecodedEvent) : StoreState :=
  { s with
    lastSeq := ev.seq
    gapDetected := s.gapDetected || decide (s.lastSeq + 1 < ev.seq) }

/-- The projections, the cursor and the gap flag after a new event. -/
def advance (s : StoreState) (ev : DecodedEvent) : StoreState :=
  let next := foldGlobal (moveCursor s ev) ev
  match owningTask ev with
  | some id => foldTask next id ev
  | none => next

/-- Apply a decoded event to everything but the rows; the row to append is returned beside the
state, or `none` when the event was already applied. -/
def applyDecodedNoAppend (s : StoreState) (ev : DecodedEvent) : StoreState × Option EventRow :=
  if ev.seq < s.lastSeq + 1 then (s, none) else (advance s ev, some (rowOf ev))

def applyDecoded (s : StoreState) (ev : DecodedEvent) : StoreState :=
  match applyDecodedNoAppend s ev with
  | (next, none) => next
  | (next, some row) => { next with events := s.events ++ [row] }

/-- Apply one raw wire event. -/
def applyRawEvent (s : StoreState) (raw : Json) : StoreState := applyDecoded s (decodeEvent raw)

/-- The loop of `applyBatch`: the state so far and the rows to append. -/
def applyBatchLoop (s : StoreState) (appended : List EventRow) :
    List Json → StoreState × List EventRow
  | [] => (s, appended)
  | raw :: raws =>
    match applyDecodedNoAppend s (decodeEvent raw) with
    | (next, some row) => applyBatchLoop next (appended ++ [row]) raws
    | (next, none) => applyBatchLoop next appended raws

/-- Fold a whole batch; the rows are appended once at the end. -/
def applyBatch (s : StoreState) (raws : List Json) : StoreState :=
  match applyBatchLoop s [] raws with
  | (next, []) => next
  | (next, row :: rows) => { next with events := s.events ++ row :: rows }

/-- Set the transport-level connection state. -/
def setConnection (s : StoreState) (connection : ConnectionState) : StoreState :=
  if s.connection = connection then s else { s with connection }

/-- Replay a whole trace from the empty store. -/
def replay (raws : List Json) : StoreState := applyBatch emptyStore raws

end ValyriaApp
