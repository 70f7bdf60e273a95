import ValyriaApp.Lib.OrderedMap
import ValyriaApp.Protocol.Registry

/-! # The normalized store

Everything in the store is derived from the event stream and can be rebuilt by
replaying it. A record keyed by strings is the ordered map of its own
properties; a field that may be `null` is an option.
-/

namespace ValyriaApp

abbrev Record (α : Type) := OrderedMap String α

inductive ConnectionState where
  | starting | connecting | ready | degraded | reconnecting | incompatible | failed
  deriving DecidableEq

/-- Core's task states; a name outside its vocabulary is `unknown`. -/
inductive TaskState where
  | idle | understanding | discovery | planning | implementing | verifying | repairing
  | waitingForPermission | paused | completed | failed | cancelled
  | unknown
  deriving DecidableEq

structure TaskProjection where
  id : String
  state : TaskState
  objective : Option String
  lastSeq : Num
  firstSeenSeq : Num
  firstTs : Num
  lastTs : Num
  terminal : Bool

structure EventRow where
  seq : Num
  ts : Num
  kind : String
  taskId : Option String
  payload : Option Json
  degraded : Bool

/-- Latest plan seen for a task. -/
structure PlanProjection where
  taskId : String
  seq : Num
  payload : Option Json

/-- Latest approval ask for a task. -/
structure ApprovalProjection where
  taskId : String
  seq : Num
  payload : Option Json

structure FileChangeProjection where
  path : String
  change : Option String
  firstSeq : Num
  lastSeq : Num

inductive TestOutcome where
  | started | passed | failed
  deriving DecidableEq

structure FailureLocation where
  path : String
  line : Option Num

structure FailureProjection where
  kind : Option String
  message : Option String
  failingTest : Option String
  locations : List FailureLocation

structure TestRunProjection where
  command : String
  outcome : TestOutcome
  runId : Option String
  failureCount : Option Num
  summary : Option String
  failures : List FailureProjection
  seq : Num

structure TestProjection where
  taskId : String
  runs : List TestRunProjection

inductive InstallStatus where
  | running | completed | failed
  deriving DecidableEq

/-- A model or engine install, by its latest event. -/
structure ModelInstallProjection where
  id : String
  phase : Option String
  downloadedBytes : Num
  totalBytes : Num
  status : InstallStatus
  code : Option String
  message : Option String
  lastSeq : Num

inductive ServerState where
  | starting | ready | failed | stopped
  deriving DecidableEq

/-- A per-role model server, by its latest event. -/
structure ModelServerProjection where
  role : String
  modelId : String
  state : ServerState
  port : Option Num
  code : Option String
  message : Option String
  lastSeq : Num

structure StoreState where
  connection : ConnectionState
  /-- The highest sequence number applied, `0` before the first event. -/
  lastSeq : Num
  gapDetected : Bool
  tasks : Record TaskProjection
  plans : Record PlanProjection
  approvals : Record ApprovalProjection
  files : Record (List FileChangeProjection)
  tests : Record TestProjection
  modelInstalls : Record ModelInstallProjection
  engineInstalls : Record ModelInstallProjection
  modelServers : Record ModelServerProjection
  events : List EventRow

def emptyStore : StoreState where
  connection := .starting
  lastSeq := 0
  gapDetected := false
  tasks := .empty
  plans := .empty
  approvals := .empty
  files := .empty
  tests := .empty
  modelInstalls := .empty
  engineInstalls := .empty
  modelServers := .empty
  events := []

end ValyriaApp
