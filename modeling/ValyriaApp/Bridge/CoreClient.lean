import ValyriaApp.Protocol.Json

/-! # The Core client

A call of the client is one request and the one variant of the response that
answers it; everything else the socket brings is an error of the bridge. The
bodies of the responses are Core's, the client hands them on as they are.
-/

namespace ValyriaApp.Bridge.CoreClient

/-- The errors of the bridge that a request of the extension can end with. -/
inductive BridgeError where
  | coreBinaryNotFound
  | coreBinaryNotExecutable (path : String)
  | workspaceRoot (root source : String)
  | runDir (dir source : String)
  | protocolMismatch (expected got : String)
  | handshake (message : String)
  | transport (message : String)
  | spawn (bin source : String)
  | startupTimeout (waitedMs : ℕ)
  | protocol (code message : String) (retryable : Bool)
  | unexpectedResponse (message : String)
  | fs (path source : String)
  | config (message : String)
  deriving DecidableEq

def BridgeError.code : BridgeError → String
  | .coreBinaryNotFound => "bridge.core_binary.not_found"
  | .coreBinaryNotExecutable _ => "bridge.core_binary.not_executable"
  | .workspaceRoot _ _ => "bridge.workspace.bad_root"
  | .runDir _ _ => "bridge.run_dir"
  | .protocolMismatch _ _ => "bridge.protocol.mismatch"
  | .handshake _ => "bridge.handshake"
  | .transport _ => "bridge.transport"
  | .spawn _ _ => "bridge.spawn"
  | .startupTimeout _ => "bridge.startup_timeout"
  | .protocol _ _ _ => "bridge.protocol.error"
  | .unexpectedResponse _ => "bridge.protocol.unexpected"
  | .fs _ _ => "bridge.fs.io"
  | .config _ => "bridge.config.write"

/-- `Display`. -/
def BridgeError.toString : BridgeError → String
  | .coreBinaryNotFound =>
    "no Core binary found: checked settings override, $VALYRIA_BIN, and the bundled sidecar"
  | .coreBinaryNotExecutable path => "Core binary at " ++ path ++ " is not executable"
  | .workspaceRoot root source =>
    "could not resolve a canonical path for workspace root " ++ root ++ ": " ++ source
  | .runDir dir source => "could not prepare the run directory " ++ dir ++ ": " ++ source
  | .protocolMismatch expected got =>
    "Core spoke protocol " ++ got ++ "; this app was built against " ++ expected ++
      " (core.lock.json)"
  | .handshake message => "the `hello` handshake failed: " ++ message
  | .transport message => "transport error talking to Core: " ++ message
  | .spawn bin source => "could not spawn `" ++ bin ++ " serve`: " ++ source
  | .startupTimeout waitedMs =>
    "Core did not become reachable within " ++ waitedMs.repr ++ "ms of spawning"
  | .protocol code message _ => "Core returned an error [" ++ code ++ "]: " ++ message
  | .unexpectedResponse message => "unexpected response from Core: " ++ message
  | .fs path source => "filesystem error at " ++ path ++ ": " ++ source
  | .config message => "config file error: " ++ message

/-! ## Requests and responses -/

/-- The requests the client sends, with their fields. -/
inductive Request where
  | workspaceStatus
  | taskCreate (objective : String) (permissionMode : Option String)
  | taskList
  | taskStatus (taskId : String)
  | taskReport (taskId : String)
  | taskPlan (taskId : String)
  | taskChildren (taskId : String)
  | taskArtifacts (taskId : String)
  | planRevisions (taskId : String)
  | taskRollback (taskId checkpointId : String)
  | taskPause (taskId : String)
  | taskResume (taskId : String)
  | taskCancel (taskId : String)
  | permissionResolve (taskId : String) (approve : Bool) (requestId decision : Option String)
  | doctorRun
  | configShow
  | modelList
  | configSet (key value scope : String)
  | gitStatus
  | gitDiff (path : Option String) (staged : Bool)
  | gitLog (limit : Option ℕ)
  | gitBranches
  | searchQuery (query : String) (modes anchors : List String) (limit : Option ℕ)
  | indexStatus
  | indexBuild
  | hardwareProbe
  | modelRecommend (role : String)
  | modelInstall (id : String) (acceptLicense : Bool)
  | modelInstallCancel (id : String)
  | modelRemove (id : String)
  | modelActivate (id role : String)
  | modelInspect (id : String)
  | modelEndpointAdd (id baseUrl : String) (displayName remoteModelName : Option String)
      (contextLength : Option ℕ) (supportsNativeTools supportsGrammar : Option Bool)
  | modelEndpointRemove (id : String)
  | modelEndpointList
  | catalogRefresh (catalogUrl signatureUrl : String)
  | ledgerChanges (taskId : String)
  deriving DecidableEq

/-- The variants of `Response` the client waits for. -/
inductive Variant where
  | workspaceStatus | taskCreate | taskList | taskStatus | taskReport | taskPlan | taskChildren
  | taskArtifacts | planRevisions | taskRollback | doctorRun | configShow | modelList | gitStatus
  | gitDiff | gitLog | gitBranches | searchQuery | indexStatus | indexBuild | hardwareProbe
  | modelRecommend | modelRemove | modelInspect | modelEndpointList | catalogRefresh
  | ledgerChanges | ack
  deriving DecidableEq

def Variant.name : Variant → String
  | .workspaceStatus => "WorkspaceStatus"
  | .taskCreate => "TaskCreate"
  | .taskList => "TaskList"
  | .taskStatus => "TaskStatus"
  | .taskReport => "TaskReport"
  | .taskPlan => "TaskPlan"
  | .taskChildren => "TaskChildren"
  | .taskArtifacts => "TaskArtifacts"
  | .planRevisions => "PlanRevisions"
  | .taskRollback => "TaskRollback"
  | .doctorRun => "DoctorRun"
  | .configShow => "ConfigShow"
  | .modelList => "ModelList"
  | .gitStatus => "GitStatus"
  | .gitDiff => "GitDiff"
  | .gitLog => "GitLog"
  | .gitBranches => "GitBranches"
  | .searchQuery => "SearchQuery"
  | .indexStatus => "IndexStatus"
  | .indexBuild => "IndexBuild"
  | .hardwareProbe => "HardwareProbe"
  | .modelRecommend => "ModelRecommend"
  | .modelRemove => "ModelRemove"
  | .modelInspect => "ModelInspect"
  | .modelEndpointList => "ModelEndpointList"
  | .catalogRefresh => "CatalogRefresh"
  | .ledgerChanges => "LedgerChanges"
  | .ack => "Ack"

structure WireError where
  code : String
  message : String
  retryable : Bool

/-- What a call of the socket brings. A response that the client waits for nowhere has no variant;
`debug` is how it is printed. -/
inductive Reply where
  | timedOut
  | error (e : WireError)
  | response (variant : Option Variant) (body : Json) (debug : String)

def mapWireError (e : WireError) : BridgeError :=
  if e.code = "protocol.transport" then .transport e.message
  else .protocol e.code e.message e.retryable

def unexpected (wanted : Variant) (got : String) : BridgeError :=
  .unexpectedResponse ("wanted " ++ wanted.name ++ ", got " ++ got)

/-- One call: the request, the variant that answers it, what is kept of its body, and what is said
when the time is up. -/
structure Query where
  request : Request
  wanted : Variant
  keep : Json → Json
  timedOut : String

/-- `call` and the `match` on its response. -/
def Query.run (q : Query) : Reply → Except BridgeError Json
  | .timedOut => .error (.transport q.timedOut)
  | .error e => .error (mapWireError e)
  | .response variant body debug =>
    if variant = some q.wanted then .ok (q.keep body) else .error (unexpected q.wanted debug)

/-! ## The methods -/

/-- A method that hands on the body of its variant. -/
def fetch (request : Request) (wanted : Variant) : Query where
  request := request
  wanted := wanted
  keep := id
  timedOut := "call timed out after 30s"

/-- A method that waits for `Ack` and returns nothing. -/
def ack (request : Request) : Query := { fetch request .ack with keep := fun _ => .null }

def workspaceStatus : Query := fetch .workspaceStatus .workspaceStatus

def taskCreateWithMode (objective : String) (permissionMode : Option String) : Query :=
  { fetch (.taskCreate objective permissionMode) .taskCreate with
    keep := fun r => (r.get? "task_id").getD .null }

def taskList : Query := fetch .taskList .taskList
def taskStatus (taskId : String) : Query := fetch (.taskStatus taskId) .taskStatus
def taskReport (taskId : String) : Query := fetch (.taskReport taskId) .taskReport
def taskPlan (taskId : String) : Query := fetch (.taskPlan taskId) .taskPlan
def taskChildren (taskId : String) : Query := fetch (.taskChildren taskId) .taskChildren
def taskArtifacts (taskId : String) : Query := fetch (.taskArtifacts taskId) .taskArtifacts
def planRevisions (taskId : String) : Query := fetch (.planRevisions taskId) .planRevisions

def taskRollback (taskId checkpointId : String) : Query :=
  fetch (.taskRollback taskId checkpointId) .taskRollback

def taskPause (taskId : String) : Query := ack (.taskPause taskId)
def taskResume (taskId : String) : Query := ack (.taskResume taskId)
def taskCancel (taskId : String) : Query := ack (.taskCancel taskId)

def permissionResolveScoped (taskId : String) (requestId : Option String) (decision : String) :
    Query :=
  ack (.permissionResolve taskId (decision ≠ "deny") requestId (some decision))

def permissionResolve (taskId : String) (approve : Bool) : Query :=
  permissionResolveScoped taskId none (if approve then "once" else "deny")

def doctorRun : Query := fetch .doctorRun .doctorRun
def configShow : Query := fetch .configShow .configShow
def modelList : Query := fetch .modelList .modelList

def configSet (key value scope : String) : Query := fetch (.configSet key value scope) .configShow

def gitStatus : Query := fetch .gitStatus .gitStatus
def gitDiff (path : Option String) (staged : Bool) : Query := fetch (.gitDiff path staged) .gitDiff
def gitLog (limit : Option ℕ) : Query := fetch (.gitLog limit) .gitLog
def gitBranches : Query := fetch .gitBranches .gitBranches

def searchQuery (query : String) (modes anchors : List String) (limit : Option ℕ) : Query :=
  fetch (.searchQuery query modes anchors limit) .searchQuery

def indexStatus : Query := fetch .indexStatus .indexStatus

/-- The only call with a longer ceiling. -/
def indexBuild : Query :=
  { fetch .indexBuild .indexBuild with timedOut := "index build timed out after 600s" }

def hardwareProbe : Query := fetch .hardwareProbe .hardwareProbe
def modelRecommend (role : String) : Query := fetch (.modelRecommend role) .modelRecommend

def modelInstall (id : String) (acceptLicense : Bool) : Query :=
  ack (.modelInstall id acceptLicense)

def modelInstallCancel (id : String) : Query := ack (.modelInstallCancel id)
def modelRemove (id : String) : Query := fetch (.modelRemove id) .modelRemove
def modelActivate (id role : String) : Query := ack (.modelActivate id role)
def modelInspect (id : String) : Query := fetch (.modelInspect id) .modelInspect

def modelEndpointAdd (id baseUrl : String) (displayName remoteModelName : Option String)
    (contextLength : Option ℕ) (supportsNativeTools supportsGrammar : Option Bool) : Query :=
  ack (.modelEndpointAdd id baseUrl displayName remoteModelName contextLength supportsNativeTools
    supportsGrammar)

def modelEndpointRemove (id : String) : Query := ack (.modelEndpointRemove id)
def modelEndpointList : Query := fetch .modelEndpointList .modelEndpointList

def catalogRefresh (catalogUrl signatureUrl : String) : Query :=
  fetch (.catalogRefresh catalogUrl signatureUrl) .catalogRefresh

def ledgerChanges (taskId : String) : Query := fetch (.ledgerChanges taskId) .ledgerChanges

end ValyriaApp.Bridge.CoreClient
