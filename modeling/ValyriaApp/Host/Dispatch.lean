import ValyriaApp.Bridge.CoreClient
import ValyriaApp.Host.About
import ValyriaApp.Lib.ExceptState
import ValyriaApp.Rpc.Message

/-! # The methods of the host

A request is handled to its end before the next one is read. A handler takes
its parameters first, then the open session, and then acts: it calls Core,
spawns a daemon, stops one or writes a config file. What it does is logged in
order, together with what it reports on the way. The objects it makes hold their
properties in the order of their keys.
-/

namespace ValyriaApp.BridgeHost.Dispatch

open Bridge Bridge.CoreClient Rpc

/-- `EXPECTED_PROTOCOL`. -/
def expectedProtocol : String := "1.12.0"

namespace RpcError

def methodNotFound (method : String) : RpcError :=
  ⟨-32601, "method not implemented: " ++ method, none⟩

def invalidParams (msg : String) : RpcError := ⟨-32602, msg, none⟩

/-- The stable code travels in `data`. -/
def bridge (code msg : String) : RpcError := ⟨-32000, msg, some (.str code)⟩

end RpcError

def mapErr (e : CoreClient.BridgeError) : RpcError := RpcError.bridge e.code e.toString

def noSession : RpcError := RpcError.bridge "bridge.no_session" "no session is open"

/-! ## The state of the host and what it does -/

structure Live where
  session : LiveSession
  lastSeq : ℕ

/-- What a handler does outside the host. -/
inductive Effect where
  | core (r : CoreClient.Request)
  | spawnOrAdopt (config : SupervisorConfig) (bin : String)
  | shutdownDaemon
  | writeKey (path key value : String)
  deriving DecidableEq

/-- What the host meets outside; the answers of Core may differ from call to call. -/
structure World where
  core : ℕ → CoreClient.Request → CoreClient.Reply
  /-- The id, the socket and the session of the daemon. -/
  spawnOrAdopt : SupervisorConfig → String →
    Except CoreClient.BridgeError (String × String × Session)
  writeKey : String → String → String → Except CoreClient.BridgeError Unit
  /-- `$VALYRIA_BIN`. -/
  valyriaBin : Option String
  sidecar : Option String
  pathExists : String → Bool
  isExecutable : String → Bool
  valyriaHome : String
  /-- `{:?}` of a string. -/
  debug : String → String

/-- A host while it handles a request, with what it has done and reported. -/
structure Turn where
  live : Option Live
  effects : List Effect
  reports : List (String × Json)

abbrev Serve := ExceptT RpcError (StateM Turn)

def emit (method : String) (params : Json) : Serve Unit :=
  modify fun t => { t with reports := t.reports ++ [(method, params)] }

def emitState (state : String) (detail : Option String) : Serve Unit :=
  emit "core/connectionState"
    (.obj ((detail.map fun d => ("detail", Json.str d)).toList ++ [("state", .str state)]))

def act (e : Effect) : Serve Unit := modify fun t => { t with effects := t.effects ++ [e] }

def setLive (live : Option Live) : Serve Unit := modify fun t => { t with live }

def live : Serve Live := do
  match (← get).live with
  | some live => pure live
  | none => throw noSession

/-- `map_err(map_err)`. -/
def orThrow {α : Type} : Except CoreClient.BridgeError α → Serve α
  | .ok a => pure a
  | .error e => throw (mapErr e)

/-- One call of the client of the open session. -/
def call (w : World) (q : Query) : Serve Json := do
  let n := (← get).effects.length
  act (.core q.request)
  orThrow (q.run (w.core n q.request))

def withClient (w : World) (q : Query) : Serve Json := do
  let _ ← live
  call w q

/-! ## Parameters -/

def strParam (params : Json) (key : String) : Serve String :=
  match (params.get? key).bind Json.str? with
  | some s => pure s
  | none => throw (RpcError.invalidParams ("missing string param `" ++ key ++ "`"))

def optStr (params : Json) (key : String) : Option String := (params.get? key).bind Json.str?

def asBool : Json → Option Bool
  | .bool b => some b
  | _ => none

def optBool (params : Json) (key : String) : Option Bool := (params.get? key).bind asBool

/-- `as_u64`: a number that is written without a fraction and fits. -/
def asU64 : Json → Option ℕ
  | .num (.fin q) => if q.den = 1 ∧ 0 ≤ q.num ∧ q.num < 2 ^ 64 then some q.num.toNat else none
  | _ => none

theorem asU64_natCast {n : ℕ} (h : n < 2 ^ 64) : asU64 (.num n) = some n := by
  rw [Num.natCast_def, asU64]
  simp only [Rat.den_natCast, Rat.num_natCast, Int.toNat_natCast, true_and]
  exact if_pos ⟨Int.natCast_nonneg n, by exact_mod_cast h⟩

def optU64 (params : Json) (key : String) : Option ℕ := (params.get? key).bind asU64

/-- `as u32`. -/
def optU32 (params : Json) (key : String) : Option ℕ := (optU64 params key).map (· % 2 ^ 32)

def strArray (params : Json) (key : String) : List String :=
  match params.get? key with
  | some (.arr xs) => xs.filterMap Json.str?
  | _ => []

/-! ## Sessions -/

def optJson {α : Type} (f : α → Json) : Option α → Json
  | some a => f a
  | none => .null

def SessionInfo.json (i : SessionInfo) : Json :=
  .obj [("authenticated", .bool i.authenticated), ("capabilities", .arr (i.capabilities.map .str)),
    ("origin", .str i.origin), ("ownsDaemon", .bool i.ownsDaemon),
    ("permissionMode", optJson .str i.permissionMode), ("protocolVersion", .str i.protocolVersion),
    ("runtimeVersion", .str i.runtimeVersion), ("socketPath", .str i.socketPath),
    ("workspaceId", .str i.workspaceId), ("workspaceRoot", .str i.workspaceRoot)]

def AboutInfo.json (i : AboutInfo) : Json :=
  .obj [("bridgeHost", .str i.bridgeHost), ("compatibility", .str i.compatibility),
    ("expectedProtocol", .str i.expectedProtocol), ("session", optJson SessionInfo.json i.session)]

/-- `CoreBinary::checked`. -/
def checked (w : World) (path : String) : Except CoreClient.BridgeError String :=
  if !w.pathExists path then .error .coreBinaryNotFound
  else if !w.isExecutable path then .error (.coreBinaryNotExecutable path)
  else .ok path

/-- `CoreBinary::resolve`: the first choice that is set is the only one tried. -/
def resolve (w : World) (settingsOverride sidecar : Option String) :
    Except CoreClient.BridgeError String :=
  match settingsOverride, w.valyriaBin, sidecar with
  | some path, _, _ => checked w path
  | none, some path, _ => checked w path
  | none, none, some path => checked w path
  | none, none, none => .error .coreBinaryNotFound

def buildSupervisorConfig (w : World) (root : String) (permissionMode : Option String) :
    Except CoreClient.BridgeError (SupervisorConfig × String) :=
  (resolve w none (w.sidecar.filter w.pathExists)).map fun bin =>
    (⟨root, expectedProtocol, permissionMode, false⟩, bin)

def stateFor (e : CoreClient.BridgeError) : String :=
  if e.code = "bridge.protocol.mismatch" then "incompatible" else "failed"

def sessionOpen (w : World) (root : String) (permissionMode : Option String)
    (appliedThrough : ℕ) : Serve Json := do
  emitState "connecting" none
  let (config, bin) ← orThrow (buildSupervisorConfig w root permissionMode)
  act (.spawnOrAdopt config bin)
  match w.spawnOrAdopt config bin with
  | .error e =>
    emitState (stateFor e) (some e.toString)
    throw (mapErr e)
  | .ok (id, socketPath, session) =>
    let session : LiveSession := ⟨root, id, socketPath, session⟩
    setLive (some ⟨session, appliedThrough⟩)
    emitState "ready" none
    pure (SessionInfo.json (.of session))

def sessionStatus : Serve Json := do
  match (← get).live with
  | none => pure .null
  | some live => pure (SessionInfo.json (.of live.session))

def sessionClose : Serve Json := do
  setLive none
  emitState "starting" (some "session closed")
  pure .null

/-- An adopted daemon is not ours to stop. -/
def sessionRestart (w : World) (mode : String) : Serve Json := do
  let live ← live
  if live.session.session.child.isNone then
    throw (RpcError.bridge "bridge.autonomy.not_owned"
      "Core for this workspace was started by another process; stop it there to change autonomy.")
  setLive none
  act .shutdownDaemon
  sessionOpen w live.session.root (some mode) live.lastSeq

def about : Serve Json := do
  pure (AboutInfo.json (aboutInfo expectedProtocol ((← get).live.map Live.session)))

/-! ## Config -/

inductive ConfigScope where
  | workspace
  | user
  deriving DecidableEq

def ConfigScope.parse (debug : String → String) (s : String) :
    Except CoreClient.BridgeError ConfigScope :=
  if s = "workspace" then .ok .workspace
  else if s = "user" then .ok .user
  else .error (.config ("unknown config scope " ++ debug s ++
    " (expected \"workspace\" or \"user\")"))

/-- `Path::join`. -/
def join (dir name : String) : String :=
  if dir = "" ∨ dir.toList.getLast? = some '/' then dir ++ name else dir ++ "/" ++ name

def configPath (w : World) (scope : ConfigScope) (dataDir : Option String) :
    Except CoreClient.BridgeError String :=
  match scope, dataDir with
  | .user, _ => .ok (join w.valyriaHome "config.toml")
  | .workspace, some dir => .ok (join dir "config.toml")
  | .workspace, none => .error (.config "workspace scope needs a data_dir")

/-- Only the workspace scope needs to ask Core. -/
def dataDir (w : World) : ConfigScope → Serve (Option String)
  | .workspace => do
    let status ← call w workspaceStatus
    pure ((status.get? "data_dir").bind Json.str?)
  | .user => pure none

/-- Write, then read back the effective value. -/
def configWrite (w : World) (scope key value : String) : Serve Json := do
  let scope ← orThrow (ConfigScope.parse w.debug scope)
  let _ ← live
  let dir ← dataDir w scope
  let path ← orThrow (configPath w scope dir)
  act (.writeKey path key value)
  orThrow (w.writeKey path key value)
  call w configShow

/-! ## The table -/

def scopedDecision (allow : Bool) (scope : String) : String :=
  if !allow then "deny" else if scope = "task" then "task" else "once"

/-- The methods that only name a task. -/
def forTask (q : String → Query) (w : World) (params : Json) : Serve Json := do
  let t ← strParam params "taskId"
  withClient w (q t)

/-- The methods that only name a model. -/
def forModel (q : String → Query) (w : World) (params : Json) : Serve Json := do
  let id ← strParam params "id"
  withClient w (q id)

/-- `model/activate`, and `model/restartServer` the same. -/
def activate (w : World) (params : Json) : Serve Json := do
  let id ← strParam params "id"
  let role ← strParam params "role"
  withClient w (modelActivate id role)

abbrev Handler := World → Json → Serve Json

def methods : List (String × Handler) := [
  ("session/open", fun w params => do
    let root ← strParam params "workspaceRoot"
    sessionOpen w root (optStr params "permissionMode")
      ((optU64 params "appliedThrough").getD 0)),
  ("session/status", fun _ _ => sessionStatus),
  ("session/close", fun _ _ => sessionClose),
  ("session/restart", fun w params => do
    let mode ← strParam params "permissionMode"
    sessionRestart w mode),
  ("about/info", fun _ _ => about),
  ("task/create", fun w params => do
    let objective ← strParam params "objective"
    let v ← withClient w (taskCreateWithMode objective (optStr params "mode"))
    pure (.obj [("taskId", v)])),
  ("task/list", fun w _ => withClient w taskList),
  ("task/status", forTask taskStatus),
  ("task/plan", forTask taskPlan),
  ("task/report", forTask taskReport),
  ("task/children", forTask taskChildren),
  ("task/artifacts", forTask taskArtifacts),
  ("plan/revisions", forTask planRevisions),
  ("task/rollback", fun w params => do
    let t ← strParam params "taskId"
    let cp ← strParam params "checkpointId"
    withClient w (taskRollback t cp)),
  ("task/pause", forTask taskPause),
  ("task/resume", forTask taskResume),
  ("task/cancel", forTask taskCancel),
  ("permission/resolve", fun w params => do
    let t ← strParam params "taskId"
    withClient w (permissionResolve t ((optBool params "allow").getD false))),
  ("permission/resolveScoped", fun w params => do
    let t ← strParam params "taskId"
    let scope ← strParam params "scope"
    let decision := scopedDecision ((optBool params "allow").getD false) scope
    withClient w (permissionResolveScoped t none decision)),
  ("config/show", fun w _ => withClient w configShow),
  ("config/set", fun w params => do
    let key ← strParam params "key"
    let value ← strParam params "value"
    withClient w (configSet key value ((optStr params "scope").getD "repo"))),
  ("config/write", fun w params => do
    let key ← strParam params "key"
    let value ← strParam params "value"
    let scope ← strParam params "scope"
    configWrite w scope key value),
  ("doctor/run", fun w _ => withClient w doctorRun),
  ("workspace/status", fun w _ => withClient w workspaceStatus),
  ("search/query", fun w params => do
    let q ← strParam params "query"
    withClient w (searchQuery q (strArray params "modes") (strArray params "anchors")
      (optU32 params "limit"))),
  ("index/status", fun w _ => withClient w indexStatus),
  ("index/build", fun w _ => withClient w indexBuild),
  ("git/status", fun w _ => withClient w gitStatus),
  ("git/diff", fun w params =>
    withClient w (gitDiff (optStr params "path") ((optBool params "staged").getD false))),
  ("git/log", fun w params => withClient w (gitLog (optU32 params "limit"))),
  ("git/branches", fun w _ => withClient w gitBranches),
  ("model/list", fun w _ => withClient w modelList),
  ("model/recommend", fun w params =>
    withClient w (modelRecommend ((optStr params "role").getD "primary_coder"))),
  ("model/install", fun w params => do
    let id ← strParam params "id"
    withClient w (modelInstall id ((optBool params "acceptLicense").getD false))),
  ("model/cancelInstall", forModel modelInstallCancel),
  ("model/remove", forModel modelRemove),
  ("model/activate", activate),
  ("model/restartServer", activate),
  ("model/inspect", forModel modelInspect),
  ("model/endpointAdd", fun w params => do
    let id ← strParam params "id"
    let baseUrl ← strParam params "baseUrl"
    withClient w (modelEndpointAdd id baseUrl (optStr params "displayName")
      (optStr params "remoteModelName") (optU32 params "contextLength")
      (optBool params "supportsNativeTools") (optBool params "supportsGrammar"))),
  ("model/endpointRemove", forModel modelEndpointRemove),
  ("model/endpointList", fun w _ => withClient w modelEndpointList),
  ("catalog/refresh", fun w params => do
    let catalogUrl ← strParam params "catalogUrl"
    let signatureUrl ← strParam params "signatureUrl"
    withClient w (catalogRefresh catalogUrl signatureUrl)),
  ("hardware/probe", fun w _ => withClient w hardwareProbe),
  ("ledger/changes", forTask ledgerChanges)]

def dispatch (w : World) (method : String) (params : Json) : Serve Json :=
  match methods.lookup method with
  | some handler => handler w params
  | none => throw (RpcError.methodNotFound method)

def respond (id : Json) : Except RpcError Json → Outgoing
  | .ok v => .ok id v
  | .error e => .err id e

/-- What is left of a request: the session open after it, what it did and what was sent. -/
structure Handled where
  live : Option Live
  effects : List Effect
  sent : List Outgoing

/-- A request without an id is ignored, every other is answered when it is done. -/
def handle (w : World) (live : Option Live) (req : Incoming) : Handled :=
  match req.id with
  | none => ⟨live, [], []⟩
  | some id =>
    let (result, turn) := ExceptState.exec (dispatch w req.method req.params) ⟨live, [], []⟩
    ⟨turn.live, turn.effects,
      turn.reports.map (fun r => .notification r.1 r.2) ++ [respond id result]⟩

end ValyriaApp.BridgeHost.Dispatch
