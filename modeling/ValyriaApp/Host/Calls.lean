import ValyriaApp.Host.Channel

/-! # The calls of the extension

The extension declares the methods of the host with the parameters each takes.
A call is written as JSON, read by the host and handed to Core with the values
the caller gave, and its promise settles with what Core answered to it: between
a caller and Core the two processes and their pipes do not show.
-/

namespace ValyriaApp.BridgeHost

open Lib Bridge Bridge.CoreClient Rpc Dispatch ExceptState

/-! ## Calls and how they are written -/

/-- How far an approval reaches. -/
inductive ApprovalReach where
  | once | task
  deriving DecidableEq

def ApprovalReach.text : ApprovalReach → String
  | .once => "once"
  | .task => "task"

def configScopeText : ConfigScope → String
  | .workspace => "workspace"
  | .user => "user"

/-- The methods the extension declares. What may be absent is an option, and what may be `null` as
well an option of one. -/
inductive Call where
  | sessionOpen (workspaceRoot : String) (permissionMode : Option (Option String))
      (appliedThrough : Option Num)
  | sessionRestart (permissionMode : String)
  | sessionStatus
  | sessionClose
  | aboutInfo
  | taskCreate (objective : String) (mode : Option (Option String))
  | taskList
  | taskStatus (taskId : String)
  | taskPlan (taskId : String)
  | taskReport (taskId : String)
  | taskChildren (taskId : String)
  | taskArtifacts (taskId : String)
  | planRevisions (taskId : String)
  | taskRollback (taskId checkpointId : String)
  | taskPause (taskId : String)
  | taskResume (taskId : String)
  | taskCancel (taskId : String)
  | permissionResolve (taskId : String) (allow : Bool)
  | permissionResolveScoped (taskId : String) (allow : Bool) (scope : ApprovalReach)
  | configShow
  | configWrite (key value : String) (scope : ConfigScope)
  | configSet (key value : String) (scope : Option String)
  | doctorRun
  | workspaceStatus
  | searchQuery (query : String) (mode : Option String)
  | indexStatus
  | indexBuild
  | gitStatus
  | gitDiff (path : Option String)
  | gitLog (limit : Option Num)
  | gitBranches
  | modelList
  | modelRecommend (role : Option String)
  | modelInstall (id : String) (acceptLicense : Option Bool)
  | modelCancelInstall (id : String)
  | modelRemove (id : String)
  | modelActivate (id role : String)
  | modelRestartServer (id role : String)
  | modelInspect (id : String)
  | modelEndpointAdd (id baseUrl : String) (displayName remoteModelName : Option String)
      (contextLength : Option Num) (supportsNativeTools supportsGrammar : Option Bool)
  | modelEndpointRemove (id : String)
  | modelEndpointList
  | catalogRefresh (catalogUrl signatureUrl : String)
  | hardwareProbe
  | ledgerChanges (taskId : String)
  deriving DecidableEq

namespace Call

def method : Call → String
  | .sessionOpen .. => "session/open"
  | .sessionRestart _ => "session/restart"
  | .sessionStatus => "session/status"
  | .sessionClose => "session/close"
  | .aboutInfo => "about/info"
  | .taskCreate .. => "task/create"
  | .taskList => "task/list"
  | .taskStatus _ => "task/status"
  | .taskPlan _ => "task/plan"
  | .taskReport _ => "task/report"
  | .taskChildren _ => "task/children"
  | .taskArtifacts _ => "task/artifacts"
  | .planRevisions _ => "plan/revisions"
  | .taskRollback .. => "task/rollback"
  | .taskPause _ => "task/pause"
  | .taskResume _ => "task/resume"
  | .taskCancel _ => "task/cancel"
  | .permissionResolve .. => "permission/resolve"
  | .permissionResolveScoped .. => "permission/resolveScoped"
  | .configShow => "config/show"
  | .configWrite .. => "config/write"
  | .configSet .. => "config/set"
  | .doctorRun => "doctor/run"
  | .workspaceStatus => "workspace/status"
  | .searchQuery .. => "search/query"
  | .indexStatus => "index/status"
  | .indexBuild => "index/build"
  | .gitStatus => "git/status"
  | .gitDiff _ => "git/diff"
  | .gitLog _ => "git/log"
  | .gitBranches => "git/branches"
  | .modelList => "model/list"
  | .modelRecommend _ => "model/recommend"
  | .modelInstall .. => "model/install"
  | .modelCancelInstall _ => "model/cancelInstall"
  | .modelRemove _ => "model/remove"
  | .modelActivate .. => "model/activate"
  | .modelRestartServer .. => "model/restartServer"
  | .modelInspect _ => "model/inspect"
  | .modelEndpointAdd .. => "model/endpointAdd"
  | .modelEndpointRemove _ => "model/endpointRemove"
  | .modelEndpointList => "model/endpointList"
  | .catalogRefresh .. => "catalog/refresh"
  | .hardwareProbe => "hardware/probe"
  | .ledgerChanges _ => "ledger/changes"

/-- A property that is written unless it is `undefined`. -/
def given (key : String) (value : Option Json) : List (String × Json) :=
  (value.map fun v => (key, v)).toList

/-- How `JSON.stringify` writes a number. -/
def numberJson : Num → Json
  | .fin q => .num (.fin q)
  | .nan | .inf _ => .null

def ofTask (taskId : String) : Json := .obj [("taskId", .str taskId)]

def ofModel (id : String) : Json := .obj [("id", .str id)]

def params : Call → Json
  | .sessionOpen workspaceRoot permissionMode appliedThrough =>
    .obj (("workspaceRoot", .str workspaceRoot) ::
      given "permissionMode" (permissionMode.map (optJson .str)) ++
      given "appliedThrough" (appliedThrough.map numberJson))
  | .sessionRestart permissionMode => .obj [("permissionMode", .str permissionMode)]
  | .taskCreate objective mode =>
    .obj (("objective", .str objective) :: given "mode" (mode.map (optJson .str)))
  | .taskRollback taskId checkpointId =>
    .obj [("taskId", .str taskId), ("checkpointId", .str checkpointId)]
  | .taskStatus taskId | .taskPlan taskId | .taskReport taskId | .taskChildren taskId
  | .taskArtifacts taskId | .planRevisions taskId | .taskPause taskId | .taskResume taskId
  | .taskCancel taskId | .ledgerChanges taskId => ofTask taskId
  | .permissionResolve taskId allow => .obj [("taskId", .str taskId), ("allow", .bool allow)]
  | .permissionResolveScoped taskId allow scope =>
    .obj [("taskId", .str taskId), ("allow", .bool allow), ("scope", .str scope.text)]
  | .configWrite key value scope =>
    .obj [("key", .str key), ("value", .str value), ("scope", .str (configScopeText scope))]
  | .configSet key value scope =>
    .obj (("key", .str key) :: ("value", .str value) :: given "scope" (scope.map .str))
  | .searchQuery query mode => .obj (("query", .str query) :: given "mode" (mode.map .str))
  | .gitDiff path => .obj (given "path" (path.map .str))
  | .gitLog limit => .obj (given "limit" (limit.map numberJson))
  | .modelRecommend role => .obj (given "role" (role.map .str))
  | .modelInstall id acceptLicense =>
    .obj (("id", .str id) :: given "acceptLicense" (acceptLicense.map .bool))
  | .modelCancelInstall id | .modelRemove id | .modelInspect id
  | .modelEndpointRemove id => ofModel id
  | .modelActivate id role | .modelRestartServer id role =>
    .obj [("id", .str id), ("role", .str role)]
  | .modelEndpointAdd id baseUrl displayName remoteModelName contextLength supportsNativeTools
      supportsGrammar =>
    .obj (("id", .str id) :: ("baseUrl", .str baseUrl) ::
      given "displayName" (displayName.map .str) ++
      given "remoteModelName" (remoteModelName.map .str) ++
      given "contextLength" (contextLength.map numberJson) ++
      given "supportsNativeTools" (supportsNativeTools.map .bool) ++
      given "supportsGrammar" (supportsGrammar.map .bool))
  | .catalogRefresh catalogUrl signatureUrl =>
    .obj [("catalogUrl", .str catalogUrl), ("signatureUrl", .str signatureUrl)]
  | .sessionStatus | .sessionClose | .aboutInfo | .taskList | .configShow | .doctorRun
  | .workspaceStatus | .indexStatus | .indexBuild | .gitStatus | .gitBranches | .modelList
  | .modelEndpointList | .hardwareProbe => .obj []

/-! ## What a call is for -/

/-- The count a number stands for, if it is one, in the 32 bits Core keeps of it. -/
def count (n : Option Num) : Option ℕ := (n.bind fun n => asU64 (.num n)).map (· % 2 ^ 32)

/-- The question to Core a call stands for. Those about the session are the host's own, and a config
write is more than a question. -/
def asks : Call → Option Query
  | .sessionOpen .. | .sessionRestart _ | .sessionStatus | .sessionClose | .aboutInfo
  | .configWrite .. => none
  | .taskCreate objective mode => some (taskCreateWithMode objective mode.join)
  | .taskList => some CoreClient.taskList
  | .taskStatus taskId => some (CoreClient.taskStatus taskId)
  | .taskPlan taskId => some (CoreClient.taskPlan taskId)
  | .taskReport taskId => some (CoreClient.taskReport taskId)
  | .taskChildren taskId => some (CoreClient.taskChildren taskId)
  | .taskArtifacts taskId => some (CoreClient.taskArtifacts taskId)
  | .planRevisions taskId => some (CoreClient.planRevisions taskId)
  | .taskRollback taskId checkpointId => some (CoreClient.taskRollback taskId checkpointId)
  | .taskPause taskId => some (CoreClient.taskPause taskId)
  | .taskResume taskId => some (CoreClient.taskResume taskId)
  | .taskCancel taskId => some (CoreClient.taskCancel taskId)
  | .permissionResolve taskId allow => some (CoreClient.permissionResolve taskId allow)
  | .permissionResolveScoped taskId allow scope =>
    some (CoreClient.permissionResolveScoped taskId none (if allow then scope.text else "deny"))
  | .configShow => some CoreClient.configShow
  | .configSet key value scope => some (CoreClient.configSet key value (scope.getD "repo"))
  | .doctorRun => some CoreClient.doctorRun
  | .workspaceStatus => some CoreClient.workspaceStatus
  | .searchQuery query _ => some (CoreClient.searchQuery query [] [] none)
  | .indexStatus => some CoreClient.indexStatus
  | .indexBuild => some CoreClient.indexBuild
  | .gitStatus => some CoreClient.gitStatus
  | .gitDiff path => some (CoreClient.gitDiff path false)
  | .gitLog limit => some (CoreClient.gitLog (count limit))
  | .gitBranches => some CoreClient.gitBranches
  | .modelList => some CoreClient.modelList
  | .modelRecommend role => some (CoreClient.modelRecommend (role.getD "primary_coder"))
  | .modelInstall id acceptLicense =>
    some (CoreClient.modelInstall id (acceptLicense.getD false))
  | .modelCancelInstall id => some (CoreClient.modelInstallCancel id)
  | .modelRemove id => some (CoreClient.modelRemove id)
  | .modelActivate id role | .modelRestartServer id role =>
    some (CoreClient.modelActivate id role)
  | .modelInspect id => some (CoreClient.modelInspect id)
  | .modelEndpointAdd id baseUrl displayName remoteModelName contextLength supportsNativeTools
      supportsGrammar =>
    some (CoreClient.modelEndpointAdd id baseUrl displayName remoteModelName (count contextLength)
      supportsNativeTools supportsGrammar)
  | .modelEndpointRemove id => some (CoreClient.modelEndpointRemove id)
  | .modelEndpointList => some CoreClient.modelEndpointList
  | .catalogRefresh catalogUrl signatureUrl =>
    some (CoreClient.catalogRefresh catalogUrl signatureUrl)
  | .hardwareProbe => some CoreClient.hardwareProbe
  | .ledgerChanges taskId => some (CoreClient.ledgerChanges taskId)

/-- What a call resolves to: a created task is named by its field. -/
def result : Call → Json → Json
  | .taskCreate .. => fun v => .obj [("taskId", v)]
  | _ => id

/-- What the caller is told, when Core answers what it does. -/
def reply (call : Call) (q : Query) (s : Served) : Except RpcError Json :=
  match s.live with
  | none => .error noSession
  | some _ => ((q.run (s.world.core 0 q.request)).mapError mapErr).map call.result

/-! ## Reading a call -/

section Fields

variable {key key' : String} {v : Json} {value : Option Json} {rest : List (String × Json)}

theorem get?_nil : (Json.obj []).get? key = none := rfl

theorem get?_cons : (Json.obj ((key', v) :: rest)).get? key =
    if key' = key then some v else (Json.obj rest).get? key := by
  simp only [Json.get?, List.find?_cons]
  split_ifs with h
  · simp [h]
  · simp [h]

theorem get?_given : (Json.obj (given key' value ++ rest)).get? key =
    if key' = key then value.or ((Json.obj rest).get? key) else (Json.obj rest).get? key := by
  cases value with
  | none => simp [given]
  | some v =>
    change (Json.obj ((key', v) :: rest)).get? key = _
    rw [get?_cons, Option.some_or]

theorem get?_given_last : (Json.obj (given key' value)).get? key =
    if key' = key then value else none := by
  rw [← List.append_nil (given key' value), get?_given, get?_nil, Option.or_none]

theorem str?_map (s : Option String) : (s.map Json.str).bind Json.str? = s := by
  cases s <;> rfl

theorem asBool_map (b : Option Bool) : (b.map Json.bool).bind asBool = b := by
  cases b <;> rfl

/-- A number that is no finite one is written as `null`, and neither is a count. -/
theorem count_eq (n : Option Num) :
    ((n.map numberJson).bind asU64).map (· % 2 ^ 32) = count n := by
  have hread (n : Num) : asU64 (numberJson n) = asU64 (.num n) := by cases n <;> rfl
  cases n with
  | none => rfl
  | some n => rw [Option.map_some, Option.bind_some, hread, count, Option.bind_some]

end Fields

section Reading

variable {call : Call} {q : Query} {w : Dispatch.World} {t : Turn}

theorem exec_map {m : Serve Json} {f : Json → Json} :
    exec (do let v ← m; pure (f v)) t = ((exec m t).1.map f, (exec m t).2) := by
  rw [exec_bind]
  rcases exec m t with ⟨r, t'⟩
  cases r <;> rfl

theorem exec_modelEndpointAdd (id baseUrl : String) (displayName remoteModelName : Option String)
    (contextLength : Option Num) (supportsNativeTools supportsGrammar : Option Bool) :
    exec (dispatch w "model/endpointAdd" (params (.modelEndpointAdd id baseUrl displayName
      remoteModelName contextLength supportsNativeTools supportsGrammar))) t =
    exec (withClient w (CoreClient.modelEndpointAdd id baseUrl displayName remoteModelName
      (count contextLength) supportsNativeTools supportsGrammar)) t := by
  have hread (params : Json) : dispatch w "model/endpointAdd" params = (do
      let id ← strParam params "id"
      let baseUrl ← strParam params "baseUrl"
      withClient w (CoreClient.modelEndpointAdd id baseUrl (optStr params "displayName")
        (optStr params "remoteModelName") (optU32 params "contextLength")
        (optBool params "supportsNativeTools") (optBool params "supportsGrammar"))) := rfl
  rw [hread, exec_bind_of_ok (exec_strParam_of_some rfl),
    exec_bind_of_ok (exec_strParam_of_some rfl), ← count_eq contextLength]
  simp [params, optStr, optU32, optU64, optBool, get?_cons, get?_given, get?_given_last, str?_map,
    asBool_map]

/-- The handler of a call asks Core what the call stands for. -/
theorem exec_withClient_call (hasks : call.asks = some q) (hresult : call.result = id) :
    exec (dispatch w call.method call.params) t = exec (withClient w q) t := by
  cases call with
  | sessionOpen | sessionRestart | sessionStatus | sessionClose | aboutInfo | configWrite =>
    cases hasks
  | taskCreate objective mode =>
    have hname := congrFun hresult .null
    cases hname
  | permissionResolveScoped taskId allow scope =>
    cases hasks
    cases allow <;> cases scope <;> rfl
  | configSet key value scope =>
    cases hasks
    cases scope <;> rfl
  | searchQuery query mode =>
    cases hasks
    cases mode <;> rfl
  | gitDiff path =>
    cases hasks
    cases path <;> rfl
  | gitLog limit =>
    cases hasks
    rcases limit with _ | _ | _ | _ <;> rfl
  | modelRecommend role =>
    cases hasks
    cases role <;> rfl
  | modelInstall id acceptLicense =>
    cases hasks
    cases acceptLicense <;> rfl
  | modelEndpointAdd =>
    cases hasks
    exact exec_modelEndpointAdd ..
  | _ =>
    cases hasks
    rfl

theorem exec_dispatch_call (hasks : call.asks = some q) :
    exec (dispatch w call.method call.params) t =
      ((exec (withClient w q) t).1.map call.result, (exec (withClient w q) t).2) := by
  cases call with
  | taskCreate objective mode =>
    cases hasks
    rw [← exec_map]
    rcases mode with _ | _ | mode <;> rfl
  | _ =>
    rw [exec_withClient_call hasks rfl]
    exact Prod.ext (congrFun Except.map_id _).symm rfl

@[simp] theorem asBool_inOrder (v : Json) : asBool v.inOrder = asBool v := by
  cases v <;> rfl

@[simp] theorem asU64_inOrder (v : Json) : asU64 v.inOrder = asU64 v := by
  cases v <;> rfl

theorem strArray_inOrder (params : Json) (key : String) :
    strArray params.inOrder key = strArray params key := by
  rw [strArray, Json.get?_inOrder, strArray]
  rcases params.get? key with _ | v
  · rfl
  · cases v with
    | arr xs => simp [Json.inOrder, Json.itemsInOrder_eq, List.filterMap_map]
    | _ => rfl

/-- Whatever a handler reads of its parameters, their order does not matter to it. -/
theorem dispatch_inOrder (w : Dispatch.World) (method : String) (params : Json) :
    dispatch w method params.inOrder = dispatch w method params := by
  have hstr (key : String) : optStr params.inOrder key = optStr params key := by
    simp [optStr, Option.bind_map]
  have hparam (key : String) : strParam params.inOrder key = strParam params key := by
    rw [strParam, strParam, ← optStr, ← optStr, hstr]
  have hbool (key : String) : optBool params.inOrder key = optBool params key := by
    simp [optBool, Option.bind_map]
  have hcount (key : String) : optU64 params.inOrder key = optU64 params key := by
    simp [optU64, Option.bind_map]
  have hall : ∀ p ∈ methods, p.2 w params.inOrder = p.2 w params := by
    simp only [methods, forTask, forModel, activate, List.forall_mem_cons, hstr, hparam, hbool,
      hcount, optU32, strArray_inOrder, true_and]
    exact List.forall_mem_nil _
  rw [dispatch, dispatch]
  split
  · next handler hlookup =>
    obtain ⟨before, after, hsplit, -⟩ := List.lookup_eq_some_iff.mp hlookup
    exact hall _ (hsplit ▸ List.mem_append_right _ List.mem_cons_self)
  · rfl

/-- A call that stands for a question to Core is answered with Core's answer, and Core is asked
nothing else; without a session it is not asked at all. -/
theorem handled_call {s : Served} {n : ℕ} (hasks : call.asks = some q)
    (hreq : s.req = (Request.mk n call.method (some call.params)).read) :
    s.handled.live = s.live ∧
    s.handled.effects = (if s.live.isSome then [.core q.request] else []) ∧
    s.handled.sent = [respond (.num n) (call.reply q s)] := by
  obtain ⟨world, live, req⟩ := s
  obtain rfl := hreq
  rcases hexec : exec (dispatch world call.method call.params.inOrder) ⟨live, [], []⟩ with ⟨r, t⟩
  have hhandled : Served.handled ⟨world, live, (Request.mk n call.method call.params).read⟩ =
      ⟨t.live, t.effects,
        t.reports.map (fun r => .notification r.1 r.2) ++ [respond (.num n) r]⟩ :=
    handle_eq r hexec
  rw [dispatch_inOrder, exec_dispatch_call hasks] at hexec
  rw [hhandled]
  cases live with
  | none =>
    rw [exec_withClient_of_none rfl] at hexec
    cases hexec
    exact ⟨rfl, rfl, rfl⟩
  | some l =>
    rw [exec_withClient_of_some rfl] at hexec
    cases hexec
    exact ⟨rfl, rfl, rfl⟩

end Reading

/-! ## What Core can tell of a call -/

/-- A call with what Core is not told left out or at its default: no difference is made between
`null` and an absent mode, between activating a model and restarting its server, or between the
scopes of a denial; a number that is no count is dropped, and the mode of a search always is. -/
def canonical : Call → Call
  | .taskCreate objective mode => .taskCreate objective (mode.join.map some)
  | .permissionResolve taskId allow => .permissionResolveScoped taskId allow .once
  | .permissionResolveScoped taskId allow scope =>
    .permissionResolveScoped taskId allow (if allow then scope else .once)
  | .configSet key value scope => .configSet key value (some (scope.getD "repo"))
  | .searchQuery query _ => .searchQuery query none
  | .gitLog limit => .gitLog ((count limit).map fun n : ℕ => (n : Num))
  | .modelRecommend role => .modelRecommend (some (role.getD "primary_coder"))
  | .modelInstall id acceptLicense => .modelInstall id (some (acceptLicense.getD false))
  | .modelRestartServer id role => .modelActivate id role
  | .modelEndpointAdd id baseUrl displayName remoteModelName contextLength supportsNativeTools
      supportsGrammar =>
    .modelEndpointAdd id baseUrl displayName remoteModelName
      ((count contextLength).map fun n : ℕ => (n : Num)) supportsNativeTools supportsGrammar
  | call => call

/-- The call a request of Core was made for. -/
def told : CoreClient.Request → Call
  | .workspaceStatus => .workspaceStatus
  | .taskCreate objective permissionMode => .taskCreate objective (permissionMode.map some)
  | .taskList => .taskList
  | .taskStatus taskId => .taskStatus taskId
  | .taskReport taskId => .taskReport taskId
  | .taskPlan taskId => .taskPlan taskId
  | .taskChildren taskId => .taskChildren taskId
  | .taskArtifacts taskId => .taskArtifacts taskId
  | .planRevisions taskId => .planRevisions taskId
  | .taskRollback taskId checkpointId => .taskRollback taskId checkpointId
  | .taskPause taskId => .taskPause taskId
  | .taskResume taskId => .taskResume taskId
  | .taskCancel taskId => .taskCancel taskId
  | .permissionResolve taskId approve _ decision =>
    .permissionResolveScoped taskId approve (if decision = some "task" then .task else .once)
  | .doctorRun => .doctorRun
  | .configShow => .configShow
  | .modelList => .modelList
  | .configSet key value scope => .configSet key value (some scope)
  | .gitStatus => .gitStatus
  | .gitDiff path _ => .gitDiff path
  | .gitLog limit => .gitLog (limit.map fun n : ℕ => (n : Num))
  | .gitBranches => .gitBranches
  | .searchQuery query _ _ _ => .searchQuery query none
  | .indexStatus => .indexStatus
  | .indexBuild => .indexBuild
  | .hardwareProbe => .hardwareProbe
  | .modelRecommend role => .modelRecommend (some role)
  | .modelInstall id acceptLicense => .modelInstall id (some acceptLicense)
  | .modelInstallCancel id => .modelCancelInstall id
  | .modelRemove id => .modelRemove id
  | .modelActivate id role => .modelActivate id role
  | .modelInspect id => .modelInspect id
  | .modelEndpointAdd id baseUrl displayName remoteModelName contextLength supportsNativeTools
      supportsGrammar =>
    .modelEndpointAdd id baseUrl displayName remoteModelName
      (contextLength.map fun n : ℕ => (n : Num)) supportsNativeTools supportsGrammar
  | .modelEndpointRemove id => .modelEndpointRemove id
  | .modelEndpointList => .modelEndpointList
  | .catalogRefresh catalogUrl signatureUrl => .catalogRefresh catalogUrl signatureUrl
  | .ledgerChanges taskId => .ledgerChanges taskId

section Telling

variable {call call' : Call} {q q' : Query}

theorem count_count (n : Option Num) : count ((count n).map fun n : ℕ => (n : Num)) = count n := by
  cases hcount : count n with
  | none => rfl
  | some m =>
    obtain ⟨k, -, rfl⟩ := Option.map_eq_some_iff.mp hcount
    have hlt : k % 2 ^ 32 < 2 ^ 32 := Nat.mod_lt _ (by decide)
    rw [Option.map_some, count, Option.bind_some, asU64_natCast (hlt.trans (by decide)),
      Option.map_some, Nat.mod_mod]

theorem told_request (hasks : call.asks = some q) : told q.request = call.canonical := by
  cases call with
  | sessionOpen | sessionRestart | sessionStatus | sessionClose | aboutInfo | configWrite =>
    cases hasks
  | permissionResolve taskId allow =>
    cases hasks
    cases allow <;> rfl
  | permissionResolveScoped taskId allow scope =>
    cases hasks
    cases allow <;> cases scope <;> rfl
  | _ =>
    cases hasks
    rfl

theorem asks_canonical (call : Call) : call.canonical.asks = call.asks := by
  cases call with
  | taskCreate objective mode => rcases mode with _ | _ | mode <;> rfl
  | permissionResolve taskId allow => cases allow <;> rfl
  | permissionResolveScoped taskId allow scope => cases allow <;> rfl
  | gitLog limit => rw [canonical, asks, count_count, asks]
  | modelEndpointAdd => rw [canonical, asks, count_count, asks]
  | _ => rfl

/-- A served request is the one the client writes for the call, with a session open. -/
structure ServesCall (s : Served) (call : Call) : Prop where
  req : ∃ n, s.req = (Request.mk n call.method (some call.params)).read
  live : s.live.isSome = true

theorem ServesCall.effects {s : Served} (h : ServesCall s call) (hasks : call.asks = some q) :
    s.handled.effects = [.core q.request] := by
  obtain ⟨n, hreq⟩ := h.req
  rw [(handled_call hasks hreq).2.1, if_pos h.live]

theorem request_eq_iff (hasks : call.asks = some q) (hasks' : call'.asks = some q') :
    q.request = q'.request ↔ call.canonical = call'.canonical := by
  constructor
  · intro h
    rw [← told_request hasks, ← told_request hasks', h]
  · intro h
    have hsame : some q = some q' := by
      rw [← hasks, ← hasks', ← asks_canonical call, h, asks_canonical]
    rw [Option.some.inj hsame]

/-- Two calls lead to the same request of Core exactly when they differ in nothing but what Core is
not told, and so it is with all the host does for them, whatever it meets and whichever session is
open. -/
theorem same_request_iff (hasks : call.asks = some q) (hasks' : call'.asks = some q') :
    (q.request = q'.request ↔ call.canonical = call'.canonical) ∧
    ∀ s s', ServesCall s call → ServesCall s' call' →
      (s.handled.effects = s'.handled.effects ↔ call.canonical = call'.canonical) := by
  refine ⟨request_eq_iff hasks hasks', fun s s' hs hs' => ?_⟩
  rw [hs.effects hasks, hs'.effects hasks', List.singleton_inj, Effect.core.injEq,
    request_eq_iff hasks hasks']

/-- A call as the host reads it from a client that has written nothing before. -/
def servedFirst (call : Call) : Served where
  world := silentWorld
  live := some openLive
  req := (Request.mk 1 call.method (some call.params)).read

/-- A search by meaning reaches Core as the search for the words does. -/
theorem same_request_iff_search :
    (servedFirst (searchQuery "retry" "semantic")).handled.effects =
        (servedFirst (searchQuery "retry" none)).handled.effects ↔
      (searchQuery "retry" "semantic").canonical = (searchQuery "retry" none).canonical :=
  (same_request_iff rfl rfl).2 _ _ ⟨⟨1, rfl⟩, rfl⟩ ⟨⟨1, rfl⟩, rfl⟩

end Telling

/-! ## A promise and Core -/

section Promises

variable {S : Serde} {c : Channel} {as : List ChannelAction} {call : Call} {q : Query} {n i j : ℕ}

theorem written_inj (h : c.client.Inv) {r r' : Rpc.Request} (hi : c.client.written[i]? = some r)
    (hj : c.client.written[j]? = some r') (hid : r.id = r'.id) : i = j := by
  have hnodup : (c.client.written.map Rpc.Request.id).Nodup := by
    rw [h.written]
    exact h.nodup
  have hlt : i < (c.client.written.map Rpc.Request.id).length := by
    rw [List.length_map]
    exact (List.getElem?_eq_some_iff.mp hi).1
  apply (List.getElem?_inj hlt hnodup).mp
  rw [List.getElem?_map, List.getElem?_map, hi, hj, Option.map_some, Option.map_some, hid]

/-- The promises made and the requests written stay. -/
structure Grows (client client' : Client) : Prop where
  promises : client.promises <+: client'.promises
  written : client.written <+: client'.written

theorem Grows.refl (client : Client) : Grows client client :=
  ⟨List.prefix_rfl, List.prefix_rfl⟩

theorem Grows.trans {x y z : Client} (h : Grows x y) (h' : Grows y z) : Grows x z :=
  ⟨h.promises.trans h'.promises, h.written.trans h'.written⟩

theorem grows_dispatch (client : Client) (msg : Json) : Grows client (client.dispatch msg) := by
  rcases client.dispatch_cases msg with h | ⟨id, -, h⟩ | ⟨method, params, h⟩
  · rw [h]
    exact .refl client
  · rw [h, Client.settle]
    split
    · exact .refl client
    · exact ⟨List.prefix_rfl, List.prefix_rfl⟩
  · rw [h, Client.notify]
    split
    · exact .refl client
    · exact ⟨List.prefix_rfl, List.prefix_rfl⟩

theorem grows_onClose (client : Client) (err : String) : Grows client (client.onClose err) := by
  rw [Client.onClose]
  split
  · exact .refl client
  · exact ⟨List.prefix_rfl, List.prefix_rfl⟩

theorem grows_on (client : Client) (method : String) (handler : ℕ) :
    Grows client (client.on method handler) := by
  rw [Client.on]
  split
  · exact ⟨List.prefix_rfl, List.prefix_rfl⟩
  · exact ⟨List.prefix_rfl, List.prefix_rfl⟩

theorem grows_request (client : Client) (method : String) (params : Option Json) :
    Grows client (client.request method params) := by
  rw [Client.request]
  split
  · exact ⟨List.prefix_append _ _, List.prefix_rfl⟩
  · exact ⟨List.prefix_append _ _, List.prefix_append _ _⟩

theorem grows_frames (client : Client) (bodies : List (Option Json)) :
    Grows client (bodies.foldl (fun client body => client.apply (.frame body)) client) := by
  induction bodies generalizing client with
  | nil => exact .refl client
  | cons body bodies ih =>
    rw [List.foldl_cons]
    refine Grows.trans ?_ (ih _)
    cases body with
    | none => exact .refl client
    | some msg => exact grows_dispatch client msg

theorem grows_step {a : ChannelAction} {d : Channel} (h : Channel.step S c a = some d) :
    Grows c.client d.client := by
  cases a with
  | request method params =>
    cases h
    exact grows_request c.client method params
  | on method handler =>
    cases h
    exact grows_on c.client method handler
  | off set handler =>
    cases h
    exact ⟨List.prefix_rfl, List.prefix_rfl⟩
  | dispose =>
    cases h
    exact grows_onClose c.client _
  | serve world chunks =>
    rw [Channel.step, Option.ite_none_right_eq_some] at h
    obtain ⟨-, h⟩ := h
    cases h
    rcases S.readFrame chunks with ⟨(e | (_ | req)), rest⟩
    · exact .refl c.client
    · exact .refl c.client
    · exact .refl c.client
  | notify method params =>
    rw [Channel.step, Option.ite_none_right_eq_some] at h
    obtain ⟨-, h⟩ := h
    cases h
    exact .refl c.client
  | supervise live =>
    rw [Channel.step, Option.ite_none_right_eq_some] at h
    obtain ⟨-, h⟩ := h
    cases h
    exact .refl c.client
  | arrive n =>
    cases h
    rw [Channel.arrive]
    dsimp only
    split
    · exact (grows_frames c.client _).trans (grows_onClose _ _)
    · exact grows_frames c.client _

theorem grows_run {d : Channel} (h : Machine.run (Channel.step S) d as = some c) :
    Grows d.client c.client :=
  Machine.run_invariant (I := fun c => Grows d.client c.client)
    (fun _ _ _ hgrows hstep => hgrows.trans (grows_step hstep)) (.refl d.client) h

theorem getElem?_of_grown {α : Type} {l l' : List α} {a : α} {k : ℕ} (h : l <+: l')
    (hk : l[k]? = some a) : l'[k]? = some a := by
  obtain ⟨hlt, rfl⟩ := List.getElem?_eq_some_iff.mp hk
  exact List.prefix_iff_getElem?.mp h k hlt

/-- In every interleaving the promise of a call that stands for a question to Core is settled with
what Core answered to that question, which the host asked once for it and with the values of the
call; without a session it is settled with that. -/
theorem answered_by_core {before after : List ChannelAction} {c₀ : Channel}
    (hg : Machine.Guarded (Channel.step S) (Channel.Carried S) .start
      (before ++ .request call.method (some call.params) :: after))
    (hbefore : Machine.run (Channel.step S) .start before = some c₀)
    (hr : Machine.run (Channel.step S) .start
      (before ++ .request call.method (some call.params) :: after) = some c)
    (hasks : call.asks = some q) {x : Settlement} (hx : x ∈ c.client.settled)
    (hpromise : x.promise = c₀.client.promises.length) {msg : Json}
    (hmsg : x.outcome.msg? = some msg) :
    ∃ i s, c.served[i]? = some s ∧
      (∀ (j : ℕ) (s' : Served), c.served[j]? = some s' → s'.req.id = s.req.id → j = i) ∧
      s.handled.live = s.live ∧
      s.handled.effects = (if s.live.isSome then [.core q.request] else []) ∧
      match call.reply q s with
      | .ok v => x.outcome = .resolved msg v
      | .error e => x.outcome = .rejected msg e.json := by
  have h := ChannelInv.after hg hr
  obtain ⟨houtcome, i, s, r, m, hs, hi, hown, hanswers, rfl⟩ := h.own_answer hx hmsg
  obtain ⟨d, hd, hafter⟩ : ∃ d, Machine.run (Channel.step S) .start before = some d ∧
      Machine.run (Channel.step S) (d.request S call.method (some call.params)) after = some c := by
    rw [Machine.run_append, Option.bind_eq_some_iff] at hr
    obtain ⟨d, hd, hr⟩ := hr
    obtain ⟨e, he, hr⟩ := Machine.run_cons_eq_some.mp hr
    cases he
    exact ⟨d, hd, hr⟩
  obtain rfl : c₀ = d := Option.some.inj (hbefore.symm.trans hd)
  have hgrows := grows_run hafter
  cases hclosed : c₀.client.closed with
  | true =>
    have hnone : c.client.promises[x.promise]? = some none := by
      apply getElem?_of_grown hgrows.promises
      change (c₀.client.request _ _).promises[x.promise]? = some none
      rw [Client.request, if_pos hclosed, hpromise]
      exact List.getElem?_concat_length
    rw [hnone] at hown
    cases hown
  | false =>
    have hsome : c.client.promises[x.promise]? = some (some c₀.client.nextId) := by
      apply getElem?_of_grown hgrows.promises
      change (c₀.client.request _ _).promises[x.promise]? = some (some c₀.client.nextId)
      rw [Client.request, hclosed, if_neg Bool.false_ne_true, hpromise]
      exact List.getElem?_concat_length
    have hwritten : c.client.written[c₀.client.written.length]? =
        some ⟨c₀.client.nextId, call.method, some call.params⟩ := by
      apply getElem?_of_grown hgrows.written
      change (c₀.client.request _ _).written[c₀.client.written.length]? = _
      rw [Client.request, hclosed, if_neg Bool.false_ne_true]
      exact List.getElem?_concat_length
    have hid : r.id = c₀.client.nextId := by
      rw [hown] at hsome
      exact Option.some.inj (Option.some.inj hsome)
    obtain rfl := written_inj h.client hi hwritten hid
    obtain rfl := Option.some.inj (hi.symm.trans hwritten)
    obtain ⟨r', hr', hreq⟩ := h.requests.served_getElem hs
    obtain rfl := Option.some.inj (hi.symm.trans hr')
    obtain ⟨hlive, heffects, hsent⟩ := handled_call hasks hreq
    refine ⟨_, s, hs, fun j s' hs' hid' => ?_, hlive, heffects, ?_⟩
    · obtain ⟨r', hj, hreq'⟩ := h.requests.served_getElem hs'
      rw [hreq', hreq] at hid'
      exact written_inj h.client hj hi (by simpa [Request.read, Request.incoming] using hid')
    · have hm : m = respond (.num c₀.client.nextId) (call.reply q s) := by
        have hresponse : (respond (.num c₀.client.nextId) (call.reply q s)).isResponse = true := by
          cases call.reply q s <;> rfl
        rw [Served.answers, hsent, List.filter_cons_of_pos hresponse] at hanswers
        exact (List.cons.inj hanswers).1.symm
      subst hm
      rw [houtcome]
      cases call.reply q s with
      | ok v => rfl
      | error e => rfl

/-! A session is opened and a task created. -/

def openCall : Call := .sessionOpen "/work" none none
def createCall : Call := .taskCreate "Fix the build" none
def openRequest : Rpc.Request := ⟨1, openCall.method, some openCall.params⟩
def createRequest : Rpc.Request := ⟨2, createCall.method, some createCall.params⟩

def connectingReport : Outgoing :=
  .notification "core/connectionState" (.obj [("state", .str "connecting")])
def readyReport : Outgoing := .notification "core/connectionState" (.obj [("state", .str "ready")])
def openedAnswer : Outgoing := .ok (.num 1) (SessionInfo.json (.of openLive.session))
def createdAnswer : Outgoing := .ok (.num 2) (.obj [("taskId", .str "t1")])

/-- A text in pieces. -/
def textBody (pieces : List String) : Bytes := Utf8.ascii (pieces.flatMap String.toList)

@[irreducible] def openBody : Bytes :=
  textBody ["\x7b\"jsonrpc\":\"2.0\",\"id\":1,", "\"method\":\"session/open\",",
    "\"params\":\x7b\"workspaceRoot\":", "\"/work\"\x7d\x7d"]
@[irreducible] def createBody : Bytes :=
  textBody ["\x7b\"jsonrpc\":\"2.0\",\"id\":2,", "\"method\":\"task/create\",",
    "\"params\":\x7b\"objective\":", "\"Fix the build\"\x7d\x7d"]
@[irreducible] def connectingBody : Bytes :=
  textBody ["\x7b\"jsonrpc\":\"2.0\",", "\"method\":\"core/connectionState\",",
    "\"params\":\x7b\"state\":", "\"connecting\"\x7d\x7d"]
@[irreducible] def readyBody : Bytes :=
  textBody ["\x7b\"jsonrpc\":\"2.0\",", "\"method\":\"core/connectionState\",",
    "\"params\":\x7b\"state\":", "\"ready\"\x7d\x7d"]
@[irreducible] def openedBody : Bytes :=
  textBody ["\x7b\"jsonrpc\":\"2.0\",\"id\":1,", "\"result\":\x7b\"authenticated\":false,",
    "\"capabilities\":[],", "\"origin\":\"adopted\",", "\"ownsDaemon\":false,",
    "\"permissionMode\":null,", "\"protocolVersion\":\"1.12.0\",", "\"runtimeVersion\":\"0.1.0\",",
    "\"socketPath\":\"/run/id/d.sock\",", "\"workspaceId\":\"id\",",
    "\"workspaceRoot\":\"/work\"\x7d\x7d"]
@[irreducible] def createdBody : Bytes :=
  textBody ["\x7b\"jsonrpc\":\"2.0\",\"id\":2,", "\"result\":\x7b\"taskId\":\"t1\"\x7d\x7d"]

def readBody (bs : Bytes) : Except String Incoming :=
  if bs = openBody then .ok openRequest.read
  else if bs = createBody then .ok createRequest.read else .error "expected value"

def parseBody (bs : Bytes) : Option Json :=
  if bs = openedBody then some openedAnswer.json
  else if bs = createdBody then some createdAnswer.json
  else if bs = connectingBody then some connectingReport.json
  else if bs = readyBody then some readyReport.json else none

/-- JSON as far as these messages go. -/
def taskSerde : Serde where
  toVec m := match m.get? "result", (m.get? "params").bind (·.get? "state") with
    | some result, _ => if (result.get? "taskId").isSome then createdBody else openedBody
    | none, some (.str "ready") => readyBody
    | none, _ => connectingBody
  fromSlice := readBody
  stringify m := match m.get? "method" with
    | some (.str "session/open") => openBody
    | _ => createBody
  parse := parseBody

/-- A daemon to adopt, and a Core that creates tasks. -/
def taskWorld : Dispatch.World :=
  { silentWorld with
    core := fun _ r => match r with
      | .taskCreate .. => .response (some .taskCreate) (.obj [("task_id", .str "t1")]) "TaskCreate"
      | _ => .timedOut
    spawnOrAdopt := fun _ _ => .ok ("id", "/run/id/d.sock", openLive.session.session)
    valyriaBin := some "/bin/valyria"
    pathExists := fun _ => true
    isExecutable := fun _ => true }

def openRun : List ChannelAction :=
  [.request openCall.method (some openCall.params), .serve taskWorld [taskSerde.write openRequest]]

def taskRun : List ChannelAction :=
  openRun ++ .request createCall.method (some createCall.params) ::
    [.serve taskWorld [taskSerde.write createRequest], .arrive 1000]

theorem createBody_ne_openBody : createBody ≠ openBody := by decide +kernel

theorem bodies_differ :
    (readyBody ≠ connectingBody ∧ readyBody ≠ createdBody ∧ readyBody ≠ openedBody) ∧
      (connectingBody ≠ createdBody ∧ connectingBody ≠ openedBody) ∧ createdBody ≠ openedBody := by
  decide +kernel

theorem bodies_short :
    ∀ body ∈ [openBody, createBody, readyBody, connectingBody, createdBody, openedBody],
      body.length < 2 ^ 53 := by
  decide +kernel

theorem openRequest_delivers : taskSerde.Delivers openRequest where
  fromSlice_stringify := by
    change readBody openBody = .ok openRequest.read
    rw [readBody, if_pos rfl]
  length_lt := bodies_short openBody (by simp)

theorem createRequest_delivers : taskSerde.Delivers createRequest where
  fromSlice_stringify := by
    change readBody createBody = .ok createRequest.read
    rw [readBody, if_neg createBody_ne_openBody, if_pos rfl]
  length_lt := bodies_short createBody (by simp)

theorem handle_openRequest : handle taskWorld none openRequest.read =
    ⟨some openLive, [.spawnOrAdopt ⟨"/work", expectedProtocol, none, false⟩ "/bin/valyria"],
      [connectingReport, readyReport, openedAnswer]⟩ := by
  have hexec : exec (dispatch taskWorld openCall.method openCall.params.inOrder) ⟨none, [], []⟩ =
      (.ok (SessionInfo.json (.of openLive.session)), ⟨some openLive,
        [.spawnOrAdopt ⟨"/work", expectedProtocol, none, false⟩ "/bin/valyria"],
        [("core/connectionState", .obj [("state", .str "connecting")]),
          ("core/connectionState", .obj [("state", .str "ready")])]⟩) := by
    rw [dispatch_inOrder]
    rfl
  exact handle_eq _ hexec

theorem readFrame_write {S : Serde} {r : Rpc.Request} (h : S.Delivers r) :
    ∃ rest, S.readFrame [S.write r] = (.ok (some r.read), rest) := by
  obtain ⟨rest, hread, -⟩ := readFrame_frame S h.length_lt h.fromSlice_stringify
    (show [S.write r].flatten = frame (S.stringify r.json) ++ [] by
      rw [List.flatten_singleton, List.append_nil]
      rfl)
  exact ⟨rest, hread⟩

theorem step_serve {S : Serde} {c d : Channel} {w : Dispatch.World} {chunks : List Bytes}
    (h : d ∈ Channel.step S c (.serve w chunks)) : d = c.serve S w (S.readFrame chunks) := by
  rw [Option.mem_def, Channel.step, Option.ite_none_right_eq_some] at h
  exact (Option.some.inj h.2).symm

theorem openedAnswer_carried : taskSerde.Carries openedAnswer where
  parse_toVec := by
    change parseBody openedBody = some openedAnswer.json
    rw [parseBody, if_pos rfl]
  length_lt := bodies_short openedBody (by simp)

theorem createdAnswer_carried : taskSerde.Carries createdAnswer where
  parse_toVec := by
    have hopened := bodies_differ.2.2
    change parseBody createdBody = some createdAnswer.json
    rw [parseBody, if_neg hopened, if_pos rfl]
  length_lt := bodies_short createdBody (by simp)

theorem connectingReport_carried : taskSerde.Carries connectingReport where
  parse_toVec := by
    obtain ⟨-, ⟨hcreated, hopened⟩, -⟩ := bodies_differ
    change parseBody connectingBody = some connectingReport.json
    rw [parseBody, if_neg hopened, if_neg hcreated, if_pos rfl]
  length_lt := bodies_short connectingBody (by simp)

theorem readyReport_carried : taskSerde.Carries readyReport where
  parse_toVec := by
    obtain ⟨⟨hconnecting, hcreated, hopened⟩, -⟩ := bodies_differ
    change parseBody readyBody = some readyReport.json
    rw [parseBody, if_neg hopened, if_neg hcreated, if_neg hconnecting, if_pos rfl]
  length_lt := bodies_short readyBody (by simp)

theorem taskRun_carried :
    Machine.Guarded (Channel.step taskSerde) (Channel.Carried taskSerde) .start taskRun := by
  obtain ⟨rest₁, hread₁⟩ := readFrame_write openRequest_delivers
  obtain ⟨rest₂, hread₂⟩ := readFrame_write createRequest_delivers
  refine ⟨openRequest_delivers, fun c₁ h₁ => ?_⟩
  cases h₁
  refine ⟨?_, fun c₂ h₂ => ?_⟩
  · intro req rest hread m hm
    cases hread₁.symm.trans hread
    have hm : m ∈ (handle taskWorld none openRequest.read).sent := hm
    rw [handle_openRequest] at hm
    simp only [List.mem_cons, List.not_mem_nil, or_false] at hm
    rcases hm with rfl | rfl | rfl
    · exact connectingReport_carried
    · exact readyReport_carried
    · exact openedAnswer_carried
  · have h₂ := step_serve h₂
    rw [hread₁] at h₂
    subst h₂
    refine ⟨createRequest_delivers, fun c₃ h₃ => ⟨?_, fun c₄ _ => ⟨trivial, fun _ _ => trivial⟩⟩⟩
    cases h₃
    intro req rest hread m hm
    cases hread₂.symm.trans hread
    have hlive : (handle taskWorld none openRequest.read).live = some openLive := by
      rw [handle_openRequest]
    have hm : m ∈ (handle taskWorld (handle taskWorld none openRequest.read).live
        createRequest.read).sent := hm
    rw [hlive] at hm
    let s : Served := ⟨taskWorld, some openLive, createRequest.read⟩
    have hcall : s.handled.sent = [createdAnswer] :=
      (handled_call (show createCall.asks = some _ from rfl) (show s.req = _ from rfl)).2.2
    have hsent : m ∈ s.handled.sent := hm
    rw [hcall, List.mem_singleton] at hsent
    subst hsent
    exact createdAnswer_carried

theorem answered_by_core_create :
    ∃ c, Machine.run (Channel.step taskSerde) .start taskRun = some c ∧
      ∃ s ∈ c.served, s.handled.effects =
        if s.live.isSome then [.core (.taskCreate "Fix the build" none)] else [] := by
  have hbegun : (Machine.run (Channel.step taskSerde) .start openRun).any
      (fun c => c.client.promises.length = 1) = true := by decide +kernel
  have hreached : (Machine.run (Channel.step taskSerde) .start taskRun).any
      (fun c => c.client.settled.any fun x => x.promise = 1 ∧ x.outcome.msg?.isSome) = true := by
    decide +kernel
  obtain ⟨c₀, hbegun, hlength⟩ := (Option.any_eq_true _ _).mp hbegun
  obtain ⟨c, hreached, hsettled⟩ := (Option.any_eq_true _ _).mp hreached
  obtain ⟨x, hx, hanswer⟩ := List.any_eq_true.mp hsettled
  obtain ⟨hpromise, hmsg⟩ := of_decide_eq_true hanswer
  obtain ⟨msg, hmsg⟩ := Option.isSome_iff_exists.mp hmsg
  obtain ⟨i, s, hs, -, -, heffects, -⟩ :=
    answered_by_core taskRun_carried hbegun hreached (show createCall.asks = some _ from rfl) hx
      (hpromise.trans (of_decide_eq_true hlength).symm) hmsg
  exact ⟨c, hreached, s, List.mem_of_getElem? hs, heffects⟩

end Promises

end Call

end ValyriaApp.BridgeHost
