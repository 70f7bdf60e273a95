import ValyriaApp.Extension.Approval
import ValyriaApp.State.Activity

/-! # View models

Each surface shows a function of the store, the pinned task and what the host
has fetched. A builder returns nothing where the code throws: a completion row
whose payload is a primitive, or a timestamp that is no date.
-/

namespace ValyriaApp

/-! ## Names -/

def TaskState.name : TaskState → String
  | .idle => "idle"
  | .understanding => "understanding"
  | .discovery => "discovery"
  | .planning => "planning"
  | .implementing => "implementing"
  | .verifying => "verifying"
  | .repairing => "repairing"
  | .waitingForPermission => "waiting_for_permission"
  | .paused => "paused"
  | .completed => "completed"
  | .failed => "failed"
  | .cancelled => "cancelled"
  | .unknown => "unknown"

/-- The focused task, when there is one. -/
def focusedTask (s : StoreState) (focusId : Option String) : Option TaskProjection :=
  ((resolveFocus s focusId).filter (· ≠ "")).bind s.tasks.get?

/-- What a surface that lists the rows or files of the focused task lists. -/
def forFocus {α : Type} (s : StoreState) (focusId : Option String) (list : String → List α) :
    List α :=
  match (resolveFocus s focusId).filter (· ≠ "") with
  | some id => list id
  | none => []

/-! ## Chat -/

def transcriptKinds : List String :=
  ["plan_created", "tool_started", "tool_completed", "file_changed", "test_started",
    "test_passed", "test_failed", "verification_evidence", "approval_requested", "task_paused",
    "task_completed", "task_failed", "progress_stalled"]

inductive ChatRole where
  | you | agent

structure ChatEntry where
  seq : Num
  role : ChatRole
  text : String

structure ChatModel where
  connection : ConnectionState
  taskId : Option String
  objective : Option String
  state : Option TaskState
  terminal : Bool
  working : Bool
  blocked : Bool
  transcript : List ChatEntry
  canSubmit : Bool

def chatModel (s : StoreState) (focusId : Option String) (connection : ConnectionState) :
    ChatModel :=
  let task := focusedTask s focusId
  let said := (task.bind fun t => (t.objective.filter (· ≠ "")).map fun text =>
    ({ seq := t.firstSeenSeq, role := .you, text } : ChatEntry)).toList
  let rows := (forFocus s focusId (eventsForTask s)).filter (·.kind ∈ transcriptKinds)
  let working := task.any fun t =>
    !t.terminal && t.state ≠ .waitingForPermission && t.state ≠ .paused
  let blocked := task.any (·.state = .waitingForPermission)
  { connection
    taskId := resolveFocus s focusId
    objective := task.bind (·.objective)
    state := task.map (·.state)
    terminal := (task.map (·.terminal)).getD false
    working, blocked
    transcript := said ++ rows.map fun e => { seq := e.seq, role := .agent, text := activityLine e }
    canSubmit := connection = .ready && !working && !blocked }

/-! ## Task -/

structure PlanStepRow where
  intent : String
  status : Option String
  checkpoint : Bool

structure CheckpointRow where
  stepId : Option String
  intent : Option String
  rollbackBoundary : Bool
  checkpointId : Option String
  rollbackReady : Bool

structure FileRow where
  path : String
  change : Option String

structure TestSummary where
  command : String
  outcome : TestOutcome
  summary : Option String
  failureCount : Option Num

structure TestRow extends TestSummary where
  failures : List FailureProjection

/-- The approval card; a surface that does not show the number leaves it out. -/
structure ApprovalCard where
  seq : Num
  prompt : String
  tool : Option String
  risk : Option String

structure TaskModel where
  taskId : Option String
  objective : Option String
  state : Option TaskState
  terminal : Bool
  planSteps : List PlanStepRow
  checkpoints : List CheckpointRow
  files : List FileRow
  tests : List TestRow
  approval : Option ApprovalCard
  agentCommandCount : Option ℕ

def approvalCard (ap : ApprovalProjection) : ApprovalCard where
  seq := ap.seq
  prompt := (strField ap.payload "prompt").getD "Approval requested"
  tool := strField ap.payload "tool"
  risk := strField ap.payload "risk"

def planStepRow (step : Json) : PlanStepRow where
  intent := (strField (some step) "intent").getD "(step)"
  status := strField (some step) "status"
  checkpoint := boolField (some step) "checkpoint" = some true ||
    boolField (some step) "rollback_boundary" = some true

def checkpointRow (s : StoreState) (task : TaskProjection) (id : String) (rollbackCapable : Bool)
    (c : CheckpointBoundary) : CheckpointRow :=
  let checkpointId := (c.stepId.filter (· ≠ "")).bind (checkpointIdsForTask s id).get?
  { stepId := c.stepId, intent := c.intent, rollbackBoundary := c.rollbackBoundary, checkpointId
    rollbackReady := rollbackCapable && checkpointId.isSome && !task.terminal }

/-- The model of a task that the store knows. -/
def taskView (s : StoreState) (id : String) (task : TaskProjection) (rollbackCapable : Bool)
    (agentCommandCount : ℕ) : TaskModel where
  taskId := some id
  objective := task.objective
  state := some task.state
  terminal := task.terminal
  planSteps := (planSteps s id).map planStepRow
  checkpoints := (checkpointsForTask s id).map (checkpointRow s task id rollbackCapable)
  files := (changedFilesForTask s id).map fun f => { path := f.path, change := f.change }
  tests := (testResultsForTask s id).map fun t =>
    { command := t.command, outcome := t.outcome, summary := t.summary
      failureCount := t.failureCount, failures := t.failures }
  approval := (pendingApprovalFor s id).map approvalCard
  agentCommandCount := some agentCommandCount

def taskModel (s : StoreState) (focusId : Option String) (rollbackCapable : Bool) :
    Option TaskModel :=
  match (resolveFocus s focusId).filter (· ≠ ""), focusedTask s focusId with
  | some id, some task =>
    (agentCommandsForTask s id).map fun commands =>
      taskView s id task rollbackCapable commands.length
  | _, _ => some
    { taskId := none, objective := none, state := none, terminal := false, planSteps := []
      checkpoints := [], files := [], tests := [], approval := none, agentCommandCount := none }

/-! ## Agent commands -/

structure AgentCommandsModel where
  taskId : Option String
  commands : List AgentCommand

/-- The read-only projection of the shell commands the agent ran. -/
def agentCommandsModel (s : StoreState) (focusId : Option String) : Option AgentCommandsModel :=
  match (resolveFocus s focusId).filter (· ≠ "") with
  | none => some { taskId := none, commands := [] }
  | some id => (agentCommandsForTask s id).map fun commands => { taskId := some id, commands }

/-! ## Timeline -/

structure TimelineRow where
  seq : Num
  ts : Num
  kind : String
  taskId : Option String
  degraded : Bool
  summary : String
  raw : String

/-- Every row with its raw payload. -/
def timelineModel (s : StoreState) : List TimelineRow :=
  (timelineRows s).map fun e =>
    { seq := e.seq, ts := e.ts, kind := e.kind, taskId := e.taskId, degraded := e.degraded
      summary := activityLine e, raw := (nullish .null e.payload).stringify }

/-! ## Model chat -/

/-- The one role the interface activates a model for. -/
def defaultModelRole : String := "primary_coder"

def nonChatFamilies : List String := ["nomic-embed", "bge-reranker"]

def isChatCapable (family : String) : Bool := family ∉ nonChatFamilies

structure ModelSummary where
  id : String
  family : String
  displayName : Option String
  installed : Bool
  activeRoles : Option (List String)

structure RecommendResult where
  role : String
  candidates : List Json

structure ModelChatInput where
  inferenceCapable : Bool
  models : Option (List ModelSummary)
  allowForTaskSupported : Bool
  activating : Option Bool
  recommend : Option RecommendResult

structure ModelChoice where
  id : String
  displayName : String
  unratedForCoding : Bool

structure ModelChatApproval where
  seq : Num
  prompt : String
  tool : Option String
  category : Option String
  target : Option String
  risk : Option String
  allowForTaskSupported : Bool

/-- The model chat repeats the chat model and adds the model picker. -/
structure ModelChatModel where
  chat : ChatModel
  inferenceCapable : Bool
  models : List ModelChoice
  activeModelId : Option String
  activating : Bool
  approval : Option ModelChatApproval

def modelChatModel (s : StoreState) (focusId : Option String) (connection : ConnectionState)
    (input : ModelChatInput) : ModelChatModel :=
  let chat := chatModel s focusId connection
  let ap := (chat.taskId.filter (· ≠ "")).bind (pendingApprovalFor s)
  let rec? := input.recommend.filter (·.role = defaultModelRole)
  let scoredIds := ((rec?.map (·.candidates)).getD []).filterMap fun c => strField (some c) "id"
  let models := input.models.getD []
  { chat
    inferenceCapable := input.inferenceCapable
    models := (models.filter fun m => m.installed && isChatCapable m.family).map fun m =>
      { id := m.id, displayName := m.displayName.getD m.id
        unratedForCoding := rec?.isSome && decide (m.id ∉ scoredIds) }
    activeModelId :=
      (models.find? fun m => decide (defaultModelRole ∈ m.activeRoles.getD [])).map (·.id)
    activating := input.activating.getD false
    approval := ap.map fun ap =>
      { seq := ap.seq, prompt := (strField ap.payload "prompt").getD "Approval requested"
        tool := strField ap.payload "tool", category := strField ap.payload "category"
        target := strField ap.payload "target", risk := strField ap.payload "risk"
        allowForTaskSupported := input.allowForTaskSupported } }

/-! ## History -/

structure HistoryTask where
  id : String
  objective : Option String
  state : TaskState
  terminal : Bool
  blocked : Bool
  focused : Bool

structure HistoryModel where
  focusedTaskId : Option String
  groups : List (String × List HistoryTask)

def historyTask (focused : Option String) (t : TaskProjection) : HistoryTask where
  id := t.id
  objective := t.objective
  state := t.state
  terminal := t.terminal
  blocked := t.state = .waitingForPermission
  focused := some t.id = focused

def addToDay (focused : Option String) (byDay : Record (List HistoryTask)) (t : TaskProjection) :
    Option (Record (List HistoryTask)) :=
  (isoDay t.lastTs).map fun day =>
    byDay.set day ((byDay.get? day).getD [] ++ [historyTask focused t])

/-- Tasks by the day they were last touched on, most recent first. -/
def historyModel (s : StoreState) (focusId : Option String) : Option HistoryModel := do
  let focused := resolveFocus s focusId
  let byDay ← (tasksByRecency s).foldlM (addToDay focused) .empty
  return { focusedTaskId := focused, groups := byDay.entries }

/-! ## Status bar -/

inductive TickerTone where
  | idle | blocked | paused | failed | done | working

structure TickerModel where
  connection : ConnectionState
  hasTask : Bool
  taskId : Option String
  phase : Option String
  tone : TickerTone
  filesTouched : ℕ

def toolVerb : String → Option String
  | "read_file" | "list_dir" => some "Reading"
  | "search" | "grep" => some "Searching"
  | "write_file" | "edit_file" | "apply_patch" => some "Editing"
  | "run_command" => some "Running"
  | _ => none

def editingPhase (filesTouched : ℕ) : String :=
  "Editing " ++ Nat.repr filesTouched ++ " file" ++ if filesTouched = 1 then "" else "s"

/-- The phase a row of the tail stands for, if it settles one. -/
def rowPhase (filesTouched : ℕ) (e : EventRow) : Option String :=
  match e.kind with
  | "test_started" => some "Running tests"
  | "test_failed" => some "Tests failing"
  | "test_passed" => some "Tests passing"
  | "verification_evidence" => some "Verifying"
  | "plan_created" => some "Planning"
  | "tool_started" =>
    let tool := (strField e.payload "tool").getD ""
    match nameField (field e.payload "input") "program", decide (tool = "run_command") with
    | some program, true => some ("Running " ++ program)
    | _, _ =>
      match toolVerb tool with
      | some "Editing" => some (if 0 < filesTouched then editingPhase filesTouched else "Editing")
      | verb => verb
  | "file_changed" => if 0 < filesTouched then some (editingPhase filesTouched) else none
  | _ => none

/-- The first letter in upper case, as in `replace(/^\w/, …)` on a state name. -/
def capitalized (text : String) : String :=
  match text.toList with
  | c :: cs => String.ofList (c.toUpper :: cs)
  | [] => ""

def tickerModel (s : StoreState) (focusId : Option String) (connection : ConnectionState) :
    TickerModel :=
  match (resolveFocus s focusId).filter (· ≠ ""), focusedTask s focusId with
  | some id, some task =>
    let filesTouched := (changedFilesForTask s id).length
    let shown (phase : String) (tone : TickerTone) : TickerModel :=
      { connection, hasTask := true, taskId := some id, phase := some phase, tone, filesTouched }
    if task.state = .waitingForPermission then shown "Blocked: approval" .blocked
    else if task.state = .paused then shown "Paused" .paused
    else if task.terminal then
      if task.state = .failed then shown "Task failed" .failed else shown "Task done" .done
    else
      let tail := (eventsForTask s id).reverse.take 16
      shown ((tail.findSome? (rowPhase filesTouched)).getD (capitalized (spaced task.state.name)))
        .working
  | _, _ =>
    { connection, hasTask := false, taskId := none, phase := none, tone := .idle
      filesTouched := 0 }

/-! ## Home -/

inductive LayoutMode where
  | agent | editor

structure HomeInput where
  connection : ConnectionState
  hasRepo : Bool
  repoName : Option String
  activeModel : Option String
  networkRuntime : Bool
  autonomy : Option String
  layoutMode : LayoutMode

structure HomeTask where
  id : String
  objective : Option String
  state : TaskState
  terminal : Bool
  blocked : Bool
  filesTouched : ℕ
  when : String

structure HomeModel where
  input : HomeInput
  canSubmit : Bool
  active : List HomeTask
  recent : List HomeTask

def homeTask (s : StoreState) (t : TaskProjection) : Option HomeTask :=
  (isoDay t.lastTs).map fun day =>
    { id := t.id, objective := t.objective, state := t.state, terminal := t.terminal
      blocked := t.state = .waitingForPermission
      filesTouched := (changedFilesForTask s t.id).length, when := day }

def homeModel (s : StoreState) (input : HomeInput) : Option HomeModel := do
  let busy := (activeTasks s).any fun t => t.state ≠ .paused && t.state ≠ .waitingForPermission
  let active ← (activeTasks s).mapM (homeTask s)
  let recent ← (((tasksByRecency s).filter (·.terminal)).take 8).mapM (homeTask s)
  return { input, canSubmit := input.connection = .ready && !busy, active, recent }

/-! ## Workspace and review -/

structure VerifiedClaim where
  kind : String
  command : String
  outcome : String

/-- What the host keeps of a `task/report` response. -/
structure Report where
  status : Option String
  verified : Option (List VerifiedClaim)
  unverified : Option (List String)

structure OwnedFileRow where
  path : String
  change : Option String
  ownership : Option String

structure WorkspaceInput where
  connection : ConnectionState
  ownership : Record String
  report : Option Report
  rollbackCapable : Bool

structure WorkspaceModel where
  chat : ChatModel
  planSteps : List PlanStepRow
  files : List OwnedFileRow
  tests : List TestSummary
  verified : List VerifiedClaim
  unverified : List String
  approval : Option ApprovalCard

def verifiedOf (report : Option Report) : List VerifiedClaim :=
  (report.bind (·.verified)).getD []

def unverifiedOf (report : Option Report) : List String :=
  (report.bind (·.unverified)).getD []

def workspaceModel (s : StoreState) (focusId : Option String) (input : WorkspaceInput) :
    Option WorkspaceModel := do
  let chat := chatModel s focusId input.connection
  let task ← taskModel s focusId input.rollbackCapable
  let ap := (task.taskId.filter (· ≠ "")).bind (pendingApprovalFor s)
  return {
    chat
    planSteps := task.planSteps
    files := task.files.map fun f =>
      { path := f.path, change := f.change, ownership := input.ownership.get? f.path }
    tests := task.tests.map (·.toTestSummary)
    verified := verifiedOf input.report
    unverified := unverifiedOf input.report
    approval := ap.map approvalCard }

structure ReviewInput where
  connection : ConnectionState
  ledgerAvailable : Bool
  ownership : Record String
  report : Option Report

structure ReviewModel where
  connection : ConnectionState
  taskId : Option String
  objective : Option String
  ledgerAvailable : Bool
  reportStatus : Option String
  files : List OwnedFileRow
  verified : List VerifiedClaim
  unverified : List String
  approval : Option ApprovalCard

def reviewModel (s : StoreState) (focusId : Option String) (input : ReviewInput) : ReviewModel where
  connection := input.connection
  taskId := resolveFocus s focusId
  objective := (focusedTask s focusId).bind (·.objective)
  ledgerAvailable := input.ledgerAvailable
  reportStatus := input.report.bind (·.status)
  files := (forFocus s focusId (changedFilesForTask s)).map fun f =>
    { path := f.path, change := f.change, ownership := input.ownership.get? f.path }
  verified := verifiedOf input.report
  unverified := unverifiedOf input.report
  approval := (((resolveFocus s focusId).filter (· ≠ "")).bind (pendingApprovalFor s)).map
    approvalCard

end ValyriaApp
