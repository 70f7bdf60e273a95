import ValyriaApp.Protocol.Text
import ValyriaApp.State.Selectors

/-! # What the rows of a task say

A row becomes one short line of text, and the rows of a task yield its plan
boundaries, its checkpoint ids and the shell commands the agent ran. Model
output is a field of two kinds of payload; of these the lines read nothing else
than the tool and its success.
-/

namespace ValyriaApp

def boolField (payload : Option Json) (key : String) : Option Bool :=
  (field payload key).bind fun
    | .bool b => some b
    | _ => none

/-- Tool names Core uses for "run a shell command". -/
def shellToolNames : List String := ["run_command", "bash", "shell", "sh"]

def activeTasks (s : StoreState) : List TaskProjection :=
  (tasksByRecency s).filter (!·.terminal)

def eventsForTask (s : StoreState) (taskId : String) : List EventRow :=
  s.events.filter (·.taskId = some taskId)

/-- All events, newest first. -/
def timelineRows (s : StoreState) : List EventRow :=
  s.events.insertionSort fun a b => ¬ a.seq < b.seq

/-! ## The activity line -/

/-- `text.replace(/_/g, " ")` -/
def spaced (text : String) : String :=
  String.ofList (text.toList.map fun c => if c = '_' then ' ' else c)

def activityVerb (tool : Option String) : String :=
  if tool.any (· ∈ shellToolNames) then "Running"
  else
    match tool with
    | some "read_file" => "Reading"
    | some "write_file" | some "edit_file" | some "apply_patch" => "Editing"
    | some "search" | some "grep" => "Searching"
    | _ => "Running"

/-- A short human line for a row. -/
def activityLine (e : EventRow) : String :=
  let str := strField e.payload
  let name := nameField e.payload
  match e.kind with
  | "task_started" => "Task started"
  | "plan_created" =>
    match numField e.payload "revision" with
    | some revision => "Plan updated (rev " ++ revision.text ++ ")"
    | none => "Plan created"
  | "model_started" => "Consulting the model"
  | "model_completed" => "Model responded"
  | "tool_started" =>
    match nameField (field e.payload "input") "path", name "tool" with
    | some target, _ => activityVerb (str "tool") ++ " " ++ target
    | none, some tool => activityVerb (some tool) ++ " (" ++ tool ++ ")"
    | none, none => "Tool started"
  | "tool_completed" =>
    (str "tool").getD "Tool" ++
      if boolField e.payload "success" = some false then " failed" else " done"
  | "file_changed" => ((name "path").map ("Changed " ++ ·)).getD "File changed"
  | "test_started" => "Running tests"
  | "test_passed" => "Tests passed"
  | "test_failed" => (str "summary").getD "Tests failed"
  | "verification_evidence" =>
    ((name "command").map ("Verified: " ++ ·)).getD "Verification recorded"
  | "approval_requested" => (str "prompt").getD "Approval requested"
  | "state_changed" => ((name "to").map ("→ " ++ ·)).getD "State changed"
  | "task_paused" => "Task paused"
  | "task_completed" => "Task completed"
  | "task_failed" => ((name "reason").map ("Task failed — " ++ ·)).getD "Task failed"
  | "progress_stalled" => ((name "reason").map ("Stalled: " ++ ·)).getD "Progress stalled"
  | "external_change_detected" => "External change detected"
  | "memory_written" => "Memory updated"
  | "resource_pressure" => "Resource pressure"
  | "context_retrieved" => "Context retrieved"
  | kind => spaced kind

/-! ## Plans, files and tests -/

def planFor (s : StoreState) (taskId : String) : Option PlanProjection := s.plans.get? taskId

def changedFilesForTask (s : StoreState) (taskId : String) : List FileChangeProjection :=
  ((s.files.get? taskId).getD []).insertionSort fun a b => ¬ b.firstSeq < a.firstSeq

def testResultsForTask (s : StoreState) (taskId : String) : List TestRunProjection :=
  (((s.tests.get? taskId).map (·.runs)).getD []).insertionSort fun a b => ¬ a.seq < b.seq

/-- The steps a plan's payload declares. -/
def planSteps (s : StoreState) (taskId : String) : List Json :=
  match field ((planFor s taskId).bind (·.payload)) "steps" with
  | some (.arr steps) => steps
  | _ => []

/-- A checkpoint boundary a task's plan declares. -/
structure CheckpointBoundary where
  stepId : Option String
  intent : Option String
  rollbackBoundary : Bool

def checkpointsForTask (s : StoreState) (taskId : String) : List CheckpointBoundary :=
  (planSteps s taskId).filterMap fun step =>
    let checkpoint := boolField (some step) "checkpoint" = some true
    let rollbackBoundary := boolField (some step) "rollback_boundary" = some true
    if checkpoint ∨ rollbackBoundary then
      some { stepId := strField (some step) "id", intent := strField (some step) "intent"
             rollbackBoundary }
    else none

/-- The checkpoint ids learnt from `plan_checkpoint` rows, by step. -/
def checkpointIdsForTask (s : StoreState) (taskId : String) : Record String :=
  ((eventsForTask s taskId).filter (·.kind = "plan_checkpoint")).foldl
    (fun out e =>
      match strField e.payload "step_id", strField e.payload "checkpoint_id" with
      | some stepId, some checkpointId => out.set stepId checkpointId
      | _, _ => out) .empty

/-! ## Agent commands -/

structure AgentCommand where
  seq : Num
  ts : Num
  program : String
  args : List String
  /-- The invocation id, when Core sent one. -/
  invocationId : Option String
  exitCode : Option Num
  stdout : Option String
  stderr : Option String
  /-- The `rendered` blob when it did not parse into its parts. -/
  raw : Option String
  succeeded : Option Bool
  durationMs : Option Num
  pending : Bool

structure RenderedParts where
  exitCode : Option Num
  stdout : String
  stderr : String

def indexOf? (pattern text : List Char) : Option ℕ :=
  (List.range (text.length + 1)).find? fun i => pattern.isPrefixOf (text.drop i)

def lastIndexOf? (pattern text : List Char) : Option ℕ :=
  (List.range (text.length + 1)).reverse.find? fun i => pattern.isPrefixOf (text.drop i)

def sliceText (text : List Char) (start stop : ℕ) : List Char :=
  (text.drop start).take (stop - start)

/-- The first group of `/^exit=Some\((-?\d+)\)/`. -/
def exitCodeHere (text : List Char) : Option (List Char) :=
  let opening := "exit=Some(".toList
  if opening.isPrefixOf text then
    let rest := text.drop opening.length
    let sign := rest.take 1 |>.filter (· = '-')
    let digits := (rest.drop sign.length).takeWhile Char.isDigit
    if digits ≠ [] ∧ (rest.drop (sign.length + digits.length)).head? = some ')' then
      some (sign ++ digits)
    else none
  else none

/-- Parse Core's `run_command` `rendered` envelope. -/
def parseRenderedCommand (rendered : String) : Option RenderedParts :=
  let text := rendered.toList
  let outMarker := "--- stdout ---\n".toList
  let errMarker := "--- stderr ---\n".toList
  match indexOf? outMarker text, lastIndexOf? errMarker text with
  | some si, some ei =>
    if ei < si then none
    else
      let head := text.take si
      some
        { exitCode := ((List.range (head.length + 1)).findSome? fun i =>
            exitCodeHere (head.drop i)).map fun m => Num.ofString (String.ofList m)
          stdout := String.ofList (sliceText text (si + outMarker.length) ei)
          stderr := String.ofList (text.drop (ei + errMarker.length)) }
  | _, _ => none

/-- `key in (payload ?? {})`, which throws on a primitive. -/
def hasKey? (payload : Option Json) (key : String) : Option Bool :=
  match payload with
  | none | some .null | some (.arr _) => some false
  | some (.obj fields) => some ((Json.obj fields).get? key).isSome
  | some _ => none

/-- The completion a shell command is paired with: by invocation id, else the next one before the
next start. -/
def completionFor (rows rest : List EventRow) (invocationId : Option String) : Option EventRow :=
  match invocationId.filter (· ≠ "") with
  | some id => rows.find? fun r =>
      r.kind = "tool_completed" ∧ strField r.payload "tool_invocation_id" = some id
  | none => (rest.find? fun r => r.kind = "tool_started" ∨ r.kind = "tool_completed").filter
      (·.kind = "tool_completed")

/-- Structured output wins over the `rendered` blob. -/
def AgentCommand.filled (cmd : AgentCommand) (payload : Option Json) (structured : Bool) :
    AgentCommand :=
  let cmd := { cmd with
    succeeded := boolField payload "success", durationMs := numField payload "duration_ms" }
  if structured then
    { cmd with
      exitCode := numField payload "exit_code", stdout := strField payload "stdout"
      stderr := strField payload "stderr" }
  else
    match strField payload "rendered" with
    | none => cmd
    | some rendered =>
      match parseRenderedCommand rendered with
      | some parts =>
        { cmd with
          exitCode := parts.exitCode, stdout := some parts.stdout, stderr := some parts.stderr }
      | none => { cmd with raw := some rendered }

/-- Fill in what the completion says. -/
def AgentCommand.complete (cmd : AgentCommand) (completion : EventRow) : Option AgentCommand := do
  let exitCode ← hasKey? completion.payload "exit_code"
  let stdout ← hasKey? completion.payload "stdout"
  let stderr ← hasKey? completion.payload "stderr"
  return cmd.filled completion.payload (exitCode || stdout || stderr)

def isShellStart (e : EventRow) : Bool :=
  e.kind = "tool_started" ∧ (strField e.payload "tool").getD "" ∈ shellToolNames

/-- The command a shell tool's start row tells of; `none` when a payload makes the code throw. -/
def agentCommand (rows rest : List EventRow) (e : EventRow) : Option AgentCommand :=
  let input := field e.payload "input"
  let invocationId := strField e.payload "tool_invocation_id"
  let completion := completionFor rows rest invocationId
  let cmd : AgentCommand :=
    { seq := e.seq, ts := e.ts
      program := (strField input "program").getD ""
      args := match field input "args" with
        | some (.arr args) => args.filterMap Json.str?
        | _ => []
      invocationId, exitCode := none, stdout := none, stderr := none, raw := none
      succeeded := none, durationMs := none, pending := completion.isNone }
  match completion with
  | some completion => cmd.complete completion
  | none => some cmd

/-- The loop over the rows; `rest` are the rows still to come. -/
def agentCommandsFrom (rows : List EventRow) : List EventRow → Option (List AgentCommand)
  | [] => some []
  | e :: rest => do
    if isShellStart e then
      let cmd ← agentCommand rows rest e
      return cmd :: (← agentCommandsFrom rows rest)
    else agentCommandsFrom rows rest

/-- The shell commands the agent ran for a task. -/
def agentCommandsForTask (s : StoreState) (taskId : String) : Option (List AgentCommand) :=
  let rows := (eventsForTask s taskId).insertionSort fun a b => ¬ b.seq < a.seq
  agentCommandsFrom rows rows

end ValyriaApp
