import ValyriaApp.Extension.Views
import ValyriaApp.State.Scope

/-! # A pinned task on its own stream

The surfaces that show a pinned task read that task's projections and rows
only, so they look the same over a stream from which other tasks' events are
left out. The install and server maps are workspace-global: they are the same
as long as no install or server event names another task.
-/

namespace ValyriaApp

/-- The stores hold the same about a task. -/
structure SameTask (t : String) (s s' : StoreState) : Prop where
  data : sliceFor s' t = sliceFor s t
  rows : eventsForTask s' t = eventsForTask s t

/-- The surfaces pinned to the task show the same for both stores. -/
structure SameViews (t : String) (s s' : StoreState) : Prop where
  chat : ∀ connection, chatModel s' (some t) connection = chatModel s (some t) connection
  task : ∀ rollbackCapable,
    taskModel s' (some t) rollbackCapable = taskModel s (some t) rollbackCapable
  commands : agentCommandsModel s' (some t) = agentCommandsModel s (some t)
  ticker : ∀ connection, tickerModel s' (some t) connection = tickerModel s (some t) connection

section Pinned

variable {s s' : StoreState} {t : String} {journal : List Json}

theorem resolveFocus_pinned (ht : t ≠ "") (hknown : (s.tasks.get? t).isSome) :
    resolveFocus s (some t) = some t := by
  rw [resolveFocus, Option.filter_some, if_pos (by simpa using ⟨ht, hknown⟩)]
  rfl

theorem filter_pinned (ht : t ≠ "") (hknown : (s.tasks.get? t).isSome) :
    (resolveFocus s (some t)).filter (· ≠ "") = some t := by
  rw [resolveFocus_pinned ht hknown, Option.filter_some, if_pos (by simpa using ht)]

theorem focusedTask_pinned (ht : t ≠ "") (hknown : (s.tasks.get? t).isSome) :
    focusedTask s (some t) = s.tasks.get? t := by
  rw [focusedTask, filter_pinned ht hknown, Option.bind_some]

theorem forFocus_pinned {α : Type} (ht : t ≠ "") (hknown : (s.tasks.get? t).isSome)
    (list : String → List α) : forFocus s (some t) list = list t := by
  rw [forFocus, filter_pinned ht hknown]

theorem SameTask.tasks (h : SameTask t s s') : s'.tasks.get? t = s.tasks.get? t :=
  congrArg TaskSlice.task h.data

theorem SameTask.planSteps (h : SameTask t s s') :
    ValyriaApp.planSteps s' t = ValyriaApp.planSteps s t := by
  have hplan : s'.plans.get? t = s.plans.get? t := congrArg TaskSlice.plan h.data
  simp only [ValyriaApp.planSteps, planFor, hplan]

theorem SameTask.pendingApproval (h : SameTask t s s') :
    pendingApprovalFor s' t = pendingApprovalFor s t := by
  have happroval : s'.approvals.get? t = s.approvals.get? t := congrArg TaskSlice.approval h.data
  simp only [pendingApprovalFor, h.tasks, happroval]

theorem SameTask.changedFiles (h : SameTask t s s') :
    changedFilesForTask s' t = changedFilesForTask s t := by
  have hfiles : s'.files.get? t = s.files.get? t := congrArg TaskSlice.files h.data
  simp only [changedFilesForTask, hfiles]

theorem SameTask.testResults (h : SameTask t s s') :
    testResultsForTask s' t = testResultsForTask s t := by
  have htests : s'.tests.get? t = s.tests.get? t := congrArg TaskSlice.tests h.data
  simp only [testResultsForTask, htests]

theorem SameTask.checkpoints (h : SameTask t s s') :
    checkpointsForTask s' t = checkpointsForTask s t := by
  rw [checkpointsForTask, checkpointsForTask, h.planSteps]

theorem SameTask.agentCommands (h : SameTask t s s') :
    agentCommandsForTask s' t = agentCommandsForTask s t := by
  simp only [agentCommandsForTask, h.rows]

theorem SameTask.taskView (h : SameTask t s s') (task : TaskProjection) (rollbackCapable : Bool)
    (n : ℕ) : ValyriaApp.taskView s' t task rollbackCapable n =
      ValyriaApp.taskView s t task rollbackCapable n := by
  have hids : checkpointIdsForTask s' t = checkpointIdsForTask s t := by
    rw [checkpointIdsForTask, checkpointIdsForTask, h.rows]
  have hrow : checkpointRow s' task t rollbackCapable = checkpointRow s task t rollbackCapable := by
    funext c
    simp only [checkpointRow, hids]
  simp only [ValyriaApp.taskView, h.planSteps, h.checkpoints, hrow, h.changedFiles, h.testResults,
    h.pendingApproval]

/-- A surface pinned to a known task reads nothing else. -/
theorem SameTask.views (h : SameTask t s s') (ht : t ≠ "")
    (hknown : (s.tasks.get? t).isSome) : SameViews t s s' := by
  have hknown' : (s'.tasks.get? t).isSome := by rw [h.tasks]; exact hknown
  have hfilter := filter_pinned ht hknown
  have hfilter' := filter_pinned ht hknown'
  obtain ⟨task, htask⟩ := Option.isSome_iff_exists.mp hknown
  have hfocused : focusedTask s (some t) = some task := by
    rw [focusedTask_pinned ht hknown, htask]
  have hfocused' : focusedTask s' (some t) = some task := by
    rw [focusedTask_pinned ht hknown', h.tasks, htask]
  constructor
  · intro connection
    simp only [chatModel, resolveFocus_pinned ht hknown, resolveFocus_pinned ht hknown', hfocused,
      hfocused', forFocus_pinned ht hknown, forFocus_pinned ht hknown', h.rows]
  · intro rollbackCapable
    simp only [taskModel, hfilter, hfilter', hfocused, hfocused', h.agentCommands, h.taskView]
  · simp only [agentCommandsModel, hfilter, hfilter', h.agentCommands]
  · intro connection
    simp only [tickerModel, hfilter, hfilter', hfocused, hfocused', h.changedFiles, h.rows]

end Pinned

/-- The stream of one task shows the task exactly as the full stream does. -/
theorem task_stream_shows_task (journal : List Json) (t : String) (h : Stream journal) :
    SameTask t (replay journal) (replay (taskStream t journal)) ∧
      (¬ ForeignInstall t journal →
        globalsOf (replay (taskStream t journal)) = globalsOf (replay journal)) ∧
      ((∃ raw ∈ journal, (decodeEvent raw).taskId = some t ∧ (decodeEvent raw).seq ≠ 0) →
        SameViews t (replay journal) (replay (taskStream t journal))) := by
  have hsame : SameTask t (replay journal) (replay (taskStream t journal)) :=
    ⟨h.sliceFor_taskStream t, h.rows_taskStream t⟩
  refine ⟨hsame, h.globals_taskStream t, ?_⟩
  rintro ⟨raw, hraw, htask, hseq⟩
  have ht : t ≠ "" := fun ht => h.named raw hraw (by rw [htask, ht])
  exact hsame.views ht (h.task_known hraw htask hseq)

def twoTasks : List Json :=
  [coreEvent 1 (some "t") 5 "task_started" (.obj [("objective", .str "fix the build")]),
    coreEvent 2 (some "u") 6 "file_changed" (.obj [("path", .str "a.ts")]),
    coreEvent 3 none 7 "model_install_progress" (.obj [("id", .str "m")]),
    coreEvent 4 (some "t") 8 "tool_started" (.obj [("tool", .str "bash")])]

theorem twoTasks_shown :
    SameTask "t" (replay twoTasks) (replay (taskStream "t" twoTasks)) ∧
      globalsOf (replay (taskStream "t" twoTasks)) = globalsOf (replay twoTasks) ∧
      SameViews "t" (replay twoTasks) (replay (taskStream "t" twoTasks)) := by
  obtain ⟨hsame, hglobals, hviews⟩ := task_stream_shows_task twoTasks "t"
    ⟨by decide +kernel, by decide +kernel, by decide +kernel⟩
  refine ⟨hsame, hglobals ?_, hviews ⟨_, List.mem_cons_self, by decide +kernel⟩⟩
  unfold ForeignInstall
  decide +kernel

def foreignInstall : List Json :=
  [coreEvent 1 (some "t") 5 "task_started" (.obj []),
    coreEvent 2 (some "u") 6 "model_install_progress" (.obj [("id", .str "m")])]

def startsAtZero : List Json :=
  [coreEvent 0 (some "t") 5 "task_started" (.obj []),
    coreEvent 1 (some "u") 6 "task_started" (.obj [])]

/-- The only task of a store is the one shown when the pinned task is unknown. -/
theorem resolveFocus_only {s : StoreState} {t : String} {e : String × TaskProjection}
    (hunknown : s.tasks.get? t = none) (honly : s.tasks.entries = [e]) :
    resolveFocus s (some t) = some e.2.id := by
  have hvalues : objectValues s.tasks = [e.2] := by
    unfold objectValues
    rw [honly]
    cases h : arrayIndex? e.1 <;> simp [h]
  have hpin : (some t).filter (fun id => id ≠ "" ∧ (s.tasks.get? id).isSome) = none := by
    rw [Option.filter_some, hunknown]
    simp
  rw [resolveFocus, hpin]
  simp [currentTaskId, currentTask, tasksByRecency, hvalues]

/-- An install event that names another task is missing from the task's stream, and a task whose
only event has number zero is unknown to the store, which then shows another one. -/
theorem task_stream_shows_less :
    (∃ (journal : List Json) (t : String), Stream journal ∧
      (∃ raw ∈ journal, (decodeEvent raw).taskId = some t) ∧
      globalsOf (replay (taskStream t journal)) ≠ globalsOf (replay journal)) ∧
    ∃ (journal : List Json) (t : String), Stream journal ∧
      (∃ raw ∈ journal, (decodeEvent raw).taskId = some t) ∧
      ¬ SameViews t (replay journal) (replay (taskStream t journal)) := by
  constructor
  · refine ⟨foreignInstall, "t", ⟨by decide +kernel, by decide +kernel, by decide +kernel⟩,
      ⟨_, List.mem_cons_self, by decide +kernel⟩, fun hglobals => ?_⟩
    have hkeys := congrArg (fun g : Globals => g.modelInstalls.keys) hglobals
    exact absurd hkeys (by decide +kernel)
  · refine ⟨startsAtZero, "t", ⟨by decide +kernel, by decide +kernel, by decide +kernel⟩,
      ⟨_, List.mem_cons_self, by decide +kernel⟩, fun hviews => ?_⟩
    have honly : (replay startsAtZero).tasks.keys = ["u"] := by decide +kernel
    obtain ⟨e, he, -⟩ := List.map_eq_singleton_iff.mp honly
    have hunknown : (replay startsAtZero).tasks.get? "t" = none :=
      Option.isNone_iff_eq_none.mp (by decide +kernel)
    have hshown : (chatModel (replay startsAtZero) (some "t") .ready).taskId = some e.2.id :=
      resolveFocus_only hunknown he
    have hempty : (chatModel (replay (taskStream "t" startsAtZero)) (some "t") .ready).taskId =
        none := by decide +kernel
    rw [hviews.chat .ready, hshown] at hempty
    exact nomatch hempty

end ValyriaApp
