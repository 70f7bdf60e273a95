import ValyriaApp.Extension.Views
import ValyriaApp.Lib.Attempts
import ValyriaApp.State.Pairing

/-! # Which streams crash a view

Rows that did not decode keep their raw payload, and the builders of the views
read them. A builder throws on a completion whose payload is a primitive, paired
by position with a shell start, and on a task last touched at no date.
-/

namespace ValyriaApp

variable {s : StoreState} {focusId : Option String} {raws : List Json} {id : String}

/-! ## All views -/

structure ViewsInput where
  connection : ConnectionState
  rollbackCapable : Bool
  home : HomeInput
  workspace : WorkspaceInput
  review : ReviewInput

structure Views where
  chat : ChatModel
  task : TaskModel
  agentCommands : AgentCommandsModel
  timeline : List TimelineRow
  ticker : TickerModel
  history : HistoryModel
  home : HomeModel
  workspace : WorkspaceModel
  review : ReviewModel

/-- Build every view; `none` when a builder throws. -/
def buildViews (s : StoreState) (focusId : Option String) (input : ViewsInput) : Option Views := do
  let task ← taskModel s focusId input.rollbackCapable
  let agentCommands ← agentCommandsModel s focusId
  let history ← historyModel s focusId
  let home ← homeModel s input.home
  let workspace ← workspaceModel s focusId input.workspace
  return {
    chat := chatModel s focusId input.connection
    task, agentCommands
    timeline := timelineModel s
    ticker := tickerModel s focusId input.connection
    history, home, workspace
    review := reviewModel s focusId input.review }

/-! ## Dates -/

/-- The number of milliseconds is one a `Date` can hold. -/
def isDate : Num → Bool
  | .fin q => decide (|q| ≤ 8640000000000000)
  | _ => false

theorem isoDay_isSome (ts : Num) : (isoDay ts).isSome = isDate ts := by
  cases ts with
  | nan => rfl
  | inf neg => rfl
  | fin q => by_cases h : |q| ≤ 8640000000000000 <;> simp [isoDay, isDate, h]

/-- Every task was last touched at a date. -/
def TasksDated (s : StoreState) : Prop :=
  ∀ t ∈ tasksByRecency s, isDate t.lastTs = true

theorem historyModel_isSome_iff (focusId : Option String) :
    (historyModel s focusId).isSome = true ↔ TasksDated s := by
  have hday : ∀ byDay t, (addToDay (resolveFocus s focusId) byDay t).isSome = true ↔
      isDate t.lastTs = true := by
    intro byDay t
    rw [addToDay, Option.isSome_map, isoDay_isSome]
  rw [TasksDated, ← Attempts.foldlM_isSome hday .empty, historyModel]
  simp only [bind, pure]
  cases (tasksByRecency s).foldlM (addToDay (resolveFocus s focusId)) .empty <;> simp

theorem homeModel_isSome (input : HomeInput) (h : TasksDated s) :
    (homeModel s input).isSome = true := by
  have htask : ∀ t ∈ tasksByRecency s, (homeTask s t).isSome = true := by
    intro t ht
    rw [homeTask, Option.isSome_map, isoDay_isSome]
    exact h t ht
  have hactive : ((activeTasks s).mapM (homeTask s)).isSome = true :=
    Attempts.mapM_isSome.mpr fun t ht => htask t (List.mem_of_mem_filter ht)
  have hrecent :
      ((((tasksByRecency s).filter (·.terminal)).take 8).mapM (homeTask s)).isSome = true :=
    Attempts.mapM_isSome.mpr fun t ht =>
      htask t (List.mem_of_mem_filter (List.mem_of_mem_take ht))
  obtain ⟨active, hactive⟩ := Option.isSome_iff_exists.mp hactive
  obtain ⟨recent, hrecent⟩ := Option.isSome_iff_exists.mp hrecent
  simp [homeModel, hactive, hrecent]

/-! ## Commands -/

/-- The rows of a task in the order of their numbers. -/
def commandRows (s : StoreState) (id : String) : List EventRow :=
  (eventsForTask s id).insertionSort fun a b => ¬ b.seq < a.seq

/-- No shell start without an id is followed, among the tool rows, by a completion whose payload is
a primitive. -/
def CommandsReadable (rows : List EventRow) : Prop :=
  ∀ pre e rest, rows = pre ++ e :: rest → isShellStart e = true →
    invocationId e = none ∨ invocationId e = some "" →
    ∀ c, nextTool rest = some c → isCompletion c = true → isPrimitive c.payload = false

theorem isPrimitive_of_invocationId {c : EventRow} (h : invocationId c = some id) :
    isPrimitive c.payload = false := by
  unfold invocationId strField field at h
  rcases hc : c.payload with _ | payload
  · rfl
  · rw [hc] at h
    cases payload <;> first | rfl | exact nomatch h

theorem agentCommandsForTask_isSome_iff :
    (agentCommandsForTask s id).isSome = true ↔ CommandsReadable (commandRows s id) := by
  change (agentCommandsFrom (commandRows s id) (commandRows s id)).isSome = true ↔ _
  rw [agentCommandsFrom_eq, Attempts.mapM_isSome]
  constructor
  · intro h pre e rest hsplit hshell hpos c hnext hcomp
    have hmem := pairings_mem (commandRows s id) hsplit hshell
    refine commandOf_isSome_iff.mp (h _ hmem) c ?_
    rw [completionFor_positional hpos, hnext, Option.filter_some, if_pos hcomp]
  · intro h p hp
    obtain ⟨pre, rest, hsplit, hshell, hcompl⟩ := mem_pairings hp
    refine commandOf_isSome_iff.mpr fun c hc => ?_
    rw [hc] at hcompl
    rcases invocationId_cases p.1 with ⟨key, hkey, hne⟩ | hpos
    · rw [hkey] at hcompl
      exact isPrimitive_of_invocationId (keyed_spec hne hcompl.symm).2.2
    · obtain ⟨hnext, -, hcomp⟩ := positional_spec hpos hcompl.symm
      exact h pre p.1 rest hsplit hshell hpos c hnext hcomp

theorem agentCommandsModel_isSome_iff :
    (agentCommandsModel s focusId).isSome = true ↔
      ∀ id, (resolveFocus s focusId).filter (· ≠ "") = some id →
        CommandsReadable (commandRows s id) := by
  unfold agentCommandsModel
  split
  · rename_i hnone
    rw [hnone]
    simp
  · rename_i id hid
    rw [Option.isSome_map, agentCommandsForTask_isSome_iff, hid]
    simp

theorem taskModel_isSome (rollbackCapable : Bool)
    (h : (agentCommandsModel s focusId).isSome = true) :
    (taskModel s focusId rollbackCapable).isSome = true := by
  unfold taskModel
  split
  · rename_i id task hid _
    rw [Option.isSome_map, agentCommandsForTask_isSome_iff]
    exact agentCommandsModel_isSome_iff.mp h id hid
  · rfl

theorem buildViews_isSome_iff (input : ViewsInput) :
    (buildViews s focusId input).isSome = true ↔ TasksDated s ∧
      ∀ id, (resolveFocus s focusId).filter (· ≠ "") = some id →
        CommandsReadable (commandRows s id) := by
  rw [← agentCommandsModel_isSome_iff, ← historyModel_isSome_iff focusId]
  constructor
  · intro h
    obtain ⟨views, hviews⟩ := Option.isSome_iff_exists.mp h
    simp only [buildViews, bind, Option.bind_eq_some_iff] at hviews
    obtain ⟨task, -, commands, hcommands, history, hhistory, -⟩ := hviews
    simp [hcommands, hhistory]
  · rintro ⟨hhistory, hcommands⟩
    have hhome := homeModel_isSome input.home ((historyModel_isSome_iff focusId).mp hhistory)
    have htask := taskModel_isSome input.rollbackCapable hcommands
    have hworkspace : (workspaceModel s focusId input.workspace).isSome = true := by
      have hinner := taskModel_isSome input.workspace.rollbackCapable hcommands
      obtain ⟨task, hinner⟩ := Option.isSome_iff_exists.mp hinner
      simp [workspaceModel, hinner]
    obtain ⟨task, htask⟩ := Option.isSome_iff_exists.mp htask
    obtain ⟨commands, hcommands⟩ := Option.isSome_iff_exists.mp hcommands
    obtain ⟨history, hhistory⟩ := Option.isSome_iff_exists.mp hhistory
    obtain ⟨home, hhome⟩ := Option.isSome_iff_exists.mp hhome
    obtain ⟨workspace, hworkspace⟩ := Option.isSome_iff_exists.mp hworkspace
    simp [buildViews, htask, hcommands, hhistory, hhome, hworkspace]

/-! ## Streams -/

theorem getLast_task_ts {evs : List DecodedEvent} (d : TaskSlice) :
    (evs.foldl (TaskSlice.fold id) d).task.map (·.lastTs) =
      ((evs.getLast?).map (·.ts)).or (d.task.map (·.lastTs)) := by
  obtain rfl | ⟨init, last, rfl⟩ := List.eq_nil_or_concat evs
  · rfl
  · rw [List.concat_eq_append, List.foldl_append, List.foldl_cons, List.foldl_nil,
      TaskSlice.task_fold]
    simp [advanceTask_lastTs]

theorem replay_lastTs (raws : List Json) (id : String) :
    ((replay raws).tasks.get? id).map (·.lastTs) =
      if id = "" then none else ((eventsForTask (replay raws) id).getLast?).map (·.ts) := by
  have hslice := congrArg TaskSlice.task
    (sliceFor_foldl_next ((takenUp emptyStore.lastSeq raws).map decodeEvent) emptyStore id)
  rw [replay_eq_foldl, foldl_applyRawEvent_eq]
  generalize (takenUp emptyStore.lastSeq raws).map decodeEvent = evs at hslice ⊢
  change (evs.foldl next emptyStore).tasks.get? id = _ at hslice
  rw [hslice, getLast_task_ts, eventsForTask, events_foldl_next]
  have hempty : (sliceFor emptyStore id).task = none := rfl
  rw [hempty, Option.map_none, Option.or_none]
  by_cases hid : id = ""
  · have hnone : evs.filter (owningTask · = some id) = [] := by
      refine List.filter_eq_nil_iff.mpr fun ev _ => ?_
      simp [owningTask, Option.filter_eq_some_iff, hid]
    rw [hnone, if_pos hid]
    rfl
  · have hown : (fun ev => decide (owningTask ev = some id)) =
        fun ev => decide ((rowOf ev).taskId = some id) := by
      funext ev
      simp only [owningTask, Option.filter_eq_some_iff, rowOf_taskId, decide_eq_decide]
      exact ⟨fun h => h.1, fun h => ⟨h, decide_eq_true hid⟩⟩
    have hrow (ev : DecodedEvent) : (rowOf ev).ts = ev.ts := by
      unfold rowOf
      split <;> rfl
    rw [if_neg hid, hown]
    simp only [emptyStore, List.nil_append, List.filter_map, List.getLast?_map, Option.map_map]
    congr 1
    funext ev
    exact (hrow ev).symm

/-- The last row of every task carries a date. -/
def LastRowsDated (s : StoreState) : Prop :=
  ∀ id row, id ≠ "" → (eventsForTask s id).getLast? = some row → isDate row.ts = true

theorem tasksDated_replay : TasksDated (replay raws) ↔ LastRowsDated (replay raws) := by
  constructor
  · intro h id row hid hrow
    have hts := replay_lastTs raws id
    rw [if_neg hid, hrow, Option.map_some, Option.map_eq_some_iff] at hts
    obtain ⟨t, ht, hts⟩ := hts
    rw [← hts]
    exact h t ((mem_tasksByRecency t).mpr ⟨id, ht⟩)
  · intro h t ht
    obtain ⟨id, hid⟩ := (mem_tasksByRecency t).mp ht
    have hts := replay_lastTs raws id
    rw [hid, Option.map_some] at hts
    split at hts
    · exact nomatch hts
    · rename_i hne
      obtain ⟨row, hrow, hrowts⟩ := Option.map_eq_some_iff.mp hts.symm
      rw [← hrowts]
      exact h id row hne hrow

/-- Build every view of a store whose tasks all have names of their own. A pin under an inherited
name counts as a task, and `changedFilesForTask` then spreads the inherited property, which is not
iterable. -/
def ObjectStore.buildViews (o : ObjectStore) (focusId : Option String) (input : ViewsInput) :
    Option Views :=
  if focusId.any (· ∈ objectPrototype) then none
  else ValyriaApp.buildViews o.store focusId input

/-- A stream of tasks with names of their own leaves every view standing exactly when no value
throws as it is decoded, the pin is no inherited name, the last row of every task carries a date,
and the commands of the focused task are readable. -/
theorem views_stand_iff (hraws : ∀ raw ∈ raws, OwnNamed raw) (focusId : Option String)
    (input : ViewsInput) :
    (∃ o, ObjectStore.begin.applyBatch? raws = some o ∧
        (o.buildViews focusId input).isSome = true) ↔
      (∀ raw ∈ raws, decodeThrows raw = false) ∧ (∀ id ∈ focusId, id ∉ objectPrototype) ∧
        LastRowsDated (replay raws) ∧
        ∀ id, (resolveFocus (replay raws) focusId).filter (· ≠ "") = some id →
          CommandsReadable (commandRows (replay raws) id) := by
  have hrun : ObjectStore.begin.applyBatch? raws =
      (applyBatch? emptyStore raws).map fun s => ⟨s, .empty⟩ :=
    ObjectStore.applyBatch?_own fun raw hraw => hraws raw (mem_of_mem_takenUp hraw)
  have hpin : (∀ id ∈ focusId, id ∉ objectPrototype) ↔
      ¬ focusId.any (· ∈ objectPrototype) = true := by
    cases focusId <;> simp
  rw [← tasksDated_replay, ← buildViews_isSome_iff input, hrun, applyBatch?_eq, hpin]
  constructor
  · rintro ⟨o, ho, hviews⟩
    obtain ⟨s, hs, rfl⟩ := Option.map_eq_some_iff.mp ho
    split at hs
    · exact nomatch hs
    · rename_i hthrow
      obtain rfl := Option.some.inj hs
      unfold ObjectStore.buildViews at hviews
      split at hviews
      · exact nomatch hviews
      · rename_i hfocus
        exact ⟨by simpa using hthrow, hfocus, hviews⟩
  · rintro ⟨hthrow, hfocus, hviews⟩
    rw [if_neg (by simpa using hthrow)]
    refine ⟨_, rfl, ?_⟩
    rw [ObjectStore.buildViews, if_neg hfocus]
    exact hviews

/-- A shell start, then a completion that is a string. -/
def stringCompletion : List Json :=
  [coreEvent 1 "t" 10 "tool_started" (.obj [("tool", .str "bash")]),
    coreEvent 2 "t" 20 "tool_completed" (.str "done")]

def plainInput : ViewsInput where
  connection := .ready
  rollbackCapable := false
  home :=
    { connection := .ready, hasRepo := true, repoName := none, activeModel := none
      networkRuntime := false, autonomy := none, layoutMode := .agent }
  workspace :=
    { connection := .ready, ownership := .empty, report := none, rollbackCapable := false }
  review := { connection := .ready, ledgerAvailable := false, ownership := .empty, report := none }

theorem stringCompletion_stand_iff :
    (∃ o, ObjectStore.begin.applyBatch? stringCompletion = some o ∧
        (o.buildViews (some "t") plainInput).isSome = true) ↔
      (∀ raw ∈ stringCompletion, decodeThrows raw = false) ∧
        (∀ id ∈ some "t", id ∉ objectPrototype) ∧ LastRowsDated (replay stringCompletion) ∧
        ∀ id, (resolveFocus (replay stringCompletion) (some "t")).filter (· ≠ "") = some id →
          CommandsReadable (commandRows (replay stringCompletion) id) :=
  views_stand_iff (by decide +kernel) (some "t") plainInput

/-- The completion is kept as a degraded row, and the views of its task throw on it. -/
theorem string_completion_crashes_views :
    ¬ ∃ o, ObjectStore.begin.applyBatch? stringCompletion = some o ∧
      (o.buildViews (some "t") plainInput).isSome = true := by
  rintro ⟨o, ho, hviews⟩
  have hcrash : (ObjectStore.begin.applyBatch? stringCompletion).any
      (fun o => (o.buildViews (some "t") plainInput).isSome) = false := by decide +kernel
  rw [ho, Option.any_some, hviews] at hcrash
  exact nomatch hcrash

end ValyriaApp
