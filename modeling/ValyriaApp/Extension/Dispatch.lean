import ValyriaApp.Extension.Approval
import ValyriaApp.State.Summaries

/-! # Commands on a task

A panel and the palette turn a button into a request for a task. Which task it
is, and whether an approval is still the one on screen, is decided from the
store at the click. The approval of a task is never cleared, and the pin is
taken as it is or not at all, so a click can differ from what the panels show.
-/

namespace ValyriaApp

/-! ## The supersession guard -/

/-- The guard agrees with what is shown, and lets through answers to shown approvals only. -/
structure GuardAgrees (s : StoreState) : Prop where
  agrees : ∀ taskId seq, approvalIsCurrent s taskId seq = true ↔
    ∃ ap, pendingApprovalFor s taskId = some ap ∧ ap.seq.strictEq seq = true
  forwards : ∀ pinned approvalScope args seq request, args.seq = some seq →
    resolveApproval s pinned approvalScope args = some request →
    ∃ ap, pendingApprovalFor s request.dispatch.taskId = some ap ∧ ap.seq.strictEq seq = true

/-- The events the store takes up. -/
def taken (raws : List Json) : List DecodedEvent := (takenUp 0 raws).map decodeEvent

/-- The approvals they ask for. -/
def approvalsAsked (raws : List Json) : List ApprovalProjection :=
  (taken raws).filterMap approvalAsked

/-- The state they leave the task in. -/
def lastMove (raws : List Json) (taskId : String) : Option TaskState :=
  (((taken raws).filter (owningTask · = some taskId)).filterMap moveOf).getLast?

section Guard

variable {s : StoreState} {raws : List Json} {taskId : String} {seq : Num}
  {ap : ApprovalProjection}

theorem pendingApprovalFor_eq (s : StoreState) (taskId : String) :
    pendingApprovalFor s taskId =
      if (statusFor s taskId).map Prod.fst = some .waitingForPermission then
        s.approvals.get? taskId
      else none := by
  rw [pendingApprovalFor, statusFor]
  cases s.tasks.get? taskId <;> simp [TaskProjection.status]

theorem resolveApproval_eq_some {pinned : Option String} {approvalScope : Bool}
    {args : ResolveArgs} {request : HostRequest}
    (h : resolveApproval s pinned approvalScope args = some request)
    (hseq : args.seq = some seq) :
    approvalIsCurrent s request.dispatch.taskId seq = true := by
  unfold resolveApproval at h
  split at h
  · cases h
  · rename_i taskId _
    rw [hseq, Option.any_some] at h
    cases hcurrent : approvalIsCurrent s taskId seq with
    | false => simp [hcurrent] at h
    | true =>
      rw [hcurrent] at h
      cases approvalScope <;> cases h <;> exact hcurrent

/-- The guard agrees with what is shown exactly when every task with an approval waits for it. -/
theorem guardAgrees_iff_waiting
    (hnumber : ∀ taskId ap, s.approvals.get? taskId = some ap → ap.seq ≠ .nan) :
    GuardAgrees s ↔ ∀ taskId, (s.approvals.get? taskId).isSome →
      (statusFor s taskId).map Prod.fst = some .waitingForPermission := by
  have hguard (taskId : String) (seq : Num) : approvalIsCurrent s taskId seq = true ↔
      ∃ ap, s.approvals.get? taskId = some ap ∧ ap.seq.strictEq seq = true := by
    rw [approvalIsCurrent, Option.any_eq_true]
  constructor
  · intro h taskId hsome
    obtain ⟨ap, hap⟩ := Option.isSome_iff_exists.mp hsome
    have hcurrent : approvalIsCurrent s taskId ap.seq = true :=
      (hguard taskId ap.seq).mpr ⟨ap, hap, Num.strictEq_eq_true.mpr ⟨rfl, hnumber taskId ap hap⟩⟩
    obtain ⟨shown, hshown, -⟩ := (h.agrees taskId ap.seq).mp hcurrent
    rw [pendingApprovalFor_eq] at hshown
    split at hshown
    · assumption
    · cases hshown
  · intro h
    have hpending (taskId : String) :
        pendingApprovalFor s taskId = s.approvals.get? taskId := by
      rw [pendingApprovalFor_eq]
      split
      · rfl
      · rename_i hwait
        cases hap : s.approvals.get? taskId with
        | none => rfl
        | some ap => exact absurd (h taskId (by rw [hap, Option.isSome_some])) hwait
    have hagrees (taskId : String) (seq : Num) : approvalIsCurrent s taskId seq = true ↔
        ∃ ap, pendingApprovalFor s taskId = some ap ∧ ap.seq.strictEq seq = true := by
      rw [hguard, hpending]
    constructor
    · exact hagrees
    · intro pinned approvalScope args seq request hseq hrequest
      exact (hagrees _ seq).mp (resolveApproval_eq_some hrequest hseq)

theorem approvals_foldl_next (evs : List DecodedEvent) (s : StoreState) (taskId : String) :
    (evs.foldl next s).approvals.get? taskId =
      ((evs.filterMap approvalAsked).filter (·.taskId = taskId)).getLast?.or
        (s.approvals.get? taskId) := by
  induction evs using List.reverseRecOn with
  | nil => rfl
  | append_singleton evs ev ih =>
    have hnext : (next (evs.foldl next s) ev).approvals.get? taskId =
        (advance (evs.foldl next s) ev).approvals.get? taskId := rfl
    rw [List.foldl_append, List.foldl_cons, List.foldl_nil, hnext, advance_approvals, ih,
      List.filterMap_append, List.filter_append]
    cases hask : approvalAsked ev with
    | none => simp [hask]
    | some ap => by_cases ht : ap.taskId = taskId <;> simp [hask, ht, Option.filter_some]

theorem applyBatch_emptyStore (raws : List Json) :
    applyBatch emptyStore raws = (taken raws).foldl next emptyStore := by
  rw [applyBatch_eq_foldl, foldl_applyRawEvent_eq]
  rfl

theorem approvals_applyBatch (raws : List Json) (taskId : String) :
    (applyBatch emptyStore raws).approvals.get? taskId =
      ((approvalsAsked raws).filter (·.taskId = taskId)).getLast? := by
  rw [applyBatch_emptyStore, approvals_foldl_next]
  exact Option.or_none

theorem owningTask_of_approvalAsked {ev : DecodedEvent} (h : approvalAsked ev = some ap) :
    owningTask ev = some ap.taskId := by
  unfold approvalAsked at h
  split at h
  · rename_i hown _
    rw [hown, ← Option.some.inj h]
  · cases h

/-- The state of a task that has asked for an approval is the one it was last moved to. -/
theorem waiting_applyBatch_iff (hap : ap ∈ approvalsAsked raws) :
    (statusFor (applyBatch emptyStore raws) ap.taskId).map Prod.fst =
        some .waitingForPermission ↔
      lastMove raws ap.taskId = some .waitingForPermission := by
  obtain ⟨ev, hev, hask⟩ := List.mem_filterMap.mp hap
  have hown : (taken raws).filter (owningTask · = some ap.taskId) ≠ [] :=
    List.ne_nil_of_mem (List.mem_filter.mpr
      ⟨hev, decide_eq_true (owningTask_of_approvalAsked hask)⟩)
  rw [applyBatch_emptyStore, statusFor_foldl_next, if_neg hown, foldl_move, Option.map_some,
    lastMove, statusFor_emptyStore, Option.getD_none]
  cases (((taken raws).filter (owningTask · = some ap.taskId)).filterMap moveOf).getLast? with
  | none => simp [freshStatus]
  | some st => simp

theorem wireEventEnvelope_seq {raw : Json} {env : WireEvent}
    (h : wireEventEnvelope raw = some env) : env.seq ≠ .nan := by
  unfold wireEventEnvelope at h
  split at h
  · simp only [Option.bind_eq_bind, Option.bind_eq_some_iff, Option.guard_eq_some'] at h
    obtain ⟨kind, -, seq, -, u, hinteger, tsMs, -, taskId, -, henv⟩ := h
    rw [← Option.some.inj henv]
    rintro rfl
    exact absurd hinteger (by decide)
  · cases h

theorem seq_ne_nan_of_asked (hap : ap ∈ approvalsAsked raws) : ap.seq ≠ .nan := by
  obtain ⟨ev, hev, hask⟩ := List.mem_filterMap.mp hap
  obtain ⟨raw, -, rfl⟩ := List.mem_map.mp hev
  rw [approvalAsked_seq hask]
  unfold decodeEvent at hask ⊢
  cases henv : wireEventEnvelope raw with
  | none => simp [henv, approvalAsked, owningTask] at hask
  | some env => exact wireEventEnvelope_seq henv

/-- In the store the events lead to, the guard agrees with what is shown exactly when every task
they ask an approval for was last moved to waiting for it. -/
theorem guardAgrees_iff (raws : List Json) :
    GuardAgrees (applyBatch emptyStore raws) ↔
      ∀ ap ∈ approvalsAsked raws, lastMove raws ap.taskId = some .waitingForPermission := by
  have hsome (taskId : String) : ((applyBatch emptyStore raws).approvals.get? taskId).isSome ↔
      ∃ ap ∈ approvalsAsked raws, ap.taskId = taskId := by
    rw [approvals_applyBatch, List.getLast?_isSome, ne_eq, List.filter_eq_nil_iff]
    simp
  have hnumber : ∀ taskId ap, (applyBatch emptyStore raws).approvals.get? taskId = some ap →
      ap.seq ≠ .nan := by
    intro taskId ap hap
    rw [approvals_applyBatch] at hap
    exact seq_ne_nan_of_asked (List.mem_of_mem_filter (List.mem_of_getLast? hap))
  rw [guardAgrees_iff_waiting hnumber]
  constructor
  · intro h ap hap
    exact (waiting_applyBatch_iff hap).mp (h ap.taskId ((hsome _).mpr ⟨ap, hap, rfl⟩))
  · intro h taskId hstored
    obtain ⟨ap, hap, rfl⟩ := (hsome taskId).mp hstored
    exact (waiting_applyBatch_iff hap).mpr (h ap hap)

/-- The task has gone on since it asked; the guard still takes its approval for the current one. -/
theorem answered_approval_stays_current :
    ¬ GuardAgrees (applyBatch emptyStore [waitingForPermission, approvalRequested 2 "run tests",
      coreEvent 3 "t" 30 "state_changed" (.obj [("to", .str "IMPLEMENTING")])]) := by
  intro h
  obtain ⟨ap, hap, -⟩ := (h.agrees "t" 2).mp (by decide +kernel)
  have hnone : (pendingApprovalFor (applyBatch emptyStore [waitingForPermission,
      approvalRequested 2 "run tests",
      coreEvent 3 "t" 30 "state_changed" (.obj [("to", .str "IMPLEMENTING")])]) "t").isNone := by
    decide +kernel
  rw [hap] at hnone
  exact absurd hnone (by simp)

end Guard

/-! ## The task of a command -/

/-- An explicit id, else the pin, else the current task; an empty id counts as none. -/
def targetTask (s : StoreState) (pinned taskId : Option String) : Option String :=
  (taskId.or (pinned.or (currentTaskId s))).filter (· ≠ "")

inductive TaskMethod where
  | pause | resume | cancel
  deriving DecidableEq

/-- The commands on a task. `confirmed` is the answer to the question a rollback asks. -/
inductive TaskCommand where
  | method (method : TaskMethod) (taskId : Option String)
  | resolveApproval (args : ResolveArgs)
  | rollbackTo (taskId checkpointId : Option String) (confirmed : Bool)

inductive HostCall where
  | method (method : TaskMethod) (taskId : String)
  | approval (request : HostRequest)
  | rollback (taskId checkpointId : String)

/-- The dispatch of an intent of a panel. -/
def dispatch (s : StoreState) (pinned : Option String) (approvalScope : Bool) :
    TaskCommand → Option HostCall
  | .method m taskId => (targetTask s pinned taskId).map (.method m)
  | .resolveApproval args => (resolveApproval s pinned approvalScope args).map .approval
  | .rollbackTo taskId checkpointId confirmed =>
    (targetTask s pinned taskId).bind fun taskId =>
      (checkpointId.filter (· ≠ "")).bind fun checkpointId =>
        if confirmed then some (.rollback taskId checkpointId) else none

/-- A palette command; `typed` is the id the user gives when the store has no task. -/
def taskCmd (s : StoreState) (m : TaskMethod) (typed : Option String) : Option HostCall :=
  (((currentTaskId s).or typed).filter (· ≠ "")).map (.method m)

/-- The id a command names. -/
def TaskCommand.taskId : TaskCommand → Option String
  | .method _ taskId => taskId
  | .resolveApproval args => args.taskId
  | .rollbackTo taskId _ _ => taskId

/-- The command with an id named. -/
def TaskCommand.on (id : String) : TaskCommand → TaskCommand
  | .method m _ => .method m (some id)
  | .resolveApproval args => .resolveApproval { args with taskId := some id }
  | .rollbackTo _ checkpointId confirmed => .rollbackTo (some id) checkpointId confirmed

/-- The task the panels render, if any. -/
def onScreen (s : StoreState) (pinned : Option String) : Option String :=
  (resolveFocus s pinned).filter (· ≠ "")

/-- A command that names no task does what it would do if it named the one on screen, and nothing
when there is none. -/
structure ActsOnScreen (s : StoreState) (pinned : Option String) : Prop where
  panel : ∀ approvalScope command, command.taskId = none →
    dispatch s pinned approvalScope command =
      (onScreen s pinned).bind fun id => dispatch s pinned approvalScope (command.on id)
  palette : ∀ m, taskCmd s m none = (onScreen s pinned).map (.method m)

section Target

variable {s : StoreState} {pinned : Option String}

theorem resolveApproval_target (s : StoreState) (pinned : Option String) (approvalScope : Bool)
    (args : ResolveArgs) : resolveApproval s pinned approvalScope args =
      (targetTask s pinned args.taskId).bind fun id =>
        resolveApproval s pinned approvalScope { args with taskId := some id } := by
  unfold resolveApproval targetTask
  cases htarget : (args.taskId.or (pinned.or (currentTaskId s))).filter (· ≠ "") with
  | none => rfl
  | some id =>
    have hid := Option.filter_eq_some_iff.mp htarget
    rw [Option.bind_some, Option.some_or, Option.filter_some, if_pos hid.2]

theorem dispatch_target (s : StoreState) (pinned : Option String) (approvalScope : Bool)
    (command : TaskCommand) : dispatch s pinned approvalScope command =
      (targetTask s pinned command.taskId).bind fun id =>
        dispatch s pinned approvalScope (command.on id) := by
  have hnamed (id : String) (hid : targetTask s pinned command.taskId = some id) :
      targetTask s pinned (some id) = some id := by
    rw [targetTask, Option.some_or, Option.filter_some,
      if_pos (Option.filter_eq_some_iff.mp hid).2]
  cases command with
  | method m taskId =>
    cases htarget : targetTask s pinned taskId with
    | none => simp [dispatch, TaskCommand.taskId, htarget]
    | some id => simp [dispatch, TaskCommand.taskId, TaskCommand.on, htarget, hnamed id htarget]
  | resolveApproval args =>
    rw [dispatch, resolveApproval_target, Option.map_bind]
    rfl
  | rollbackTo taskId checkpointId confirmed =>
    cases htarget : targetTask s pinned taskId with
    | none => simp [dispatch, TaskCommand.taskId, htarget]
    | some id => simp [dispatch, TaskCommand.taskId, TaskCommand.on, htarget, hnamed id htarget]

theorem method_injective (m : TaskMethod) : Function.Injective (HostCall.method m) := by
  intro id id' h
  exact (HostCall.method.inj h).2

theorem panel_iff : (∀ approvalScope command, command.taskId = none →
      dispatch s pinned approvalScope command =
        (onScreen s pinned).bind fun id => dispatch s pinned approvalScope (command.on id)) ↔
    targetTask s pinned none = onScreen s pinned := by
  constructor
  · intro h
    have hpause : (targetTask s pinned none).map (HostCall.method .pause) =
        (onScreen s pinned).map (.method .pause) := by
      have hon := h false (.method .pause none) rfl
      rw [dispatch] at hon
      rw [hon]
      cases hscreen : onScreen s pinned with
      | none => rfl
      | some id =>
        have hid := (Option.filter_eq_some_iff.mp hscreen).2
        rw [Option.bind_some, TaskCommand.on, dispatch, targetTask, Option.some_or,
          Option.filter_some, if_pos hid]
    exact Option.map_injective (method_injective .pause) hpause
  · intro h approvalScope command hnone
    rw [dispatch_target, hnone, h]

theorem palette_iff : (∀ m, taskCmd s m none = (onScreen s pinned).map (.method m)) ↔
    (currentTaskId s).filter (· ≠ "") = onScreen s pinned := by
  constructor
  · intro h
    have hpause := h .pause
    rw [taskCmd, Option.or_none] at hpause
    exact Option.map_injective (method_injective .pause) hpause
  · intro h m
    rw [taskCmd, Option.or_none, h]

/-- Panels and palette act on the task on screen exactly when the pin, if there is one, is the
current task. -/
theorem actsOnScreen_iff (s : StoreState) (pinned : Option String) :
    ActsOnScreen s pinned ↔ ∀ id, pinned = some id →
      (some id).filter (· ≠ "") = (currentTaskId s).filter (· ≠ "") := by
  have hboth : ActsOnScreen s pinned ↔ targetTask s pinned none = onScreen s pinned ∧
      (currentTaskId s).filter (· ≠ "") = onScreen s pinned := by
    rw [← panel_iff, ← palette_iff]
    exact ⟨fun h => ⟨h.panel, h.palette⟩, fun h => ⟨h.1, h.2⟩⟩
  rw [hboth]
  cases pinned with
  | none => simp [targetTask, onScreen, resolveFocus]
  | some id =>
    have htarget : targetTask s (some id) none = (some id).filter (· ≠ "") := rfl
    rw [htarget]
    constructor
    · rintro ⟨hpanel, hpalette⟩ id' hid
      rw [← hid, hpanel, hpalette]
    · intro h
      have hid := h id rfl
      have hscreen : onScreen s (some id) = (currentTaskId s).filter (· ≠ "") := by
        rw [onScreen, resolveFocus, Option.filter_some]
        split
        · exact hid
        · rfl
      rw [hscreen]
      exact ⟨hid, rfl⟩

def firstAndSecond : StoreState :=
  applyBatch emptyStore [coreEvent 1 "a" 10 "task_started" (.obj []),
    coreEvent 2 "b" 20 "task_started" (.obj [])]

theorem currentTaskId_firstAndSecond : currentTaskId firstAndSecond = some "b" := by
  have hentries : firstAndSecond.tasks.entries.map (fun e => (e.1, e.2.lastSeq, e.2.id)) =
      [("a", 1, "a"), ("b", 2, "b")] := by decide +kernel
  have hstored {key : String} {t : TaskProjection} (ht : firstAndSecond.tasks.get? key = some t) :
      (key, t.lastSeq, t.id) = ("a", 1, "a") ∨ (key, t.lastSeq, t.id) = ("b", 2, "b") := by
    have hmem := List.mem_map_of_mem (f := fun e => (e.1, e.2.lastSeq, e.2.id))
      ((OrderedMap.get?_eq_some_iff _).mp ht)
    rw [hentries] at hmem
    simpa using hmem
  obtain ⟨b, hb⟩ := Option.isSome_iff_exists.mp
    (show (firstAndSecond.tasks.get? "b").isSome by decide +kernel)
  have hlast : b.lastSeq = 2 ∧ b.id = "b" := by simpa using hstored hb
  have hcurrent : currentTask firstAndSecond = some b := by
    refine currentTask_eq_some hb fun other t ht => ?_
    rcases hstored ht with h | h
    · right
      simp only [Prod.mk.injEq] at h
      rw [h.2.1, hlast.1]
      decide
    · left
      obtain rfl : other = "b" := by simpa using (Prod.mk.inj h).1
      exact Option.some.inj (ht.symm.trans hb)
  rw [currentTaskId, hcurrent, Option.map_some, hlast.2]

/-- The palette cancels the most recent task while another one is on screen. -/
theorem palette_ignores_pin : ¬ ActsOnScreen firstAndSecond (some "a") := by
  intro h
  have hscreen : onScreen firstAndSecond (some "a") = some "a" := by
    have hknown : (firstAndSecond.tasks.get? "a").isSome := by decide +kernel
    simp [onScreen, resolveFocus, Option.filter_some, hknown]
  have hcancel := h.palette .cancel
  rw [taskCmd, currentTaskId_firstAndSecond, hscreen, Option.some_or, Option.filter_some,
    if_pos (by decide), Option.map_some, Option.map_some] at hcancel
  have htask := (HostCall.method.inj (Option.some.inj hcancel)).2
  exact absurd htask (by decide)

end Target

end ValyriaApp
