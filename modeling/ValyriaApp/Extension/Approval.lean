import Mathlib.Logic.Function.Basic
import ValyriaApp.Extension.Store
import ValyriaApp.Lib.Machine
import ValyriaApp.State.Selectors

/-! # Answering approvals

The app refuses to answer a prompt that a newer request has replaced in its own
store, but an answer reaches Core without the identity of its request. It lands
on the request it was given for when the one Core waits on at the click is the
latest the app has received, and no other is taken up before the answer arrives.
-/

namespace ValyriaApp

/-! ## Prompts -/

inductive PromptSource where
  | panel | notification
  deriving DecidableEq

/-- A prompt on screen, built from an approval of the store. -/
structure Prompt where
  taskId : String
  approval : ApprovalProjection
  source : PromptSource

def currentTaskId (s : StoreState) : Option String := (currentTask s).map (·.id)

/-- The task the panels show: the pinned one when the store knows it, else the current one. -/
def resolveFocus (s : StoreState) (explicit : Option String) : Option String :=
  (explicit.filter fun id => id ≠ "" ∧ (s.tasks.get? id).isSome).or (currentTaskId s)

/-- The prompt of the panels. -/
def panelPrompt (s : StoreState) (pinned : Option String) : Option Prompt :=
  ((resolveFocus s pinned).filter (· ≠ "")).bind fun taskId =>
    (pendingApprovalFor s taskId).map fun approval => { taskId, approval, source := .panel }

/-- The prompt of a notification, once for each approval. -/
def notificationPrompt (s : StoreState) (pinned : Option String) (lastApprovalSeq : Num) :
    Option Prompt :=
  ((pinned.or (currentTaskId s)).filter (· ≠ "")).bind fun taskId =>
    ((pendingApprovalFor s taskId).filter fun ap => !ap.seq.strictEq lastApprovalSeq).map
      fun approval => { taskId, approval, source := .notification }

/-! ## The answer on its way -/

/-- The arguments of the command `resolveApproval`. -/
structure ResolveArgs where
  taskId : Option String
  allow : Bool
  seq : Option Num
  scope : Option String

/-- What a click on a prompt passes: only a notification names its task. -/
def Prompt.args (prompt : Prompt) (allow : Bool) (scope : Option String) : ResolveArgs where
  taskId := match prompt.source with
    | .panel => none
    | .notification => some prompt.taskId
  allow := allow
  seq := some prompt.approval.seq
  scope := scope

inductive HostRequest where
  | resolve (taskId : String) (allow : Bool)
  | resolveScoped (taskId : String) (allow : Bool) (scope : String)

/-- The supersession guard of the extension: `none` when the approval is stale. -/
def resolveApproval (s : StoreState) (pinned : Option String) (approvalScope : Bool)
    (args : ResolveArgs) : Option HostRequest :=
  match (args.taskId.or (pinned.or (currentTaskId s))).filter (· ≠ "") with
  | none => none
  | some taskId =>
    if args.seq.any fun seq => !approvalIsCurrent s taskId seq then none
    else if approvalScope then
      some (.resolveScoped taskId args.allow (if args.scope = some "task" then "task" else "once"))
    else some (.resolve taskId args.allow)

structure PermissionResolveRequest where
  taskId : String
  approve : Bool
  requestId : Option String
  decision : Option String

def scopedDecision (allow : Bool) (scope : String) : String :=
  if !allow then "deny" else if scope = "task" then "task" else "once"

def permissionResolveScoped (taskId : String) (requestId : Option String) (decision : String) :
    PermissionResolveRequest where
  taskId := taskId
  approve := decision ≠ "deny"
  requestId := requestId
  decision := some decision

def permissionResolve (taskId : String) (approve : Bool) : PermissionResolveRequest :=
  permissionResolveScoped taskId none (if approve then "once" else "deny")

/-- The host never passes the identity of a request on. -/
def HostRequest.dispatch : HostRequest → PermissionResolveRequest
  | .resolve taskId allow => permissionResolve taskId allow
  | .resolveScoped taskId allow scope =>
    permissionResolveScoped taskId none (scopedDecision allow scope)

/-- A click that is let through answers the approval stored for its task. -/
theorem resolveApproval_current {s : StoreState} {pinned : Option String} {approvalScope : Bool}
    {prompt : Prompt} {allow : Bool} {scope : Option String} {request : HostRequest}
    (h : resolveApproval s pinned approvalScope (prompt.args allow scope) = some request) :
    ∃ ap, s.approvals.get? request.dispatch.taskId = some ap ∧
      ap.seq = prompt.approval.seq := by
  unfold resolveApproval at h
  split at h
  · cases h
  · next taskId _ =>
    have hcurrent : approvalIsCurrent s taskId prompt.approval.seq = true := by
      by_contra hstale
      simp [Prompt.args, hstale] at h
    have htask : request.dispatch.taskId = taskId := by
      split at h
      · cases h
      · split at h <;> cases h <;> rfl
    rw [htask]
    exact approvalIsCurrent_eq_true hcurrent

/-! ## Core, the app and the answers between them -/

/-- An answer on its way to Core, with the prompt the user answered. -/
structure Answer where
  request : PermissionResolveRequest
  prompt : Prompt

/-- An answer that Core has applied to the request made by the given event. -/
structure Resolution where
  request : ℕ
  answer : Answer

structure Approvals where
  journal : List Json
  /-- The event number of the request Core waits on, for each task. -/
  pending : String → Option ℕ
  store : Store
  received : ℕ
  pinned : Option String
  lastApprovalSeq : Num
  shown : List Prompt
  inFlight : List Answer
  applied : List Resolution

inductive ApprovalAction where
  | emit (raw : Json)
  | wait (taskId : String) (request : ℕ)
  | withdraw (taskId : String)
  | receive (lo hi : ℕ)
  | setConnection (state : ConnectionState)
  | focus (pinned : Option String)
  | render
  | notify (enabled : Bool)
  | answer (i : ℕ) (allow : Bool) (scope : Option String) (approvalScope : Bool)
  | arrive (i : ℕ)
  | lose (i : ℕ)

namespace Approvals

def begin : Approvals where
  journal := []
  pending := fun _ => none
  store := Store.new
  received := 0
  pinned := none
  lastApprovalSeq := .fin (-1)
  shown := []
  inFlight := []
  applied := []

/-- The request the extension sends for a click on a prompt. -/
def click (w : Approvals) (prompt : Prompt) (allow : Bool) (scope : Option String)
    (approvalScope : Bool) : Option HostRequest :=
  resolveApproval w.store.state w.pinned approvalScope (prompt.args allow scope)

def send (w : Approvals) (prompt : Prompt) : Option HostRequest → Approvals
  | some request => { w with inFlight := w.inFlight ++ [⟨request.dispatch, prompt⟩] }
  | none => w

/-- `permission_resolve` without a request id: whatever Core has pending for the task. -/
def permissionResolved (w : Approvals) (answer : Answer) : Approvals :=
  match w.pending answer.request.taskId with
  | some request =>
    { w with
      pending := Function.update w.pending answer.request.taskId none
      applied := w.applied ++ [⟨request, answer⟩] }
  | none => w

/-- One step of Core, of the app, of its user or of the way between them. -/
def step (w : Approvals) : ApprovalAction → Option Approvals
  | .emit raw =>
    if CarriesSafeSeq (w.journal.length + 1) raw then
      some { w with journal := w.journal ++ [raw] }
    else none
  | .wait taskId request =>
    if asksFor w.journal taskId request then
      some { w with pending := Function.update w.pending taskId (some request) }
    else none
  | .withdraw taskId => some { w with pending := Function.update w.pending taskId none }
  | .receive lo hi =>
    if lo ≤ w.received ∧ hi ≤ w.journal.length then
      some { w with
        store := w.store.ingestBatch (batchOf w.journal lo hi), received := max w.received hi }
    else none
  | .setConnection state => some { w with store := w.store.setConnection state }
  | .focus pinned => some { w with pinned }
  | .render => (panelPrompt w.store.state w.pinned).map fun prompt =>
      { w with shown := w.shown ++ [prompt] }
  | .notify enabled =>
    (notificationPrompt w.store.state w.pinned w.lastApprovalSeq).map fun prompt =>
      { w with
        lastApprovalSeq := prompt.approval.seq
        shown := if enabled then w.shown ++ [prompt] else w.shown }
  | .answer i allow scope approvalScope => w.shown[i]?.map fun prompt =>
      w.send prompt (w.click prompt allow scope approvalScope)
  | .arrive i => w.inFlight[i]?.map fun answer =>
      { w with inFlight := w.inFlight.eraseIdx i }.permissionResolved answer
  | .lose i => some { w with inFlight := w.inFlight.eraseIdx i }

end Approvals

/-- A click goes through only while the request Core has pending for the task, if any, is the
latest the app has received, and Core takes up no request of a task while an answer to another
one is on its way. -/
def InStep (w : Approvals) : ApprovalAction → Prop
  | .wait taskId request => ∀ a ∈ w.inFlight, a.request.taskId = taskId →
      a.prompt.approval.seq = request
  | .answer i allow scope approvalScope => ∀ prompt ∈ w.shown[i]?,
      ∀ request ∈ w.click prompt allow scope approvalScope,
        ∀ k ∈ w.pending request.dispatch.taskId,
          LatestAsk w.journal request.dispatch.taskId w.received k
  | _ => True

instance (w : Approvals) : ∀ a, Decidable (InStep w a)
  | .wait .. => inferInstanceAs (Decidable (∀ a ∈ w.inFlight, _ → _))
  | .answer .. => inferInstanceAs (Decidable (∀ prompt ∈ _, ∀ request ∈ _, ∀ k ∈ _, _))
  | .emit _ | .withdraw _ | .receive .. | .setConnection _ | .focus _ | .render | .notify _
  | .arrive _ | .lose _ => isTrue trivial

/-! ## Answers land on their own requests -/

section Safety

variable {w w' : Approvals} {prompt : Prompt}

/-- The prompt is built from the event of some request. -/
def FromRequest (journal : List Json) (prompt : Prompt) : Prop :=
  ∃ k, requestAt journal k = some prompt.approval

/-- The request Core waits on, if any, is the one the answer was given for. -/
def Answers (w : Approvals) (a : Answer) : Prop :=
  ∀ k, w.pending a.request.taskId = some k → a.prompt.approval.seq = k

structure ApprovalInv (w : Approvals) : Prop where
  journal : Journal w.journal
  received_le : w.received ≤ w.journal.length
  holds : Holds w.store w.journal w.received
  shown : ∀ p ∈ w.shown, FromRequest w.journal p
  inFlight : ∀ a ∈ w.inFlight, FromRequest w.journal a.prompt ∧ Answers w a
  applied : ∀ x ∈ w.applied, requestAt w.journal x.request = some x.answer.prompt.approval

theorem approvalInv_begin : ApprovalInv Approvals.begin where
  journal _ hi := absurd hi (Nat.not_lt_zero _)
  received_le := le_rfl
  holds := ⟨.starting, rfl⟩
  shown := List.forall_mem_nil _
  inFlight := List.forall_mem_nil _
  applied := List.forall_mem_nil _

theorem panelPrompt_stored {s : StoreState} {pinned : Option String}
    (h : panelPrompt s pinned = some prompt) :
    s.approvals.get? prompt.taskId = some prompt.approval := by
  obtain ⟨taskId, -, hmap⟩ := Option.bind_eq_some_iff.mp h
  obtain ⟨approval, hpending, rfl⟩ := Option.map_eq_some_iff.mp hmap
  exact pendingApprovalFor_eq_some hpending

theorem notificationPrompt_stored {s : StoreState} {pinned : Option String} {last : Num}
    (h : notificationPrompt s pinned last = some prompt) :
    s.approvals.get? prompt.taskId = some prompt.approval := by
  obtain ⟨taskId, -, hmap⟩ := Option.bind_eq_some_iff.mp h
  obtain ⟨approval, hfilter, rfl⟩ := Option.map_eq_some_iff.mp hmap
  exact pendingApprovalFor_eq_some (Option.filter_eq_some_iff.mp hfilter).1

/-- The approval the store has for a task is the latest of the requests received. -/
theorem ApprovalInv.latest (h : ApprovalInv w) {taskId : String} {ap : ApprovalProjection}
    (hap : w.store.state.approvals.get? taskId = some ap) :
    ∃ k, requestAt w.journal k = some ap ∧ LatestAsk w.journal taskId w.received k := by
  obtain ⟨connection, hstate⟩ := h.holds
  rw [hstate] at hap
  exact h.journal.latest_approval h.received_le hap

theorem ApprovalInv.emit (h : ApprovalInv w) {raw : Json}
    (hraw : CarriesSafeSeq (w.journal.length + 1) raw) :
    ApprovalInv { w with journal := w.journal ++ [raw] } where
  journal := h.journal.concat hraw
  received_le := h.received_le.trans (by simp)
  holds := h.holds.append h.received_le [raw]
  shown p hp := (h.shown p hp).imp fun _ hk => requestAt_append hk [raw]
  inFlight a ha :=
    ⟨(h.inFlight a ha).1.imp fun _ hk => requestAt_append hk [raw], (h.inFlight a ha).2⟩
  applied x hx := requestAt_append (h.applied x hx) [raw]

theorem ApprovalInv.update (h : ApprovalInv w) (taskId : String) (pending : Option ℕ)
    (hsame : ∀ k, pending = some k → ∀ a ∈ w.inFlight, a.request.taskId = taskId →
      a.prompt.approval.seq = k) :
    ApprovalInv { w with pending := Function.update w.pending taskId pending } := by
  refine ⟨h.journal, h.received_le, h.holds, h.shown, fun a ha => ?_, h.applied⟩
  refine ⟨(h.inFlight a ha).1, fun k hk => ?_⟩
  change Function.update w.pending taskId pending a.request.taskId = some k at hk
  by_cases ht : a.request.taskId = taskId
  · subst ht
    rw [Function.update_self] at hk
    exact hsame k hk a ha rfl
  · rw [Function.update_of_ne ht] at hk
    exact (h.inFlight a ha).2 k hk

theorem ApprovalInv.show_prompt (h : ApprovalInv w) {lastApprovalSeq : Num} (enabled : Bool)
    (hstored : w.store.state.approvals.get? prompt.taskId = some prompt.approval) :
    ApprovalInv { w with
      lastApprovalSeq, shown := if enabled then w.shown ++ [prompt] else w.shown } := by
  refine ⟨h.journal, h.received_le, h.holds, fun p hp => ?_, h.inFlight, h.applied⟩
  cases enabled with
  | false => exact h.shown p hp
  | true =>
    rcases List.mem_append.mp hp with hp | hp
    · exact h.shown p hp
    · obtain rfl := List.mem_singleton.mp hp
      obtain ⟨k, hk, -⟩ := h.latest hstored
      exact ⟨k, hk⟩

/-- An answer that is let through in step answers the request Core waits on. -/
theorem ApprovalInv.send (h : ApprovalInv w) {allow : Bool} {scope : Option String}
    {approvalScope : Bool} (hprompt : FromRequest w.journal prompt)
    (hguard : ∀ request ∈ w.click prompt allow scope approvalScope,
      ∀ k ∈ w.pending request.dispatch.taskId,
        LatestAsk w.journal request.dispatch.taskId w.received k) :
    ApprovalInv (w.send prompt (w.click prompt allow scope approvalScope)) := by
  cases hclick : w.click prompt allow scope approvalScope with
  | none => exact h
  | some request =>
    refine ⟨h.journal, h.received_le, h.holds, h.shown, fun a ha => ?_, h.applied⟩
    rcases List.mem_append.mp ha with ha | ha
    · exact h.inFlight a ha
    · obtain rfl := List.mem_singleton.mp ha
      refine ⟨hprompt, fun k hk => ?_⟩
      obtain ⟨ap, hap, hseq⟩ := resolveApproval_current hclick
      obtain ⟨j, hj, hlatest⟩ := h.latest hap
      obtain rfl : j = k := hlatest.unique (hguard request hclick k hk)
      rw [← hseq]
      exact h.journal.requestAt_seq hj

theorem ApprovalInv.erase (h : ApprovalInv w) (i : ℕ) :
    ApprovalInv { w with inFlight := w.inFlight.eraseIdx i } :=
  ⟨h.journal, h.received_le, h.holds, h.shown,
    fun a ha => h.inFlight a (List.mem_of_mem_eraseIdx ha), h.applied⟩

theorem ApprovalInv.permissionResolved (h : ApprovalInv w) {a : Answer}
    (hprompt : FromRequest w.journal a.prompt) (hanswers : Answers w a) :
    ApprovalInv (w.permissionResolved a) := by
  unfold Approvals.permissionResolved
  split
  · next k hk =>
    have hwithdrawn := h.update a.request.taskId none nofun
    refine ⟨h.journal, h.received_le, h.holds, h.shown, hwithdrawn.inFlight, fun x hx => ?_⟩
    rcases List.mem_append.mp hx with hx | hx
    · exact h.applied x hx
    · obtain rfl := List.mem_singleton.mp hx
      obtain ⟨j, hj⟩ := hprompt
      have hjk : (j : Num) = k := (h.journal.requestAt_seq hj).symm.trans (hanswers k hk)
      obtain rfl : j = k := Num.natCast_inj.mp hjk
      exact hj
  · exact h

theorem ApprovalInv.step : Machine.Preserves Approvals.step InStep ApprovalInv := by
  intro w action w' h hguard hstep
  cases action with
  | emit raw =>
    simp only [Approvals.step, Option.ite_none_right_eq_some] at hstep
    obtain ⟨hraw, ⟨⟩⟩ := hstep
    exact h.emit hraw
  | wait taskId request =>
    simp only [Approvals.step, Option.ite_none_right_eq_some] at hstep
    obtain ⟨-, ⟨⟩⟩ := hstep
    apply h.update
    rintro _ ⟨⟩ a ha ht
    exact hguard a ha ht
  | withdraw taskId =>
    obtain ⟨⟩ := hstep
    exact h.update taskId none nofun
  | receive lo hi =>
    simp only [Approvals.step, Option.ite_none_right_eq_some] at hstep
    obtain ⟨⟨hlo, hhi⟩, ⟨⟩⟩ := hstep
    exact ⟨h.journal, max_le h.received_le hhi, h.holds.ingest_batchOf h.journal h.received_le hlo,
      h.shown, h.inFlight, h.applied⟩
  | setConnection state =>
    obtain ⟨⟩ := hstep
    exact ⟨h.journal, h.received_le, h.holds.setConnection state, h.shown, h.inFlight, h.applied⟩
  | focus pinned =>
    obtain ⟨⟩ := hstep
    exact ⟨h.journal, h.received_le, h.holds, h.shown, h.inFlight, h.applied⟩
  | render =>
    obtain ⟨prompt, hprompt, rfl⟩ := Option.map_eq_some_iff.mp hstep
    exact h.show_prompt true (panelPrompt_stored hprompt)
  | notify enabled =>
    obtain ⟨prompt, hprompt, rfl⟩ := Option.map_eq_some_iff.mp hstep
    exact h.show_prompt enabled (notificationPrompt_stored hprompt)
  | answer i allow scope approvalScope =>
    obtain ⟨prompt, hprompt, rfl⟩ := Option.map_eq_some_iff.mp hstep
    exact h.send (h.shown prompt (List.mem_of_getElem? hprompt)) (hguard prompt hprompt)
  | arrive i =>
    obtain ⟨a, ha, rfl⟩ := Option.map_eq_some_iff.mp hstep
    obtain ⟨hprompt, hanswers⟩ := h.inFlight a (List.mem_of_getElem? ha)
    exact (h.erase i).permissionResolved hprompt hanswers
  | lose i =>
    obtain ⟨⟩ := hstep
    exact h.erase i

/-- A resolution that Core applies to a request was given for a prompt built from the event of
that request. -/
theorem resolution_of_own_prompt {as : List ApprovalAction}
    (hrun : Machine.run Approvals.step Approvals.begin as = some w)
    (hguard : Machine.Guarded Approvals.step InStep Approvals.begin as) :
    ∀ x ∈ w.applied, requestAt w.journal x.request = some x.answer.prompt.approval :=
  (ApprovalInv.step.run approvalInv_begin hguard hrun).applied

def waitingForPermission : Json :=
  coreEvent 1 "t" 10 "state_changed" (.obj [("to", .str "WAITING_FOR_PERMISSION")])

def approvalRequested (seq : ℕ) (prompt : String) : Json :=
  coreEvent seq "t" (10 * seq) "approval_requested" (.obj [("prompt", .str prompt)])

/-- A request is raised, received and shown. -/
def asked : List ApprovalAction :=
  [.emit waitingForPermission, .emit (approvalRequested 2 "run tests"), .wait "t" 2,
    .focus (some "t"), .receive 0 2, .notify true]

/-- The second request is raised while an answer to the first is on its way, and waited on once
that one has arrived. -/
def answeredInStep : List ApprovalAction :=
  asked ++ [.answer 0 true (some "once") true, .emit (approvalRequested 3 "push"), .arrive 0,
    .wait "t" 3]

theorem resolution_of_own_prompt_inStep :
    ∃ w, Machine.run Approvals.step Approvals.begin answeredInStep = some w ∧
      w.applied.map (·.request) = [2] ∧
      ∀ x ∈ w.applied, requestAt w.journal x.request = some x.answer.prompt.approval := by
  have hends : (Machine.run Approvals.step Approvals.begin answeredInStep).map
      (fun w => w.applied.map (·.request)) = some [2] := by decide +kernel
  obtain ⟨w, hrun, happlied⟩ := Option.map_eq_some_iff.mp hends
  exact ⟨w, hrun, happlied, resolution_of_own_prompt hrun (by decide +kernel)⟩

/-- The second request is raised and waited on before the first prompt is answered. -/
def answeredLate : List ApprovalAction :=
  asked ++ [.emit (approvalRequested 3 "push"), .wait "t" 3, .answer 0 true (some "once") true,
    .arrive 0]

/-- The answer given for an older prompt is applied to a newer request. -/
theorem older_answer_applied_to_newer :
    ¬ ∀ (as : List ApprovalAction) (w : Approvals),
      Machine.run Approvals.step Approvals.begin as = some w →
      ∀ x ∈ w.applied, requestAt w.journal x.request = some x.answer.prompt.approval := by
  intro h
  have hends : (Machine.run Approvals.step Approvals.begin answeredLate).map
      (fun w => w.applied.map fun x =>
        ((requestAt w.journal x.request).map (·.seq), x.answer.prompt.approval.seq)) =
      some [(some 3, 2)] := by decide +kernel
  obtain ⟨w, hrun, happlied⟩ := Option.map_eq_some_iff.mp hends
  obtain ⟨x, hx, hseqs⟩ : ∃ x ∈ w.applied,
      ((requestAt w.journal x.request).map (·.seq), x.answer.prompt.approval.seq) =
        (some 3, 2) := by
    rw [← List.mem_map, happlied]
    exact List.mem_singleton_self _
  rw [h answeredLate w hrun x hx] at hseqs
  obtain ⟨hrequest, hprompt⟩ := Prod.mk.injEq .. ▸ hseqs
  rw [Option.map_some, hprompt] at hrequest
  revert hrequest
  decide +kernel

end Safety

end ValyriaApp
