import Mathlib.Data.List.Nodup
import ValyriaApp.Extension.Dispatch

/-! # Approval notifications

Each change of the store may raise a notification for the approval that the task
in focus waits for. One number stands for all that were raised: it tells a
request apart from the one announced last, not from those of other tasks or of
earlier sessions.
-/

namespace ValyriaApp

def focusedApproval (s : StoreState) (pinned : Option String) : Option ApprovalProjection :=
  (onScreen s pinned).bind (pendingApprovalFor s)

/-- The store knows the pinned task, if any. -/
def KnownPin (s : StoreState) (pinned : Option String) : Prop :=
  ∀ id, pinned = some id → id ≠ "" ∧ (s.tasks.get? id).isSome

/-- The notifications of approvals, with their category enabled. -/
structure Notifications where
  store : Store
  pinned : Option String
  lastApprovalSeq : Num
  /-- The session the store shows: a reset begins the next one. -/
  session : ℕ
  /-- The requests that were announced, by session and number. -/
  announced : List (ℕ × Num)
  /-- Those that were pending for the task in focus when the store changed. -/
  due : List (ℕ × Num)

inductive NotifyAction where
  | store (change : Store.Change)
  | focus (pinned : Option String)

namespace Notifications

def start : Notifications where
  store := .new
  pinned := none
  lastApprovalSeq := .fin (-1)
  session := 0
  announced := []
  due := []

def sessionAfter (n : Notifications) : Store.Change → ℕ
  | .reset => n.session + 1
  | _ => n.session

/-- The request that is pending falls due. -/
def observe (n : Notifications) : Notifications :=
  { n with due := n.due ++ ((focusedApproval n.store.state n.pinned).map fun ap =>
      (n.session, ap.seq)).toList }

/-- The listener of `watchNotifications`. -/
def notify (n : Notifications) : Notifications :=
  (notificationPrompt n.store.state n.pinned n.lastApprovalSeq).elim n fun prompt =>
    { n with
      lastApprovalSeq := prompt.approval.seq
      announced := n.announced ++ [(n.session, prompt.approval.seq)] }

def step (n : Notifications) : NotifyAction → Option Notifications
  | .store change => some ((n.store.changed change).elim n fun store =>
      { n with store, session := n.sessionAfter change }.observe.notify)
  | .focus pinned => some { n with pinned }

/-- Each request that fell due was announced, and none twice. -/
structure AnnouncesOnce (n : Notifications) : Prop where
  announced : ∀ request ∈ n.due, request ∈ n.announced
  nodup : n.announced.Nodup

/-- The number announced last tells whether the request that is pending was announced, where the
watcher looks at it; where it does not, the request was. -/
def Told (n : Notifications) : NotifyAction → Prop
  | .store change => ∀ store, n.store.changed change = some store →
      ∀ ap, focusedApproval store.state n.pinned = some ap →
        (KnownPin store.state n.pinned →
          (ap.seq.strictEq n.lastApprovalSeq = true ↔
            (n.sessionAfter change, ap.seq) ∈ n.announced)) ∧
        (¬ KnownPin store.state n.pinned → (n.sessionAfter change, ap.seq) ∈ n.announced)
  | .focus _ => True

end Notifications

open Notifications

section Steps

variable {n n' : Notifications} {a : NotifyAction} {s : StoreState} {pinned : Option String}
  {last : Num}

theorem notificationPrompt_of_knownPin (h : KnownPin s pinned) :
    (notificationPrompt s pinned last).map (·.approval) =
      (focusedApproval s pinned).filter fun ap => !ap.seq.strictEq last := by
  have htarget : (pinned.or (currentTaskId s)).filter (· ≠ "") = onScreen s pinned := by
    cases pinned with
    | none => rfl
    | some id => simp [onScreen, resolveFocus, Option.filter_some, h id rfl]
  rw [notificationPrompt, htarget, focusedApproval]
  cases onScreen s pinned with
  | none => rfl
  | some taskId => simp [Option.map_map, Function.comp_def]

theorem notificationPrompt_of_not_knownPin (h : ¬ KnownPin s pinned) :
    notificationPrompt s pinned last = none := by
  simp only [KnownPin, not_forall, not_and_or, not_not] at h
  obtain ⟨id, rfl, hid⟩ := h
  rcases hid with rfl | hid
  · rfl
  · have hunknown : s.tasks.get? id = none := by simpa using hid
    have hpending : pendingApprovalFor s id = none := by
      unfold pendingApprovalFor
      rw [hunknown]
    rw [notificationPrompt, Option.some_or, Option.filter_some]
    split
    · simp [hpending]
    · rfl

theorem raised_iff {ap : ApprovalProjection} :
    (notificationPrompt s pinned last).map (·.approval) = some ap ↔
      KnownPin s pinned ∧ focusedApproval s pinned = some ap ∧ ap.seq.strictEq last = false := by
  by_cases hknown : KnownPin s pinned
  · rw [notificationPrompt_of_knownPin hknown, Option.filter_eq_some_iff]
    simp [hknown]
  · rw [notificationPrompt_of_not_knownPin hknown]
    simp [hknown]

theorem notify_raised {ap : ApprovalProjection}
    (h : (notificationPrompt n.store.state n.pinned n.lastApprovalSeq).map (·.approval) = some ap) :
    n.notify = { n with
      lastApprovalSeq := ap.seq, announced := n.announced ++ [(n.session, ap.seq)] } := by
  obtain ⟨prompt, hprompt, rfl⟩ := Option.map_eq_some_iff.mp h
  rw [Notifications.notify, hprompt]
  rfl

theorem notify_silent
    (h : ∀ ap, (notificationPrompt n.store.state n.pinned n.lastApprovalSeq).map (·.approval) ≠
      some ap) : n.notify = n := by
  have hnone := Option.map_eq_none_iff.mp (Option.eq_none_iff_forall_ne_some.mpr h)
  rw [Notifications.notify, hnone]
  rfl

theorem due_observe {ap : ApprovalProjection}
    (h : focusedApproval n.store.state n.pinned = some ap) :
    n.observe.due = n.due ++ [(n.session, ap.seq)] := by
  simp [observe, h]

theorem announcesOnce_of_silent (h : n.AnnouncesOnce) {request : ℕ × Num}
    (hdue : n'.due = n.due ++ [request]) (hannounced : n'.announced = n.announced) :
    n'.AnnouncesOnce ↔ request ∈ n.announced := by
  constructor
  · intro hnext
    rw [← hannounced]
    exact hnext.announced request (by simp [hdue])
  · intro hrequest
    refine ⟨fun r hr => ?_, by rw [hannounced]; exact h.nodup⟩
    rw [hannounced]
    rw [hdue] at hr
    rcases List.mem_append.mp hr with hr | hr
    · exact h.announced r hr
    · obtain rfl := List.mem_singleton.mp hr
      exact hrequest

theorem announcesOnce_of_raised (h : n.AnnouncesOnce) {request : ℕ × Num}
    (hdue : n'.due = n.due ++ [request]) (hannounced : n'.announced = n.announced ++ [request]) :
    n'.AnnouncesOnce ↔ request ∉ n.announced := by
  have hnodup : n'.announced.Nodup ↔ request ∉ n.announced := by
    rw [hannounced, ← List.concat_eq_append, List.nodup_concat]
    exact and_iff_left h.nodup
  constructor
  · intro hnext
    exact hnodup.mp hnext.nodup
  · intro hrequest
    refine ⟨fun r hr => ?_, hnodup.mpr hrequest⟩
    rw [hdue] at hr
    rw [hannounced]
    exact List.mem_append.mpr ((List.mem_append.mp hr).imp_left (h.announced r))

/-- The request that falls due is announced once exactly when it is told apart. -/
theorem announcesOnce_notify (h : n.AnnouncesOnce) :
    n.observe.notify.AnnouncesOnce ↔
      ∀ ap, focusedApproval n.store.state n.pinned = some ap →
        (KnownPin n.store.state n.pinned →
          (ap.seq.strictEq n.lastApprovalSeq = true ↔ (n.session, ap.seq) ∈ n.announced)) ∧
        (¬ KnownPin n.store.state n.pinned → (n.session, ap.seq) ∈ n.announced) := by
  cases hfocused : focusedApproval n.store.state n.pinned with
  | none =>
    have hsilent : n.observe.notify = n.observe := by
      apply notify_silent
      intro ap hraised
      cases hfocused.symm.trans (raised_iff.mp hraised).2.1
    have hdue : n.observe.due = n.due := by simp [observe, hfocused]
    rw [hsilent]
    refine iff_of_true ⟨?_, h.nodup⟩ ?_
    · rw [hdue]
      exact h.announced
    · rintro ap ⟨⟩
  | some ap =>
    simp only [Option.some.injEq, forall_eq']
    have hdue := due_observe hfocused
    by_cases htold : KnownPin n.store.state n.pinned ∧ ap.seq.strictEq n.lastApprovalSeq = false
    · have hraised := notify_raised (n := n.observe)
        (raised_iff.mpr ⟨htold.1, hfocused, htold.2⟩)
      have hannounced : n.observe.notify.announced = n.announced ++ [(n.session, ap.seq)] := by
        rw [hraised]
        rfl
      have hfell : n.observe.notify.due = n.due ++ [(n.session, ap.seq)] := by
        rw [hraised]
        exact hdue
      rw [announcesOnce_of_raised h hfell hannounced]
      simp [htold]
    · have hsilent : n.observe.notify = n.observe := by
        apply notify_silent
        intro other hraised
        obtain ⟨hknown, hother, hseq⟩ := raised_iff.mp hraised
        obtain rfl : ap = other := Option.some.inj (hfocused.symm.trans hother)
        exact htold ⟨hknown, hseq⟩
      rw [hsilent, announcesOnce_of_silent h hdue rfl]
      by_cases hknown : KnownPin n.store.state n.pinned
      · have hlast : ap.seq.strictEq n.lastApprovalSeq = true := by simpa [hknown] using htold
        simp [hknown, hlast]
      · simp [hknown]

theorem announcesOnce_step (h : n.AnnouncesOnce) (hstep : n.step a = some n') :
    n'.AnnouncesOnce ↔ n.Told a := by
  cases a with
  | store change =>
    rcases Machine.elim_cases hstep with ⟨hchanged, rfl⟩ | ⟨store, hchanged, rfl⟩
    · refine iff_of_true h ?_
      intro store hstore
      cases hchanged.symm.trans hstore
    · have hnext : { n with store, session := n.sessionAfter change }.AnnouncesOnce :=
        ⟨h.announced, h.nodup⟩
      simp only [Told, hchanged, Option.some.injEq, forall_eq']
      exact announcesOnce_notify hnext
  | focus pinned =>
    cases hstep
    exact iff_of_true ⟨h.announced, h.nodup⟩ trivial

end Steps

/-- In a run from the start each pending approval is announced once, exactly when the number
announced last always tells whether the pending one was. -/
theorem announces_once_iff (as : List NotifyAction) :
    (∀ bs cs, as = bs ++ cs → ∀ n, Machine.run step start bs = some n → n.AnnouncesOnce) ↔
      Machine.Guarded step Told start as := by
  have hnone : ∀ ⦃n : Notifications⦄ ⦃a : NotifyAction⦄, n.step a = none → n.Told a := by
    intro n a h
    cases a <;> cases h
  have hstart : start.AnnouncesOnce := by
    constructor
    · rintro request ⟨⟩
    · exact List.nodup_nil
  exact (Machine.guarded_iff (I := fun _ => True) (fun _ _ _ _ _ => trivial) hnone
    (fun _ _ _ _ => announcesOnce_step) trivial hstart).symm

def waitingBatch : EventBatch :=
  batchOf [waitingForPermission, approvalRequested 2 "run tests"] 0 2

/-- The same numbers come again in the next session. -/
def waitingTwice : List NotifyAction :=
  [.focus (some "t"), .store (.ingestBatch waitingBatch), .store .reset, .focus none,
    .focus (some "t"), .store (.ingestBatch waitingBatch)]

/-- The approval of the next session has the number announced last. -/
theorem next_session_unannounced :
    ¬ ∀ (as : List NotifyAction) (n : Notifications),
      Machine.run step start as = some n → n.AnnouncesOnce := by
  intro h
  have hends : (Machine.run step start waitingTwice).map (fun n => (n.announced, n.due)) =
      some ([(0, 2)], [(0, 2), (1, 2)]) := by decide +kernel
  obtain ⟨n, hrun, hends⟩ := Option.map_eq_some_iff.mp hends
  obtain ⟨hannounced, hdue⟩ := Prod.mk.inj hends
  have hmem := (h waitingTwice n hrun).announced (1, 2) (by simp [hdue])
  rw [hannounced] at hmem
  revert hmem
  decide +kernel

end ValyriaApp
