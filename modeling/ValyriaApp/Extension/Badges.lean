import ValyriaApp.Extension.Connection
import ValyriaApp.Extension.Dispatch

/-! # Ownership badges

The explorer badges the files of the task in focus with what the ledger of Core
says about them. The ledger is asked when the focus moves to another task, and
at no other time: what the session can do changes without that, and an answer is
taken as it comes.
-/

namespace ValyriaApp

/-! ## What is looked at -/

/-- What the extension looks at to decide whose ledger to ask for. -/
structure Scene where
  store : Store
  pinned : Option String
  supervisor : Supervisor

namespace Scene

inductive Change where
  | store (change : Store.Change)
  | focus (pinned : Option String)
  | supervisor (change : Supervisor.Change)

/-- The scene after a change; `none` when the listeners are not called. -/
def changed (s : Scene) : Change → Option Scene
  | .store change => (s.store.changed change).map fun store => { s with store }
  | .focus pinned => if s.pinned = pinned then none else some { s with pinned }
  | .supervisor change => (s.supervisor.changed change).map fun supervisor => { s with supervisor }

def focus (s : Scene) : Option String := resolveFocus s.store.state s.pinned

/-- The session is ready and Core keeps a ledger. -/
def available (s : Scene) : Bool := s.supervisor.has "ledger" && s.supervisor.state = .ready

/-- The task to ask the ledger of, if any; an empty id counts as none. -/
def ledgerTask (s : Scene) : Option String := s.focus.filter fun id => id ≠ "" ∧ s.available

end Scene

/-! ## The decorations -/

structure LedgerChange where
  path : String
  classification : String

/-- The decorations, with the requests that are not answered. -/
structure FileOwnershipDecorations where
  scene : Scene
  lastTaskId : Option String
  byPath : Record String
  /-- The tasks of the requests in flight. -/
  inFlight : List String
  /-- The task whose answer is kept, with what it said. -/
  kept : Option (String × Record String)
  /-- The tasks of the requests that failed since. -/
  failed : List String

inductive OwnershipAction where
  | change (change : Scene.Change)
  /-- The answer to a request in flight, if it does not fail. -/
  | answer (i : ℕ) (changes : Option (List LedgerChange))

namespace FileOwnershipDecorations

def start : FileOwnershipDecorations where
  scene := { store := .new, pinned := none, supervisor := .new }
  lastTaskId := none
  byPath := .empty
  inFlight := []
  kept := none
  failed := []

variable (joinPath : String → String → String)

def fsPath (session : Option BridgeHost.SessionInfo) (path : String) : String :=
  ((session.map (·.workspaceRoot)).filter (· ≠ "")).elim path fun root => joinPath root path

def pathsOf (session : Option BridgeHost.SessionInfo) (changes : List LedgerChange) :
    Record String :=
  changes.foldl (fun next ch => next.set (fsPath joinPath session ch.path) ch.classification) .empty

def clear (o : FileOwnershipDecorations) : FileOwnershipDecorations :=
  { o with byPath := .empty, kept := none, failed := [] }

def fetch (o : FileOwnershipDecorations) (taskId : String) : FileOwnershipDecorations :=
  { o with inFlight := o.inFlight ++ [taskId] }

/-- The rest of `fetch`, once its request is answered. -/
def fetched (o : FileOwnershipDecorations) (taskId : String) :
    Option (List LedgerChange) → FileOwnershipDecorations
  | some changes =>
    let next := pathsOf joinPath o.scene.supervisor.session changes
    { o with byPath := next, kept := some (taskId, next), failed := [] }
  | none => { o with failed := taskId :: o.failed }

def maybeRefresh (o : FileOwnershipDecorations) : FileOwnershipDecorations :=
  let taskId := o.scene.focus
  if taskId = o.lastTaskId then o
  else
    let o := { o with lastTaskId := taskId }
    o.scene.ledgerTask.elim o.clear o.fetch

def step (o : FileOwnershipDecorations) : OwnershipAction → Option FileOwnershipDecorations
  | .change change =>
    some ((o.scene.changed change).elim o fun scene => { o with scene }.maybeRefresh)
  | .answer i changes => o.inFlight[i]?.map fun taskId =>
    { o with inFlight := o.inFlight.eraseIdx i }.fetched joinPath taskId changes

/-- The badges are what the ledger of the task says, or a request for it failed since they last
changed. -/
def Answered (o : FileOwnershipDecorations) (taskId : String) : Prop :=
  o.kept = some (taskId, o.byPath) ∨ taskId ∈ o.failed

/-- The badges are those of the task in focus. -/
structure Shows (o : FileOwnershipDecorations) : Prop where
  task : ∀ taskId, o.scene.ledgerTask = some taskId → o.Answered taskId
  none : o.scene.ledgerTask = none → o.byPath = .empty

/-- They are once no request is in flight. -/
def Settled (o : FileOwnershipDecorations) : Prop := o.inFlight = [] → o.Shows

/-- Since the badges were last cleared, the last answer was one for the task, or a request for the
task has failed after it. -/
def AnswerCame (o : FileOwnershipDecorations) (taskId : String) : Prop :=
  o.kept.map Prod.fst = some taskId ∨ taskId ∈ o.failed

/-- A change that leaves the focus while no request is in flight makes the ledger available for a
task that has been answered only, and unavailable when no badge is shown only. The last answer is
one for the task in focus, or says nothing when there is none to ask for. -/
def Timely (o : FileOwnershipDecorations) : OwnershipAction → Prop
  | .change change => ∀ scene, o.scene.changed change = some scene → o.inFlight = [] →
      scene.focus = o.lastTaskId →
      (o.scene.available = false →
          ∀ taskId, scene.ledgerTask = some taskId → o.AnswerCame taskId) ∧
        (scene.available = false → o.byPath = .empty)
  | .answer i (some changes) => ∀ taskId, o.inFlight[i]? = some taskId →
      o.inFlight.eraseIdx i = [] →
      (∀ id, o.scene.ledgerTask = some id → id = taskId) ∧
        (o.scene.ledgerTask = none → changes = [])
  | .answer i none => ∀ taskId, o.inFlight[i]? = some taskId → o.inFlight.eraseIdx i = [] →
      (∀ id, o.scene.ledgerTask = some id → id = taskId ∨ o.AnswerCame id) ∧
        (o.scene.ledgerTask = none → o.byPath = .empty)

/-- The memo is the focus, and the badges are those of the answer that is kept. -/
structure Tracked (o : FileOwnershipDecorations) : Prop where
  memo : o.lastTaskId = o.scene.focus
  kept : ∀ taskId paths, o.kept = some (taskId, paths) → o.byPath = paths
  bare : o.kept = none → o.byPath = .empty

end FileOwnershipDecorations

open FileOwnershipDecorations

section Steps

variable {joinPath : String → String → String} {o o' : FileOwnershipDecorations} {scene : Scene}
  {a : OwnershipAction}

theorem FileOwnershipDecorations.Tracked.answerCame_iff (h : Tracked o) (taskId : String) :
    o.AnswerCame taskId ↔ o.Answered taskId := by
  refine or_congr_left ?_
  rw [Option.map_eq_some_iff]
  constructor
  · rintro ⟨⟨id, paths⟩, hkept, rfl⟩
    rw [hkept, h.kept id paths hkept]
  · exact fun hkept => ⟨_, hkept, rfl⟩

theorem ledgerTask_stays {s t : Scene} {taskId : String} (hfocus : s.focus = t.focus)
    (htask : s.ledgerTask = some taskId) (havailable : t.available = true) :
    t.ledgerTask = some taskId := by
  rw [Scene.ledgerTask, Option.filter_eq_some_iff, hfocus] at htask
  rw [Scene.ledgerTask, Option.filter_eq_some_iff]
  simp only [decide_eq_true_eq] at htask ⊢
  exact ⟨htask.1, htask.2.1, havailable⟩

theorem ledgerTask_of_unavailable {s : Scene} (h : s.available = false) : s.ledgerTask = none := by
  simp [Scene.ledgerTask, h]

theorem pathsOf_eq_empty_iff {session : Option BridgeHost.SessionInfo}
    {changes : List LedgerChange} :
    pathsOf joinPath session changes = .empty ↔ changes = [] := by
  constructor
  · intro h
    obtain rfl | ⟨init, last, rfl⟩ := List.eq_nil_or_concat changes
    · rfl
    · have hget := congrArg (·.get? (fsPath joinPath session last.path)) h
      simp [pathsOf] at hget
  · rintro rfl
    rfl

/-- What a refresh does: nothing while the focus stays, else it clears the badges or asks. -/
theorem maybeRefresh_cases (o : FileOwnershipDecorations) :
    (o.scene.focus = o.lastTaskId ∧ o.maybeRefresh = o) ∨
      (o.scene.focus ≠ o.lastTaskId ∧ o.scene.ledgerTask = none ∧
        o.maybeRefresh = { o with lastTaskId := o.scene.focus }.clear) ∨
      ∃ taskId, o.scene.focus ≠ o.lastTaskId ∧ o.scene.ledgerTask = some taskId ∧
        o.maybeRefresh = { o with lastTaskId := o.scene.focus }.fetch taskId := by
  by_cases h : o.scene.focus = o.lastTaskId
  · exact Or.inl ⟨h, if_pos h⟩
  · have hmoved : o.maybeRefresh = o.scene.ledgerTask.elim
        { o with lastTaskId := o.scene.focus }.clear
        { o with lastTaskId := o.scene.focus }.fetch := if_neg h
    right
    rw [hmoved]
    cases htask : o.scene.ledgerTask with
    | none => exact Or.inl ⟨h, rfl, rfl⟩
    | some taskId => exact Or.inr ⟨taskId, h, rfl, rfl⟩

theorem FileOwnershipDecorations.Tracked.refresh (h : Tracked o) (scene : Scene) :
    Tracked { o with scene }.maybeRefresh := by
  rcases maybeRefresh_cases { o with scene } with ⟨hfocus, heq⟩ | ⟨-, -, heq⟩ | ⟨taskId, -, -, heq⟩
  · rw [heq]
    exact ⟨hfocus.symm, h.kept, h.bare⟩
  · rw [heq]
    refine ⟨rfl, ?_, fun _ => rfl⟩
    rintro taskId paths ⟨⟩
  · rw [heq]
    exact ⟨rfl, h.kept, h.bare⟩

theorem FileOwnershipDecorations.Tracked.fetched (h : Tracked o) (taskId : String)
    (changes : Option (List LedgerChange)) : Tracked (o.fetched joinPath taskId changes) := by
  cases changes with
  | none => exact ⟨h.memo, h.kept, h.bare⟩
  | some changes =>
    refine ⟨h.memo, ?_, ?_⟩
    · rintro id paths ⟨⟩
      rfl
    · rintro ⟨⟩

theorem tracked_step (h : Tracked o) (hstep : o.step joinPath a = some o') : Tracked o' := by
  cases a with
  | change change =>
    rcases Machine.elim_cases hstep with ⟨-, rfl⟩ | ⟨scene, -, rfl⟩
    · exact h
    · exact h.refresh scene
  | answer i changes =>
    obtain ⟨taskId, -, rfl⟩ := Option.map_eq_some_iff.mp hstep
    have herased : Tracked { o with inFlight := o.inFlight.eraseIdx i } := ⟨h.memo, h.kept, h.bare⟩
    exact herased.fetched taskId changes

theorem settled_refresh (h : Tracked o) (hsettled : o.Settled) (scene : Scene) :
    { o with scene }.maybeRefresh.Settled ↔ (o.inFlight = [] → scene.focus = o.lastTaskId →
      (o.scene.available = false → ∀ taskId, scene.ledgerTask = some taskId → o.Answered taskId) ∧
        (scene.available = false → o.byPath = .empty)) := by
  rcases maybeRefresh_cases { o with scene } with
    ⟨hfocus, heq⟩ | ⟨hfocus, hnone, heq⟩ | ⟨taskId, hfocus, htask, heq⟩
  · rw [heq]
    change scene.focus = o.lastTaskId at hfocus
    constructor
    · intro hnext hrest _
      obtain ⟨htask, hnone⟩ := hnext hrest
      exact ⟨fun _ => htask, fun hunavailable => hnone (ledgerTask_of_unavailable hunavailable)⟩
    · intro hguard hrest
      obtain ⟨hcomes, hgoes⟩ := hguard hrest hfocus
      obtain ⟨htask, hnone⟩ := hsettled hrest
      have hsame : scene.focus = o.scene.focus := hfocus.trans h.memo
      constructor
      · intro taskId hask
        cases hbefore : o.scene.available with
        | false => exact hcomes hbefore taskId hask
        | true => exact htask taskId (ledgerTask_stays hsame hask hbefore)
      · intro hask
        cases hafter : scene.available with
        | false => exact hgoes hafter
        | true =>
          apply hnone
          rw [Option.eq_none_iff_forall_ne_some]
          intro taskId hbefore
          cases hask.symm.trans (ledgerTask_stays hsame.symm hbefore hafter)
  · rw [heq]
    refine iff_of_true (fun _ => ⟨?_, fun _ => rfl⟩) fun _ hsame => absurd hsame hfocus
    intro taskId htask
    cases hnone.symm.trans htask
  · rw [heq]
    refine iff_of_true (fun hrest => ?_) fun _ hsame => absurd hsame hfocus
    exact absurd hrest (List.append_ne_nil_of_right_ne_nil _ (List.cons_ne_nil _ _))

theorem settled_fetched (taskId : String) (changes : Option (List LedgerChange)) :
    (o.fetched joinPath taskId changes).Settled ↔ (o.inFlight = [] →
      (∀ id, o.scene.ledgerTask = some id → id = taskId ∨ (changes = none ∧ o.Answered id)) ∧
        (o.scene.ledgerTask = none → changes.elim (o.byPath = .empty) (· = []))) := by
  cases changes with
  | none =>
    constructor
    · intro hnext hrest
      obtain ⟨htask, hnone⟩ := hnext hrest
      refine ⟨fun id hid => ?_, hnone⟩
      rcases htask id hid with hkept | hfailed
      · exact Or.inr ⟨rfl, Or.inl hkept⟩
      · exact (List.mem_cons.mp hfailed).imp_right fun hfailed => ⟨rfl, Or.inr hfailed⟩
    · intro hguard hrest
      obtain ⟨htask, hnone⟩ := hguard hrest
      refine ⟨fun id hid => ?_, hnone⟩
      rcases htask id hid with rfl | ⟨-, hkept | hfailed⟩
      · exact Or.inr List.mem_cons_self
      · exact Or.inl hkept
      · exact Or.inr (List.mem_cons_of_mem _ hfailed)
  | some changes =>
    constructor
    · intro hnext hrest
      obtain ⟨htask, hnone⟩ := hnext hrest
      refine ⟨fun id hid => ?_, fun hid => pathsOf_eq_empty_iff.mp (hnone hid)⟩
      rcases htask id hid with hkept | hfailed
      · exact Or.inl (Prod.mk.inj (Option.some.inj hkept)).1.symm
      · cases hfailed
    · intro hguard hrest
      obtain ⟨htask, hnone⟩ := hguard hrest
      refine ⟨fun id hid => ?_, fun hid => pathsOf_eq_empty_iff.mpr (hnone hid)⟩
      rcases htask id hid with rfl | ⟨hsome, -⟩
      · exact Or.inl rfl
      · cases hsome

theorem settled_step (h : Tracked o) (hsettled : o.Settled)
    (hstep : o.step joinPath a = some o') : o'.Settled ↔ o.Timely a := by
  cases a with
  | change change =>
    rcases Machine.elim_cases hstep with ⟨hchanged, rfl⟩ | ⟨scene, hchanged, rfl⟩
    · refine iff_of_true hsettled ?_
      intro scene hscene
      cases hchanged.symm.trans hscene
    · rw [FileOwnershipDecorations.Timely, hchanged]
      simp only [Option.some.injEq, forall_eq', h.answerCame_iff]
      exact settled_refresh h hsettled scene
  | answer i changes =>
    obtain ⟨taskId, htask, rfl⟩ := Option.map_eq_some_iff.mp hstep
    rw [settled_fetched]
    cases changes with
    | none =>
      simp [FileOwnershipDecorations.Timely, htask, h.answerCame_iff,
        FileOwnershipDecorations.Answered]
    | some changes => simp [FileOwnershipDecorations.Timely, htask]

end Steps

/-- In a run from the start the badges settle throughout, exactly when the ledger comes and goes
with the focus, or while it makes no difference, and the last answers are for the task in focus. -/
theorem badges_settle_iff (joinPath : String → String → String) (as : List OwnershipAction) :
    (∀ bs cs, as = bs ++ cs → ∀ o, Machine.run (step joinPath) start bs = some o → o.Settled) ↔
      Machine.Guarded (step joinPath) Timely start as := by
  have hnone : ∀ ⦃o : FileOwnershipDecorations⦄ ⦃a : OwnershipAction⦄,
      o.step joinPath a = none → o.Timely a := by
    intro o a h
    cases a with
    | change change => cases h
    | answer i changes =>
      have hi : o.inFlight[i]? = none := Option.map_eq_none_iff.mp h
      cases changes <;> simp [Timely, hi]
  have htracked : Tracked start := by
    refine ⟨?_, ?_, fun _ => rfl⟩
    · rfl
    · rintro taskId paths ⟨⟩
  have hsettled : start.Settled := by
    refine fun _ => ⟨?_, fun _ => rfl⟩
    intro taskId htask
    cases htask
  exact (Machine.guarded_iff (fun _ _ _ => tracked_step) hnone (fun _ _ _ => settled_step)
    htracked hsettled).symm

/-- A task is in focus before the session is ready. -/
def readyAfterFocus : List OwnershipAction :=
  [.change (.focus (some "t")),
    .change (.store (.ingestBatch (batchOf [coreEvent 1 "t" 10 "task_started" (.obj [])] 0 1))),
    .change (.supervisor .connecting),
    .change (.supervisor (.settle (.ok (sessionWith ["ledger"]))))]

/-- The ledger of the task in focus is not asked for. -/
theorem ledger_not_asked :
    ¬ ∀ (joinPath : String → String → String) (as : List OwnershipAction)
      (o : FileOwnershipDecorations),
      Machine.run (step joinPath) start as = some o → o.Settled := by
  intro h
  have hends : (Machine.run (step fun _ path => path) start readyAfterFocus).map
      (fun o => (o.inFlight, o.scene.ledgerTask, o.kept.isSome, o.failed)) =
      some ([], some "t", false, []) := by decide +kernel
  obtain ⟨o, hrun, hends⟩ := Option.map_eq_some_iff.mp hends
  obtain ⟨hrest, htask, hkept, hfailed⟩ : o.inFlight = [] ∧ o.scene.ledgerTask = some "t" ∧
      o.kept.isSome = false ∧ o.failed = [] := by simpa using hends
  rcases (h _ _ o hrun hrest).task "t" htask with hanswer | hanswer
  · rw [hanswer] at hkept
    cases hkept
  · rw [hfailed] at hanswer
    cases hanswer

end ValyriaApp
