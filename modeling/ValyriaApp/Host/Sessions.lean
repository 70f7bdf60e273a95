import ValyriaApp.Host.Restart

/-! # The live session of a host

Requests are handled one after another; the supervise task of each opened
session restarts it by itself and swaps the new session into whatever is live.
An aborted task that is running goes on up to its next await that suspends, so
a task may still swap after its session was replaced.
-/

namespace ValyriaApp.BridgeHost

open Bridge

/-- A session as the host holds it, with the daemon whose `hello` it was negotiated with. -/
structure HeldSession where
  id : String
  session : Session
  servedBy : Option ℕ

/-- `CoreClient`: the workspace whose socket it connects to, and its token. -/
structure CoreClient where
  socketOf : String
  authToken : Option String

def HeldSession.client (held : HeldSession) : CoreClient := ⟨held.id, held.session.authToken⟩

structure LiveEntry where
  session : HeldSession
  client : CoreClient
  superviseTask : ℕ
  root : String

/-- A call of `spawn_or_adopt` under way, with the daemon that answered it. -/
structure Opening where
  root : String
  call : Call
  answeredBy : Option ℕ

/-- Where the request being handled stands; `shutdown` holds the lock of the live session. -/
inductive OpenPc where
  | idle
  | opening (permissionMode : Option String) (o : Opening)
  | install (root : String) (held : HeldSession) (task : ℕ)
  | shutdown (root mode : String) (prev : LiveEntry)

inductive SupervisePc where
  | streaming
  | backoff (attempt : ℕ)
  | opening (attempt : ℕ) (o : Opening)
  | swap (held : HeldSession)
  | finished

/-- A supervise task; suspended, it waits at an await, where an abort ends it. -/
structure SuperviseTask where
  root : String
  permissionMode : Option String
  pc : SupervisePc
  suspended : Bool
  aborted : Bool

/-- How a request is answered. -/
inductive Answer where
  | ok
  | noBinary
  | failed (e : BridgeError)
  | noSession
  | notOwned
  deriving DecidableEq

structure Sessions where
  worlds : String → World
  live : Option LiveEntry
  request : OpenPc
  tasks : List SuperviseTask
  answers : List Answer
  /-- The daemons this process spawned, by workspace. -/
  spawned : List (String × ℕ)
  /-- The root of the last `session/open` or `session/restart` that completed. -/
  openedRoot : Option String

namespace Sessions

def start (worlds : String → World) : Sessions where
  worlds := worlds
  live := none
  request := .idle
  tasks := []
  answers := []
  spawned := []
  openedRoot := none

def locked (s : Sessions) : Bool :=
  match s.request with
  | .shutdown .. => true
  | _ => false

/-- No session the host opens kills its daemon when it is dropped. -/
def buildSupervisorConfig (root : String) (permissionMode : Option String) : SupervisorConfig where
  workspaceRoot := root
  expectedProtocol := "1.12.0"
  permissionMode := permissionMode
  killDaemonOnDrop := false

def beginOpening (root : String) (permissionMode : Option String) : Opening :=
  ⟨root, .of (buildSupervisorConfig root permissionMode), none⟩

/-- The daemon that answers a `hello` at this step. -/
def answering (w : World) : CallAction → Option ℕ
  | .hello .answered | .poll .answered _ =>
    match w.dir.sock with
    | .bound d => some d
    | _ => none
  | _ => none

/-- Dropping a live session aborts its task. -/
def dropLive (tasks : List SuperviseTask) : Option LiveEntry → List SuperviseTask
  | none => tasks
  | some e => tasks.modify e.superviseTask fun t => { t with aborted := true }

/-- `continue` in the retry loop: the next backoff sleeps, and so suspends. -/
def retry (t : SuperviseTask) (attempt : ℕ) : SuperviseTask :=
  if attempt + 1 < restartBackoffMs.length then
    { t with pc := .backoff (attempt + 1), suspended := true }
  else { t with pc := .finished }

/-- An attempt begins when the backoff is over. -/
def afterBackoff (t : SuperviseTask) (attempt : ℕ) (binary : Bool) : SuperviseTask :=
  if binary then { t with pc := .opening attempt (beginOpening t.root t.permissionMode) }
  else retry t attempt

inductive Action where
  | open (root : String) (permissionMode : Option String) (binary : Bool)
  | requestCall (a : CallAction)
  | install
  | close
  | restart (mode : String)
  | shutdown (sockOk pidOk tokenOk binary : Bool)
  | wake (i : ℕ)
  | suspend (i : ℕ)
  /-- The pump reports that the stream of the task closed. -/
  | closed (i : ℕ)
  /-- The pump is gone. -/
  | ended (i : ℕ)
  | build (i : ℕ) (binary : Bool)
  | taskCall (i : ℕ) (a : CallAction)
  | swap (i : ℕ)
  | env (ws : String) (e : EnvAction)
  /-- Another process starts daemons and writes the run directory. -/
  | elsewhere (ws : String) (dir : RunDir) (daemons : List Daemon)

section

variable (workspaceId : String → String)

/-- One step of a call of `spawn_or_adopt`, on the run directory of its workspace. -/
def stepOpening (s : Sessions) (o : Opening) (a : CallAction) : Option (Sessions × Opening) := do
  let ws := workspaceId o.root
  let (w, call) ← callStep (s.worlds ws) o.call a
  some ({ s with
      worlds := Function.update s.worlds ws w
      spawned := s.spawned ++ (call.started.drop o.call.started.length).map (ws, ·) },
    { o with call, answeredBy := (answering (s.worlds ws) a).or o.answeredBy })

/-- The session a call returned. -/
def Opening.held (o : Opening) (session : Session) : HeldSession :=
  ⟨workspaceId o.root, session, o.answeredBy⟩

/-- `session_open` from the request on, and the rest of `session_restart`. -/
def beginRequest (s : Sessions) (root : String) (permissionMode : Option String) (binary : Bool) :
    Sessions :=
  if binary then { s with request := .opening permissionMode (beginOpening root permissionMode) }
  else { s with request := .idle, answers := s.answers ++ [.noBinary] }

def stepRequestCall (s : Sessions) (permissionMode : Option String) (o : Opening)
    (a : CallAction) : Option Sessions := do
  let (s, o) ← s.stepOpening workspaceId o a
  match o.call.pc with
  | .returned (.ok session) =>
    some { s with
      request := .install o.root (Opening.held workspaceId o session) s.tasks.length
      tasks := s.tasks ++ [⟨o.root, permissionMode, .streaming, true, false⟩] }
  | .returned (.error e) => some { s with request := .idle, answers := s.answers ++ [.failed e] }
  | _ => some { s with request := .opening permissionMode o }

def stepTaskCall (s : Sessions) (i : ℕ) (t : SuperviseTask) (attempt : ℕ) (o : Opening)
    (a : CallAction) : Option Sessions := do
  let (s, o) ← s.stepOpening workspaceId o a
  match o.call.pc with
  | .returned (.ok session) =>
    some { s with
      tasks := s.tasks.set i { t with pc := .swap (Opening.held workspaceId o session) } }
  | .returned (.error _) => some { s with tasks := s.tasks.set i (retry t attempt) }
  | _ => some { s with tasks := s.tasks.set i { t with pc := .opening attempt o } }

/-- The live entry after a task has swapped its session into it. -/
def swapLive (s : Sessions) (i : ℕ) (t : SuperviseTask) (held : HeldSession) : Sessions :=
  match s.live with
  | none => { s with tasks := s.tasks.set i { t with pc := .finished } }
  | some e => { s with
      live := some { e with session := held, client := held.client }
      tasks := s.tasks.set i { t with pc := .streaming } }

def stepRestart (s : Sessions) (mode : String) : Sessions :=
  match s.live with
  | none => { s with answers := s.answers ++ [.noSession] }
  | some e =>
    if e.session.session.child = none then { s with answers := s.answers ++ [.notOwned] }
    else { s with live := none, request := .shutdown e.root mode e }

def step (s : Sessions) : Action → Option Sessions
  | .open root permissionMode binary =>
    match s.request with
    | .idle => some (s.beginRequest root permissionMode binary)
    | _ => none
  | .requestCall a =>
    match s.request with
    | .opening permissionMode o => s.stepRequestCall workspaceId permissionMode o a
    | _ => none
  | .install =>
    match s.request with
    | .install root held task =>
      some { s with
        live := some ⟨held, held.client, task, root⟩
        tasks := dropLive s.tasks s.live
        request := .idle
        answers := s.answers ++ [.ok]
        openedRoot := some root }
    | _ => none
  | .close =>
    match s.request with
    | .idle =>
      some { s with
        live := none, tasks := dropLive s.tasks s.live, answers := s.answers ++ [.ok] }
    | _ => none
  | .restart mode =>
    match s.request with
    | .idle => some (s.stepRestart mode)
    | _ => none
  | .shutdown sockOk pidOk tokenOk binary =>
    match s.request with
    | .shutdown root mode prev =>
      let ws := prev.session.id
      let w := (prev.session.session.shutdownDaemon (s.worlds ws) sockOk pidOk tokenOk).1
      some (beginRequest { s with
        worlds := Function.update s.worlds ws w, tasks := dropLive s.tasks (some prev) }
        root (some mode) binary)
    | _ => none
  | .wake i => do
    let t ← s.tasks[i]?
    if t.suspended && !t.aborted then
      some { s with tasks := s.tasks.set i { t with suspended := false } }
    else none
  | .suspend i => do
    let t ← s.tasks[i]?
    some { s with tasks := s.tasks.set i { t with suspended := true } }
  | .closed i => do
    let t ← s.tasks[i]?
    match t.suspended, t.pc with
    | false, .streaming =>
      some { s with tasks := s.tasks.set i { t with pc := .backoff 0, suspended := true } }
    | _, _ => none
  | .ended i => do
    let t ← s.tasks[i]?
    match t.suspended, t.pc with
    | false, .streaming => some { s with tasks := s.tasks.set i { t with pc := .finished } }
    | _, _ => none
  | .build i binary => do
    let t ← s.tasks[i]?
    match t.suspended, t.pc with
    | false, .backoff attempt =>
      some { s with tasks := s.tasks.set i (afterBackoff t attempt binary) }
    | _, _ => none
  | .taskCall i a => do
    let t ← s.tasks[i]?
    match t.suspended, t.pc with
    | false, .opening attempt o => s.stepTaskCall workspaceId i t attempt o a
    | _, _ => none
  | .swap i => do
    let t ← s.tasks[i]?
    match t.suspended, t.pc with
    | false, .swap held => if s.locked then none else some (s.swapLive i t held)
    | _, _ => none
  | .env ws e => do
    let w ← (s.worlds ws).env e
    some { s with worlds := Function.update s.worlds ws w }
  | .elsewhere ws dir daemons =>
    some { s with
      worlds := Function.update s.worlds ws ⟨(s.worlds ws).daemons ++ daemons, dir⟩ }

end

/-! ## What is carried along -/

/-- Worlds keep their daemons, and only daemons that are new to them are added to those spawned. -/
structure Grows (s t : Sessions) : Prop where
  length : ∀ ws, (s.worlds ws).daemons.length ≤ (t.worlds ws).daemons.length
  spawned : ∀ ws d, (ws, d) ∈ t.spawned → (ws, d) ∈ s.spawned ∨ (s.worlds ws).daemons.length ≤ d

theorem Grows.of_eq {s t : Sessions} (hworlds : t.worlds = s.worlds)
    (hspawned : t.spawned = s.spawned) : s.Grows t where
  length ws := by rw [hworlds]
  spawned ws d h := .inl (hspawned ▸ h)

variable {workspaceId : String → String} {G : Sessions → Action → Prop}
  {P : Sessions → Opening → Prop} {Q : Sessions → String → HeldSession → Prop} {s t : Sessions}

def RequestOk (P : Sessions → Opening → Prop) (Q : Sessions → String → HeldSession → Prop)
    (s : Sessions) : OpenPc → Prop
  | .opening _ o => P s o
  | .install root held _ => Q s root held
  | _ => True

def TaskOk (P : Sessions → Opening → Prop) (Q : Sessions → String → HeldSession → Prop)
    (s : Sessions) (t : SuperviseTask) : Prop :=
  match t.pc with
  | .opening _ o => P s o ∧ o.root = t.root
  | .swap held => Q s t.root held
  | _ => True

/-- A property of the calls under way and one of the sessions held hold throughout the host. -/
structure All (P : Sessions → Opening → Prop) (Q : Sessions → String → HeldSession → Prop)
    (s : Sessions) : Prop where
  request : RequestOk P Q s s.request
  tasks : ∀ t ∈ s.tasks, TaskOk P Q s t
  live : ∀ e, s.live = some e → Q s e.root e.session

/-- The guard lets the call take its step, for the request or for one of the tasks. -/
def Allowed (G : Sessions → Action → Prop) (s : Sessions) (o : Opening) (a : CallAction) : Prop :=
  (G s (.requestCall a) ∧ ∃ mode, s.request = .opening mode o) ∨
    ∃ i t k, G s (.taskCall i a) ∧ s.tasks[i]? = some t ∧ t.pc = .opening k o

/-- What makes the two properties hold throughout a run whose steps meet the guard. -/
structure Carried (workspaceId : String → String) (G : Sessions → Action → Prop)
    (P : Sessions → Opening → Prop) (Q : Sessions → String → HeldSession → Prop) : Prop where
  growsP : ∀ {s t o}, s.Grows t → P s o → P t o
  growsQ : ∀ {s t root held}, s.Grows t → Q s root held → Q t root held
  fresh : ∀ s root mode, P s (beginOpening root mode)
  call : ∀ {s t o o' a}, P s o → Allowed G s o a →
    s.stepOpening workspaceId o a = some (t, o') → P t o'
  returned : ∀ {s o session}, P s o → o.call.pc = .returned (.ok session) →
    Q s o.root (Opening.held workspaceId o session)
  swap : ∀ {s i t e held}, G s (.swap i) → s.tasks[i]? = some t → s.live = some e →
    Q s t.root held → Q s e.root held

/-- A step of a call touches nothing but the run directory of its workspace. -/
theorem stepOpening_eq {o o' : Opening} {a : CallAction}
    (h : s.stepOpening workspaceId o a = some (t, o')) :
    s.Grows t ∧ t.live = s.live ∧ t.request = s.request ∧ t.tasks = s.tasks ∧
      t.answers = s.answers ∧ t.openedRoot = s.openedRoot ∧ o'.root = o.root := by
  obtain ⟨⟨w, call⟩, hcall, h⟩ := Option.bind_eq_some_iff.mp h
  cases h
  have hstep := callStep_cases hcall
  refine ⟨⟨fun ws => ?_, fun ws d hd => ?_⟩, rfl, rfl, rfl, rfl, rfl, rfl⟩
  · change _ ≤ (Function.update s.worlds _ w ws).daemons.length
    by_cases hws : ws = workspaceId o.root
    · subst hws
      rw [Function.update_self]
      exact hstep.daemons.length_le
    · rw [Function.update_of_ne hws]
  · rcases List.mem_append.mp hd with hd | hd
    · exact .inl hd
    · obtain ⟨e, he, heq⟩ := List.mem_map.mp hd
      cases heq
      rcases hstep.started_cases with ⟨hs, -⟩ | ⟨hs, -⟩
      · rw [hs, List.drop_length] at he
        cases he
      · rw [hs, List.drop_left, List.mem_singleton] at he
        exact .inr he.ge

theorem RequestOk.grows (hc : Carried workspaceId G P Q) (hg : s.Grows t) {pc : OpenPc}
    (h : RequestOk P Q s pc) : RequestOk P Q t pc := by
  cases pc with
  | opening mode o => exact hc.growsP hg h
  | install root held task => exact hc.growsQ hg h
  | _ => trivial

theorem TaskOk.grows (hc : Carried workspaceId G P Q) (hg : s.Grows t) {x : SuperviseTask}
    (h : TaskOk P Q s x) : TaskOk P Q t x := by
  unfold TaskOk at *
  split
  · next hpc => simp only [hpc] at h; exact ⟨hc.growsP hg h.1, h.2⟩
  · next hpc => simp only [hpc] at h; exact hc.growsQ hg h
  · trivial

theorem All.grows (hc : Carried workspaceId G P Q) (h : All P Q s) (hg : s.Grows t)
    (hrequest : t.request = s.request ∨ RequestOk P Q t t.request)
    (htasks : ∀ x ∈ t.tasks, x ∈ s.tasks ∨ TaskOk P Q t x)
    (hlive : ∀ e, t.live = some e → s.live = some e ∨ Q t e.root e.session) : All P Q t where
  request := hrequest.elim (fun hs => hs ▸ h.request.grows hc hg) id
  tasks x hx := (htasks x hx).elim (fun hs => (h.tasks x hs).grows hc hg) id
  live e he := (hlive e he).elim (fun hs => hc.growsQ hg (h.live e hs)) id

theorem dropLive_cases {tasks : List SuperviseTask} {l : Option LiveEntry} {x : SuperviseTask}
    (h : x ∈ dropLive tasks l) :
    ∃ y ∈ tasks, x.pc = y.pc ∧ x.root = y.root := by
  cases l with
  | none => exact ⟨x, h, rfl, rfl⟩
  | some e =>
    obtain ⟨i, hi⟩ := List.mem_iff_getElem?.mp h
    rw [dropLive, List.getElem?_modify] at hi
    obtain ⟨y, hy, rfl⟩ := Option.map_eq_some_iff.mp hi
    refine ⟨y, List.mem_of_getElem? hy, ?_⟩
    split_ifs
    · exact ⟨rfl, rfl⟩
    · exact ⟨rfl, rfl⟩

theorem TaskOk.of_eq {x y : SuperviseTask} (h : TaskOk P Q s y) (hpc : x.pc = y.pc)
    (hroot : x.root = y.root) : TaskOk P Q s x := by
  rw [TaskOk, hpc, hroot]
  exact h

theorem Grows.refl (s : Sessions) : s.Grows s := .of_eq rfl rfl

theorem All.setTask (hc : Carried workspaceId G P Q) (h : All P Q s) {i : ℕ} {x : SuperviseTask}
    (hx : TaskOk P Q s x) : All P Q { s with tasks := s.tasks.set i x } := by
  have hgrows : s.Grows { s with tasks := s.tasks.set i x } := .of_eq rfl rfl
  refine h.grows hc hgrows (.inl rfl) ?_ fun e he => .inl he
  intro y hy
  rcases List.mem_or_eq_of_mem_set hy with hy | rfl
  · exact .inl hy
  · exact .inr (hx.grows hc hgrows)

theorem taskOk_retry (x : SuperviseTask) (attempt : ℕ) : TaskOk P Q s (retry x attempt) := by
  rw [retry]
  split_ifs <;> trivial

theorem taskOk_afterBackoff (hc : Carried workspaceId G P Q) (x : SuperviseTask) (attempt : ℕ)
    (binary : Bool) : TaskOk P Q s (afterBackoff x attempt binary) := by
  rw [afterBackoff]
  split_ifs
  · exact ⟨hc.fresh s _ _, rfl⟩
  · exact taskOk_retry x attempt

theorem All.beginRequest (hc : Carried workspaceId G P Q) (h : All P Q s) (root : String)
    (mode : Option String) (binary : Bool) : All P Q (s.beginRequest root mode binary) := by
  rw [Sessions.beginRequest]
  split_ifs
  · refine h.grows hc (.of_eq rfl rfl) (.inr ?_) (fun x hx => .inl hx) fun e he => .inl he
    exact hc.fresh _ root mode
  · exact h.grows hc (.of_eq rfl rfl) (.inr trivial) (fun x hx => .inl hx) fun e he => .inl he

/-- A call's step keeps the rest, and what it returns is a session that may be held. -/
theorem All.stepOpening (hc : Carried workspaceId G P Q) (h : All P Q s) {o o' : Opening}
    {a : CallAction} (ho : P s o) (ha : Allowed G s o a)
    (hs : s.stepOpening workspaceId o a = some (t, o')) :
    All P Q t ∧ P t o' ∧ o'.root = o.root := by
  obtain ⟨hgrows, hlive, hrequest, htasks, -, -, hroot⟩ := stepOpening_eq hs
  refine ⟨h.grows hc hgrows (.inl hrequest) ?_ ?_, hc.call ho ha hs, hroot⟩
  · intro x hx
    exact .inl (htasks ▸ hx)
  · intro e he
    exact .inl (hlive ▸ he)

theorem All.requestCall (hc : Carried workspaceId G P Q) (h : All P Q s) {mode : Option String}
    {o : Opening} {a : CallAction} (hg : G s (.requestCall a))
    (hrequest : s.request = .opening mode o)
    (hs : s.stepRequestCall workspaceId mode o a = some t) : All P Q t := by
  have ho : P s o := by
    have := h.request
    rwa [hrequest] at this
  obtain ⟨⟨u, o'⟩, hcall, hs⟩ := Option.bind_eq_some_iff.mp hs
  obtain ⟨hu, ho', -⟩ := h.stepOpening hc ho (.inl ⟨hg, mode, hrequest⟩) hcall
  dsimp only at hs
  split at hs
  case h_1 session hpc =>
    cases hs
    refine hu.grows hc (.of_eq rfl rfl) (.inr ?_) ?_ fun e he => .inl he
    · have hq := hc.returned ho' hpc
      exact hc.growsQ (.of_eq (s := u) rfl rfl) hq
    · intro x hx
      rcases List.mem_append.mp hx with hx | hx
      · exact .inl hx
      · obtain rfl := List.mem_singleton.mp hx
        exact .inr trivial
  case h_2 =>
    cases hs
    exact hu.grows hc (.of_eq rfl rfl) (.inr trivial) (fun x hx => .inl hx) fun e he => .inl he
  case h_3 =>
    cases hs
    refine hu.grows hc (.of_eq rfl rfl) (.inr ?_) (fun x hx => .inl hx) fun e he => .inl he
    exact hc.growsP (.of_eq (s := u) rfl rfl) ho'

theorem All.taskCall (hc : Carried workspaceId G P Q) (h : All P Q s) {i k : ℕ}
    {x : SuperviseTask} {o : Opening} {a : CallAction} (hg : G s (.taskCall i a))
    (hx : s.tasks[i]? = some x) (hpc : x.pc = .opening k o)
    (hs : s.stepTaskCall workspaceId i x k o a = some t) : All P Q t := by
  have ho : P s o ∧ o.root = x.root := by
    have := h.tasks x (List.mem_of_getElem? hx)
    rwa [TaskOk, hpc] at this
  obtain ⟨⟨u, o'⟩, hcall, hs⟩ := Option.bind_eq_some_iff.mp hs
  obtain ⟨hu, ho', hroot⟩ := h.stepOpening hc ho.1 (.inr ⟨i, x, k, hg, hx, hpc⟩) hcall
  dsimp only at hs
  split at hs
  case h_1 session hret =>
    cases hs
    refine hu.setTask hc ?_
    have hq := hc.returned ho' hret
    rwa [hroot, ho.2] at hq
  case h_2 =>
    cases hs
    exact hu.setTask hc (taskOk_retry x k)
  case h_3 =>
    cases hs
    exact hu.setTask hc ⟨ho', hroot.trans ho.2⟩

theorem grows_update {ws : String} {w : World} (live : Option LiveEntry) (request : OpenPc)
    (tasks : List SuperviseTask) (hw : (s.worlds ws).daemons.length ≤ w.daemons.length) :
    s.Grows { s with worlds := Function.update s.worlds ws w, live, request, tasks } where
  length ws' := by
    change _ ≤ (Function.update s.worlds ws w ws').daemons.length
    by_cases h : ws' = ws
    · subst h
      rwa [Function.update_self]
    · rw [Function.update_of_ne h]
  spawned _ _ hd := .inl hd

/-- The tasks of a dropped session change only in being aborted. -/
theorem All.drop (hc : Carried workspaceId G P Q) (h : All P Q s) (hg : s.Grows t)
    (hrequest : t.request = s.request ∨ RequestOk P Q t t.request) (l : Option LiveEntry)
    (htasks : t.tasks = dropLive s.tasks l)
    (hlive : ∀ e, t.live = some e → Q t e.root e.session) : All P Q t := by
  refine ⟨hrequest.elim (fun hs => hs ▸ h.request.grows hc hg) id, ?_, hlive⟩
  intro x hx
  obtain ⟨y, hy, hpc, hroot⟩ := dropLive_cases (htasks ▸ hx)
  exact ((h.tasks y hy).grows hc hg).of_eq hpc hroot

theorem All.swap (hc : Carried workspaceId G P Q) (h : All P Q s) {i : ℕ} {x : SuperviseTask}
    {held : HeldSession} (hg : G s (.swap i)) (hx : s.tasks[i]? = some x)
    (hpc : x.pc = .swap held) : All P Q (s.swapLive i x held) := by
  rw [swapLive]
  split
  case h_1 => exact h.setTask hc trivial
  case h_2 e he =>
    have hq : Q s x.root held := by
      have := h.tasks x (List.mem_of_getElem? hx)
      rwa [TaskOk, hpc] at this
    have hset : All P Q { s with tasks := s.tasks.set i { x with pc := .streaming } } :=
      h.setTask hc trivial
    have hswap : Q s e.root held := hc.swap hg hx he hq
    refine hset.grows hc (.of_eq rfl rfl) (.inl rfl) (fun y hy => .inl hy) ?_
    rintro e' ⟨⟩
    exact .inr (hc.growsQ (.of_eq (s := s) rfl rfl) hswap)

/-- What a task does by itself between its calls. -/
inductive Moved (x : SuperviseTask) : SuperviseTask → Prop
  | scheduled (suspended : Bool) : Moved x { x with suspended }
  | closed : Moved x { x with pc := .backoff 0, suspended := true }
  | ended : Moved x { x with pc := .finished }
  | build (attempt : ℕ) (binary : Bool) : Moved x (afterBackoff x attempt binary)

/-- What a step can do, with what it found. -/
inductive Stepped (workspaceId : String → String) (s : Sessions) : Action → Sessions → Prop
  | «open» (root : String) (mode : Option String) (binary : Bool) :
      Stepped workspaceId s (.open root mode binary) (s.beginRequest root mode binary)
  | requestCall {mode : Option String} {o : Opening} {a : CallAction} {t : Sessions} :
      s.request = .opening mode o → s.stepRequestCall workspaceId mode o a = some t →
      Stepped workspaceId s (.requestCall a) t
  | install {root : String} {held : HeldSession} {task : ℕ} :
      s.request = .install root held task →
      Stepped workspaceId s .install { s with
        live := some ⟨held, held.client, task, root⟩
        tasks := dropLive s.tasks s.live
        request := .idle
        answers := s.answers ++ [.ok]
        openedRoot := some root }
  | close : Stepped workspaceId s .close { s with
      live := none, tasks := dropLive s.tasks s.live, answers := s.answers ++ [.ok] }
  | restart (mode : String) : Stepped workspaceId s (.restart mode) (s.stepRestart mode)
  | shutdown {root mode : String} {prev : LiveEntry} (sockOk pidOk tokenOk binary : Bool) :
      s.request = .shutdown root mode prev →
      Stepped workspaceId s (.shutdown sockOk pidOk tokenOk binary) (beginRequest { s with
        worlds := Function.update s.worlds prev.session.id (prev.session.session.shutdownDaemon
          (s.worlds prev.session.id) sockOk pidOk tokenOk).1
        tasks := dropLive s.tasks (some prev) } root (some mode) binary)
  | task {i : ℕ} {x y : SuperviseTask} (a : Action) : s.tasks[i]? = some x → Moved x y →
      Stepped workspaceId s a { s with tasks := s.tasks.set i y }
  | taskCall {i attempt : ℕ} {x : SuperviseTask} {o : Opening} {a : CallAction} {t : Sessions} :
      s.tasks[i]? = some x → x.pc = .opening attempt o →
      s.stepTaskCall workspaceId i x attempt o a = some t →
      Stepped workspaceId s (.taskCall i a) t
  | swap {i : ℕ} {x : SuperviseTask} {held : HeldSession} : s.tasks[i]? = some x →
      x.pc = .swap held → Stepped workspaceId s (.swap i) (s.swapLive i x held)
  | world (ws : String) (w : World) (a : Action) :
      (s.worlds ws).daemons.length ≤ w.daemons.length →
      Stepped workspaceId s a { s with worlds := Function.update s.worlds ws w }

theorem step_cases {a : Action} (hs : s.step workspaceId a = some t) :
    Stepped workspaceId s a t := by
  cases a with
  | «open» root mode binary =>
    simp only [Sessions.step] at hs
    split at hs <;> cases hs
    exact .open root mode binary
  | requestCall a =>
    simp only [Sessions.step] at hs
    split at hs
    · next hrequest => exact .requestCall hrequest hs
    · cases hs
  | install =>
    simp only [Sessions.step] at hs
    split at hs <;> cases hs
    next hrequest => exact .install hrequest
  | close =>
    simp only [Sessions.step] at hs
    split at hs <;> cases hs
    exact .close
  | restart mode =>
    simp only [Sessions.step] at hs
    split at hs <;> cases hs
    exact .restart mode
  | shutdown sockOk pidOk tokenOk binary =>
    simp only [Sessions.step] at hs
    split at hs <;> cases hs
    next hrequest => exact .shutdown sockOk pidOk tokenOk binary hrequest
  | wake i =>
    obtain ⟨x, hx, hs⟩ := Option.bind_eq_some_iff.mp hs
    obtain ⟨-, ⟨⟩⟩ := Option.ite_none_right_eq_some.mp hs
    exact .task _ hx (.scheduled false)
  | suspend i =>
    obtain ⟨x, hx, ⟨⟩⟩ := Option.bind_eq_some_iff.mp hs
    exact .task _ hx (.scheduled true)
  | closed i =>
    obtain ⟨x, hx, hs⟩ := Option.bind_eq_some_iff.mp hs
    split at hs <;> cases hs
    exact .task _ hx .closed
  | ended i =>
    obtain ⟨x, hx, hs⟩ := Option.bind_eq_some_iff.mp hs
    split at hs <;> cases hs
    exact .task _ hx .ended
  | build i binary =>
    obtain ⟨x, hx, hs⟩ := Option.bind_eq_some_iff.mp hs
    split at hs <;> cases hs
    exact .task _ hx (.build _ binary)
  | taskCall i a =>
    obtain ⟨x, hx, hs⟩ := Option.bind_eq_some_iff.mp hs
    split at hs
    · next hpc => exact .taskCall hx hpc hs
    · cases hs
  | swap i =>
    obtain ⟨x, hx, hs⟩ := Option.bind_eq_some_iff.mp hs
    split at hs
    · next hpc =>
      obtain ⟨-, ⟨⟩⟩ := Option.ite_none_left_eq_some.mp hs
      exact .swap hx hpc
    · cases hs
  | env ws e =>
    obtain ⟨w, hw, ⟨⟩⟩ := Option.bind_eq_some_iff.mp hs
    exact .world ws w _ (env_length hw).ge
  | elsewhere ws dir daemons =>
    cases hs
    refine .world ws _ _ ?_
    rw [List.length_append]
    exact Nat.le_add_right _ _

theorem TaskOk.moved (hc : Carried workspaceId G P Q) {x y : SuperviseTask}
    (h : TaskOk P Q s x) (hy : Moved x y) : TaskOk P Q s y := by
  cases hy with
  | scheduled suspended => exact h.of_eq rfl rfl
  | closed => trivial
  | ended => trivial
  | build attempt binary => exact taskOk_afterBackoff hc x attempt binary

theorem All.restart (hc : Carried workspaceId G P Q) (h : All P Q s) (mode : String) :
    All P Q (s.stepRestart mode) := by
  rw [stepRestart]
  split
  · exact h.grows hc (.of_eq rfl rfl) (.inl rfl) (fun x hx => .inl hx) fun e he => .inl he
  · split_ifs
    · exact h.grows hc (.of_eq rfl rfl) (.inl rfl) (fun x hx => .inl hx) fun e he => .inl he
    · refine h.grows hc (.of_eq rfl rfl) (.inr trivial) (fun x hx => .inl hx) ?_
      intro e he
      cases he

theorem All.step (hc : Carried workspaceId G P Q) (h : All P Q s) {a : Action} (hg : G s a)
    (hs : s.step workspaceId a = some t) : All P Q t := by
  cases step_cases hs with
  | «open» root mode binary => exact h.beginRequest hc root mode binary
  | requestCall hrequest hcall => exact h.requestCall hc hg hrequest hcall
  | @install root held task hrequest =>
    have hq : Q s root held := by
      have := h.request
      rwa [hrequest] at this
    refine h.drop hc (.of_eq rfl rfl) (.inr trivial) s.live rfl ?_
    rintro e ⟨⟩
    exact hc.growsQ (.of_eq (s := s) rfl rfl) hq
  | close =>
    refine h.drop hc (.of_eq rfl rfl) (.inl rfl) s.live rfl ?_
    intro e he
    cases he
  | restart mode => exact h.restart hc mode
  | @shutdown root mode prev sockOk pidOk tokenOk binary _ =>
    refine All.beginRequest hc ?_ root (some mode) binary
    have hw := (length_shutdownDaemon prev.session.session (s.worlds prev.session.id) sockOk pidOk
      tokenOk).ge
    have hgrows := grows_update s.live s.request (dropLive s.tasks (some prev)) hw
    exact h.drop hc hgrows (.inl rfl) (some prev) rfl fun e he => hc.growsQ hgrows (h.live e he)
  | task _ hx hy =>
    exact h.setTask hc ((h.tasks _ (List.mem_of_getElem? hx)).moved hc hy)
  | taskCall hx hpc hcall => exact h.taskCall hc hg hx hpc hcall
  | swap hx hpc => exact h.swap hc hg hx hpc
  | world ws w _ hw =>
    have hgrows := grows_update s.live s.request s.tasks hw
    exact h.grows hc hgrows (.inl rfl) (fun x hx => .inl hx) fun e he => .inl he

theorem all_start (worlds : String → World) : All P Q (start worlds) where
  request := trivial
  tasks := List.forall_mem_nil _
  live _ he := nomatch he

/-! ## One coherent session -/

/-- How a step changes what is live. -/
inductive LiveStep (s t : Sessions) : Prop
  | none : t.live = none → LiveStep s t
  | same : t.live = s.live → t.openedRoot = s.openedRoot → LiveStep s t
  | install (root : String) (held : HeldSession) (task : ℕ) :
      t.live = some ⟨held, held.client, task, root⟩ → t.openedRoot = some root → LiveStep s t
  | swap (e : LiveEntry) (held : HeldSession) : s.live = some e →
      t.live = some { e with session := held, client := held.client } →
      t.openedRoot = s.openedRoot → LiveStep s t

theorem stepRequestCall_live {mode : Option String} {o : Opening} {a : CallAction}
    (hs : s.stepRequestCall workspaceId mode o a = some t) :
    t.live = s.live ∧ t.openedRoot = s.openedRoot := by
  obtain ⟨⟨u, o'⟩, hcall, hs⟩ := Option.bind_eq_some_iff.mp hs
  obtain ⟨-, hlive, -, -, -, hroot, -⟩ := stepOpening_eq hcall
  dsimp only at hs
  split at hs
  · cases hs
    exact ⟨hlive, hroot⟩
  · cases hs
    exact ⟨hlive, hroot⟩
  · cases hs
    exact ⟨hlive, hroot⟩

theorem stepTaskCall_live {i k : ℕ} {x : SuperviseTask} {o : Opening} {a : CallAction}
    (hs : s.stepTaskCall workspaceId i x k o a = some t) :
    t.live = s.live ∧ t.openedRoot = s.openedRoot := by
  obtain ⟨⟨u, o'⟩, hcall, hs⟩ := Option.bind_eq_some_iff.mp hs
  obtain ⟨-, hlive, -, -, -, hroot, -⟩ := stepOpening_eq hcall
  dsimp only at hs
  split at hs
  · cases hs
    exact ⟨hlive, hroot⟩
  · cases hs
    exact ⟨hlive, hroot⟩
  · cases hs
    exact ⟨hlive, hroot⟩

theorem beginRequest_live (s : Sessions) (root : String) (mode : Option String) (binary : Bool) :
    (s.beginRequest root mode binary).live = s.live ∧
      (s.beginRequest root mode binary).openedRoot = s.openedRoot := by
  rw [Sessions.beginRequest]
  split_ifs
  · exact ⟨rfl, rfl⟩
  · exact ⟨rfl, rfl⟩

theorem liveStep {a : Action} (hs : s.step workspaceId a = some t) : LiveStep s t := by
  cases step_cases hs with
  | «open» root mode binary =>
    obtain ⟨hlive, hroot⟩ := beginRequest_live s root mode binary
    exact .same hlive hroot
  | requestCall _ hcall =>
    obtain ⟨hlive, hroot⟩ := stepRequestCall_live hcall
    exact .same hlive hroot
  | @install root held task _ => exact .install root held task rfl rfl
  | close => exact .none rfl
  | restart mode =>
    rw [stepRestart]
    split
    · exact .same rfl rfl
    · split_ifs
      · exact .same rfl rfl
      · exact .none rfl
  | shutdown _ _ _ binary _ =>
    obtain ⟨hlive, hroot⟩ := beginRequest_live _ _ _ binary
    exact .same hlive hroot
  | task _ _ _ => exact .same rfl rfl
  | taskCall _ _ hcall =>
    obtain ⟨hlive, hroot⟩ := stepTaskCall_live hcall
    exact .same hlive hroot
  | @swap i x held _ _ =>
    rw [swapLive]
    split
    · next hlive => exact .none hlive
    · next e he => exact .swap e held he rfl rfl
  | world _ _ _ _ => exact .same rfl rfl

/-- The client of a live session connects to it, and its root is the one last opened. -/
def Entered (s : Sessions) : Prop :=
  ∀ e, s.live = some e → e.client = e.session.client ∧ s.openedRoot = some e.root

theorem Entered.step (h : s.Entered) {a : Action} (hs : s.step workspaceId a = some t) :
    t.Entered := by
  intro e he
  cases liveStep hs with
  | none hlive =>
    rw [hlive] at he
    cases he
  | same hlive hroot =>
    rw [hroot]
    exact h e (hlive ▸ he)
  | install root held task hlive hroot =>
    rw [hlive] at he
    cases he
    exact ⟨rfl, hroot⟩
  | swap e' held hold hlive hroot =>
    rw [hlive] at he
    cases he
    exact ⟨rfl, hroot.trans (h e' hold).2⟩

/-- The live session, its client and its root belong to the workspace opened last. -/
def Coherent (workspaceId : String → String) (s : Sessions) : Prop :=
  ∀ e, s.live = some e → ∃ root, s.openedRoot = some root ∧
    e.session.id = workspaceId root ∧ e.client.socketOf = workspaceId root ∧
    workspaceId e.root = workspaceId root

/-- A task that swaps its session in finds an entry of its own workspace, if it finds one. -/
def SwapsAtHome (workspaceId : String → String) (s : Sessions) : Action → Prop
  | .swap i => ∀ t ∈ s.tasks[i]?, ∀ e ∈ s.live, workspaceId t.root = workspaceId e.root
  | _ => True

instance (s : Sessions) : (a : Action) → Decidable (SwapsAtHome workspaceId s a)
  | .swap i => inferInstanceAs (Decidable
      (∀ t ∈ s.tasks[i]?, ∀ e ∈ s.live, workspaceId t.root = workspaceId e.root))
  | .open .. | .requestCall _ | .install | .close | .restart _ | .shutdown .. | .wake _ | .suspend _
  | .closed _ | .ended _ | .build .. | .taskCall .. | .env .. | .elsewhere .. =>
    inferInstanceAs (Decidable True)

theorem carried_id : Carried workspaceId (SwapsAtHome workspaceId) (fun _ _ => True)
    (fun _ root held => held.id = workspaceId root) where
  growsP _ _ := trivial
  growsQ _ h := h
  fresh _ _ _ := trivial
  call _ _ _ := trivial
  returned _ _ := rfl
  swap hg hx he h := h.trans (hg _ hx _ he)

/-- A swap leaves a coherent session exactly when it is at home. -/
theorem swapLive_coherent_iff {i : ℕ} {x : SuperviseTask} {held : HeldSession} {e : LiveEntry}
    (hentered : s.Entered) (hid : held.id = workspaceId x.root) (he : s.live = some e) :
    (s.swapLive i x held).Coherent workspaceId ↔ workspaceId x.root = workspaceId e.root := by
  have hroot := (hentered e he).2
  have hlive :
      (s.swapLive i x held).live = some { e with session := held, client := held.client } := by
    rw [swapLive, he]
  have hopened : (s.swapLive i x held).openedRoot = s.openedRoot := by
    rw [swapLive, he]
  constructor
  · intro h
    obtain ⟨root, hopen, hsession, -, hhome⟩ := h _ hlive
    rw [hid] at hsession
    exact hsession.trans hhome.symm
  · intro hhome e' he'
    rw [hlive] at he'
    cases he'
    exact ⟨e.root, hopened.trans hroot, hid.trans hhome, hid.trans hhome, rfl⟩

/-- While tasks swap at home, whatever is live is one session of the workspace opened last. -/
theorem live_coherent (workspaceId : String → String) (worlds : String → World)
    {as : List Action} (hg : Machine.Guarded (step workspaceId) (SwapsAtHome workspaceId)
      (start worlds) as)
    (hr : Machine.run (step workspaceId) (start worlds) as = some s) : s.Coherent workspaceId := by
  have hpres : Machine.Preserves (step workspaceId) (SwapsAtHome workspaceId) fun s =>
      All (fun _ _ => True) (fun _ root held => held.id = workspaceId root) s ∧ s.Entered :=
    fun _ _ _ hs hg ht => ⟨hs.1.step carried_id hg ht, hs.2.step ht⟩
  obtain ⟨h, hentered⟩ := hpres.run ⟨all_start worlds, fun e he => nomatch he⟩ hg hr
  intro e he
  obtain ⟨hclient, hroot⟩ := hentered e he
  have hid := h.live e he
  exact ⟨e.root, hroot, hid, by rw [hclient]; exact hid, rfl⟩

/-- A workspace whose daemon was started before this process. -/
def runningWorld : World where
  daemons := [⟨⟨"1.12.0", "0.4.0", []⟩, none, true, true⟩]
  dir := ⟨.bound 0, some 0, none, none⟩

/-- The calls of an adoption. -/
def adoption : List CallAction :=
  [.prepare true true, .look, .readPid false, .readToken, .hello .answered, .readMeta]

/-- A session is opened, its stream closes and its task restarts it. -/
def reconnect : List Action :=
  .open "/a" none true :: adoption.map .requestCall ++ [.install, .wake 0, .closed 0, .wake 0,
    .build 0 true] ++ adoption.map (.taskCall 0) ++ [.swap 0]

theorem live_coherent_reconnect :
    ∃ s, Machine.run (step id) (start fun _ => runningWorld) reconnect = some s ∧
      s.live.isSome = true ∧ s.Coherent id := by
  obtain ⟨s, hs⟩ : ∃ s, Machine.run (step id) (start fun _ => runningWorld) reconnect = some s :=
    ⟨_, rfl⟩
  refine ⟨s, hs, ?_, live_coherent id (fun _ => runningWorld) (by decide +kernel) hs⟩
  cases hs
  rfl

/-- The restart is under way when another workspace is opened; the abort comes while the task is
running, and the task still swaps. -/
def reconnectReplaced : List Action :=
  .open "/a" none true :: adoption.map .requestCall ++ [.install, .wake 0, .closed 0, .wake 0,
    .build 0 true] ++ adoption.map (.taskCall 0) ++
  .open "/b" none true :: adoption.map .requestCall ++ [.install, .swap 0]

/-- The workspace opened last is `/b`, and the live session is one of `/a` under the root `/b`. -/
theorem not_coherent_reconnectReplaced :
    ∃ s, Machine.run (step id) (start fun _ => runningWorld) reconnectReplaced = some s ∧
      s.locked = false ∧ s.openedRoot = some "/b" ∧ ¬ s.Coherent id := by
  refine ⟨_, rfl, rfl, rfl, fun h => ?_⟩
  obtain ⟨root, hroot, hid, -⟩ := h _ rfl
  cases hroot
  exact absurd hid (by decide)

end Sessions

end ValyriaApp.BridgeHost
