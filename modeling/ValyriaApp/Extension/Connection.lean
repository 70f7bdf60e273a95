import ValyriaApp.Extension.Store
import ValyriaApp.Host.About
import ValyriaApp.Lib.Machine

/-! # The connection state

The host reports connection states on its notification channel, and `open` of
the extension writes a state of its own when it begins and when its request is
settled. The store knows the reports only; the supervisor agrees with it when
what `open` writes last is what the host has reported last.
-/

namespace ValyriaApp

/-! ## The host -/

/-- The errors `session_open` ends with. -/
inductive OpenError where
  | coreBinaryNotFound
  | coreBinaryNotExecutable
  | spawnOrAdopt (e : Bridge.BridgeError)
  deriving DecidableEq

def OpenError.code : OpenError → String
  | .coreBinaryNotFound => "bridge.core_binary.not_found"
  | .coreBinaryNotExecutable => "bridge.core_binary.not_executable"
  | .spawnOrAdopt e => e.code

abbrev OpenResult := Except OpenError BridgeHost.SessionInfo

/-- A protocol-major mismatch is `incompatible`, everything else is `failed`. -/
def stateFor (e : OpenError) : ConnectionState :=
  if e.code = "bridge.protocol.mismatch" then .incompatible else .failed

/-- What `session_open` reports before it returns; a binary that is not resolved is reported by
nothing. -/
def finalReport : OpenResult → Option ConnectionState
  | .ok _ => some .ready
  | .error (.spawnOrAdopt e) => some (stateFor (.spawnOrAdopt e))
  | .error _ => none

/-- Where the host stands with the `session/open` it handles. -/
inductive ServingPc where
  | idle
  | opening
  | reported (result : OpenResult)

inductive HostMessage where
  | connectionState (state : ConnectionState)
  | eventBatch (batch : EventBatch)
  | response (result : OpenResult)

/-! ## The supervisor of the extension -/

structure Supervisor where
  session : Option BridgeHost.SessionInfo
  state : ConnectionState
  caps : List String

namespace Supervisor

def new : Supervisor := { session := none, state := .starting, caps := [] }

def setState (s : Supervisor) (state : ConnectionState) : Supervisor :=
  if s.state = state then s else { s with state }

/-- `open` up to its request. -/
def connecting (s : Supervisor) : Supervisor := { s with state := .connecting }

/-- The rest of `open`. -/
def settle (s : Supervisor) : OpenResult → Supervisor
  | .ok info => { session := some info, state := .ready, caps := info.capabilities }
  | .error _ => { s with state := .failed, caps := [] }

/-- What the extension does to its supervisor. -/
inductive Change where
  | setState (state : ConnectionState)
  | connecting
  | settle (result : OpenResult)
  | refreshStatus (session : Option BridgeHost.SessionInfo)

/-- The supervisor after a change; `none` when the listeners are not called. -/
def changed (s : Supervisor) : Change → Option Supervisor
  | .setState state => if s.state = state then none else some (s.setState state)
  | .connecting => some s.connecting
  | .settle result => some (s.settle result)
  | .refreshStatus session => some { s with session }

def has (s : Supervisor) (capability : String) : Bool := s.caps.contains capability

@[simp] theorem setState_state (s : Supervisor) (state : ConnectionState) :
    (s.setState state).state = state := by
  rw [setState]
  split_ifs with h
  · exact h
  · rfl

end Supervisor

/-! ## The two ends of the channel -/

structure Connection where
  /-- The `session/open` requests the host has not read. -/
  requests : ℕ
  serving : ServingPc
  channel : List HostMessage
  supervisor : Supervisor
  store : Store
  inFlight : ℕ
  /-- The requests that are settled while the rest of their `open` has not run. -/
  settled : List OpenResult
  /-- The state of the last report delivered. -/
  lastReport : ConnectionState
  /-- The error of the open that ended last, unless something was reported since. -/
  lastError : Option OpenError

inductive ConnectionAction where
  | requestOpen
  | begin
  | report (result : OpenResult)
  | respond
  /-- A report of a supervise task or of another request. -/
  | emitState (state : ConnectionState)
  | forwardBatch (batch : EventBatch)
  | deliver
  | resume

namespace Connection

def start : Connection where
  requests := 0
  serving := .idle
  channel := []
  supervisor := .new
  store := .new
  inFlight := 0
  settled := []
  lastReport := .starting
  lastError := none

def send (c : Connection) (m : HostMessage) : Connection := { c with channel := c.channel ++ [m] }

/-- The handlers of `wireClient`, and the settling of a pending request. -/
def receive (c : Connection) : HostMessage → Connection
  | .connectionState state => { c with
      store := c.store.setConnection state
      supervisor := c.supervisor.setState state
      lastReport := state
      lastError := none }
  | .eventBatch batch => { c with store := c.store.ingestBatch batch }
  | .response result => { c with settled := c.settled ++ [result] }

def resume (c : Connection) (result : OpenResult) : Connection :=
  { c with
    supervisor := c.supervisor.settle result
    inFlight := c.inFlight - 1
    lastError := match result with
      | .ok _ => none
      | .error e => some e }

def step (c : Connection) : ConnectionAction → Option Connection
  | .requestOpen => some { c with
      supervisor := c.supervisor.connecting
      requests := c.requests + 1
      inFlight := c.inFlight + 1 }
  | .begin =>
    match c.requests, c.serving with
    | n + 1, .idle =>
      some ({ c with requests := n, serving := .opening }.send (.connectionState .connecting))
    | _, _ => none
  | .report result =>
    match c.serving with
    | .opening =>
      let c := { c with serving := .reported result }
      some ((finalReport result).elim c fun state => c.send (.connectionState state))
    | _ => none
  | .respond =>
    match c.serving with
    | .reported result => some ({ c with serving := .idle }.send (.response result))
    | _ => none
  | .emitState state => some (c.send (.connectionState state))
  | .forwardBatch batch => some (c.send (.eventBatch batch))
  | .deliver =>
    match c.channel with
    | [] => none
    | m :: rest => some ({ c with channel := rest }.receive m)
  | .resume =>
    match c.settled with
    | [] => none
    | result :: rest => some ({ c with settled := rest }.resume result)

/-- The supervisor and the store show the last report, and that is the one the last error calls
for. -/
structure Agrees (c : Connection) : Prop where
  projections : c.supervisor.state = c.store.state.connection
  reported : c.store.state.connection = c.lastReport
  error : ∀ e ∈ c.lastError, c.lastReport = stateFor e

/-- With no open in flight the two projections agree. -/
def AgreesAtRest (c : Connection) : Prop := c.inFlight = 0 → c.Agrees

/-- The last report delivered is one of the state that `open` is about to write. -/
def Reported (c : Connection) : OpenResult → Prop
  | .ok _ => c.lastReport = .ready
  | .error e => e.code ≠ "bridge.protocol.mismatch" ∧ c.lastReport = .failed

/-- When the only open in flight is about to end, the host has reported the state it writes. -/
def EndsReported (c : Connection) : ConnectionAction → Prop
  | .resume => c.inFlight ≤ 1 → ∀ result ∈ c.settled.head?, c.Reported result
  | _ => True

end Connection

/-! ## What one step keeps -/

section Steps

variable {c d : Connection} {a : ConnectionAction} {result : OpenResult}

theorem connection_ingestBatch (store : Store) (batch : EventBatch) :
    (store.ingestBatch batch).state.connection = store.state.connection := by
  have h := applyBatch_withConnection (s := store.state) store.state.connection batch.events
  rw [Store.ingestBatch_state]
  change applyBatch store.state batch.events = _ at h
  rw [h]
  rfl

theorem connection_setConnection (store : Store) (state : ConnectionState) :
    (store.setConnection state).state.connection = state := by
  rw [Store.setConnection_state, setConnection_eq]
  rfl

/-- What the extension shows of the connection, and what it was told. -/
structure SameView (c d : Connection) : Prop where
  supervisor : d.supervisor = c.supervisor
  connection : d.store.state.connection = c.store.state.connection
  inFlight : d.inFlight = c.inFlight
  lastReport : d.lastReport = c.lastReport
  lastError : d.lastError = c.lastError

/-- What a step does to the view: a request is sent, a report is delivered, the rest of an `open`
runs, or nothing happens to it. -/
inductive ViewStep (c : Connection) : ConnectionAction → Connection → Prop
  | requestOpen {d : Connection} : d.inFlight = c.inFlight + 1 →
      d.store.state.connection = c.store.state.connection → d.lastReport = c.lastReport →
      ViewStep c .requestOpen d
  | report {d : Connection} (state : ConnectionState) : d.supervisor.state = state →
      d.store.state.connection = state → d.lastReport = state → d.lastError = none →
      ViewStep c .deliver d
  | resume (result : OpenResult) (rest : List OpenResult) : c.settled = result :: rest →
      ViewStep c .resume ({ c with settled := rest }.resume result)
  | same {a : ConnectionAction} {d : Connection} : a ≠ .resume → SameView c d → ViewStep c a d

theorem step_cases (h : c.step a = some d) : ViewStep c a d := by
  have hsame (e : Connection) (he : e.store = c.store) (hs : e.supervisor = c.supervisor)
      (hi : e.inFlight = c.inFlight) (hr : e.lastReport = c.lastReport)
      (hl : e.lastError = c.lastError) : SameView c e := ⟨hs, by rw [he], hi, hr, hl⟩
  cases a with
  | requestOpen =>
    cases h
    exact .requestOpen rfl rfl rfl
  | begin =>
    rw [Connection.step] at h
    split at h
    · cases h
      exact .same nofun (hsame _ rfl rfl rfl rfl rfl)
    · cases h
  | report result =>
    rw [Connection.step] at h
    split at h
    · cases h
      cases finalReport result with
      | none => exact .same nofun (hsame _ rfl rfl rfl rfl rfl)
      | some state => exact .same nofun (hsame _ rfl rfl rfl rfl rfl)
    · cases h
  | respond =>
    rw [Connection.step] at h
    split at h
    · cases h
      exact .same nofun (hsame _ rfl rfl rfl rfl rfl)
    · cases h
  | emitState state =>
    cases h
    exact .same nofun (hsame _ rfl rfl rfl rfl rfl)
  | forwardBatch batch =>
    cases h
    exact .same nofun (hsame _ rfl rfl rfl rfl rfl)
  | deliver =>
    rw [Connection.step] at h
    split at h
    · cases h
    · next m rest hchannel =>
      cases h
      cases m with
      | connectionState state =>
        exact .report state (Supervisor.setState_state _ _) (connection_setConnection _ _) rfl rfl
      | eventBatch batch =>
        exact .same nofun ⟨rfl, connection_ingestBatch _ _, rfl, rfl, rfl⟩
      | response result => exact .same nofun (hsame _ rfl rfl rfl rfl rfl)
  | resume =>
    rw [Connection.step] at h
    split at h
    · cases h
    · next result rest hsettled =>
      cases h
      exact .resume result rest hsettled

theorem store_shows_report (h : c.store.state.connection = c.lastReport)
    (hstep : c.step a = some d) : d.store.state.connection = d.lastReport := by
  cases step_cases hstep with
  | requestOpen _ hconnection hreport => rw [hconnection, hreport, h]
  | report state _ hconnection hreport _ => rw [hconnection, hreport]
  | resume result rest _ => exact h
  | same _ hview => rw [hview.connection, hview.lastReport, h]

theorem stateFor_eq_failed_iff {e : OpenError} :
    stateFor e = .failed ↔ e.code ≠ "bridge.protocol.mismatch" := by
  rw [stateFor]
  split_ifs with h
  · simp [h]
  · simp [h]

theorem agrees_resume_iff (h : c.store.state.connection = c.lastReport) :
    (c.resume result).Agrees ↔ c.Reported result := by
  cases result with
  | ok info =>
    constructor
    · intro hagrees
      exact hagrees.reported.symm.trans hagrees.projections.symm
    · intro hreported
      exact ⟨(h.trans hreported).symm, h, nofun⟩
  | error e =>
    constructor
    · intro hagrees
      have hfailed : c.lastReport = .failed := hagrees.reported.symm.trans hagrees.projections.symm
      have hstate : c.lastReport = stateFor e := hagrees.error e rfl
      exact ⟨stateFor_eq_failed_iff.mp (hstate.symm.trans hfailed), hfailed⟩
    · rintro ⟨hcode, hfailed⟩
      refine ⟨(h.trans hfailed).symm, h, ?_⟩
      rintro e' ⟨⟩
      exact hfailed.trans (stateFor_eq_failed_iff.mpr hcode).symm

theorem reported_settled (rest : List OpenResult) :
    Connection.Reported { c with settled := rest } result ↔ c.Reported result := by
  cases result with
  | ok info => exact Iff.rfl
  | error e => exact Iff.rfl

/-- A step at rest stays in agreement exactly when an `open` that ends was reported. -/
theorem agreesAtRest_step (h : c.store.state.connection = c.lastReport) (hrest : c.AgreesAtRest)
    (hstep : c.step a = some d) : d.AgreesAtRest ↔ c.EndsReported a := by
  cases step_cases hstep with
  | requestOpen hflight _ _ =>
    refine iff_of_true (fun hzero => ?_) trivial
    rw [hflight] at hzero
    cases hzero
  | report state hsupervisor hconnection hreport herror =>
    refine iff_of_true (fun _ => ⟨?_, ?_, ?_⟩) trivial
    · rw [hsupervisor, hconnection]
    · rw [hconnection, hreport]
    · rw [herror]
      exact nofun
  | resume result rest hsettled =>
    have hiff : (Connection.resume { c with settled := rest } result).Agrees ↔ c.Reported result :=
      (agrees_resume_iff (c := { c with settled := rest }) h).trans (reported_settled rest)
    have hzero : (Connection.resume { c with settled := rest } result).inFlight = 0 ↔
        c.inFlight ≤ 1 := Nat.sub_eq_zero_iff_le
    rw [Connection.EndsReported, hsettled, Connection.AgreesAtRest, hzero, hiff]
    simp
  | same hother hview =>
    refine iff_of_true (fun hzero => ?_) ?_
    · obtain ⟨hprojections, hreported, herror⟩ := hrest (hview.inFlight ▸ hzero)
      refine ⟨?_, ?_, ?_⟩
      · rw [hview.supervisor, hview.connection, hprojections]
      · rw [hview.connection, hview.lastReport, hreported]
      · rwa [hview.lastError, hview.lastReport]
    · cases a with
      | resume => exact absurd rfl hother
      | _ => trivial

end Steps

/-- In a run from the start the projections agree at rest throughout, exactly when every `open`
that ends last was reported. -/
theorem agrees_throughout_iff (as : List ConnectionAction) :
    (∀ bs cs, as = bs ++ cs → ∀ c, Machine.run Connection.step .start bs = some c →
      c.AgreesAtRest) ↔ Machine.Guarded Connection.step Connection.EndsReported .start as := by
  have hnone : ∀ ⦃c : Connection⦄ ⦃a : ConnectionAction⦄, c.step a = none → c.EndsReported a := by
    intro c a h
    cases a with
    | resume =>
      intro _ result hresult
      cases hsettled : c.settled with
      | nil =>
        rw [hsettled] at hresult
        cases hresult
      | cons r rest =>
        rw [Connection.step, hsettled] at h
        cases h
    | _ => trivial
  have hstart : Connection.start.AgreesAtRest := fun _ => ⟨rfl, rfl, nofun⟩
  exact (Machine.guarded_iff (fun _ _ _ => store_shows_report) hnone
    (fun _ _ _ => agreesAtRest_step) rfl hstart).symm

/-- A session of a Core with the given capabilities. -/
def sessionWith (capabilities : List String) : BridgeHost.SessionInfo where
  workspaceRoot := "/repo"
  workspaceId := "w"
  socketPath := "/run/w.sock"
  origin := "spawned"
  protocolVersion := "1.12.0"
  runtimeVersion := "0.9.0"
  capabilities := capabilities
  permissionMode := none
  ownsDaemon := true
  authenticated := true

/-- The `session/open` of a Core with another protocol major, from its start to its end. -/
def mismatchRun : List ConnectionAction :=
  let result : OpenResult := .error (.spawnOrAdopt (.protocolMismatch "1.12.0" "2.0.0"))
  [.requestOpen, .begin, .deliver, .report result, .deliver, .respond, .deliver, .resume]

/-- After a protocol mismatch the store shows `incompatible` and the supervisor `failed`. -/
theorem mismatch_shown_twice :
    ¬ ∀ (as : List ConnectionAction) (c : Connection),
      Machine.run Connection.step .start as = some c → c.AgreesAtRest := by
  intro h
  have hagrees := (h mismatchRun _ rfl rfl).projections
  cases hagrees

end ValyriaApp
