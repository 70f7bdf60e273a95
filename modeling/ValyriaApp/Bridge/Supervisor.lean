import Mathlib.Order.Lattice.Nat
import ValyriaApp.Bridge.Session
import ValyriaApp.Lib.Machine
import ValyriaApp.Lib.Pool

/-! # The session supervisor

`spawn_or_adopt` looks at the files of the run directory, says `hello` to what
answers on the socket, and otherwise unlinks the socket and spawns a daemon.
Every look and every write is a step of its own, taken without a lock, on the
unix transport where the socket is a file.
-/

namespace ValyriaApp.Bridge

/-- A daemon process started for the workspace; its pid is its place in the list of them. -/
structure Daemon where
  hello : HelloResponse
  permissionMode : Option String
  up : Bool
  alive : Bool
  deriving DecidableEq

/-- The socket path: a daemon that came up has bound it, and the file may outlive its process. -/
inductive Sock where
  | absent
  | orphan
  | bound (d : ℕ)
  deriving DecidableEq

structure Meta where
  root : String
  runtimeVersion : String
  protocolVersion : String
  permissionMode : Option String
  startedAtMs : ℕ
  deriving DecidableEq

/-- The files of `run/<id>/`, as they read: a file that is missing, empty or does not parse is
`none`. -/
structure RunDir where
  sock : Sock
  pid : Option ℕ
  metaJson : Option Meta
  token : Option String
  deriving DecidableEq

structure World where
  daemons : List Daemon
  dir : RunDir
  deriving DecidableEq

structure SupervisorConfig where
  workspaceRoot : String
  expectedProtocol : String
  permissionMode : Option String
  killDaemonOnDrop : Bool
  deriving DecidableEq

inductive Origin where
  | adopted
  | spawned
  deriving DecidableEq

structure Session where
  negotiated : NegotiatedSession
  origin : Origin
  authToken : Option String
  permissionMode : Option String
  child : Option ℕ
  killOnDrop : Bool
  deriving DecidableEq

/-- Where a call of `spawn_or_adopt` stands. -/
inductive CallPc where
  | prepare
  | look
  | readPid
  | readToken
  | hello (token : Option String)
  | readMeta (negotiated : NegotiatedSession) (token : Option String)
  | unlink
  | writeToken
  | spawn (token : String)
  | poll (token : String) (child : ℕ)
  | writePid (negotiated : NegotiatedSession) (token : String) (child : ℕ)
  | writeMeta (negotiated : NegotiatedSession) (token : String) (child : ℕ)
  | returned (r : Except BridgeError Session)

/-- A call, with the processes it has started. -/
structure Call where
  config : SupervisorConfig
  pc : CallPc
  started : List ℕ

def Call.of (config : SupervisorConfig) : Call where
  config := config
  pc := .prepare
  started := []

/-- How the connection to the socket turns out. -/
inductive Reply where
  | answered
  | error (code message : String)
  | other (got : String)
  deriving DecidableEq

/-- A step of a call with what the environment decides: whether a file operation works, whether a
pid belongs to some other process, how a `hello` turns out and whether the time is up. -/
inductive CallAction where
  | prepare (rootOk dirOk : Bool)
  | look
  | readPid (reused : Bool)
  | readToken
  | hello (reply : Reply)
  | readMeta
  | unlink (ok : Bool)
  | writeToken (token : String) (failure : Option String)
  | spawn (hello : HelloResponse) (ok : Bool)
  | poll (reply : Reply) (timeUp : Option ℕ)
  | writePid (ok : Bool)
  | writeMeta (ok : Bool) (nowMs : ℕ)
  deriving DecidableEq

namespace World

def alive (w : World) (d : ℕ) : Bool := w.daemons[d]?.any (·.alive)

def anyAlive (w : World) : Bool := w.daemons.any (·.alive)

def pidIsAlive (w : World) (pid : ℕ) (reused : Bool) : Bool := w.alive pid || reused

/-- Only a live daemon that has bound the socket answers. -/
def respond (w : World) : Reply → Option Response
  | .answered =>
    match w.dir.sock with
    | .bound d => do
      let x ← w.daemons[d]?
      if x.alive then some (.hello x.hello) else none
    | _ => none
  | .error code message => some (.error code message)
  | .other got => some (.other got)

def kill (w : World) (d : ℕ) : World :=
  { w with daemons := w.daemons.modify d fun x => { x with alive := false } }

end World

/-- One step of `spawn_or_adopt`. -/
def callStep (w : World) (c : Call) (a : CallAction) : Option (World × Call) :=
  match a, c.pc with
  | .prepare rootOk dirOk, .prepare =>
    if !rootOk then some (w, { c with pc := .returned (.error .workspaceRoot) })
    else if !dirOk then some (w, { c with pc := .returned (.error .runDir) })
    else some (w, { c with pc := .look })
  -- try_adopt
  | .look, .look =>
    some (w, { c with pc := if w.dir.sock = .absent then .unlink else .readPid })
  | .readPid reused, .readPid =>
    match w.dir.pid with
    | some pid =>
      some (w, { c with pc := if w.pidIsAlive pid reused then .readToken else .unlink })
    | none => some (w, { c with pc := .readToken })
  | .readToken, .readToken => some (w, { c with pc := .hello w.dir.token })
  | .hello reply, .hello token => do
    let r ← w.respond reply
    match negotiate c.config.expectedProtocol r with
    | .ok negotiated => some (w, { c with pc := .readMeta negotiated token })
    -- a live but incompatible daemon: do not adopt, do not silently kill it either
    | .error (.protocolMismatch _ _) => some (w, { c with pc := .unlink })
    | .error _ => some (w, { c with pc := .unlink })
  | .readMeta, .readMeta negotiated token =>
    some (w, { c with pc := .returned (.ok {
      negotiated
      origin := .adopted
      authToken := token
      permissionMode := w.dir.metaJson.bind (·.permissionMode)
      child := none
      killOnDrop := false }) })
  -- nothing healthy to adopt
  | .unlink ok, .unlink =>
    some ({ w with dir.sock := if ok then .absent else w.dir.sock }, { c with pc := .writeToken })
  | .writeToken token none, .writeToken =>
    some ({ w with dir.token := some token }, { c with pc := .spawn token })
  | .writeToken _ (some message), .writeToken =>
    some (w, { c with pc := .returned (.error (.transport message)) })
  | .spawn hello ok, .spawn token =>
    if ok then
      some ({ w with daemons := w.daemons ++ [⟨hello, c.config.permissionMode, false, true⟩] },
        { c with pc := .poll token w.daemons.length, started := c.started ++ [w.daemons.length] })
    else some (w, { c with pc := .returned (.error .spawn) })
  -- poll_negotiate
  | .poll reply timeUp, .poll token child => do
    let r ← w.respond reply
    match negotiate c.config.expectedProtocol r with
    | .ok negotiated => some (w, { c with pc := .writePid negotiated token child })
    | .error (.protocolMismatch expected got) =>
      some (w, { c with pc := .returned (.error (.protocolMismatch expected got)) })
    | .error _ =>
      match timeUp with
      | some waitedMs => some (w, { c with pc := .returned (.error (.startupTimeout waitedMs)) })
      | none => some (w, c)
  | .writePid ok, .writePid negotiated token child =>
    some ({ w with dir.pid := if ok then some child else w.dir.pid },
      { c with pc := .writeMeta negotiated token child })
  | .writeMeta ok nowMs, .writeMeta negotiated token child =>
    let metaJson : Meta := {
      root := c.config.workspaceRoot
      runtimeVersion := negotiated.runtimeVersion
      protocolVersion := negotiated.protocolVersion
      permissionMode := c.config.permissionMode
      startedAtMs := nowMs }
    some ({ w with dir.metaJson := if ok then some metaJson else w.dir.metaJson },
      { c with pc := .returned (.ok {
        negotiated
        origin := .spawned
        authToken := some token
        permissionMode := c.config.permissionMode
        child := some child
        killOnDrop := c.config.killDaemonOnDrop }) })
  | _, _ => none

/-- What happens to the daemons by itself. -/
inductive EnvAction where
  /-- The daemon comes up and binds the socket path. -/
  | up (d : ℕ)
  | crash (d : ℕ)
  deriving DecidableEq

def World.env (w : World) : EnvAction → Option World
  | .up d => do
    let x ← w.daemons[d]?
    if x.alive && !x.up then
      some { w with
        daemons := w.daemons.modify d fun x => { x with up := true }
        dir.sock := .bound d }
    else none
  | .crash d => some (w.kill d)

/-- `shutdown_daemon`: kill the child, if this session has one, and remove the files. -/
def Session.shutdownDaemon (s : Session) (w : World) (sockOk pidOk tokenOk : Bool) :
    World × Session :=
  let w := match s.child with
    | some child => w.kill child
    | none => w
  ({ w with
      dir.sock := if sockOk then .absent else w.dir.sock
      dir.pid := if pidOk then none else w.dir.pid
      dir.token := if tokenOk then none else w.dir.token },
    { s with child := none })

/-! ## Calls on one workspace -/

structure System where
  world : World
  calls : List Call

inductive Action where
  | start (config : SupervisorConfig)
  | call (i : ℕ) (a : CallAction)
  | env (e : EnvAction)
  | shutdown (i : ℕ) (sockOk pidOk tokenOk : Bool)

def System.step (s : System) : Action → Option System
  | .start config => some { s with calls := s.calls ++ [.of config] }
  | .call i a => do
    let c ← s.calls[i]?
    let (w, c') ← callStep s.world c a
    some { world := w, calls := s.calls.set i c' }
  | .env e => do
    let w ← s.world.env e
    some { s with world := w }
  | .shutdown i sockOk pidOk tokenOk => do
    let c ← s.calls[i]?
    match c.pc with
    | .returned (.ok session) =>
      let (w, session) := session.shutdownDaemon s.world sockOk pidOk tokenOk
      some { world := w, calls := s.calls.set i { c with pc := .returned (.ok session) } }
    | _ => none

/-- One call with nothing but the daemons around it. -/
inductive SoloAction where
  | call (a : CallAction)
  | env (e : EnvAction)

def soloStep (s : World × Call) : SoloAction → Option (World × Call)
  | .call a => callStep s.1 s.2 a
  | .env e => (s.1.env e).map (·, s.2)

/-! ## What one step of a call can do -/

section Steps

variable {w w' : World} {c c' : Call} {a : CallAction}

/-- The call an adopting `try_adopt` returns with. -/
def adoptedSession (w : World) (negotiated : NegotiatedSession) (token : Option String) :
    Session where
  negotiated := negotiated
  origin := .adopted
  authToken := token
  permissionMode := w.dir.metaJson.bind (·.permissionMode)
  child := none
  killOnDrop := false

/-- The call only reads so far. -/
def CallPc.reading : CallPc → Bool
  | .prepare | .look | .readPid | .readToken | .hello _ | .readMeta _ _ => true
  | _ => false

/-- What a step of a call does to the world and to the call, branch by branch. -/
inductive CallStep (w : World) (c : Call) (a : CallAction) : World → Call → Prop
  | read (pc : CallPc) : c.pc.reading = true → pc.reading = true → CallStep w c a w { c with pc }
  | unprepared (e : BridgeError) : c.pc.reading = true → e = .workspaceRoot ∨ e = .runDir →
      CallStep w c a w { c with pc := .returned (.error e) }
  | fallThrough : c.pc.reading = true → CallStep w c a w { c with pc := .unlink }
  | adopt (n : NegotiatedSession) (token : Option String) : c.pc = .readMeta n token →
      CallStep w c a w { c with pc := .returned (.ok (adoptedSession w n token)) }
  | unlink (ok : Bool) : c.pc = .unlink → a = .unlink ok →
      CallStep w c a { w with dir.sock := if ok then .absent else w.dir.sock }
        { c with pc := .writeToken }
  | writeToken (token : String) : c.pc = .writeToken →
      CallStep w c a { w with dir.token := some token } { c with pc := .spawn token }
  | noToken (message : String) : c.pc = .writeToken →
      CallStep w c a w { c with pc := .returned (.error (.transport message)) }
  | noSpawn (token : String) : c.pc = .spawn token →
      CallStep w c a w { c with pc := .returned (.error .spawn) }
  | spawn (hello : HelloResponse) (token : String) : c.pc = .spawn token →
      CallStep w c a
        { w with daemons := w.daemons ++ [⟨hello, c.config.permissionMode, false, true⟩] }
        { c with pc := .poll token w.daemons.length, started := c.started ++ [w.daemons.length] }
  | answered (n : NegotiatedSession) (token : String) (child d : ℕ) : c.pc = .poll token child →
      w.dir.sock = .bound d → w.alive d = true →
      CallStep w c a w { c with pc := .writePid n token child }
  | giveUp (e : BridgeError) (token : String) (child : ℕ) : c.pc = .poll token child →
      CallStep w c a w { c with pc := .returned (.error e) }
  | wait (token : String) (child : ℕ) : c.pc = .poll token child → CallStep w c a w c
  | writePid (n : NegotiatedSession) (token : String) (child : ℕ) (ok : Bool) :
      c.pc = .writePid n token child → a = .writePid ok →
      CallStep w c a { w with dir.pid := if ok then some child else w.dir.pid }
        { c with pc := .writeMeta n token child }
  | writeMeta (n : NegotiatedSession) (token : String) (child nowMs : ℕ) (ok : Bool) :
      c.pc = .writeMeta n token child → a = .writeMeta ok nowMs →
      CallStep w c a
        { w with dir.metaJson := if ok then some ⟨c.config.workspaceRoot, n.runtimeVersion,
            n.protocolVersion, c.config.permissionMode, nowMs⟩ else w.dir.metaJson }
        { c with pc := .returned (.ok ⟨n, .spawned, some token, c.config.permissionMode,
            some child, c.config.killDaemonOnDrop⟩) }

theorem respond_eq_hello {reply : Reply} {h : HelloResponse}
    (hr : w.respond reply = some (.hello h)) :
    ∃ d, w.dir.sock = .bound d ∧ ∃ x, w.daemons[d]? = some x ∧ x.alive = true ∧ x.hello = h := by
  cases reply with
  | answered =>
    unfold World.respond at hr
    cases hsock : w.dir.sock with
    | bound d =>
      simp only [hsock] at hr
      obtain ⟨x, hx, hr⟩ := Option.bind_eq_some_iff.mp hr
      by_cases halive : x.alive = true
      · rw [if_pos halive] at hr
        cases hr
        exact ⟨d, rfl, x, hx, halive, rfl⟩
      · rw [if_neg halive] at hr
        cases hr
    | _ => simp [hsock] at hr
  | error code message => cases hr
  | other got => cases hr

theorem alive_eq_true {d : ℕ} :
    w.alive d = true ↔ ∃ x, w.daemons[d]? = some x ∧ x.alive = true := by
  simp [World.alive, Option.any_eq_true]

theorem callStep_cases (h : callStep w c a = some (w', c')) : CallStep w c a w' c' := by
  have hreading : ∀ pc, c.pc = pc → pc.reading = true → c.pc.reading = true := by
    rintro pc rfl h
    exact h
  unfold callStep at h
  split at h
  · next hpc =>
    split at h
    · cases h
      exact .unprepared _ (hreading _ hpc rfl) (Or.inl rfl)
    · split at h
      · cases h
        exact .unprepared _ (hreading _ hpc rfl) (Or.inr rfl)
      · cases h
        exact .read _ (hreading _ hpc rfl) rfl
  · next hpc =>
    cases h
    split
    · exact .fallThrough (hreading _ hpc rfl)
    · exact .read _ (hreading _ hpc rfl) rfl
  · next reused hpc =>
    split at h
    · cases h
      split
      · exact .read _ (hreading _ hpc rfl) rfl
      · exact .fallThrough (hreading _ hpc rfl)
    · cases h
      exact .read _ (hreading _ hpc rfl) rfl
  · next hpc =>
    cases h
    exact .read _ (hreading _ hpc rfl) rfl
  · next reply token hpc =>
    obtain ⟨r, -, h⟩ := Option.bind_eq_some_iff.mp h
    split at h
    · cases h
      exact .read _ (hreading _ hpc rfl) rfl
    · cases h
      exact .fallThrough (hreading _ hpc rfl)
    · cases h
      exact .fallThrough (hreading _ hpc rfl)
  · next n token hpc =>
    cases h
    exact .adopt n token hpc
  · next ok hpc =>
    cases h
    exact .unlink ok hpc rfl
  · next token hpc =>
    cases h
    exact .writeToken token hpc
  · next token message hpc =>
    cases h
    exact .noToken message hpc
  · next hello ok token hpc =>
    split at h
    · cases h
      exact .spawn hello token hpc
    · cases h
      exact .noSpawn token hpc
  · next reply timeUp token child hpc =>
    obtain ⟨r, hr, h⟩ := Option.bind_eq_some_iff.mp h
    split at h
    · next n hn =>
      cases h
      obtain ⟨hello, rfl, -⟩ := negotiate_eq_ok hn
      obtain ⟨d, hsock, x, hx, halive, -⟩ := respond_eq_hello hr
      exact .answered n token child d hpc hsock (alive_eq_true.mpr ⟨x, hx, halive⟩)
    · cases h
      exact .giveUp _ token child hpc
    · split at h
      · cases h
        exact .giveUp _ token child hpc
      · cases h
        exact .wait token child hpc
  · next ok n token child hpc =>
    cases h
    exact .writePid n token child ok hpc rfl
  · next ok nowMs n token child hpc =>
    cases h
    exact .writeMeta n token child nowMs ok hpc rfl
  · cases h

theorem CallStep.daemons (h : CallStep w c a w' c') : w.daemons <+: w'.daemons := by
  cases h with
  | spawn hello token hpc => exact List.prefix_append _ _
  | _ => exact List.prefix_rfl

theorem CallStep.started_cases (h : CallStep w c a w' c') :
    c'.started = c.started ∧ w'.daemons.length = w.daemons.length ∨
      c'.started = c.started ++ [w.daemons.length] ∧
        w'.daemons.length = w.daemons.length + 1 := by
  cases h with
  | spawn hello token hpc => exact .inr ⟨rfl, List.length_append⟩
  | _ => exact .inl ⟨rfl, rfl⟩

theorem CallStep.sock (h : CallStep w c a w' c') {d : ℕ}
    (hd : w'.dir.sock = .bound d) : w.dir.sock = .bound d := by
  cases h with
  | unlink ok hpc ha =>
    cases ok with
    | true => cases hd
    | false => exact hd
  | _ => exact hd

theorem CallStep.getElem? (h : CallStep w c a w' c') {d : ℕ} (hd : d < w.daemons.length) :
    w'.daemons[d]? = w.daemons[d]? := by
  obtain ⟨new, hnew⟩ := h.daemons
  rw [← hnew, List.getElem?_append_left hd]

theorem CallStep.alive_eq (h : CallStep w c a w' c') {d : ℕ} (hd : d < w.daemons.length) :
    w'.alive d = w.alive d := by
  rw [World.alive, h.getElem? hd, World.alive]

theorem kill_getElem? (w : World) (d e : ℕ) : (w.kill d).daemons[e]? =
    if d = e then (w.daemons[e]?).map fun x => { x with alive := false } else w.daemons[e]? := by
  rw [World.kill, List.getElem?_modify]
  split
  · rfl
  · simp

theorem alive_of_kill {d e : ℕ} (h : (w.kill d).alive e = true) : w.alive e = true := by
  obtain ⟨x, hx, halive⟩ := alive_eq_true.mp h
  rw [kill_getElem?] at hx
  split at hx
  · obtain ⟨y, -, rfl⟩ := Option.map_eq_some_iff.mp hx
    cases halive
  · exact alive_eq_true.mpr ⟨x, hx, halive⟩

theorem env_cases {e : EnvAction} (h : w.env e = some w') :
    (∃ d x, w.daemons[d]? = some x ∧ x.alive = true ∧ x.up = false ∧ w' = { w with
      daemons := w.daemons.modify d fun x => { x with up := true }, dir.sock := .bound d }) ∨
    ∃ d, w' = w.kill d := by
  cases e with
  | up d =>
    obtain ⟨x, hx, h⟩ := Option.bind_eq_some_iff.mp h
    split at h
    · next hup =>
      cases h
      rw [Bool.and_eq_true, Bool.not_eq_true'] at hup
      exact Or.inl ⟨d, x, hx, hup.1, hup.2, rfl⟩
    · cases h
  | crash d =>
    cases h
    exact Or.inr ⟨d, rfl⟩

theorem length_shutdownDaemon (session : Session) (w : World) (sockOk pidOk tokenOk : Bool) :
    (session.shutdownDaemon w sockOk pidOk tokenOk).1.daemons.length = w.daemons.length := by
  rw [Session.shutdownDaemon]
  cases session.child with
  | none => rfl
  | some child => exact List.length_modify _ _ _

theorem env_length {e : EnvAction} (h : w.env e = some w') :
    w'.daemons.length = w.daemons.length := by
  rcases env_cases h with ⟨d, x, -, -, -, rfl⟩ | ⟨d, rfl⟩
  · exact List.length_modify _ _ _
  · exact List.length_modify _ _ _

theorem alive_of_env {e : EnvAction} (h : w.env e = some w') {d : ℕ} (halive : w'.alive d = true) :
    w.alive d = true := by
  rcases env_cases h with ⟨i, x, -, -, -, rfl⟩ | ⟨i, rfl⟩
  · obtain ⟨y, hy, halive⟩ := alive_eq_true.mp halive
    simp only [List.getElem?_modify] at hy
    obtain ⟨z, hz, rfl⟩ := Option.map_eq_some_iff.mp hy
    refine alive_eq_true.mpr ⟨z, hz, ?_⟩
    split at halive
    · exact halive
    · exact halive
  · exact alive_of_kill halive

theorem env_pid {e : EnvAction} (h : w.env e = some w') : w'.dir.pid = w.dir.pid := by
  rcases env_cases h with ⟨d, x, -, -, -, rfl⟩ | ⟨d, rfl⟩
  · rfl
  · rfl

end Steps

/-- The child on which `poll_negotiate` gives up in this step. -/
def givesUp (w : World) (c : Call) (a : CallAction) : Option ℕ :=
  match c.pc, callStep w c a with
  | .poll _ child, some (_, ⟨_, .returned (.error _), _⟩) => some child
  | _, _ => none

theorem givesUp_eq_some {w w' : World} {c c' : Call} {a : CallAction} {token : String} {child : ℕ}
    {e : BridgeError} (hpc : c.pc = .poll token child) (hstep : callStep w c a = some (w', c'))
    (hpc' : c'.pc = .returned (.error e)) : givesUp w c a = some child := by
  obtain ⟨config, pc, started⟩ := c'
  subst hpc'
  rw [givesUp, hpc, hstep]

/-! ## A daemon of another protocol major -/

section Incompatible

variable {w w' : World} {c c' : Call} {a : CallAction} {config : SupervisorConfig}

/-- A live daemon answers on the socket and speaks another major. -/
def Incompatible (w : World) (expectedProtocol : String) : Prop :=
  ∃ d x, w.dir.sock = .bound d ∧ w.daemons[d]? = some x ∧ x.alive = true ∧
    major x.hello.protocolVersion ≠ major expectedProtocol

/-- The call reports the mismatch, has started no process and left the files as they were. -/
def LeftAlone (w w' : World) (c' : Call) : Prop :=
  (∃ expected got, c'.pc = .returned (.error (.protocolMismatch expected got))) ∧
    w'.daemons.length = w.daemons.length ∧ w'.dir = w.dir

/-- The call is past its spawn, or reports a mismatch. -/
def CallPc.spawned : CallPc → Bool
  | .poll _ _ | .writePid _ _ _ | .writeMeta _ _ _ => true
  | .returned (.error (.protocolMismatch _ _)) => true
  | _ => false

theorem not_spawned_of_reading {pc : CallPc} (h : pc.reading = true) : pc.spawned = false := by
  cases pc with
  | returned r => cases h
  | poll token child => cases h
  | writePid n token child => cases h
  | writeMeta n token child => cases h
  | _ => rfl

theorem CallStep.spawned (h : CallStep w c a w' c') (hpc : c'.pc.spawned = true) :
    c.pc.spawned = true ∨ w.daemons.length < w'.daemons.length := by
  cases h with
  | read pc _ hread =>
    change pc.spawned = true at hpc
    rw [not_spawned_of_reading hread] at hpc
    cases hpc
  | unprepared e _ he =>
    rcases he with rfl | rfl
    · cases hpc
    · cases hpc
  | spawn hello token _ =>
    right
    simp
  | answered n token child d hc _ _ => exact Or.inl (by rw [hc]; rfl)
  | giveUp e token child hc => exact Or.inl (by rw [hc]; rfl)
  | wait token child hc => exact Or.inl hpc
  | writePid n token child ok hc _ => exact Or.inl (by rw [hc]; rfl)
  | _ => cases hpc

/-- There are at least `n` processes, and more once the call is past its spawn. -/
structure SpawnCounted (n : ℕ) (s : World × Call) : Prop where
  le : n ≤ s.1.daemons.length
  lt : s.2.pc.spawned = true → n < s.1.daemons.length

theorem SpawnCounted.step {n : ℕ} ⦃s : World × Call⦄ ⦃a : SoloAction⦄ ⦃t : World × Call⦄
    (h : SpawnCounted n s) (hstep : soloStep s a = some t) : SpawnCounted n t := by
  obtain ⟨u, d⟩ := s
  obtain ⟨u', d'⟩ := t
  cases a with
  | call a =>
    have hcases := callStep_cases hstep
    have hlen := hcases.daemons.length_le
    constructor
    · exact h.le.trans hlen
    · intro hpc
      rcases hcases.spawned hpc with hbefore | hlt
      · exact (h.lt hbefore).trans_le hlen
      · exact h.le.trans_lt hlt
  | env e =>
    obtain ⟨v, hv, hpair⟩ := Option.map_eq_some_iff.mp hstep
    cases hpair
    constructor
    · exact h.le.trans_eq (env_length hv).symm
    · intro hpc
      exact (h.lt hpc).trans_eq (env_length hv).symm

/-- Whatever stands on the socket, no run reports a mismatch without having started a process:
`try_adopt` turns the verdict into the same `None` as an empty run directory. -/
theorem incompatible_never_left_alone {as : List SoloAction}
    (hrun : Machine.run soloStep (w, Call.of config) as = some (w', c')) :
    ¬ LeftAlone w w' c' := by
  have hstart : SpawnCounted w.daemons.length (w, Call.of config) := ⟨le_rfl, nofun⟩
  have hend := Machine.run_invariant SpawnCounted.step hstart hrun
  rintro ⟨⟨expected, got, hpc⟩, hlen, -⟩
  have hlt : w.daemons.length < w'.daemons.length := hend.lt (by rw [hpc]; rfl)
  exact hlt.ne' hlen

def coreHello : HelloResponse := ⟨"1.9.0", "0.4.0", []⟩

def newerHello : HelloResponse := ⟨"2.0.0", "1.0.0", []⟩

def configFor (permissionMode : Option String) : SupervisorConfig :=
  ⟨"/repo", "1.9.0", permissionMode, false⟩

/-- A daemon of the next major answers on the socket and is on record. -/
def newerWorld : World where
  daemons := [⟨newerHello, some "manual", true, true⟩]
  dir := ⟨.bound 0, some 0, none, some "a1"⟩

/-- The call says `hello`, unlinks the socket, overwrites the token and spawns. -/
def replaceDaemon (hello : HelloResponse) : List SoloAction :=
  [.call (.prepare true true), .call .look, .call (.readPid false), .call .readToken,
    .call (.hello .answered), .call (.unlink true), .call (.writeToken "b2" none),
    .call (.spawn hello true), .env (.up 1), .call (.poll .answered none)]

def replacedWorld : World where
  daemons := [⟨newerHello, some "manual", true, true⟩, ⟨newerHello, none, true, true⟩]
  dir := ⟨.bound 1, some 0, none, some "b2"⟩

def mismatchCall : Call where
  config := configFor none
  pc := .returned (.error (.protocolMismatch "1.9.0" "2.0.0"))
  started := [1]

theorem incompatible_never_left_alone_newer :
    ¬ LeftAlone newerWorld replacedWorld mismatchCall := by
  have hrun : Machine.run soloStep (newerWorld, Call.of (configFor none))
      (replaceDaemon newerHello) = some (replacedWorld, mismatchCall) := rfl
  exact incompatible_never_left_alone hrun

/-- The daemon of the next major loses its socket to a new one, and the call succeeds. -/
theorem incompatible_replaced :
    ¬ ∀ (w w' : World) (config : SupervisorConfig) (c' : Call) (as : List SoloAction),
      Incompatible w config.expectedProtocol →
      Machine.run soloStep (w, .of config) as = some (w', c') →
      (∃ r, c'.pc = .returned r) → LeftAlone w w' c' := by
  intro h
  let as := replaceDaemon coreHello ++ [.call (.writePid true), .call (.writeMeta true 0)]
  have hinc : Incompatible newerWorld (configFor none).expectedProtocol :=
    ⟨0, _, rfl, rfl, rfl, by decide⟩
  obtain ⟨-, hlen, -⟩ := h newerWorld _ (configFor none) _ as hinc rfl ⟨_, rfl⟩
  cases hlen

end Incompatible

end ValyriaApp.Bridge
