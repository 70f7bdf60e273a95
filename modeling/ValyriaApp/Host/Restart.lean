import ValyriaApp.Bridge.Autonomy
import ValyriaApp.Host.Supervise

/-! # The automatic restart

A start that fails after the spawn drops its handle on the child and records
nothing, and the retry loop does so once for every attempt. Nothing it does ends
a daemon: a daemon is left behind unless it exits by itself while the start is
under way, or the attempt that started it succeeds and records it.
-/

namespace ValyriaApp.BridgeHost

open Bridge

/-- Every daemon started is dead or the one in the pid file. -/
def NoOrphan (w : World) (started : List ℕ) : Prop :=
  ∀ d ∈ started, w.alive d = false ∨ w.dir.pid = some d

/-- Where the retry loop of `restart` stands. -/
inductive RestartPc where
  | attempt (i : ℕ)
  | calling (i : ℕ) (call : Call)
  | swapping (session : Session)
  | returned (resumed : Bool)

structure Restart where
  world : World
  config : SupervisorConfig
  live : Bool
  pc : RestartPc
  started : List ℕ

inductive RestartAction where
  | build (ok : Bool)
  | call (a : CallAction)
  | swap
  | close
  | env (e : EnvAction)
  deriving DecidableEq

namespace Restart

def begin (world : World) (config : SupervisorConfig) (live : Bool) : Restart where
  world := world
  config := config
  live := live
  pc := .attempt 0
  started := []

/-- `continue` in the retry loop. -/
def next (i : ℕ) : RestartPc :=
  if i + 1 < restartBackoffMs.length then .attempt (i + 1) else .returned false

/-- Dropping a session kills its child only when it was configured to. -/
def dropSession (w : World) (session : Session) : World :=
  match session.killOnDrop, session.child with
  | true, some child => w.kill child
  | _, _ => w

def step (r : Restart) : RestartAction → Option Restart
  | .build ok =>
    match r.pc with
    | .attempt i => some { r with pc := if ok then .calling i (.of r.config) else next i }
    | _ => none
  | .call a =>
    match r.pc with
    | .calling i c => do
      let (world, c') ← callStep r.world c a
      match c'.pc with
      | .returned (.ok session) => some { r with
          world, pc := .swapping session, started := r.started ++ c'.started }
      | .returned (.error _) => some { r with
          world, pc := next i, started := r.started ++ c'.started }
      | _ => some { r with world, pc := .calling i c' }
    | _ => none
  | .swap =>
    match r.pc with
    | .swapping session =>
      if r.live then some { r with pc := .returned true }
      else some { r with world := dropSession r.world session, pc := .returned false }
    | _ => none
  | .close => some { r with live := false }
  | .env e => do
    let world ← r.world.env e
    some { r with world }

end Restart

/-- What a step of the retry loop does, branch by branch. -/
inductive RestartStep (r : Restart) : RestartAction → Restart → Prop
  | attempt (i : ℕ) : r.pc = .attempt i →
      RestartStep r (.build true) { r with pc := .calling i (.of r.config) }
  | unbuilt (i : ℕ) : r.pc = .attempt i →
      RestartStep r (.build false) { r with pc := Restart.next i }
  | going (i : ℕ) (a : CallAction) (c c' : Call) (world : World) : r.pc = .calling i c →
      callStep r.world c a = some (world, c') → (∀ result, c'.pc ≠ .returned result) →
      RestartStep r (.call a) { r with world, pc := .calling i c' }
  | failed (i : ℕ) (a : CallAction) (c c' : Call) (world : World) (e : BridgeError) :
      r.pc = .calling i c → callStep r.world c a = some (world, c') →
      c'.pc = .returned (.error e) →
      RestartStep r (.call a)
        { r with world, pc := Restart.next i, started := r.started ++ c'.started }
  | joined (i : ℕ) (a : CallAction) (c c' : Call) (world : World) (session : Session) :
      r.pc = .calling i c → callStep r.world c a = some (world, c') →
      c'.pc = .returned (.ok session) →
      RestartStep r (.call a)
        { r with world, pc := .swapping session, started := r.started ++ c'.started }
  | swapped (session : Session) : r.pc = .swapping session → r.live = true →
      RestartStep r .swap { r with pc := .returned true }
  | dropped (session : Session) : r.pc = .swapping session → r.live = false →
      RestartStep r .swap
        { r with world := Restart.dropSession r.world session, pc := .returned false }
  | close : RestartStep r .close { r with live := false }
  | env (e : EnvAction) (world : World) : r.world.env e = some world →
      RestartStep r (.env e) { r with world }

theorem restart_step_cases {r r' : Restart} {a : RestartAction}
    (h : Restart.step r a = some r') : RestartStep r a r' := by
  cases a with
  | build ok =>
    unfold Restart.step at h
    dsimp only at h
    split at h
    · next i hpc =>
      cases h
      cases ok with
      | true => exact .attempt i hpc
      | false => exact .unbuilt i hpc
    · cases h
  | call a =>
    unfold Restart.step at h
    dsimp only at h
    split at h
    · next i c hpc =>
      obtain ⟨⟨world, c'⟩, hcall, h⟩ := Option.bind_eq_some_iff.mp h
      dsimp only at h
      split at h
      · next session hpc' =>
        cases h
        exact .joined i a c c' world session hpc hcall hpc'
      · next e hpc' =>
        cases h
        exact .failed i a c c' world e hpc hcall hpc'
      · next hok herror =>
        cases h
        refine .going i a c c' world hpc hcall fun result hpc' => ?_
        cases result with
        | ok session => exact hok session hpc'
        | error e => exact herror e hpc'
    · cases h
  | swap =>
    unfold Restart.step at h
    dsimp only at h
    split at h
    · next session hpc =>
      split at h
      · next hlive =>
        cases h
        exact .swapped session hpc hlive
      · next hlive =>
        cases h
        exact .dropped session hpc (Bool.eq_false_iff.mpr hlive)
    · cases h
  | close =>
    cases h
    exact .close
  | env e =>
    obtain ⟨world, hworld, h⟩ := Option.bind_eq_some_iff.mp h
    cases h
    exact .env e world hworld

/-! ## What becomes of a daemon -/

/-- The daemon exits by itself. -/
def Exits (d : ℕ) (s : System) : Bridge.Action → Prop
  | .env (.crash e) => e = d ∧ d < s.world.daemons.length
  | _ => False

/-- The child whose pid the attempt under way writes next. -/
def Restart.recording (r : Restart) : Option ℕ :=
  match r.pc with
  | .calling _ ⟨_, .writePid _ _ child, _⟩ => some child
  | _ => none

/-- The child that dropping the new session kills. -/
def Restart.dropping (r : Restart) : Option ℕ :=
  match r.pc with
  | .swapping session => if session.killOnDrop then session.child else none
  | _ => none

/-- The daemon exits by itself, its pid is written, or the session that holds it is dropped. -/
def Settles (d : ℕ) (r : Restart) : RestartAction → Prop
  | .env (.crash e) => e = d ∧ d < r.world.daemons.length
  | .call (.writePid ok) => ok = true ∧ r.recording = some d
  | .swap => r.live = false ∧ r.dropping = some d ∧ d < r.world.daemons.length
  | _ => False

instance (d : ℕ) (s : System) : ∀ a, Decidable (Exits d s a)
  | .env (.crash e) => inferInstanceAs (Decidable (e = d ∧ d < s.world.daemons.length))
  | .env (.up _) => isFalse id
  | .start _ => isFalse id
  | .call .. => isFalse id
  | .shutdown .. => isFalse id

instance (d : ℕ) (r : Restart) : ∀ a, Decidable (Settles d r a)
  | .env (.crash e) => inferInstanceAs (Decidable (e = d ∧ d < r.world.daemons.length))
  | .call (.writePid ok) => inferInstanceAs (Decidable (ok = true ∧ r.recording = some d))
  | .swap => inferInstanceAs
      (Decidable (r.live = false ∧ r.dropping = some d ∧ d < r.world.daemons.length))
  | .env (.up _) | .build _ | .close => isFalse id
  | .call (.prepare ..) | .call .look | .call (.readPid _) | .call .readToken | .call (.hello _)
  | .call .readMeta | .call (.unlink _) | .call (.writeToken ..) | .call (.spawn ..)
  | .call (.poll ..) | .call (.writeMeta ..) => isFalse id

/-- The pid file names no process that is still to be started. -/
def Recorded (w : World) : Prop := ∀ p ∈ w.dir.pid, p < w.daemons.length

/-! ## What a call has started -/

/-- The call has negotiated with what answers for its child. -/
def negotiated : CallPc → Bool
  | .writePid .. | .writeMeta .. | .returned (.ok _) => true
  | _ => false

section Started

variable {w w' : World} {c c' : Call} {a : CallAction} {d n : ℕ}

/-- A call that has not returned has started its child and nothing else. -/
def StartedInv (c : Call) : Prop :=
  match c.pc with
  | .poll _ child => c.started = [child]
  | .writePid _ _ child => c.started = [child]
  | .writeMeta _ _ child => c.started = [child]
  | .returned (.ok session) => ∀ child ∈ session.child, child ∈ c.started
  | .returned (.error _) => True
  | _ => c.started = []

theorem started_of_reading (h : StartedInv c) (hpc : c.pc.reading = true) : c.started = [] := by
  unfold StartedInv at h
  split at h
  · next hpc' => rw [hpc'] at hpc; cases hpc
  · next hpc' => rw [hpc'] at hpc; cases hpc
  · next hpc' => rw [hpc'] at hpc; cases hpc
  · next hpc' => rw [hpc'] at hpc; cases hpc
  · next hpc' => rw [hpc'] at hpc; cases hpc
  · exact h

theorem startedInv_of_reading {config : SupervisorConfig} {pc : CallPc}
    (hpc : pc.reading = true) : StartedInv ⟨config, pc, []⟩ := by
  cases pc with
  | poll token child => cases hpc
  | writePid n token child => cases hpc
  | writeMeta n token child => cases hpc
  | returned r => cases hpc
  | _ => rfl

theorem StartedInv.step (h : StartedInv c) (hstep : CallStep w c a w' c') : StartedInv c' := by
  obtain ⟨config, pc, started⟩ := c
  cases hstep with
  | read pc' hread hread' =>
    obtain rfl : started = [] := started_of_reading h hread
    exact startedInv_of_reading hread'
  | fallThrough hread =>
    have hnone := started_of_reading h hread
    exact hnone
  | adopt n token hpc => exact fun child hchild => nomatch hchild
  | unlink ok hpc _ =>
    cases hpc
    exact h
  | writeToken token hpc =>
    cases hpc
    exact h
  | spawn hello token hpc =>
    cases hpc
    obtain rfl : started = [] := h
    rfl
  | answered n token child d hpc _ _ =>
    cases hpc
    exact h
  | wait token child hpc => exact h
  | writePid n token child ok hpc _ =>
    cases hpc
    exact h
  | writeMeta n token child nowMs ok hpc _ =>
    cases hpc
    obtain rfl : started = [child] := h
    exact fun child hchild => List.mem_singleton.mpr (Option.some.inj hchild).symm
  | _ => trivial

/-- Once it has negotiated, a call starts nothing more and does not fail. -/
theorem negotiated_step (h : CallStep w c a w' c') (hpc : negotiated c.pc = true) :
    negotiated c'.pc = true ∧ c'.started = c.started := by
  have hreading : c.pc.reading = true → False := by
    intro hread
    cases hpc' : c.pc with
    | writePid n token child => rw [hpc'] at hread; cases hread
    | writeMeta n token child => rw [hpc'] at hread; cases hread
    | returned r => rw [hpc'] at hread; cases hread
    | _ => rw [hpc'] at hpc; cases hpc
  cases h with
  | read pc' hread hread' => exact (hreading hread).elim
  | unprepared e hread _ => exact (hreading hread).elim
  | fallThrough hread => exact (hreading hread).elim
  | adopt n token hpc' => rw [hpc'] at hpc; cases hpc
  | unlink ok hpc' _ => rw [hpc'] at hpc; cases hpc
  | writeToken token hpc' => rw [hpc'] at hpc; cases hpc
  | noToken message hpc' => rw [hpc'] at hpc; cases hpc
  | noSpawn token hpc' => rw [hpc'] at hpc; cases hpc
  | spawn hello token hpc' => rw [hpc'] at hpc; cases hpc
  | answered n token child d hpc' _ _ => rw [hpc'] at hpc; cases hpc
  | giveUp e token child hpc' => rw [hpc'] at hpc; cases hpc
  | wait token child hpc' => rw [hpc'] at hpc; cases hpc
  | writePid n token child ok hpc' _ => exact ⟨rfl, rfl⟩
  | writeMeta n token child nowMs ok hpc' _ => exact ⟨rfl, rfl⟩

/-- The daemon is there, and it is dead or on record. -/
def Gone (d : ℕ) (w : World) : Prop :=
  d < w.daemons.length ∧ (w.alive d = false ∨ w.dir.pid = some d)

/-- A step of a call makes no daemon dead, and puts none on record but the child it writes. -/
theorem Gone.of_call (hw : Recorded w) (hstep : CallStep w c a w' c') (h : Gone d w') :
    Gone d w ∨ a = .writePid true ∧ ∃ n token, c.pc = .writePid n token d := by
  obtain ⟨hlt, hgone⟩ := h
  cases hstep with
  | spawn hello token hpc =>
    rw [List.length_append, List.length_singleton] at hlt
    rcases Nat.lt_succ_iff_lt_or_eq.mp hlt with hlt | rfl
    · refine .inl ⟨hlt, ?_⟩
      rwa [World.alive, List.getElem?_append_left hlt, ← World.alive] at hgone
    · rcases hgone with hdead | hpid
      · rw [World.alive, List.getElem?_concat_length] at hdead
        cases hdead
      · exact absurd (hw _ hpid) (Nat.lt_irrefl _)
  | writePid n token child ok hpc ha =>
    cases ok with
    | false => exact .inl ⟨hlt, hgone⟩
    | true =>
      rcases hgone with hdead | hpid
      · exact .inl ⟨hlt, .inl hdead⟩
      · obtain rfl : child = d := Option.some.inj hpid
        exact .inr ⟨ha, n, token, hpc⟩
  | _ => exact .inl ⟨hlt, hgone⟩

/-- By itself a daemon dies only when it exits, and none gets on record. -/
theorem Gone.of_env {e : EnvAction} (hstep : w.env e = some w') (h : Gone d w') :
    Gone d w ∨ e = .crash d ∧ d < w.daemons.length := by
  obtain ⟨hlt, hgone⟩ := h
  rw [env_length hstep] at hlt
  rw [env_pid hstep] at hgone
  cases e with
  | crash i =>
    by_cases hi : i = d
    · exact .inr ⟨by rw [hi], hlt⟩
    · refine .inl ⟨hlt, hgone.imp_left fun hdead => ?_⟩
      cases hstep
      rwa [World.alive, kill_getElem?, if_neg hi, ← World.alive] at hdead
  | up i =>
    obtain ⟨x, -, hup⟩ := Option.bind_eq_some_iff.mp hstep
    split at hup
    · cases hup
      refine .inl ⟨hlt, hgone.imp_left fun hdead => ?_⟩
      rw [World.alive, List.getElem?_modify] at hdead
      rw [World.alive]
      cases hy : w.daemons[d]? with
      | none => rfl
      | some y =>
        rw [hy] at hdead
        by_cases hi : i = d
        · simpa [hi] using hdead
        · simpa [hi] using hdead
    · cases hup

theorem dead_of_call (hstep : CallStep w c a w' c') (h : d < w.daemons.length ∧ w.alive d = false) :
    d < w'.daemons.length ∧ w'.alive d = false :=
  ⟨h.1.trans_le hstep.daemons.length_le, (hstep.alive_eq h.1).trans h.2⟩

theorem dead_of_fewer (hlen : w'.daemons.length = w.daemons.length)
    (halive : w'.alive d = true → w.alive d = true)
    (h : d < w.daemons.length ∧ w.alive d = false) :
    d < w'.daemons.length ∧ w'.alive d = false := by
  refine ⟨hlen ▸ h.1, ?_⟩
  rw [← Bool.not_eq_true]
  intro hw'
  rw [halive hw'] at h
  cases h.2

theorem dead_of_kill (h : d < w.daemons.length) :
    d < (w.kill d).daemons.length ∧ (w.kill d).alive d = false := by
  refine ⟨by rwa [World.kill, List.length_modify], ?_⟩
  rw [World.alive, kill_getElem?, if_pos rfl]
  cases w.daemons[d]? <;> rfl

theorem pid_of_shutdownDaemon {session : Session} {sockOk pidOk tokenOk : Bool} {p : ℕ}
    (h : (session.shutdownDaemon w sockOk pidOk tokenOk).1.dir.pid = some p) :
    w.dir.pid = some p := by
  unfold Session.shutdownDaemon at h
  cases pidOk with
  | true => cases h
  | false =>
    cases hchild : session.child with
    | none =>
      rw [hchild] at h
      exact h
    | some child =>
      rw [hchild] at h
      exact h

theorem alive_of_shutdownDaemon {session : Session} {sockOk pidOk tokenOk : Bool}
    (h : (session.shutdownDaemon w sockOk pidOk tokenOk).1.alive d = true) : w.alive d = true := by
  unfold Session.shutdownDaemon at h
  cases hchild : session.child with
  | none =>
    rw [hchild] at h
    exact h
  | some child =>
    rw [hchild] at h
    exact alive_of_kill h

/-- A shutdown makes no daemon dead but the session's own. -/
theorem Gone.of_shutdownDaemon {session : Session} {sockOk pidOk tokenOk : Bool}
    (h : Gone d (session.shutdownDaemon w sockOk pidOk tokenOk).1) :
    Gone d w ∨ session.child = some d := by
  obtain ⟨hlt, hgone⟩ := h
  rw [length_shutdownDaemon] at hlt
  rcases hgone with hdead | hpid
  · unfold Session.shutdownDaemon at hdead
    cases hchild : session.child with
    | none =>
      rw [hchild] at hdead
      exact .inl ⟨hlt, .inl hdead⟩
    | some child =>
      by_cases hcd : child = d
      · exact .inr (by rw [hcd])
      · rw [hchild] at hdead
        change (w.kill child).alive d = false at hdead
        rw [World.alive, kill_getElem?, if_neg hcd] at hdead
        exact .inl ⟨hlt, .inl hdead⟩
  · exact .inl ⟨hlt, .inr (pid_of_shutdownDaemon hpid)⟩

end Started

/-! ## A call that fails -/

section Calls

variable {s s' : System} {i d n : ℕ}

/-- What the calls have started is new, each has started its own, and the pid file names no
process that is still to be started. -/
structure Spawned (n : ℕ) (s : System) : Prop where
  le : n ≤ s.world.daemons.length
  started : ∀ c ∈ s.calls, StartedInv c
  bound : ∀ c ∈ s.calls, ∀ d ∈ c.started, n ≤ d ∧ d < s.world.daemons.length
  apart : ∀ ⦃i j : ℕ⦄ ⦃c c' : Call⦄ ⦃d : ℕ⦄, s.calls[i]? = some c → s.calls[j]? = some c' →
    d ∈ c.started → d ∈ c'.started → i = j
  pid : Recorded s.world

/-- A call that has negotiated has started the daemon. -/
def SessionHeld (d : ℕ) (s : System) : Prop := ∃ c ∈ s.calls, d ∈ c.started ∧ negotiated c.pc = true

theorem shutdown_cases {sockOk pidOk tokenOk : Bool}
    (h : System.step s (.shutdown i sockOk pidOk tokenOk) = some s') :
    ∃ c session, s.calls[i]? = some c ∧ c.pc = .returned (.ok session) ∧
      s' = ⟨(session.shutdownDaemon s.world sockOk pidOk tokenOk).1, s.calls.set i { c with
        pc := .returned (.ok (session.shutdownDaemon s.world sockOk pidOk tokenOk).2) }⟩ := by
  obtain ⟨c, hc, h⟩ := Option.bind_eq_some_iff.mp h
  split at h
  · next session hpc => exact ⟨c, session, hc, hpc, (Option.some.inj h).symm⟩
  · cases h

/-- A daemon that some call has started after one of them goes on was started before, or it is the
new one. -/
theorem started_of_set {l : List Call} {c c' x : Call} {k len : ℕ}
    (hc : l[i]? = some c) (hstarted : c'.started = c.started ∨ c'.started = c.started ++ [len])
    (hx : (l.set i c')[k]? = some x) (hd : d ∈ x.started) :
    (∃ y, l[k]? = some y ∧ d ∈ y.started) ∨ k = i ∧ d = len := by
  by_cases hk : k = i
  · subst hk
    rw [Pool.getElem?_set_self hc] at hx
    cases hx
    rcases hstarted with hsame | hnew
    · exact .inl ⟨c, hc, hsame ▸ hd⟩
    · rw [hnew] at hd
      rcases List.mem_append.mp hd with hd | hd
      · exact .inl ⟨c, hc, hd⟩
      · exact .inr ⟨rfl, List.mem_singleton.mp hd⟩
  · rw [List.getElem?_set_ne (Ne.symm hk)] at hx
    exact .inl ⟨x, hx, hd⟩

theorem Spawned.call {w' : World} {c c' : Call} {a : CallAction} (h : Spawned n s)
    (hc : s.calls[i]? = some c) (hstep : CallStep s.world c a w' c') :
    Spawned n ⟨w', s.calls.set i c'⟩ := by
  have hstarted := hstep.started_cases
  have hcases : c'.started = c.started ∨ c'.started = c.started ++ [s.world.daemons.length] :=
    hstarted.imp And.left And.left
  have hlen := hstep.daemons.length_le
  have hlt : s.world.daemons.length ∈ c'.started → s.world.daemons.length < w'.daemons.length := by
    intro hmem
    rcases hstarted with ⟨hsame, -⟩ | ⟨-, hgrown⟩
    · exact absurd (h.bound c (List.mem_of_getElem? hc) _ (hsame ▸ hmem)).2 (Nat.lt_irrefl _)
    · exact hgrown ▸ Nat.lt_succ_self _
  refine ⟨h.le.trans hlen, ?_, ?_, ?_, ?_⟩
  · exact Pool.forall_mem_set h.started ((h.started c (List.mem_of_getElem? hc)).step hstep)
  · intro x hx d hd
    obtain ⟨k, hk⟩ := List.mem_iff_getElem?.mp hx
    rcases started_of_set hc hcases hk hd with ⟨y, hy, hd⟩ | ⟨rfl, rfl⟩
    · obtain ⟨hge, hlt⟩ := h.bound y (List.mem_of_getElem? hy) d hd
      exact ⟨hge, hlt.trans_le hlen⟩
    · rw [Pool.getElem?_set_self hc] at hk
      cases hk
      exact ⟨h.le, hlt hd⟩
  · intro j k x y d hx hy hdx hdy
    rcases started_of_set hc hcases hx hdx with ⟨x', hx', hdx⟩ | ⟨rfl, rfl⟩
    · rcases started_of_set hc hcases hy hdy with ⟨y', hy', hdy⟩ | ⟨rfl, rfl⟩
      · exact h.apart hx' hy' hdx hdy
      · exact absurd (h.bound x' (List.mem_of_getElem? hx') _ hdx).2 (Nat.lt_irrefl _)
    · rcases started_of_set hc hcases hy hdy with ⟨y', hy', hdy⟩ | ⟨rfl, -⟩
      · exact absurd (h.bound y' (List.mem_of_getElem? hy') _ hdy).2 (Nat.lt_irrefl _)
      · rfl
  · intro p hp
    cases hstep with
    | writePid m token child ok hpc ha =>
      cases ok with
      | false => exact h.pid p hp
      | true =>
        obtain rfl : child = p := Option.some.inj hp
        have hinv := h.started c (List.mem_of_getElem? hc)
        rw [StartedInv, hpc] at hinv
        exact (h.bound c (List.mem_of_getElem? hc) child (hinv ▸ List.mem_cons_self)).2
    | _ => exact (h.pid p hp).trans_le hlen

theorem Spawned.start (h : Spawned n s) (config : SupervisorConfig) :
    Spawned n { s with calls := s.calls ++ [.of config] } := by
  have hold : ∀ {k : ℕ} {x : Call} {d : ℕ}, (s.calls ++ [.of config])[k]? = some x →
      d ∈ x.started → s.calls[k]? = some x := by
    intro k x d hx hd
    rcases Pool.getElem?_concat_cases hx with hx | ⟨-, rfl⟩
    · exact hx
    · cases hd
  refine ⟨h.le, ?_, ?_, ?_, h.pid⟩
  · intro c hc
    rcases List.mem_append.mp hc with hc | hc
    · exact h.started c hc
    · obtain rfl := List.mem_singleton.mp hc
      rfl
  · intro c hc d hd
    obtain ⟨k, hk⟩ := List.mem_iff_getElem?.mp hc
    exact h.bound c (List.mem_of_getElem? (hold hk hd)) d hd
  · intro j k x y d hx hy hdx hdy
    exact h.apart (hold hx hdx) (hold hy hdy) hdx hdy

theorem Spawned.env {e : EnvAction} {world : World} (h : Spawned n s)
    (hworld : s.world.env e = some world) : Spawned n { s with world } := by
  have hlen := env_length hworld
  refine ⟨hlen ▸ h.le, h.started, fun c hc d hd => hlen ▸ h.bound c hc d hd, h.apart, ?_⟩
  intro p hp
  rw [env_pid hworld] at hp
  exact hlen ▸ h.pid p hp

theorem Spawned.set {c c' : Call} {world : World} (h : Spawned n s) (hc : s.calls[i]? = some c)
    (hsame : c'.started = c.started) (hinv : StartedInv c')
    (hlen : world.daemons.length = s.world.daemons.length) (hpid : Recorded world) :
    Spawned n ⟨world, s.calls.set i c'⟩ := by
  have hold : ∀ {k : ℕ} {x : Call} {d : ℕ}, (s.calls.set i c')[k]? = some x →
      d ∈ x.started → ∃ y, s.calls[k]? = some y ∧ d ∈ y.started := by
    intro k x d hx hd
    by_cases hk : k = i
    · subst hk
      rw [Pool.getElem?_set_self hc] at hx
      cases hx
      exact ⟨c, hc, hsame ▸ hd⟩
    · rw [List.getElem?_set_ne (Ne.symm hk)] at hx
      exact ⟨x, hx, hd⟩
  refine ⟨hlen ▸ h.le, Pool.forall_mem_set h.started hinv, ?_, ?_, hpid⟩
  · intro x hx d hd
    obtain ⟨k, hk⟩ := List.mem_iff_getElem?.mp hx
    obtain ⟨y, hy, hd⟩ := hold hk hd
    exact hlen ▸ h.bound y (List.mem_of_getElem? hy) d hd
  · intro j k x y d hx hy hdx hdy
    obtain ⟨x', hx', hdx⟩ := hold hx hdx
    obtain ⟨y', hy', hdy⟩ := hold hy hdy
    exact h.apart hx' hy' hdx hdy

theorem Spawned.step ⦃s : System⦄ ⦃a : Bridge.Action⦄ ⦃t : System⦄ (h : Spawned n s)
    (hstep : System.step s a = some t) : Spawned n t := by
  cases a with
  | start config =>
    cases hstep
    exact h.start config
  | call i a =>
    obtain ⟨c, hc, hstep⟩ := Option.bind_eq_some_iff.mp hstep
    obtain ⟨⟨w', c'⟩, hcall, hstep⟩ := Option.bind_eq_some_iff.mp hstep
    cases hstep
    exact h.call hc (callStep_cases hcall)
  | env e =>
    obtain ⟨w', hw, hstep⟩ := Option.bind_eq_some_iff.mp hstep
    cases hstep
    exact h.env hw
  | shutdown i sockOk pidOk tokenOk =>
    obtain ⟨c, session, hc, hpc, rfl⟩ := shutdown_cases hstep
    have hlen := length_shutdownDaemon session s.world sockOk pidOk tokenOk
    refine h.set hc rfl (fun child hchild => nomatch hchild) hlen fun p hp => ?_
    exact hlen ▸ h.pid p (pid_of_shutdownDaemon hp)

theorem SessionHeld.step ⦃s : System⦄ ⦃a : Bridge.Action⦄ ⦃t : System⦄ (h : SessionHeld d s)
    (hstep : System.step s a = some t) : SessionHeld d t := by
  obtain ⟨x, hx, hd, hpc⟩ := h
  cases a with
  | start config =>
    cases hstep
    exact ⟨x, List.mem_append_left _ hx, hd, hpc⟩
  | call i a =>
    obtain ⟨c, hc, hstep⟩ := Option.bind_eq_some_iff.mp hstep
    obtain ⟨⟨w', c'⟩, hcall, hstep⟩ := Option.bind_eq_some_iff.mp hstep
    cases hstep
    by_cases hxc : x = c
    · subst hxc
      obtain ⟨hpc', hsame⟩ := negotiated_step (callStep_cases hcall) hpc
      exact ⟨c', List.mem_of_getElem? (Pool.getElem?_set_self hc), hsame ▸ hd, hpc'⟩
    · exact ⟨x, Pool.mem_set_of_ne hc hx hxc, hd, hpc⟩
  | env e =>
    obtain ⟨w', hw, hstep⟩ := Option.bind_eq_some_iff.mp hstep
    cases hstep
    exact ⟨x, hx, hd, hpc⟩
  | shutdown i sockOk pidOk tokenOk =>
    obtain ⟨c, session, hc, hcpc, rfl⟩ := shutdown_cases hstep
    by_cases hxc : x = c
    · subst hxc
      exact ⟨_, List.mem_of_getElem? (Pool.getElem?_set_self hc), hd, rfl⟩
    · exact ⟨x, Pool.mem_set_of_ne hc hx hxc, hd, hpc⟩

/-- A daemon that no call holds is gone only by itself. -/
theorem exits_of_gone {a : Bridge.Action} (h : Spawned n s) (hstep : System.step s a = some s')
    (hgone : Gone d s'.world) (hheld : ¬ SessionHeld d s') : Gone d s.world ∨ Exits d s a := by
  cases a with
  | start config =>
    cases hstep
    exact .inl hgone
  | call i a =>
    obtain ⟨c, hc, hstep⟩ := Option.bind_eq_some_iff.mp hstep
    obtain ⟨⟨w', c'⟩, hcall, hstep⟩ := Option.bind_eq_some_iff.mp hstep
    cases hstep
    rcases hgone.of_call h.pid (callStep_cases hcall) with hgone | ⟨rfl, m, token, hpc⟩
    · exact .inl hgone
    · refine absurd ⟨c', List.mem_of_getElem? (Pool.getElem?_set_self hc), ?_, ?_⟩ hheld
      · have hinv := h.started c (List.mem_of_getElem? hc)
        rw [StartedInv, hpc] at hinv
        obtain ⟨-, hsame⟩ := negotiated_step (callStep_cases hcall) (by rw [hpc]; rfl)
        rw [hsame, hinv]
        exact List.mem_cons_self
      · exact (negotiated_step (callStep_cases hcall) (by rw [hpc]; rfl)).1
  | env e =>
    obtain ⟨w', hw, hstep⟩ := Option.bind_eq_some_iff.mp hstep
    cases hstep
    rcases hgone.of_env hw with hgone | ⟨rfl, hlt⟩
    · exact .inl hgone
    · exact .inr ⟨rfl, hlt⟩
  | shutdown i sockOk pidOk tokenOk =>
    obtain ⟨c, session, hc, hpc, rfl⟩ := shutdown_cases hstep
    refine .inl (hgone.of_shutdownDaemon.resolve_right fun hchild => hheld ?_)
    have hinv := h.started c (List.mem_of_getElem? hc)
    rw [StartedInv, hpc] at hinv
    exact ⟨_, List.mem_of_getElem? (Pool.getElem?_set_self hc), hinv d hchild, rfl⟩

theorem dead_step ⦃s : System⦄ ⦃a : Bridge.Action⦄ ⦃t : System⦄
    (h : d < s.world.daemons.length ∧ s.world.alive d = false)
    (hstep : System.step s a = some t) :
    d < t.world.daemons.length ∧ t.world.alive d = false := by
  cases a with
  | start config =>
    cases hstep
    exact h
  | call i a =>
    obtain ⟨c, hc, hstep⟩ := Option.bind_eq_some_iff.mp hstep
    obtain ⟨⟨w', c'⟩, hcall, hstep⟩ := Option.bind_eq_some_iff.mp hstep
    cases hstep
    exact dead_of_call (callStep_cases hcall) h
  | env e =>
    obtain ⟨w', hw, hstep⟩ := Option.bind_eq_some_iff.mp hstep
    cases hstep
    exact dead_of_fewer (env_length hw) (alive_of_env hw) h
  | shutdown i sockOk pidOk tokenOk =>
    obtain ⟨c, session, hc, hpc, rfl⟩ := shutdown_cases hstep
    exact dead_of_fewer (length_shutdownDaemon session s.world sockOk pidOk tokenOk)
      alive_of_shutdownDaemon h

theorem dead_of_exits {s : System} {as : List Bridge.Action}
    (h : Machine.Happens System.step (Exits d) s as)
    (hrun : Machine.run System.step s as = some s') : s'.world.alive d = false := by
  refine (h.run (P := fun s => d < s.world.daemons.length ∧ s.world.alive d = false) ?_ dead_step
    hrun).2
  intro s a t he hstep
  cases a with
  | env e =>
    cases e with
    | up i => exact he.elim
    | crash i =>
      obtain ⟨rfl, hlt⟩ := he
      cases hstep
      exact dead_of_kill hlt
  | _ => exact he.elim

/-- The daemon of a call that fails is gone exactly when it exits by itself. -/
theorem failed_call_iff {w : World} (hw : Recorded w) {as : List Bridge.Action} {c : Call}
    {e : BridgeError} (hrun : Machine.run System.step ⟨w, []⟩ as = some s)
    (hc : s.calls[i]? = some c) (he : c.pc = .returned (.error e)) :
    NoOrphan s.world c.started ↔
      ∀ d ∈ c.started, Machine.Happens System.step (Exits d) ⟨w, []⟩ as := by
  have hstart : Spawned w.daemons.length ⟨w, []⟩ := by
    refine ⟨le_rfl, ?_, ?_, ?_, hw⟩
    · exact List.forall_mem_nil _
    · exact List.forall_mem_nil _
    · intro i j c c' d hi
      cases hi
  have hinv : Spawned w.daemons.length s := Machine.run_invariant Spawned.step hstart hrun
  refine forall₂_congr fun d hd => ⟨fun h => ?_, fun h => .inl (dead_of_exits h hrun)⟩
  obtain ⟨hge, hlt⟩ := hinv.bound c (List.mem_of_getElem? hc) d hd
  have hheld : ¬ SessionHeld d s := by
    rintro ⟨x, hx, hdx, hpc⟩
    obtain ⟨j, hj⟩ := List.mem_iff_getElem?.mp hx
    obtain rfl := hinv.apart hj hc hdx hd
    rw [hj] at hc
    cases hc
    rw [he] at hpc
    cases hpc
  refine Machine.happens_of_run (I := Spawned w.daemons.length)
    (P := fun s => Gone d s.world ∧ ¬ SessionHeld d s) Spawned.step ?_ hstart ?_ hrun
    ⟨⟨hlt, h⟩, hheld⟩
  · rintro s a t hs hstep ⟨hgone, hnot⟩
    refine (exits_of_gone hs hstep hgone hnot).imp_left fun hgone => ⟨hgone, fun hheld => ?_⟩
    exact hnot (hheld.step hstep)
  · rintro ⟨⟨hlt, -⟩, -⟩
    exact absurd hge (Nat.not_le_of_gt hlt)

end Calls

/-! ## The retry loop -/

section Loop

variable {r r' : Restart} {w : World} {d n : ℕ}

/-- What the attempts have started is new, and the pid file names no process that is still to be
started. -/
structure AttemptInv (n : ℕ) (r : Restart) : Prop where
  le : n ≤ r.world.daemons.length
  bound : ∀ d ∈ r.started, n ≤ d ∧ d < r.world.daemons.length
  pid : Recorded r.world
  calling : ∀ i c, r.pc = .calling i c →
    StartedInv c ∧ ∀ d ∈ c.started, n ≤ d ∧ d < r.world.daemons.length

theorem AttemptInv.call {w' : World} {i : ℕ} {c c' : Call} {a : CallAction} (h : AttemptInv n r)
    (hpc : r.pc = .calling i c) (hstep : CallStep r.world c a w' c') :
    n ≤ w'.daemons.length ∧ Recorded w' ∧
      StartedInv c' ∧ ∀ d ∈ r.started ++ c'.started, n ≤ d ∧ d < w'.daemons.length := by
  obtain ⟨hstarted, hbound⟩ := h.calling i c hpc
  have hlen := hstep.daemons.length_le
  refine ⟨h.le.trans hlen, ?_, hstarted.step hstep, ?_⟩
  · intro p hp
    cases hstep with
    | writePid m token child ok hpc' ha =>
      cases ok with
      | false => exact h.pid p hp
      | true =>
        obtain rfl : child = p := Option.some.inj hp
        rw [StartedInv, hpc'] at hstarted
        exact (hbound child (hstarted ▸ List.mem_cons_self)).2
    | _ => exact (h.pid p hp).trans_le hlen
  · intro d hd
    rcases List.mem_append.mp hd with hd | hd
    · exact ⟨(h.bound d hd).1, (h.bound d hd).2.trans_le hlen⟩
    · rcases hstep.started_cases with ⟨hsame, -⟩ | ⟨hnew, hgrown⟩
      · rw [hsame] at hd
        exact ⟨(hbound d hd).1, (hbound d hd).2.trans_le hlen⟩
      · rw [hnew] at hd
        rcases List.mem_append.mp hd with hd | hd
        · exact ⟨(hbound d hd).1, (hbound d hd).2.trans_le hlen⟩
        · obtain rfl := List.mem_singleton.mp hd
          exact ⟨h.le, hgrown ▸ Nat.lt_succ_self _⟩

theorem length_dropSession (w : World) (session : Session) :
    (Restart.dropSession w session).daemons.length = w.daemons.length := by
  rw [Restart.dropSession]
  split
  · exact List.length_modify _ _ _
  · rfl

theorem dropSession_pid (w : World) (session : Session) :
    (Restart.dropSession w session).dir.pid = w.dir.pid := by
  rw [Restart.dropSession]
  split
  · rfl
  · rfl

theorem next_ne_calling {i j : ℕ} {c : Call} : Restart.next i ≠ .calling j c := by
  unfold Restart.next
  split
  · exact nofun
  · exact nofun

theorem AttemptInv.step ⦃r : Restart⦄ ⦃a : RestartAction⦄ ⦃t : Restart⦄ (h : AttemptInv n r)
    (hstep : Restart.step r a = some t) : AttemptInv n t := by
  cases restart_step_cases hstep with
  | attempt i hpc =>
    refine ⟨h.le, h.bound, h.pid, fun j c hc => ?_⟩
    cases hc
    exact ⟨rfl, List.forall_mem_nil _⟩
  | unbuilt i hpc => exact ⟨h.le, h.bound, h.pid, fun j c hc => (next_ne_calling hc).elim⟩
  | going i a c c' world hpc hcall _ =>
    obtain ⟨hle, hpid, hstarted, hbound⟩ := h.call hpc (callStep_cases hcall)
    refine ⟨hle, fun d hd => hbound d (List.mem_append_left _ hd), hpid, fun j x hx => ?_⟩
    cases hx
    exact ⟨hstarted, fun d hd => hbound d (List.mem_append_right _ hd)⟩
  | failed i a c c' world e hpc hcall _ =>
    obtain ⟨hle, hpid, -, hbound⟩ := h.call hpc (callStep_cases hcall)
    exact ⟨hle, hbound, hpid, fun j x hx => (next_ne_calling hx).elim⟩
  | joined i a c c' world session hpc hcall _ =>
    obtain ⟨hle, hpid, -, hbound⟩ := h.call hpc (callStep_cases hcall)
    exact ⟨hle, hbound, hpid, nofun⟩
  | swapped session hpc _ => exact ⟨h.le, h.bound, h.pid, nofun⟩
  | dropped session hpc _ =>
    have hlen := length_dropSession r.world session
    refine ⟨hlen ▸ h.le, fun d hd => hlen ▸ h.bound d hd, fun p hp => ?_, nofun⟩
    rw [dropSession_pid] at hp
    exact hlen ▸ h.pid p hp
  | close => exact ⟨h.le, h.bound, h.pid, h.calling⟩
  | env e world hworld =>
    have hlen := env_length hworld
    refine ⟨hlen ▸ h.le, fun d hd => hlen ▸ h.bound d hd, fun p hp => ?_, fun i c hpc => ?_⟩
    · rw [env_pid hworld] at hp
      exact hlen ▸ h.pid p hp
    · exact ⟨(h.calling i c hpc).1, fun d hd => hlen ▸ (h.calling i c hpc).2 d hd⟩

theorem Gone.of_dropSession {session : Session} (h : Gone d (Restart.dropSession w session)) :
    Gone d w ∨
      (if session.killOnDrop then session.child else none) = some d ∧ d < w.daemons.length := by
  obtain ⟨hlt, hgone⟩ := h
  rw [length_dropSession] at hlt
  rw [dropSession_pid] at hgone
  rcases hgone with hdead | hpid
  · unfold Restart.dropSession at hdead
    split at hdead
    · next child hkill hchild =>
      by_cases hcd : child = d
      · rw [if_pos hkill, hchild, hcd]
        exact .inr ⟨rfl, hlt⟩
      · rw [World.alive, kill_getElem?, if_neg hcd] at hdead
        exact .inl ⟨hlt, .inl hdead⟩
    · exact .inl ⟨hlt, .inl hdead⟩
  · exact .inl ⟨hlt, .inr hpid⟩

theorem settles_of_call {w' : World} {i : ℕ} {c c' : Call} {a : CallAction} (hw : Recorded r.world)
    (hpc : r.pc = .calling i c) (hcall : callStep r.world c a = some (w', c'))
    (hgone : Gone d w') : Gone d r.world ∨ Settles d r (.call a) := by
  refine (hgone.of_call hw (callStep_cases hcall)).imp_right ?_
  rintro ⟨rfl, m, token, hwrite⟩
  refine ⟨rfl, ?_⟩
  obtain ⟨config, pc, started⟩ := c
  cases hwrite
  rw [Restart.recording, hpc]

/-- In the retry loop a daemon is gone only by what settles it. -/
theorem settles_of_gone {a : RestartAction} (h : AttemptInv n r)
    (hstep : Restart.step r a = some r') (hgone : Gone d r'.world) :
    Gone d r.world ∨ Settles d r a := by
  cases restart_step_cases hstep with
  | attempt i hpc => exact .inl hgone
  | unbuilt i hpc => exact .inl hgone
  | going i a c c' world hpc hcall _ => exact settles_of_call h.pid hpc hcall hgone
  | failed i a c c' world e hpc hcall _ => exact settles_of_call h.pid hpc hcall hgone
  | joined i a c c' world session hpc hcall _ => exact settles_of_call h.pid hpc hcall hgone
  | swapped session hpc _ => exact .inl hgone
  | dropped session hpc hlive =>
    refine hgone.of_dropSession.imp_right fun ⟨hchild, hlt⟩ => ⟨hlive, ?_, hlt⟩
    rw [Restart.dropping, hpc]
    exact hchild
  | close => exact .inl hgone
  | env e world hworld =>
    rcases hgone.of_env hworld with hgone | ⟨rfl, hlt⟩
    · exact .inl hgone
    · exact .inr ⟨rfl, hlt⟩

/-- The daemon is dead, or it is on record and the loop has no attempt left to make. -/
def Settled (d : ℕ) (r : Restart) : Prop :=
  (d < r.world.daemons.length ∧ r.world.alive d = false) ∨
    r.world.dir.pid = some d ∧
      match r.pc with
      | .calling _ ⟨_, .writeMeta .., _⟩ => True
      | .swapping _ => True
      | .returned _ => True
      | _ => False

theorem settled_of_settles ⦃r : Restart⦄ ⦃a : RestartAction⦄ ⦃t : Restart⦄ (h : Settles d r a)
    (hstep : Restart.step r a = some t) : Settled d t := by
  obtain ⟨world, config, live, pc, started⟩ := r
  cases a with
  | env e =>
    cases e with
    | up i => exact h.elim
    | crash i =>
      obtain ⟨rfl, hlt⟩ := h
      cases hstep
      exact .inl (dead_of_kill hlt)
  | call a =>
    cases a with
    | writePid ok =>
      obtain ⟨rfl, h⟩ := h
      unfold Restart.recording at h
      split at h
      · next hpc =>
        cases h
        dsimp only at hpc
        subst hpc
        cases hstep
        exact .inr ⟨rfl, trivial⟩
      · cases h
    | _ => exact h.elim
  | swap =>
    obtain ⟨hlive, h, hlt⟩ := h
    dsimp only at hlive
    subst hlive
    unfold Restart.dropping at h
    split at h
    · next session hpc =>
      split at h
      · next hkill =>
        dsimp only at hpc
        subst hpc
        cases hstep
        refine .inl ?_
        rw [Restart.dropSession, hkill, h]
        exact dead_of_kill hlt
      · cases h
    · cases h
  | build ok => exact h.elim
  | close => exact h.elim

/-- A call that has its pid on record still writes the metadata, and returns its session. -/
theorem callStep_writeMeta {w' : World} {c c' : Call} {a : CallAction} {m : NegotiatedSession}
    {token : String} {child : ℕ} (hpc : c.pc = .writeMeta m token child)
    (h : callStep w c a = some (w', c')) :
    (∃ session, c'.pc = .returned (.ok session)) ∧ w'.dir.pid = w.dir.pid := by
  obtain ⟨config, pc, started⟩ := c
  cases hpc
  cases a with
  | writeMeta ok nowMs =>
    cases h
    exact ⟨⟨_, rfl⟩, rfl⟩
  | writeToken token failure =>
    cases failure with
    | none => cases h
    | some message => cases h
  | _ => cases h

theorem Settled.call {w' : World} {i : ℕ} {c c' : Call} {a : CallAction} (h : Settled d r)
    (hpc : r.pc = .calling i c) (hcall : callStep r.world c a = some (w', c')) :
    (d < w'.daemons.length ∧ w'.alive d = false) ∨
      (∃ session, c'.pc = .returned (.ok session)) ∧ w'.dir.pid = some d := by
  rcases h with hdead | ⟨hpid, hrecorded⟩
  · exact .inl (dead_of_call (callStep_cases hcall) hdead)
  · rw [hpc] at hrecorded
    obtain ⟨config, pc, started⟩ := c
    cases pc with
    | writeMeta m token child =>
      obtain ⟨hsession, hsame⟩ := callStep_writeMeta rfl hcall
      exact .inr ⟨hsession, hsame.trans hpid⟩
    | _ => exact hrecorded.elim

theorem Settled.step ⦃r : Restart⦄ ⦃a : RestartAction⦄ ⦃t : Restart⦄ (h : Settled d r)
    (hstep : Restart.step r a = some t) : Settled d t := by
  cases restart_step_cases hstep with
  | attempt i hpc =>
    rw [Settled, hpc] at h
    exact h.imp_right fun hrecorded => hrecorded.2.elim
  | unbuilt i hpc =>
    rw [Settled, hpc] at h
    exact h.imp_right fun hrecorded => hrecorded.2.elim
  | going i a c c' world hpc hcall hgoing =>
    refine (h.call hpc hcall).imp_right ?_
    rintro ⟨⟨session, hreturned⟩, -⟩
    exact (hgoing _ hreturned).elim
  | failed i a c c' world e hpc hcall hfailed =>
    refine (h.call hpc hcall).imp_right ?_
    rintro ⟨⟨session, hreturned⟩, -⟩
    rw [hfailed] at hreturned
    cases hreturned
  | joined i a c c' world session hpc hcall _ =>
    exact (h.call hpc hcall).imp_right fun ⟨_, hpid⟩ => ⟨hpid, trivial⟩
  | swapped session hpc _ => exact h.imp_right fun hrecorded => ⟨hrecorded.1, trivial⟩
  | dropped session hpc _ =>
    refine h.imp ?_ ?_
    · refine dead_of_fewer (length_dropSession r.world session) fun halive => ?_
      unfold Restart.dropSession at halive
      split at halive
      · exact alive_of_kill halive
      · exact halive
    · rintro ⟨hpid, -⟩
      exact ⟨(dropSession_pid r.world session).trans hpid, trivial⟩
  | close => exact h
  | env e world hworld =>
    refine h.imp ?_ ?_
    · exact dead_of_fewer (env_length hworld) (alive_of_env hworld)
    · exact And.imp_left (env_pid hworld).trans

/-- What a restart has started is gone exactly when it has been settled. -/
theorem restart_iff (hw : Recorded w) {config : SupervisorConfig} {live : Bool}
    {as : List RestartAction} (hrun : Machine.run Restart.step (.begin w config live) as = some r) :
    NoOrphan r.world r.started ↔
      ∀ d ∈ r.started, Machine.Happens Restart.step (Settles d) (.begin w config live) as := by
  have hstart : AttemptInv w.daemons.length (.begin w config live) :=
    ⟨le_rfl, List.forall_mem_nil _, hw, nofun⟩
  have hinv : AttemptInv w.daemons.length r :=
    Machine.run_invariant AttemptInv.step hstart hrun
  refine forall₂_congr fun d hd => ⟨fun h => ?_, fun h => ?_⟩
  · obtain ⟨hge, hlt⟩ := hinv.bound d hd
    refine Machine.happens_of_run (I := AttemptInv w.daemons.length) (P := fun r => Gone d r.world)
      AttemptInv.step (fun r a t hr hstep => settles_of_gone hr hstep) hstart ?_ hrun ⟨hlt, h⟩
    rintro ⟨hlt, -⟩
    exact absurd hge (Nat.not_le_of_gt hlt)
  · rcases h.run settled_of_settles Settled.step hrun with ⟨-, hdead⟩ | ⟨hpid, -⟩
    · exact .inl hdead
    · exact .inr hpid

end Loop

/-- A call that fails leaves no daemon behind exactly when every daemon it has started exits by
itself before the call returns. The automatic restart leaves none behind exactly when every daemon
its attempts have started exits by itself, has its pid written, or is dropped with its session. -/
theorem failed_start_no_orphan (w : World) (hw : Recorded w) :
    (∀ (as : List Bridge.Action) (i : ℕ) (a : CallAction) (s : System) (c : Call)
      (e : BridgeError), Machine.run System.step ⟨w, []⟩ (as ++ [.call i a]) = some s →
      s.calls[i]? = some c → c.pc = .returned (.error e) →
      (NoOrphan s.world c.started ↔ ∀ d ∈ c.started,
        Machine.Happens System.step (Exits d) ⟨w, []⟩ (as ++ [.call i a]))) ∧
    (∀ (config : SupervisorConfig) (live resumed : Bool) (as : List RestartAction)
      (r : Restart), Machine.run Restart.step (.begin w config live) as = some r →
      r.pc = .returned resumed →
      (NoOrphan r.world r.started ↔ ∀ d ∈ r.started,
        Machine.Happens Restart.step (Settles d) (.begin w config live) as)) := by
  constructor
  · intro as i a s c e hrun hc he
    exact failed_call_iff hw hrun hc he
  · intro config live resumed as r hrun hpc
    exact restart_iff hw hrun

def unreachable : Reply := .error "protocol.transport" "no such file"

/-- An attempt that finds no socket, up to its spawn. -/
def attemptFresh (token : String) : List RestartAction :=
  [.build true, .call (.prepare true true), .call .look, .call (.unlink true),
    .call (.writeToken token none), .call (.spawn coreHello true)]

/-- The first daemon crashes before it comes up, the second comes up. -/
def crashThenRestart : List RestartAction :=
  attemptFresh "a1" ++ [.env (.crash 0), .call (.poll unreachable (some 20000))] ++
    attemptFresh "b2" ++ [.env (.up 1), .call (.poll .answered none), .call (.writePid true),
      .call (.writeMeta true 0), .swap]

def restartedWorld : World where
  daemons := [⟨coreHello, none, false, false⟩, ⟨coreHello, none, true, true⟩]
  dir := ⟨.bound 1, some 1, some ⟨"/repo", "0.4.0", "1.9.0", none, 0⟩, some "b2"⟩

theorem failed_start_no_orphan_crashed :
    NoOrphan ⟨[⟨coreHello, none, false, false⟩], ⟨.absent, none, none, some "a1"⟩⟩ [0] ∧
      NoOrphan restartedWorld [0, 1] := by
  obtain ⟨hcall, hrestart⟩ := failed_start_no_orphan freshWorld nofun
  constructor
  · refine (hcall (.start (configFor none) :: spawnFresh 0 "a1" ++ [.env (.crash 0)]) 0
      (.poll unreachable (some 20000)) _ _ _ rfl rfl rfl).mpr ?_
    decide
  · refine (hrestart (configFor none) true true crashThenRestart
      ⟨restartedWorld, configFor none, true, .returned true, [0, 1]⟩ rfl rfl).mpr ?_
    decide

/-- A start that times out leaves a live daemon off the record, and the retry loop goes on. -/
theorem failed_start_orphan :
    (¬ ∀ (w : World) (as : List Bridge.Action) (i : ℕ) (a : CallAction) (s : System) (c : Call)
      (e : BridgeError), Machine.run System.step ⟨w, []⟩ (as ++ [.call i a]) = some s →
      s.calls[i]? = some c → c.pc = .returned (.error e) → NoOrphan s.world c.started) ∧
    (¬ ∀ (w : World) (config : SupervisorConfig) (live resumed : Bool) (as : List RestartAction)
      (r : Restart), Machine.run Restart.step (.begin w config live) as = some r →
      r.pc = .returned resumed → NoOrphan r.world r.started) := by
  constructor
  · intro h
    have horphan := h freshWorld (.start (configFor none) :: spawnFresh 0 "a1") 0
      (.poll unreachable (some 20000)) _ _ _ rfl rfl rfl 0 List.mem_cons_self
    revert horphan
    decide
  · intro h
    let as := attemptFresh "a1" ++ [.call (.poll unreachable (some 20000))] ++
      attemptFresh "b2" ++ [.env (.up 1), .call (.poll .answered none), .call (.writePid true),
        .call (.writeMeta true 0), .swap]
    have horphan := h freshWorld (configFor none) true true as _ rfl rfl 0 List.mem_cons_self
    revert horphan
    decide

end ValyriaApp.BridgeHost
