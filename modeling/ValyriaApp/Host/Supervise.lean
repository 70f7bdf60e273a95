import ValyriaApp.Bridge.EventPump
import ValyriaApp.Lib.Pool

/-! # The supervise task

The supervise task receives a batch, moves the cursor to its last number and
then forwards it; the cursor is handed to the pump of the next session by the
task's own restart or by a `session/restart` request. No cursor lies past the
events that were forwarded or stand between the two steps of some task, so the
events forwarded never leave a hole.
-/

namespace ValyriaApp.BridgeHost

open Bridge Reassembly

def restartBackoffMs : List ℕ := [200, 500, 1000, 2000, 4000, 8000]

/-- A pump and its channel: the messages sent so far, and how many of them were received. -/
structure EventPump (WireEvent : Type) where
  cursor : ℕ
  sent : List (PumpMessage WireEvent)
  received : ℕ
  returned : Bool

def EventPump.start {WireEvent : Type} (appliedThrough : ℕ) : EventPump WireEvent where
  cursor := appliedThrough
  sent := []
  received := 0
  returned := false

inductive TaskPc (WireEvent : Type) where
  | recv
  /-- A batch was received. -/
  | batch (b : EventBatch WireEvent)
  /-- The cursor was moved, the batch is not yet forwarded. -/
  | stored (b : EventBatch WireEvent)
  | closed (lastSeq : ℕ)
  | restarting (attempt : ℕ)
  /-- A new session and its pump stand, the lock is awaited. -/
  | swapping (owned : Bool)
  | gone

/-- A supervise task with its own cursor cell. -/
structure Task (WireEvent : Type) where
  pc : TaskPc WireEvent
  lastSeq : ℕ
  pump : EventPump WireEvent
  aborted : Bool

/-- The open session: its supervise task, and whether this host spawned the daemon. -/
structure Live where
  task : ℕ
  owned : Bool

/-- Requests are dispatched one at a time. -/
inductive RequestPc where
  | idle
  | locked
  | stopping (appliedThrough task : ℕ)
  | opening (appliedThrough : ℕ)
  | installing (task : ℕ) (owned : Bool)

structure Host (WireEvent : Type) where
  tasks : List (Task WireEvent)
  live : Option Live
  locked : Bool
  request : RequestPc
  forwarded : List WireEvent

/-- The steps of a supervise task, of its pump and of its restart that touch nothing else. -/
inductive TaskAction (WireEvent : Type) where
  | pumpSend (msg : PumpMessage WireEvent)
  | pumpReturn
  | recv
  | store
  | restartFail
  | restartOk (owned : Bool)
  | kill

inductive Action (WireEvent : Type) where
  | task (i : ℕ) (a : TaskAction WireEvent)
  | forward (i : ℕ)
  | swap (i : ℕ)
  | lock
  | load
  | stop
  | openFail
  | openOk (owned : Bool)
  | install
  | close

variable {WireEvent : Type}

namespace Task

def pumpSend (t : Task WireEvent) (msg : PumpMessage WireEvent) : Option (Task WireEvent) :=
  if t.pump.returned then none
  else some { t with pump := { t.pump with sent := t.pump.sent ++ [msg] } }

def pumpReturn (t : Task WireEvent) : Option (Task WireEvent) :=
  some { t with pump := { t.pump with returned := true } }

/-- `pump.recv().await`. -/
def recv (t : Task WireEvent) : Option (Task WireEvent) :=
  match t.pc, t.aborted with
  | .recv, false =>
    let pump := { t.pump with received := t.pump.received + 1 }
    match t.pump.sent[t.pump.received]? with
    | some (.batch b) => some { t with pc := .batch b, pump }
    | some (.reconnected _) => some { t with pc := .recv, pump }
    | some (.closed lastSeq) => some { t with pc := .closed lastSeq, pump }
    | none => if t.pump.returned then some { t with pc := .gone } else none
  | _, _ => none

/-- `last_seq.fetch_max`. -/
def store (t : Task WireEvent) : Option (Task WireEvent) :=
  match t.pc with
  | .batch b => some { t with pc := .stored b, lastSeq := max t.lastSeq b.lastSeq }
  | .closed lastSeq => some { t with pc := .restarting 0, lastSeq := max t.lastSeq lastSeq }
  | _ => none

/-- An attempt of `restart` fails. -/
def restartFail (t : Task WireEvent) : Option (Task WireEvent) :=
  match t.pc, t.aborted with
  | .restarting attempt, false =>
    if attempt + 1 < restartBackoffMs.length then some { t with pc := .restarting (attempt + 1) }
    else some { t with pc := .gone }
  | _, _ => none

/-- An attempt of `restart` has a session; the pump it replaces has returned. -/
def restartOk (t : Task WireEvent) (owned : Bool) : Option (Task WireEvent) :=
  match t.pc, t.aborted with
  | .restarting _, false => some { t with pc := .swapping owned, pump := .start t.lastSeq }
  | _, _ => none

/-- An aborted task ends at its next await point. -/
def kill (t : Task WireEvent) : Option (Task WireEvent) :=
  match t.pc, t.aborted with
  | .recv, true | .restarting _, true | .swapping _, true => some { t with pc := .gone }
  | _, _ => none

end Task

def superviseStep (t : Task WireEvent) : TaskAction WireEvent → Option (Task WireEvent)
  | .pumpSend msg => t.pumpSend msg
  | .pumpReturn => t.pumpReturn
  | .recv => t.recv
  | .store => t.store
  | .restartFail => t.restartFail
  | .restartOk owned => t.restartOk owned
  | .kill => t.kill

namespace Host

/-- Dropping a session aborts its supervise task. -/
def abort (h : Host WireEvent) (i : ℕ) : Host WireEvent :=
  match h.tasks[i]? with
  | some t => { h with tasks := h.tasks.set i { t with aborted := true } }
  | none => h

def dropLive (h : Host WireEvent) : Host WireEvent :=
  match h.live with
  | some live => { h.abort live.task with live := none }
  | none => h

/-- One step of the host: of a supervise task, or of the request being dispatched. -/
def step (h : Host WireEvent) : Action WireEvent → Option (Host WireEvent)
  | .task i a => do
    let t ← h.tasks[i]?
    let t' ← superviseStep t a
    some { h with tasks := h.tasks.set i t' }
  | .forward i => do
    let t ← h.tasks[i]?
    match t.pc with
    | .stored b => some { h with
        tasks := h.tasks.set i { t with pc := .recv }
        forwarded := h.forwarded ++ b.events }
    | _ => none
  | .swap i => do
    let t ← h.tasks[i]?
    match t.pc, t.aborted, h.locked with
    | .swapping owned, false, false =>
      match h.live with
      | some live => some { h with
          tasks := h.tasks.set i { t with pc := .recv }
          live := some { live with owned } }
      | none => some { h with tasks := h.tasks.set i { t with pc := .gone } }
    | _, _, _ => none
  | .lock =>
    match h.request, h.locked, h.live with
    | .idle, false, some live =>
      if live.owned then some { h with locked := true, request := .locked } else some h
    | .idle, false, none => some h
    | _, _, _ => none
  | .load =>
    match h.request, h.live with
    | .locked, some live => do
      let t ← h.tasks[live.task]?
      some { h with live := none, request := .stopping t.lastSeq live.task }
    | _, _ => none
  | .stop =>
    match h.request with
    | .stopping appliedThrough i =>
      some { h.abort i with locked := false, request := .opening appliedThrough }
    | _ => none
  | .openFail =>
    match h.request with
    | .opening _ => some { h with request := .idle }
    | _ => none
  | .openOk owned =>
    match h.request with
    | .opening appliedThrough => some { h with
        tasks := h.tasks ++ [⟨.recv, appliedThrough, .start appliedThrough, false⟩]
        request := .installing h.tasks.length owned }
    | _ => none
  | .install =>
    match h.request, h.locked with
    | .installing task owned, false =>
      some { h.dropLive with live := some { task, owned }, request := .idle }
    | _, _ => none
  | .close =>
    match h.request, h.locked with
    | .idle, false => some h.dropLive
    | _, _ => none

/-- A `session/open` with cursor `a` is being dispatched. -/
def opening (a : ℕ) : Host WireEvent where
  tasks := []
  live := none
  locked := false
  request := .opening a
  forwarded := []

end Host

variable {seq : WireEvent → ℕ} {journal : List WireEvent} {a m m' : ℕ}

/-- Each pump delivers its events exactly once, in order, from its cursor. -/
def PumpsDeliver (seq : WireEvent → ℕ) (journal : List WireEvent) (h : Host WireEvent) :
    Action WireEvent → Prop
  | .task i (.pumpSend msg) => ∀ t ∈ h.tasks[i]?,
      ExactlyOnce seq journal t.pump.cursor (t.pump.sent ++ [msg])
  | _ => True

/-! ## The invariant -/

/-- The last number received from a pump. -/
def EventPump.position (seq : WireEvent → ℕ) (p : EventPump WireEvent) : ℕ :=
  lastDelivered seq p.cursor (p.sent.take p.received)

/-- The batch between `fetch_max` and `forward`. -/
def Task.inFlight (t : Task WireEvent) : List WireEvent :=
  match t.pc with
  | .stored b => b.events
  | _ => []

/-- What a task stands on, when the events `(a, m]` are forwarded or in flight. -/
def PcInv (seq : WireEvent → ℕ) (a m : ℕ) (position : ℕ) : TaskPc WireEvent → Prop
  | .batch b => position = b.lastSeq ∧ ∃ lo, a ≤ lo ∧ lo ≤ m ∧ lo < b.lastSeq ∧
      ∀ k, k ∈ b.events.map seq ↔ lo < k ∧ k ≤ b.lastSeq
  | .closed lastSeq => position ≤ m ∧ lastSeq ≤ m
  | _ => position ≤ m

structure TaskInv (seq : WireEvent → ℕ) (journal : List WireEvent) (a m : ℕ)
    (t : Task WireEvent) : Prop where
  lower : a ≤ t.lastSeq
  upper : t.lastSeq ≤ m
  cursor : a ≤ t.pump.cursor
  sent : ExactlyOnce seq journal t.pump.cursor t.pump.sent
  received : t.pump.received ≤ t.pump.sent.length
  pc : PcInv seq a m (t.pump.position seq) t.pc

def RequestInv (a m : ℕ) : RequestPc → Prop
  | .stopping appliedThrough _ => a ≤ appliedThrough ∧ appliedThrough ≤ m
  | .opening appliedThrough => a ≤ appliedThrough ∧ appliedThrough ≤ m
  | _ => True

/-- The events forwarded or in flight are `(a, m]`, and no cursor lies past `m`. -/
structure HostInv (seq : WireEvent → ℕ) (journal : List WireEvent) (a m : ℕ)
    (h : Host WireEvent) : Prop where
  le : a ≤ m
  covered : ∀ k, (k ∈ h.forwarded.map seq ∨ ∃ t ∈ h.tasks, k ∈ t.inFlight.map seq) ↔
    a < k ∧ k ≤ m
  tasks : ∀ t ∈ h.tasks, TaskInv seq journal a m t
  request : RequestInv a m h.request

theorem PcInv.mono {position : ℕ} {pc : TaskPc WireEvent} (h : PcInv seq a m position pc)
    (hm : m ≤ m') : PcInv seq a m' position pc := by
  cases pc with
  | batch b =>
    obtain ⟨hpos, lo, halo, hlo, hlt, hk⟩ := h
    exact ⟨hpos, lo, halo, hlo.trans hm, hlt, hk⟩
  | closed lastSeq => exact ⟨h.1.trans hm, h.2.trans hm⟩
  | _ => exact Nat.le_trans h hm

theorem TaskInv.mono {t : Task WireEvent} (h : TaskInv seq journal a m t) (hm : m ≤ m') :
    TaskInv seq journal a m' t :=
  { h with upper := h.upper.trans hm, pc := h.pc.mono hm }

theorem RequestInv.mono {r : RequestPc} (h : RequestInv a m r) (hm : m ≤ m') :
    RequestInv a m' r := by
  cases r with
  | stopping c i => exact ⟨h.1, h.2.trans hm⟩
  | opening c => exact ⟨h.1, h.2.trans hm⟩
  | _ => trivial

theorem TaskInv.abort {t : Task WireEvent} (h : TaskInv seq journal a m t) :
    TaskInv seq journal a m { t with aborted := true } :=
  { h with }

/-! ## The steps of a task -/

section TaskSteps

variable {t t' : Task WireEvent}

/-- A step keeps the task's invariant and puts nothing in flight, or it stores a batch that
continues what was covered. -/
def TaskSpec (seq : WireEvent → ℕ) (journal : List WireEvent) (a m : ℕ)
    (t t' : Task WireEvent) : Prop :=
  (t'.inFlight = t.inFlight ∧ TaskInv seq journal a m t') ∨
    (t.inFlight = [] ∧ ∃ m' ≥ m, TaskInv seq journal a m' t' ∧
      ∀ k, (k ∈ t'.inFlight.map seq ∨ a < k ∧ k ≤ m) ↔ a < k ∧ k ≤ m')

theorem TaskInv.stay (h : TaskInv seq journal a m t) (hflight : t.inFlight = [])
    {pc : TaskPc WireEvent} (hpc : PcInv seq a m (t.pump.position seq) pc)
    (hnext : Task.inFlight { t with pc } = []) : TaskSpec seq journal a m t { t with pc } :=
  Or.inl ⟨hnext.trans hflight.symm, { h with pc := hpc }⟩

theorem TaskInv.pumpSend (h : TaskInv seq journal a m t) {msg : PumpMessage WireEvent}
    (hmsg : ExactlyOnce seq journal t.pump.cursor (t.pump.sent ++ [msg]))
    (hstep : t.pumpSend msg = some t') : TaskSpec seq journal a m t t' := by
  have hposition : EventPump.position seq { t.pump with sent := t.pump.sent ++ [msg] } =
      t.pump.position seq := by
    simp only [EventPump.position, List.take_append_of_le_length h.received]
  unfold Task.pumpSend at hstep
  split at hstep
  · cases hstep
  · cases hstep
    refine Or.inl ⟨rfl, h.lower, h.upper, h.cursor, hmsg, ?_, ?_⟩
    · rw [List.length_append]
      exact h.received.trans (Nat.le_add_right _ _)
    · rw [hposition]
      exact h.pc

/-- Where the task stands after it received a message. -/
def received : PumpMessage WireEvent → TaskPc WireEvent
  | .batch b => .batch b
  | .reconnected _ => .recv
  | .closed lastSeq => .closed lastSeq

theorem TaskInv.received_message (hj : Numbered seq journal) (h : TaskInv seq journal a m t)
    (hposition : t.pump.position seq ≤ m) {msg : PumpMessage WireEvent}
    (hmsg : t.pump.sent[t.pump.received]? = some msg) :
    TaskInv seq journal a m { t with
      pc := BridgeHost.received msg
      pump := { t.pump with received := t.pump.received + 1 } } := by
  obtain ⟨hlt, hget⟩ := List.getElem?_eq_some_iff.mp hmsg
  have htake : t.pump.sent.take (t.pump.received + 1) =
      t.pump.sent.take t.pump.received ++ [msg] := by
    rw [List.take_succ_eq_append_getElem hlt, hget]
  have hsplit : t.pump.sent = t.pump.sent.take t.pump.received ++
      msg :: t.pump.sent.drop (t.pump.received + 1) := by
    rw [← hget, ← List.drop_eq_getElem_cons hlt, List.take_append_drop]
  have hsent : ExactlyOnce seq journal t.pump.cursor (t.pump.sent.take t.pump.received ++
      msg :: t.pump.sent.drop (t.pump.received + 1)) := hsplit ▸ h.sent
  have hbefore := hsent.of_append hj
  have happlied : a ≤ t.pump.position seq := h.cursor.trans (hbefore.applied_le hj)
  have htrue := hsent.truthful _ msg _ rfl
  refine ⟨h.lower, h.upper, h.cursor, h.sent, hlt, ?_⟩
  cases msg with
  | batch b =>
    obtain ⟨hend, hlo, hk⟩ := hsent.batch_seqs hj
    refine ⟨?_, t.pump.position seq, happlied, hposition, hlo, hk⟩
    rw [EventPump.position, htake, hend]
  | reconnected start =>
    have hsame := (hbefore.notice rfl htrue).2
    change EventPump.position seq _ ≤ m
    rw [EventPump.position, htake, hsame]
    exact hposition
  | closed lastSeq =>
    have hsame := (hbefore.notice rfl htrue).2
    refine ⟨?_, htrue.trans_le hposition⟩
    rw [EventPump.position, htake, hsame]
    exact hposition

theorem TaskInv.recv (hj : Numbered seq journal) (h : TaskInv seq journal a m t)
    (hstep : t.recv = some t') : TaskSpec seq journal a m t t' := by
  have hpcInv := h.pc
  unfold Task.recv at hstep
  split at hstep
  · next hpc _ =>
    have hflight : t.inFlight = [] := by rw [Task.inFlight, hpc]
    rw [hpc] at hpcInv
    split at hstep
    · next b hmsg =>
      cases hstep
      exact Or.inl ⟨hflight.symm, h.received_message hj hpcInv hmsg⟩
    · next start hmsg =>
      cases hstep
      exact Or.inl ⟨hflight.symm, h.received_message hj hpcInv hmsg⟩
    · next lastSeq hmsg =>
      cases hstep
      exact Or.inl ⟨hflight.symm, h.received_message hj hpcInv hmsg⟩
    · split at hstep
      · cases hstep
        exact h.stay hflight hpcInv rfl
      · cases hstep
  · cases hstep

theorem TaskInv.store (h : TaskInv seq journal a m t) (hstep : t.store = some t') :
    TaskSpec seq journal a m t t' := by
  have hpcInv := h.pc
  unfold Task.store at hstep
  split at hstep
  · next b hpc =>
    cases hstep
    rw [hpc] at hpcInv
    obtain ⟨hpos, lo, halo, hlo, hlt, hk⟩ := hpcInv
    refine Or.inr ⟨by rw [Task.inFlight, hpc], max m b.lastSeq, le_max_left _ _, ?_, ?_⟩
    · exact ⟨h.lower.trans (le_max_left _ _), max_le_max h.upper le_rfl, h.cursor, h.sent,
        h.received, hpos.trans_le (le_max_right _ _)⟩
    · intro k
      change (k ∈ b.events.map seq ∨ _) ↔ _
      rw [hk]
      omega
  · next lastSeq hpc =>
    cases hstep
    rw [hpc] at hpcInv
    obtain ⟨hpos, hls⟩ := hpcInv
    refine Or.inl ⟨by rw [Task.inFlight, Task.inFlight, hpc], ?_⟩
    exact ⟨h.lower.trans (le_max_left _ _), max_le h.upper hls, h.cursor, h.sent, h.received, hpos⟩
  · cases hstep

theorem TaskInv.restartFail (h : TaskInv seq journal a m t) (hstep : t.restartFail = some t') :
    TaskSpec seq journal a m t t' := by
  have hpcInv := h.pc
  unfold Task.restartFail at hstep
  split at hstep
  · next attempt hpc _ =>
    have hflight : t.inFlight = [] := by rw [Task.inFlight, hpc]
    rw [hpc] at hpcInv
    split at hstep
    · cases hstep
      exact h.stay hflight hpcInv rfl
    · cases hstep
      exact h.stay hflight hpcInv rfl
  · cases hstep

/-- The new pump starts at the task's own cursor. -/
theorem TaskInv.restartOk (h : TaskInv seq journal a m t) {owned : Bool}
    (hstep : t.restartOk owned = some t') : TaskSpec seq journal a m t t' := by
  unfold Task.restartOk at hstep
  split at hstep
  · next attempt hpc _ =>
    cases hstep
    refine Or.inl ⟨by rw [Task.inFlight, Task.inFlight, hpc], ?_⟩
    exact ⟨h.lower, h.upper, h.lower, ExactlyOnce.nil _ _, le_rfl, h.upper⟩
  · cases hstep

theorem TaskInv.kill (h : TaskInv seq journal a m t) (hstep : t.kill = some t') :
    TaskSpec seq journal a m t t' := by
  have hpcInv := h.pc
  unfold Task.kill at hstep
  split at hstep
  · next hpc _ =>
    cases hstep
    exact h.stay (by rw [Task.inFlight, hpc]) (by rwa [hpc] at hpcInv) rfl
  · next attempt hpc _ =>
    cases hstep
    exact h.stay (by rw [Task.inFlight, hpc]) (by rwa [hpc] at hpcInv) rfl
  · next owned hpc _ =>
    cases hstep
    exact h.stay (by rw [Task.inFlight, hpc]) (by rwa [hpc] at hpcInv) rfl
  · cases hstep

theorem superviseStep_spec (hj : Numbered seq journal) (h : TaskInv seq journal a m t)
    {act : TaskAction WireEvent}
    (hpump : ∀ msg, act = .pumpSend msg →
      ExactlyOnce seq journal t.pump.cursor (t.pump.sent ++ [msg]))
    (hstep : superviseStep t act = some t') : TaskSpec seq journal a m t t' := by
  cases act with
  | pumpSend msg => exact h.pumpSend (hpump msg rfl) hstep
  | pumpReturn =>
    cases hstep
    exact Or.inl ⟨rfl, { h with }⟩
  | recv => exact h.recv hj hstep
  | store => exact h.store hstep
  | restartFail => exact h.restartFail hstep
  | restartOk owned => exact h.restartOk hstep
  | kill => exact h.kill hstep

end TaskSteps

/-! ## The steps of the host -/

section HostSteps

variable {h h' : Host WireEvent} {i : ℕ} {t t' : Task WireEvent}

theorem HostInv.set (hI : HostInv seq journal a m h) (ht : h.tasks[i]? = some t)
    (hflight : t'.inFlight = t.inFlight) (ht' : TaskInv seq journal a m t') :
    HostInv seq journal a m { h with tasks := h.tasks.set i t' } := by
  refine ⟨hI.le, fun k => ?_, Pool.forall_mem_set hI.tasks ht', hI.request⟩
  rw [← hI.covered k, Pool.exists_mem_set_of_iff ht (by rw [hflight])]

theorem HostInv.task (hI : HostInv seq journal a m h) (ht : h.tasks[i]? = some t)
    (hspec : TaskSpec seq journal a m t t') :
    ∃ m', HostInv seq journal a m' { h with tasks := h.tasks.set i t' } := by
  rcases hspec with ⟨hflight, ht'⟩ | ⟨hflight, m', hm, ht', hk⟩
  · exact ⟨m, hI.set ht hflight ht'⟩
  · refine ⟨m', hI.le.trans hm, fun k => ?_, ?_, hI.request.mono hm⟩
    · have hcovered := hI.covered k
      rw [Pool.exists_mem_iff ht, hflight] at hcovered
      rw [Pool.exists_mem_set_iff ht, ← hk k, ← hcovered]
      simp only [List.map_nil, List.not_mem_nil, false_or]
      tauto
    · exact Pool.forall_mem_set (fun u hu => (hI.tasks u hu).mono hm) ht'

theorem HostInv.forward (hI : HostInv seq journal a m h) (ht : h.tasks[i]? = some t)
    {b : EventBatch WireEvent} (hpc : t.pc = .stored b) :
    HostInv seq journal a m { h with
      tasks := h.tasks.set i { t with pc := .recv }, forwarded := h.forwarded ++ b.events } := by
  have htI := hI.tasks t (List.mem_of_getElem? ht)
  have hpos : PcInv seq a m (t.pump.position seq) (.stored b) := hpc ▸ htI.pc
  have hflight : t.inFlight = b.events := by rw [Task.inFlight, hpc]
  refine ⟨hI.le, fun k => ?_, Pool.forall_mem_set hI.tasks { htI with pc := hpos }, hI.request⟩
  rw [← hI.covered k, Pool.exists_mem_iff ht, Pool.exists_mem_set_iff ht, hflight, List.map_append,
    List.mem_append]
  simp only [Task.inFlight, List.map_nil, List.not_mem_nil, false_or]
  exact or_assoc

theorem HostInv.abort (hI : HostInv seq journal a m h) (i : ℕ) :
    HostInv seq journal a m (h.abort i) := by
  unfold Host.abort
  split
  · next t ht => exact hI.set ht rfl (hI.tasks t (List.mem_of_getElem? ht)).abort
  · exact hI

theorem HostInv.dropLive (hI : HostInv seq journal a m h) :
    HostInv seq journal a m h.dropLive := by
  unfold Host.dropLive
  split
  · exact { hI.abort _ with }
  · exact hI

theorem HostInv.swap (hI : HostInv seq journal a m h) (hstep : h.step (.swap i) = some h') :
    HostInv seq journal a m h' := by
  obtain ⟨t, ht, hstep⟩ := Option.bind_eq_some_iff.mp hstep
  have htI := hI.tasks t (List.mem_of_getElem? ht)
  have hpcInv := htI.pc
  split at hstep
  · next owned hpc _ _ =>
    have hflight : t.inFlight = [] := by rw [Task.inFlight, hpc]
    rw [hpc] at hpcInv
    split at hstep
    · cases hstep
      have hset : HostInv seq journal a m
          { h with tasks := h.tasks.set i { t with pc := .recv } } :=
        hI.set ht hflight.symm { htI with pc := hpcInv }
      exact { hset with }
    · cases hstep
      have hset : HostInv seq journal a m
          { h with tasks := h.tasks.set i { t with pc := .gone } } :=
        hI.set ht hflight.symm { htI with pc := hpcInv }
      exact hset
  · cases hstep

/-- A session opens at a cursor that is not past the events covered. -/
theorem HostInv.openOk (hI : HostInv seq journal a m h) {owned : Bool}
    (hstep : h.step (.openOk owned) = some h') : HostInv seq journal a m h' := by
  have hrequest := hI.request
  unfold Host.step at hstep
  dsimp only at hstep
  split at hstep
  · next appliedThrough hreq =>
    cases hstep
    rw [hreq] at hrequest
    obtain ⟨hle, hge⟩ := hrequest
    refine ⟨hI.le, fun k => ?_, ?_, trivial⟩
    · rw [← hI.covered k]
      simp [Task.inFlight]
    · intro t ht
      rcases List.mem_append.mp ht with ht | ht
      · exact hI.tasks t ht
      · obtain rfl := List.mem_singleton.mp ht
        exact ⟨hle, hge, hle, ExactlyOnce.nil _ _, le_rfl, hge⟩
  · cases hstep

/-- The request loads the cursor of the live task, which is not past the events covered. -/
theorem HostInv.load (hI : HostInv seq journal a m h) (hstep : h.step .load = some h') :
    HostInv seq journal a m h' := by
  unfold Host.step at hstep
  dsimp only at hstep
  split at hstep
  · obtain ⟨t, ht, hstep⟩ := Option.bind_eq_some_iff.mp hstep
    cases hstep
    have htI := hI.tasks t (List.mem_of_getElem? ht)
    exact { hI with request := ⟨htI.lower, htI.upper⟩ }
  · cases hstep

theorem HostInv.step (hj : Numbered seq journal) (hI : HostInv seq journal a m h)
    {act : Action WireEvent} (hpump : PumpsDeliver seq journal h act)
    (hstep : h.step act = some h') : ∃ m', HostInv seq journal a m' h' := by
  cases act with
  | task i act =>
    obtain ⟨t, ht, hstep⟩ := Option.bind_eq_some_iff.mp hstep
    obtain ⟨t', ht', hstep⟩ := Option.bind_eq_some_iff.mp hstep
    cases hstep
    refine hI.task ht (superviseStep_spec hj (hI.tasks t (List.mem_of_getElem? ht)) ?_ ht')
    rintro msg rfl
    exact hpump t ht
  | forward i =>
    obtain ⟨t, ht, hstep⟩ := Option.bind_eq_some_iff.mp hstep
    split at hstep
    · next b hpc =>
      cases hstep
      exact ⟨m, hI.forward ht hpc⟩
    · cases hstep
  | swap i => exact ⟨m, hI.swap hstep⟩
  | lock =>
    unfold Host.step at hstep
    dsimp only at hstep
    split at hstep
    · split at hstep
      · cases hstep
        exact ⟨m, { hI with request := trivial }⟩
      · cases hstep
        exact ⟨m, hI⟩
    · cases hstep
      exact ⟨m, hI⟩
    · cases hstep
  | load => exact ⟨m, hI.load hstep⟩
  | stop =>
    have hrequest := hI.request
    unfold Host.step at hstep
    dsimp only at hstep
    split at hstep
    · next c i hreq =>
      cases hstep
      rw [hreq] at hrequest
      exact ⟨m, { hI.abort i with request := hrequest }⟩
    · cases hstep
  | openFail =>
    unfold Host.step at hstep
    dsimp only at hstep
    split at hstep
    · cases hstep
      exact ⟨m, { hI with request := trivial }⟩
    · cases hstep
  | openOk owned => exact ⟨m, hI.openOk hstep⟩
  | install =>
    unfold Host.step at hstep
    dsimp only at hstep
    split at hstep
    · cases hstep
      exact ⟨m, { hI.dropLive with request := trivial }⟩
    · cases hstep
  | close =>
    unfold Host.step at hstep
    dsimp only at hstep
    split at hstep
    · cases hstep
      exact ⟨m, hI.dropLive⟩
    · cases hstep

end HostSteps

/-! ## Every run of the host -/

theorem hostInv_opening (journal : List WireEvent) (a : ℕ) :
    HostInv seq journal a a (Host.opening a) where
  le := le_rfl
  covered k := by
    simp [Host.opening]
  tasks := by simp [Host.opening]
  request := ⟨le_rfl, le_rfl⟩

/-- Whenever no supervise task stands between its `fetch_max` and its `forward`, the events
forwarded so far are `a + 1, …, m` for some `m`. -/
theorem no_event_lost (hj : Numbered seq journal) {as : List (Action WireEvent)}
    {h : Host WireEvent} (hrun : Machine.run Host.step (Host.opening a) as = some h)
    (hpumps : Machine.Guarded Host.step (PumpsDeliver seq journal) (Host.opening a) as)
    (hquiet : ∀ t ∈ h.tasks, ∀ b, t.pc ≠ .stored b) :
    ∃ m, ∀ k, k ∈ h.forwarded.map seq ↔ a < k ∧ k ≤ m := by
  have hpreserves : Machine.Preserves Host.step (PumpsDeliver seq journal)
      fun h => ∃ m, HostInv seq journal a m h := by
    rintro h act h' ⟨m, hI⟩ hpump hstep
    exact hI.step hj hpump hstep
  obtain ⟨m, hI⟩ := hpreserves.run ⟨a, hostInv_opening journal a⟩ hpumps hrun
  refine ⟨m, fun k => ?_⟩
  rw [← hI.covered k]
  constructor
  · exact Or.inl
  · rintro (hk | ⟨t, ht, hk⟩)
    · exact hk
    · have hnone : t.inFlight = [] := by
        unfold Task.inFlight
        split
        · next b hpc => exact absurd hpc (hquiet t ht b)
        · rfl
      rw [hnone] at hk
      exact absurd hk List.not_mem_nil

/-- A restart request loads the cursor between `fetch_max` and `forward`. -/
def restartInFlight : List (Action ℕ) :=
  [.openOk true, .install] ++ .task 0 (.pumpSend (.batch ⟨1, 2, [1, 2], false⟩)) ::
    [.task 0 .recv, .task 0 .store, .lock, .load, .stop, .forward 0, .task 0 .kill, .openOk true,
      .install]

def restartedHost : Host ℕ where
  tasks := [⟨.gone, 2, ⟨0, [.batch ⟨1, 2, [1, 2], false⟩], 1, false⟩, true⟩,
    ⟨.recv, 2, .start 2, false⟩]
  live := some ⟨1, true⟩
  locked := false
  request := .idle
  forwarded := [1, 2]

theorem no_event_lost_restartInFlight :
    ∃ m, ∀ k, k ∈ restartedHost.forwarded.map id ↔ 0 < k ∧ k ≤ m := by
  have hj : Numbered id [1, 2, 3] := by decide
  have hrun : Machine.run Host.step (Host.opening 0) restartInFlight = some restartedHost := rfl
  refine no_event_lost hj hrun ?_ ?_
  · rw [restartInFlight, Machine.guarded_append]
    refine ⟨⟨trivial, fun _ _ => ⟨trivial, fun _ _ => trivial⟩⟩, ?_⟩
    rintro _ ⟨⟩
    refine ⟨?_, fun _ _ => Machine.guarded_of_forall (by simp [PumpsDeliver])⟩
    rintro _ ⟨⟩
    exact ((ExactlyOnce.nil [1, 2, 3] 0).batch (by decide) rfl (by decide) (by decide)
      (Nat.le_of_ble_eq_true rfl)).1
  · simp [restartedHost]

end ValyriaApp.BridgeHost
