import ValyriaApp.Extension.Store
import ValyriaApp.Host.Dispatch
import ValyriaApp.Host.Supervise

/-! # From the journal to the store

The pumps, the supervise tasks of the host and the store of the extension run
side by side. Every batch that is forwarded is a slice of the journal, and it
starts at or below the highest number forwarded before it, unless a restart
loads the cursor of a task that has moved it but has not yet forwarded. The
store then always holds a prefix of the journal, also when the host dies with
batches on their way and a new one is asked to go on from the store's number.
-/

namespace ValyriaApp.BridgeHost

open Bridge Reassembly

variable {WireEvent : Type}

/-- The restart does not come between a task's `fetch_max` and its `forward`. -/
def Unraced (h : Host WireEvent) : Action WireEvent → Prop
  | .load => ∀ live ∈ h.live, ∀ t ∈ h.tasks[live.task]?, ∀ b, t.pc ≠ .stored b
  | _ => True

/-! ## What stands between the host and the highest number forwarded -/

section Order

variable {seq : WireEvent → ℕ} {journal : List WireEvent} {a m m' : ℕ} {t t' : Task WireEvent}
  {h h' : Host WireEvent} {i : ℕ} {b : Bridge.EventBatch WireEvent}

/-- The events `lo + 1, …, hi` as a pump sends them. -/
def journalBatch (journal : List WireEvent) (lo hi : ℕ) : Bridge.EventBatch WireEvent :=
  ⟨lo + 1, hi, (journal.drop lo).take (hi - lo), false⟩

/-- The batch continues what was forwarded up to `m`, or repeats some of it. -/
def Held (journal : List WireEvent) (a m : ℕ) (b : Bridge.EventBatch WireEvent) : Prop :=
  ∃ lo, a ≤ lo ∧ lo ≤ m ∧ lo < b.lastSeq ∧ b.lastSeq ≤ journal.length ∧
    b = journalBatch journal lo b.lastSeq

theorem Held.mono (hb : Held journal a m b) (hm : m ≤ m') : Held journal a m' b := by
  obtain ⟨lo, hlo, hle, hrest⟩ := hb
  exact ⟨lo, hlo, hle.trans hm, hrest⟩

theorem Held.ne_nil (hb : Held journal a m b) : b.events ≠ [] := by
  obtain ⟨lo, -, -, hlt, hle, heq⟩ := hb
  intro hnil
  have hlen := congrArg (List.length ·.events) heq
  simp only [hnil, journalBatch, List.length_nil, List.length_take, List.length_drop] at hlen
  omega

theorem Held.mem_iff (hj : Numbered seq journal) (hb : Held journal a m b) :
    ∃ lo, a ≤ lo ∧ lo ≤ m ∧ lo < b.lastSeq ∧
      ∀ k, k ∈ b.events.map seq ↔ lo < k ∧ k ≤ b.lastSeq := by
  obtain ⟨lo, hlo, hle, hlt, hlen, heq⟩ := hb
  refine ⟨lo, hlo, hle, hlt, fun k => ?_⟩
  rw [heq]
  exact hj.mem_keys_slice hlen

/-- How far the task's cursor may have moved. -/
def Task.reach (m : ℕ) (t : Task WireEvent) : ℕ :=
  match t.pc with
  | .stored b => max m b.lastSeq
  | _ => m

structure TaskOrder (seq : WireEvent → ℕ) (journal : List WireEvent) (a m : ℕ)
    (t : Task WireEvent) : Prop where
  inv : TaskInv seq journal a (t.reach m) t
  held : ∀ b, t.pc = .batch b ∨ t.pc = .stored b → Held journal a m b

/-- The events forwarded are `(a, m]`; no cursor lies past `m`, but for that of a task about to
forward. -/
structure HostOrder (seq : WireEvent → ℕ) (journal : List WireEvent) (a m : ℕ)
    (h : Host WireEvent) : Prop where
  le : a ≤ m
  length : m ≤ journal.length
  forwarded : ∀ k, k ∈ h.forwarded.map seq ↔ a < k ∧ k ≤ m
  tasks : ∀ t ∈ h.tasks, TaskOrder seq journal a m t
  request : RequestInv a m h.request

theorem reach_mono (hm : m ≤ m') : t.reach m ≤ t.reach m' := by
  unfold Task.reach
  split
  · exact max_le_max hm le_rfl
  · exact hm

theorem reach_of_not_stored (ht : ∀ b, t.pc ≠ .stored b) : t.reach m = m := by
  unfold Task.reach
  split
  · next b hpc => exact absurd hpc (ht b)
  · rfl

theorem TaskOrder.mono (ht : TaskOrder seq journal a m t) (hm : m ≤ m') :
    TaskOrder seq journal a m' t :=
  ⟨ht.inv.mono (reach_mono hm), fun b hb => (ht.held b hb).mono hm⟩

theorem TaskOrder.abort (ht : TaskOrder seq journal a m t) :
    TaskOrder seq journal a m { t with aborted := true } :=
  ⟨ht.inv.abort, ht.held⟩

/-! ### The steps of a task -/

/-- What a step does to the place of the task. -/
inductive Moved (t t' : Task WireEvent) : Prop where
  | same (hpc : t'.pc = t.pc)
  | received (msg : PumpMessage WireEvent) (hpc : t.pc = .recv)
      (hmsg : t.pump.sent[t.pump.received]? = some msg) (hpc' : t'.pc = received msg)
  | stored (b : Bridge.EventBatch WireEvent) (hpc : t.pc = .batch b) (hpc' : t'.pc = .stored b)
  | other (hpc : ∀ b, t.pc ≠ .stored b) (hpc' : ∀ b, t'.pc ≠ .batch b ∧ t'.pc ≠ .stored b)

theorem moved_of_superviseStep {act : TaskAction WireEvent}
    (hstep : superviseStep t act = some t') : Moved t t' := by
  cases act with
  | pumpSend msg =>
    simp only [superviseStep, Task.pumpSend] at hstep
    split at hstep
    · cases hstep
    · cases hstep
      exact .same rfl
  | pumpReturn =>
    cases hstep
    exact .same rfl
  | recv =>
    simp only [superviseStep, Task.recv] at hstep
    split at hstep
    · next hpc _ =>
      split at hstep
      · next b hmsg =>
        cases hstep
        exact .received _ hpc hmsg rfl
      · next start hmsg =>
        cases hstep
        exact .received _ hpc hmsg rfl
      · next lastSeq hmsg =>
        cases hstep
        exact .received _ hpc hmsg rfl
      · split at hstep
        · cases hstep
          exact .other (by simp [hpc]) (by simp)
        · cases hstep
    · cases hstep
  | store =>
    simp only [superviseStep, Task.store] at hstep
    split at hstep
    · next b hpc =>
      cases hstep
      exact .stored b hpc rfl
    · next lastSeq hpc =>
      cases hstep
      exact .other (by simp [hpc]) (by simp)
    · cases hstep
  | restartFail =>
    simp only [superviseStep, Task.restartFail] at hstep
    split at hstep
    · next attempt hpc _ =>
      split at hstep
      · cases hstep
        exact .other (by simp [hpc]) (by simp)
      · cases hstep
        exact .other (by simp [hpc]) (by simp)
    · cases hstep
  | restartOk owned =>
    simp only [superviseStep, Task.restartOk] at hstep
    split at hstep
    · next attempt hpc _ =>
      cases hstep
      exact .other (by simp [hpc]) (by simp)
    · cases hstep
  | kill =>
    simp only [superviseStep, Task.kill] at hstep
    split at hstep
    · next hpc _ =>
      cases hstep
      exact .other (by simp [hpc]) (by simp)
    · next attempt hpc _ =>
      cases hstep
      exact .other (by simp [hpc]) (by simp)
    · next owned hpc _ =>
      cases hstep
      exact .other (by simp [hpc]) (by simp)
    · cases hstep

/-- A step that puts nothing in flight moves no cursor past `m`. -/
theorem TaskSpec.same (ham : a ≤ m) (hspec : TaskSpec seq journal a m t t')
    (hflight : t'.inFlight = t.inFlight) : TaskInv seq journal a m t' := by
  rcases hspec with ⟨-, ht'⟩ | ⟨hnone, m', hm, ht', hk⟩
  · exact ht'
  · obtain rfl : m' = m := by
      rw [hflight, hnone] at hk
      simp only [List.map_nil, List.not_mem_nil, false_or] at hk
      have hm' := hk m'
      omega
    exact ht'

/-- Storing a batch moves the cursor to its last number, or leaves it past that. -/
theorem TaskSpec.store (hj : Numbered seq journal) (ham : a ≤ m)
    (hspec : TaskSpec seq journal a m t t') (hb : Held journal a m b) (hnone : t.inFlight = [])
    (hflight : t'.inFlight = b.events) : TaskInv seq journal a (max m b.lastSeq) t' := by
  rcases hspec with ⟨hsame, -⟩ | ⟨-, m', hm, ht', hk⟩
  · exact absurd (hflight.symm.trans (hsame.trans hnone)) hb.ne_nil
  · obtain ⟨lo, hlo, hle, hlt, hmem⟩ := hb.mem_iff hj
    obtain rfl : m' = max m b.lastSeq := by
      rw [hflight] at hk
      simp only [hmem] at hk
      have hm' := hk m'
      have hmax := hk (max m b.lastSeq)
      omega
    exact ht'

theorem inFlight_eq_nil (ht : ∀ b, t.pc ≠ .stored b) : t.inFlight = [] := by
  unfold Task.inFlight
  split
  · next b hpc => exact absurd hpc (ht b)
  · rfl

theorem received_ne_stored (msg : PumpMessage WireEvent) (b : Bridge.EventBatch WireEvent) :
    received msg ≠ .stored b := by
  cases msg <;> simp [received]

/-- The batch a task receives starts where the task's pump stood. -/
theorem TaskInv.held_of_received (hj : Numbered seq journal) (ht : TaskInv seq journal a m t)
    (hposition : t.pump.position seq ≤ m)
    (hmsg : t.pump.sent[t.pump.received]? = some (.batch b)) : Held journal a m b := by
  obtain ⟨hlt, hget⟩ := List.getElem?_eq_some_iff.mp hmsg
  have hsplit : t.pump.sent = t.pump.sent.take t.pump.received ++
      .batch b :: t.pump.sent.drop (t.pump.received + 1) := by
    rw [← hget, ← List.drop_eq_getElem_cons hlt, List.take_append_drop]
  have hsent : ExactlyOnce seq journal t.pump.cursor (t.pump.sent.take t.pump.received ++
      .batch b :: t.pump.sent.drop (t.pump.received + 1)) := hsplit ▸ ht.sent
  have hbefore := hsent.of_append hj
  obtain ⟨hlen, heq⟩ := hsent.batch_eq hj rfl
  exact ⟨t.pump.position seq, ht.cursor.trans (hbefore.applied_le hj), hposition,
    (hsent.batch_seqs hj).2.1, hlen, heq⟩

theorem TaskOrder.step (hj : Numbered seq journal) (ham : a ≤ m)
    (ht : TaskOrder seq journal a m t) {act : TaskAction WireEvent}
    (hpump : ∀ msg, act = .pumpSend msg →
      ExactlyOnce seq journal t.pump.cursor (t.pump.sent ++ [msg]))
    (hstep : superviseStep t act = some t') : TaskOrder seq journal a m t' := by
  have hspec := superviseStep_spec hj ht.inv hpump hstep
  have hreach : a ≤ t.reach m := ham.trans (by unfold Task.reach; split <;> simp)
  cases moved_of_superviseStep hstep with
  | same hpc =>
    have hsame : t'.reach m = t.reach m := by rw [Task.reach, hpc, Task.reach]
    refine ⟨?_, ?_⟩
    · rw [hsame]
      exact hspec.same hreach (by rw [Task.inFlight, hpc, Task.inFlight])
    · rw [hpc]
      exact ht.held
  | received msg hpc hmsg hpc' =>
    have hnot : ∀ b, t.pc ≠ .stored b := by simp [hpc]
    have hnot' : ∀ b, t'.pc ≠ .stored b := fun b => hpc' ▸ received_ne_stored msg b
    have hinv := ht.inv
    rw [reach_of_not_stored hnot] at hspec hinv hreach
    refine ⟨?_, ?_⟩
    · rw [reach_of_not_stored hnot']
      exact hspec.same ham (by rw [inFlight_eq_nil hnot', inFlight_eq_nil hnot])
    · rintro b (hb | hb)
      · cases msg with
        | batch b' =>
          obtain rfl : b' = b := TaskPc.batch.inj (hpc'.symm.trans hb)
          have hposition : PcInv seq a m (t.pump.position seq) .recv := hpc ▸ hinv.pc
          exact hinv.held_of_received hj hposition hmsg
        | reconnected start => cases hpc'.symm.trans hb
        | closed lastSeq => cases hpc'.symm.trans hb
      · exact absurd hb (hnot' b)
  | stored b hpc hpc' =>
    have hnot : ∀ b, t.pc ≠ .stored b := by simp [hpc]
    have hb := ht.held b (Or.inl hpc)
    rw [reach_of_not_stored hnot] at hspec
    refine ⟨?_, ?_⟩
    · have hflight : t'.inFlight = b.events := by rw [Task.inFlight, hpc']
      rw [Task.reach, hpc']
      exact hspec.store hj ham hb (inFlight_eq_nil hnot) hflight
    · rintro b' (hb' | hb')
      · cases hpc'.symm.trans hb'
      · obtain rfl : b = b' := TaskPc.stored.inj (hpc'.symm.trans hb')
        exact hb
  | other hpc hpc' =>
    have hnot' : ∀ b, t'.pc ≠ .stored b := fun b => (hpc' b).2
    rw [reach_of_not_stored hpc] at hspec
    refine ⟨?_, ?_⟩
    · rw [reach_of_not_stored hnot']
      exact hspec.same ham (by rw [inFlight_eq_nil hnot', inFlight_eq_nil hpc])
    · rintro b (hb | hb)
      · exact absurd hb (hpc' b).1
      · exact absurd hb (hpc' b).2

/-! ### The steps of the host -/

theorem HostOrder.set (hI : HostOrder seq journal a m h) (ht' : TaskOrder seq journal a m t') :
    HostOrder seq journal a m { h with tasks := h.tasks.set i t' } :=
  { hI with tasks := Pool.forall_mem_set hI.tasks ht' }

theorem HostOrder.task (hI : HostOrder seq journal a m h) (ht : h.tasks[i]? = some t) :
    TaskOrder seq journal a m t := hI.tasks t (List.mem_of_getElem? ht)

theorem TaskOrder.goto (ht : TaskOrder seq journal a m t) (pc : TaskPc WireEvent)
    (hnot : ∀ b, t.pc ≠ .stored b) (hpc : PcInv seq a m (t.pump.position seq) pc)
    (hnot' : ∀ b, pc ≠ .batch b ∧ pc ≠ .stored b) : TaskOrder seq journal a m { t with pc } := by
  have hinv := ht.inv
  rw [reach_of_not_stored hnot] at hinv
  refine ⟨?_, ?_⟩
  · rw [reach_of_not_stored fun b => (hnot' b).2]
    exact { hinv with pc := hpc }
  · rintro b (hb | hb)
    · exact absurd hb (hnot' b).1
    · exact absurd hb (hnot' b).2

theorem HostOrder.abort (hI : HostOrder seq journal a m h) (i : ℕ) :
    HostOrder seq journal a m (h.abort i) := by
  unfold Host.abort
  split
  · next t ht => exact hI.set (hI.task ht).abort
  · exact hI

theorem HostOrder.dropLive (hI : HostOrder seq journal a m h) :
    HostOrder seq journal a m h.dropLive := by
  unfold Host.dropLive
  split
  · exact { hI.abort _ with }
  · exact hI

/-- What is forwarded starts at or below the highest number forwarded, and moves it. -/
theorem HostOrder.forward (hj : Numbered seq journal) (hI : HostOrder seq journal a m h)
    (ht : h.tasks[i]? = some t) (hpc : t.pc = .stored b) :
    Held journal a m b ∧ HostOrder seq journal a (max m b.lastSeq) { h with
      tasks := h.tasks.set i { t with pc := .recv }, forwarded := h.forwarded ++ b.events } := by
  have hb := (hI.task ht).held b (Or.inr hpc)
  have hinv := (hI.task ht).inv
  rw [Task.reach, hpc] at hinv
  have hposition : PcInv seq a (max m b.lastSeq) (t.pump.position seq) (.stored b) := hpc ▸ hinv.pc
  obtain ⟨lo, hlo, hle, hlt, hmem⟩ := hb.mem_iff hj
  have hlen : b.lastSeq ≤ journal.length := by
    obtain ⟨_, _, _, _, hlen, _⟩ := hb
    exact hlen
  have hm : m ≤ max m b.lastSeq := le_max_left _ _
  refine ⟨hb, hI.le.trans hm, max_le hI.length hlen, fun k => ?_, ?_, hI.request.mono hm⟩
  · have hk := hI.forwarded k
    rw [List.map_append, List.mem_append, hk, hmem]
    omega
  · refine Pool.forall_mem_set (fun u hu => (hI.tasks u hu).mono hm) ⟨?_, by simp⟩
    exact { hinv with pc := hposition }

theorem HostOrder.swap (hI : HostOrder seq journal a m h) (hstep : h.step (.swap i) = some h') :
    HostOrder seq journal a m h' := by
  obtain ⟨t, ht, hstep⟩ := Option.bind_eq_some_iff.mp hstep
  have htI := hI.task ht
  split at hstep
  · next owned hpc _ _ =>
    have hnot : ∀ b, t.pc ≠ .stored b := by simp [hpc]
    have hposition : PcInv seq a m (t.pump.position seq) t.pc := by
      have hinv := htI.inv
      rw [reach_of_not_stored hnot] at hinv
      exact hinv.pc
    rw [hpc] at hposition
    split at hstep
    · cases hstep
      have hset := hI.set (i := i) (htI.goto .recv hnot hposition (by simp))
      exact { hset with }
    · cases hstep
      exact hI.set (htI.goto .gone hnot hposition (by simp))
  · cases hstep

theorem HostOrder.openOk (hI : HostOrder seq journal a m h) {owned : Bool}
    (hstep : h.step (.openOk owned) = some h') : HostOrder seq journal a m h' := by
  have hrequest := hI.request
  unfold Host.step at hstep
  dsimp only at hstep
  split at hstep
  · next appliedThrough hreq =>
    cases hstep
    rw [hreq] at hrequest
    obtain ⟨hle, hge⟩ := hrequest
    refine ⟨hI.le, hI.length, hI.forwarded, ?_, trivial⟩
    intro t ht
    rcases List.mem_append.mp ht with ht | ht
    · exact hI.tasks t ht
    · obtain rfl := List.mem_singleton.mp ht
      exact ⟨⟨hle, hge, hle, ExactlyOnce.nil _ _, le_rfl, hge⟩, by simp⟩
  · cases hstep

/-- The cursor that a restart loads is that of a task which has forwarded what it received. -/
theorem HostOrder.load (hI : HostOrder seq journal a m h) (hrace : Unraced h .load)
    (hstep : h.step .load = some h') : HostOrder seq journal a m h' := by
  unfold Host.step at hstep
  dsimp only at hstep
  split at hstep
  · next live _ hlive =>
    obtain ⟨t, ht, hstep⟩ := Option.bind_eq_some_iff.mp hstep
    cases hstep
    have hinv := (hI.task ht).inv
    rw [reach_of_not_stored (hrace live hlive t ht)] at hinv
    exact { hI with request := ⟨hinv.lower, hinv.upper⟩ }
  · cases hstep

theorem HostOrder.step (hj : Numbered seq journal) (hI : HostOrder seq journal a m h)
    {act : Action WireEvent} (hpump : PumpsDeliver seq journal h act) (hrace : Unraced h act)
    (hforward : ∀ i, act ≠ .forward i) (hstep : h.step act = some h') :
    HostOrder seq journal a m h' := by
  cases act with
  | task i act =>
    obtain ⟨t, ht, hstep⟩ := Option.bind_eq_some_iff.mp hstep
    obtain ⟨t', ht', hstep⟩ := Option.bind_eq_some_iff.mp hstep
    cases hstep
    refine hI.set ((hI.task ht).step hj hI.le ?_ ht')
    rintro msg rfl
    exact hpump t ht
  | forward i => exact absurd rfl (hforward i)
  | swap i => exact hI.swap hstep
  | lock =>
    unfold Host.step at hstep
    dsimp only at hstep
    split at hstep
    · split at hstep
      · cases hstep
        exact { hI with request := trivial }
      · cases hstep
        exact hI
    · cases hstep
      exact hI
    · cases hstep
  | load => exact hI.load hrace hstep
  | stop =>
    have hrequest := hI.request
    unfold Host.step at hstep
    dsimp only at hstep
    split at hstep
    · next c i hreq =>
      cases hstep
      rw [hreq] at hrequest
      exact { hI.abort i with request := hrequest }
    · cases hstep
  | openFail =>
    unfold Host.step at hstep
    dsimp only at hstep
    split at hstep
    · cases hstep
      exact { hI with request := trivial }
    · cases hstep
  | openOk owned => exact hI.openOk hstep
  | install =>
    unfold Host.step at hstep
    dsimp only at hstep
    split at hstep
    · cases hstep
      exact { hI.dropLive with request := trivial }
    · cases hstep
  | close =>
    unfold Host.step at hstep
    dsimp only at hstep
    split at hstep
    · cases hstep
      exact hI.dropLive
    · cases hstep

theorem hostOrder_opening (ha : a ≤ journal.length) :
    HostOrder seq journal a a (Host.opening a) where
  le := le_rfl
  length := ha
  forwarded k := by simp [Host.opening]
  tasks := by simp [Host.opening]
  request := ⟨le_rfl, le_rfl⟩

end Order

/-! ## The processes together -/

/-- `forward_batch`. -/
def forwardBatch (json : WireEvent → Json) (b : Bridge.EventBatch WireEvent) :
    ValyriaApp.EventBatch where
  firstSeq := b.firstSeq
  lastSeq := b.lastSeq
  gapBefore := b.gapBefore
  events := b.events.map json

structure System (WireEvent : Type) where
  /-- The number the present host was asked to open the session with. -/
  openedFrom : ℕ
  host : Host WireEvent
  /-- The pump of each supervise task. -/
  pumps : List (Pump WireEvent)
  /-- The batches on their way to the extension. -/
  channel : List ValyriaApp.EventBatch
  store : Store

inductive SystemAction (WireEvent : Type) where
  | pump (i : ℕ) (a : PumpAction WireEvent)
  | host (a : Action WireEvent)
  | ingest
  | setConnection (state : ConnectionState)
  /-- The host is gone, and a new one is asked to open the session. -/
  | respawn

def hasReturned (p : Pump WireEvent) : Bool :=
  match p.pc with
  | .returned | .panicked => true
  | _ => false

/-- What a step of the pump of task `i` means for the task. -/
def pumped (i : ℕ) (p p' : Pump WireEvent) : List (Action WireEvent) :=
  (p'.sent.drop p.sent.length).map (fun msg => .task i (.pumpSend msg)) ++
    if hasReturned p' then [.task i .pumpReturn] else []

def Action.ofPump : Action WireEvent → Bool
  | .task _ (.pumpSend _) | .task _ .pumpReturn => true
  | _ => false

/-- The pumps after a step of the host: a restart and a request start one. -/
def started (pumps : List (Pump WireEvent)) (h' : Host WireEvent) :
    Action WireEvent → List (Pump WireEvent)
  | .task i (.restartOk _) =>
    (h'.tasks[i]?).elim pumps fun t => pumps.set i (Pump.start t.pump.cursor)
  | .openOk _ => h'.tasks.getLast?.elim pumps fun t => pumps ++ [Pump.start t.pump.cursor]
  | _ => pumps

/-- The batch a step of the host forwards. -/
def sends (json : WireEvent → Json) (h : Host WireEvent) :
    Action WireEvent → List ValyriaApp.EventBatch
  | .forward i =>
    match h.tasks[i]?.map Task.pc with
    | some (.stored b) => [forwardBatch json b]
    | _ => []
  | _ => []

/-- The `appliedThrough` a host reads from the number of the store. -/
def reopenFrom (store : Store) : ℕ := (Dispatch.asU64 (.num store.lastSeq)).getD 0

namespace System

def start (a : ℕ) (store : Store) : System WireEvent where
  openedFrom := a
  host := Host.opening a
  pumps := []
  channel := []
  store := store

def step (seq : WireEvent → ℕ) (json : WireEvent → Json) (s : System WireEvent) :
    SystemAction WireEvent → Option (System WireEvent)
  | .pump i a => do
    let p ← s.pumps[i]?
    let p' ← pumpLoop seq p a
    let host ← Machine.run Host.step s.host (pumped i p p')
    some { s with host, pumps := s.pumps.set i p' }
  | .host a =>
    if a.ofPump then none
    else do
      let host ← s.host.step a
      some { s with
        host
        pumps := started s.pumps host a
        channel := s.channel ++ sends json s.host a }
  | .ingest =>
    match s.channel with
    | [] => none
    | batch :: channel => some { s with channel, store := s.store.ingestBatch batch }
  | .setConnection state => some { s with store := s.store.setConnection state }
  | .respawn => some (start (reopenFrom s.store) s.store)

end System

/-- Core serves every subscription gap-free, and no restart overtakes a batch. -/
def SystemServed (seq : WireEvent → ℕ) (journal : List WireEvent) (s : System WireEvent) :
    SystemAction WireEvent → Prop
  | .pump i a => ∀ p ∈ s.pumps[i]?, ServedGapFree seq journal p a
  | .host a => Unraced s.host a
  | _ => True

section Together

variable {seq : WireEvent → ℕ} {json : WireEvent → Json} {journal : List WireEvent} {a c m : ℕ}
  {h h' : Host WireEvent} {pumps : List (Pump WireEvent)} {i : ℕ} {p p' : Pump WireEvent}
  {s s' : System WireEvent} {store : Store}

/-- The batches in the channel lead the store from `c` to `m`. -/
def Leads (journal : List Json) : ℕ → List ValyriaApp.EventBatch → ℕ → Prop
  | c, [], m => c = m
  | c, b :: bs, m => ∃ lo hi, lo ≤ c ∧ hi ≤ journal.length ∧ b = batchOf journal lo hi ∧
      Leads journal (max c hi) bs m

theorem Leads.concat {journal : List Json} {bs : List ValyriaApp.EventBatch} {lo hi : ℕ}
    (h : Leads journal c bs m) (hlo : lo ≤ m) (hhi : hi ≤ journal.length) :
    Leads journal c (bs ++ [batchOf journal lo hi]) (max m hi) := by
  induction bs generalizing c with
  | nil =>
    obtain rfl : c = m := h
    exact ⟨lo, hi, hlo, hhi, rfl, rfl⟩
  | cons b bs ih =>
    obtain ⟨lo', hi', hlo', hhi', rfl, hrest⟩ := h
    exact ⟨lo', hi', hlo', hhi', rfl, ih hrest⟩

theorem Leads.le {journal : List Json} {bs : List ValyriaApp.EventBatch}
    (h : Leads journal c bs m) : c ≤ m := by
  induction bs generalizing c with
  | nil => exact (show c = m from h).le
  | cons b bs ih =>
    obtain ⟨lo, hi, -, -, -, hrest⟩ := h
    exact (le_max_left _ _).trans (ih hrest)

theorem forwardBatch_journalBatch (json : WireEvent → Json) (journal : List WireEvent)
    (lo hi : ℕ) :
    forwardBatch json (journalBatch journal lo hi) = batchOf (journal.map json) lo hi := by
  simp [forwardBatch, journalBatch, batchOf, slice, List.drop_take, List.map_take, List.map_drop]

/-! ### The pumps -/

theorem send_sent (p : Pump WireEvent) (msg : PumpMessage WireEvent) (sendOk : Bool)
    (next : PumpPc WireEvent) : ∃ new : Option (PumpMessage WireEvent),
      (p.send msg sendOk next).sent = p.sent ++ new.toList := by
  cases sendOk with
  | true => exact ⟨some msg, rfl⟩
  | false => exact ⟨none, (List.append_nil _).symm⟩

/-- A step of a pump sends at most one message. -/
theorem sent_of_pumpLoop {act : PumpAction WireEvent} (hstep : pumpLoop seq p act = some p') :
    ∃ new : Option (PumpMessage WireEvent), p'.sent = p.sent ++ new.toList := by
  have hnone : ∃ new : Option (PumpMessage WireEvent), p.sent = p.sent ++ new.toList :=
    ⟨none, (List.append_nil _).symm⟩
  cases pumped_of_pumpLoop seq hstep with
  | reconnected _ _ => exact send_sent p _ _ _
  | closed _ _ => exact send_sent p _ _ _
  | @collected window pos pos' sendOk stream events _ _ =>
    unfold Pump.deliver
    split
    · exact send_sent _ _ _ _
    · exact hnone
  | _ => exact hnone

theorem step_pumpSend {msg : PumpMessage WireEvent}
    (hstep : h.step (.task i (.pumpSend msg)) = some h') :
    ∃ t, h.tasks[i]? = some t ∧ h' = { h with
      tasks := h.tasks.set i { t with pump := { t.pump with sent := t.pump.sent ++ [msg] } } } := by
  obtain ⟨t, ht, hstep⟩ := Option.bind_eq_some_iff.mp hstep
  obtain ⟨t', ht', hstep⟩ := Option.bind_eq_some_iff.mp hstep
  cases hstep
  simp only [superviseStep, Task.pumpSend] at ht'
  split at ht'
  · cases ht'
  · cases ht'
    exact ⟨t, ht, rfl⟩

theorem step_pumpReturn (hstep : h.step (.task i .pumpReturn) = some h') :
    ∃ t, h.tasks[i]? = some t ∧ h' = { h with
      tasks := h.tasks.set i { t with pump := { t.pump with returned := true } } } := by
  obtain ⟨t, ht, hstep⟩ := Option.bind_eq_some_iff.mp hstep
  cases hstep
  exact ⟨t, ht, rfl⟩

theorem set_self {t : Task WireEvent} (ht : h.tasks[i]? = some t) : h.tasks.set i t = h.tasks := by
  obtain ⟨hlt, rfl⟩ := List.getElem?_eq_some_iff.mp ht
  exact List.set_getElem_self hlt

/-- The task of a pump sees what the pump has sent, and nothing else changes. -/
theorem run_pumped {t : Task WireEvent} {act : PumpAction WireEvent}
    (ht : h.tasks[i]? = some t) (hsent : p.sent = t.pump.sent)
    (hstep : pumpLoop seq p act = some p')
    (hrun : Machine.run Host.step h (pumped i p p') = some h') :
    ∃ returned, h' = { h with
      tasks := h.tasks.set i { t with pump := { t.pump with sent := p'.sent, returned } } } := by
  obtain ⟨new, hp'⟩ := sent_of_pumpLoop hstep
  rw [pumped, hp', List.drop_left, Machine.run_append, Option.bind_eq_some_iff] at hrun
  obtain ⟨h₁, hsend, hreturn⟩ := hrun
  obtain rfl : h₁ = { h with
      tasks := h.tasks.set i { t with pump := { t.pump with sent := p'.sent } } } := by
    cases new with
    | none =>
      cases hsend
      rw [hp', Option.toList_none, List.append_nil, hsent, set_self ht]
    | some msg =>
      obtain ⟨h₂, hsend, hnil⟩ := Machine.run_cons_eq_some.mp hsend
      cases hnil
      obtain ⟨t', ht', rfl⟩ := step_pumpSend hsend
      obtain rfl := Option.some.inj (ht.symm.trans ht')
      rw [hp', hsent]
      rfl
  split at hreturn
  · obtain ⟨h₂, hreturn, hnil⟩ := Machine.run_cons_eq_some.mp hreturn
    cases hnil
    obtain ⟨t', ht', rfl⟩ := step_pumpReturn hreturn
    rw [Pool.getElem?_set_self ht] at ht'
    cases ht'
    exact ⟨true, by simp only [List.set_set]⟩
  · cases hreturn
    exact ⟨t.pump.returned, rfl⟩

theorem TaskOrder.pump {t : Task WireEvent} (ht : TaskOrder seq journal a m t)
    {sent : List (PumpMessage WireEvent)} (hpre : t.pump.sent <+: sent)
    (hsent : ExactlyOnce seq journal t.pump.cursor sent) (returned : Bool) :
    TaskOrder seq journal a m { t with pump := { t.pump with sent, returned } } := by
  obtain ⟨new, rfl⟩ := hpre
  have hinv := ht.inv
  have htake : (t.pump.sent ++ new).take t.pump.received = t.pump.sent.take t.pump.received :=
    List.take_append_of_le_length hinv.received
  have hpc := hinv.pc
  rw [EventPump.position, ← htake] at hpc
  refine ⟨⟨hinv.lower, hinv.upper, hinv.cursor, hsent, ?_, hpc⟩, ht.held⟩
  rw [List.length_append]
  exact hinv.received.trans (Nat.le_add_right _ _)

/-! ### The pumps of the tasks -/

def pumpOf (t : Task WireEvent) : ℕ × List (PumpMessage WireEvent) := (t.pump.cursor, t.pump.sent)

/-- Each pump has sent what its task sees, and started at the cursor the task gave it. -/
structure Agrees (seq : WireEvent → ℕ) (journal : List WireEvent) (tasks : List (Task WireEvent))
    (pumps : List (Pump WireEvent)) : Prop where
  length : pumps.length = tasks.length
  pump : ∀ (i : ℕ) (t : Task WireEvent) (p : Pump WireEvent), tasks[i]? = some t →
    pumps[i]? = some p → p.sent = t.pump.sent ∧ PumpInv seq journal t.pump.cursor p

theorem Agrees.of_map {tasks tasks' : List (Task WireEvent)} (hI : Agrees seq journal tasks pumps)
    (hmap : tasks'.map pumpOf = tasks.map pumpOf) : Agrees seq journal tasks' pumps := by
  constructor
  · have hlen := congrArg List.length hmap
    rw [List.length_map, List.length_map] at hlen
    exact hI.length.trans hlen.symm
  · intro i t' p ht' hp
    have hget := congrArg (·[i]?) hmap
    simp only [List.getElem?_map, ht', Option.map_some] at hget
    obtain ⟨t, ht, hof⟩ := Option.map_eq_some_iff.mp hget.symm
    obtain ⟨hcursor, hsent⟩ := Prod.mk.inj hof
    rw [← hcursor, ← hsent]
    exact hI.pump i t p ht hp

theorem Agrees.set {tasks : List (Task WireEvent)} (hI : Agrees seq journal tasks pumps)
    {t' : Task WireEvent} (hsent : p'.sent = t'.pump.sent)
    (hp' : PumpInv seq journal t'.pump.cursor p') :
    Agrees seq journal (tasks.set i t') (pumps.set i p') := by
  constructor
  · rw [List.length_set, List.length_set, hI.length]
  · intro j t p ht hp
    by_cases hji : i = j
    · subst hji
      obtain ⟨hlt, rfl⟩ := List.getElem?_eq_some_iff.mp ht
      obtain ⟨hlt', rfl⟩ := List.getElem?_eq_some_iff.mp hp
      rw [List.getElem_set_self, List.getElem_set_self]
      exact ⟨hsent, hp'⟩
    · rw [List.getElem?_set_ne hji] at ht hp
      exact hI.pump j t p ht hp

theorem Agrees.concat {tasks : List (Task WireEvent)} (hI : Agrees seq journal tasks pumps)
    {t' : Task WireEvent} (hsent : p'.sent = t'.pump.sent)
    (hp' : PumpInv seq journal t'.pump.cursor p') :
    Agrees seq journal (tasks ++ [t']) (pumps ++ [p']) := by
  constructor
  · simp [hI.length]
  · intro j t p ht hp
    rcases Pool.getElem?_concat_cases ht with ht | ⟨rfl, rfl⟩
    · have hlt : j < pumps.length := by
        rw [hI.length]
        exact (List.getElem?_eq_some_iff.mp ht).1
      rw [List.getElem?_append_left hlt] at hp
      exact hI.pump j t p ht hp
    · rw [← hI.length, List.getElem?_concat_length] at hp
      cases hp
      exact ⟨hsent, hp'⟩

theorem map_pumpOf_set {tasks : List (Task WireEvent)} {t t' : Task WireEvent}
    (ht : tasks[i]? = some t) (hof : pumpOf t' = pumpOf t) :
    (tasks.set i t').map pumpOf = tasks.map pumpOf := by
  obtain ⟨hlt, rfl⟩ := List.getElem?_eq_some_iff.mp ht
  have hset : (tasks.set i t').map pumpOf = (tasks.set i tasks[i]).map pumpOf := by
    rw [List.map_set, List.map_set, hof]
  rw [hset, List.set_getElem_self]

theorem pumpOf_of_superviseStep {t t' : Task WireEvent} {act : TaskAction WireEvent}
    (hpump : ∀ i : ℕ, (Action.task i act).ofPump = false)
    (hrestart : ∀ owned, act ≠ .restartOk owned) (hstep : superviseStep t act = some t') :
    pumpOf t' = pumpOf t := by
  cases act with
  | pumpSend msg => cases hpump 0
  | pumpReturn => cases hpump 0
  | recv =>
    simp only [superviseStep, Task.recv] at hstep
    split at hstep
    · split at hstep
      · cases hstep
        rfl
      · cases hstep
        rfl
      · cases hstep
        rfl
      · split at hstep
        · cases hstep
          rfl
        · cases hstep
    · cases hstep
  | store =>
    simp only [superviseStep, Task.store] at hstep
    split at hstep
    · cases hstep
      rfl
    · cases hstep
      rfl
    · cases hstep
  | restartFail =>
    simp only [superviseStep, Task.restartFail] at hstep
    split at hstep
    · split at hstep
      · cases hstep
        rfl
      · cases hstep
        rfl
    · cases hstep
  | restartOk owned => exact absurd rfl (hrestart owned)
  | kill =>
    simp only [superviseStep, Task.kill] at hstep
    split at hstep
    · cases hstep
      rfl
    · cases hstep
      rfl
    · cases hstep
      rfl
    · cases hstep

theorem map_pumpOf_abort (h : Host WireEvent) (i : ℕ) :
    (h.abort i).tasks.map pumpOf = h.tasks.map pumpOf := by
  unfold Host.abort
  split
  · next t ht => exact map_pumpOf_set ht rfl
  · rfl

theorem map_pumpOf_dropLive (h : Host WireEvent) :
    h.dropLive.tasks.map pumpOf = h.tasks.map pumpOf := by
  unfold Host.dropLive
  split
  · exact map_pumpOf_abort h _
  · rfl

theorem map_pumpOf_of_task {act : TaskAction WireEvent}
    (hpump : (Action.task i act).ofPump = false) (hrestart : ∀ owned, act ≠ .restartOk owned)
    (hstep : h.step (.task i act) = some h') : h'.tasks.map pumpOf = h.tasks.map pumpOf := by
  obtain ⟨t, ht, hstep⟩ := Option.bind_eq_some_iff.mp hstep
  obtain ⟨t', ht', hstep⟩ := Option.bind_eq_some_iff.mp hstep
  cases hstep
  have hof : pumpOf t' = pumpOf t := by
    refine pumpOf_of_superviseStep (fun _ => ?_) hrestart ht'
    cases act <;> first | rfl | cases hpump
  exact map_pumpOf_set ht hof

theorem map_pumpOf_of_forward (hstep : h.step (.forward i) = some h') :
    h'.tasks.map pumpOf = h.tasks.map pumpOf := by
  obtain ⟨t, ht, hstep⟩ := Option.bind_eq_some_iff.mp hstep
  split at hstep
  · cases hstep
    exact map_pumpOf_set ht rfl
  · cases hstep

theorem map_pumpOf_of_swap (hstep : h.step (.swap i) = some h') :
    h'.tasks.map pumpOf = h.tasks.map pumpOf := by
  obtain ⟨t, ht, hstep⟩ := Option.bind_eq_some_iff.mp hstep
  split at hstep
  · split at hstep
    · cases hstep
      exact map_pumpOf_set ht rfl
    · cases hstep
      exact map_pumpOf_set ht rfl
  · cases hstep

theorem tasks_of_lock (hstep : h.step .lock = some h') : h'.tasks = h.tasks := by
  unfold Host.step at hstep
  dsimp only at hstep
  split at hstep
  · split at hstep
    · cases hstep
      rfl
    · cases hstep
      rfl
  · cases hstep
    rfl
  · cases hstep

theorem tasks_of_load (hstep : h.step .load = some h') : h'.tasks = h.tasks := by
  unfold Host.step at hstep
  dsimp only at hstep
  split at hstep
  · obtain ⟨t, ht, hstep⟩ := Option.bind_eq_some_iff.mp hstep
    cases hstep
    rfl
  · cases hstep

theorem tasks_of_openFail (hstep : h.step .openFail = some h') : h'.tasks = h.tasks := by
  unfold Host.step at hstep
  dsimp only at hstep
  split at hstep
  · cases hstep
    rfl
  · cases hstep

theorem map_pumpOf_of_stop (hstep : h.step .stop = some h') :
    h'.tasks.map pumpOf = h.tasks.map pumpOf := by
  unfold Host.step at hstep
  dsimp only at hstep
  split at hstep
  · cases hstep
    exact map_pumpOf_abort h _
  · cases hstep

theorem map_pumpOf_of_install (hstep : h.step .install = some h') :
    h'.tasks.map pumpOf = h.tasks.map pumpOf := by
  unfold Host.step at hstep
  dsimp only at hstep
  split at hstep
  · cases hstep
    exact map_pumpOf_dropLive h
  · cases hstep

theorem map_pumpOf_of_close (hstep : h.step .close = some h') :
    h'.tasks.map pumpOf = h.tasks.map pumpOf := by
  unfold Host.step at hstep
  dsimp only at hstep
  split at hstep
  · cases hstep
    exact map_pumpOf_dropLive h
  · cases hstep

/-- Only a restart and an opened session bring a new pump. -/
theorem map_pumpOf_of_step {act : Action WireEvent} (hpump : act.ofPump = false)
    (hrestart : ∀ i owned, act ≠ .task i (.restartOk owned)) (hopen : ∀ owned, act ≠ .openOk owned)
    (hstep : h.step act = some h') : h'.tasks.map pumpOf = h.tasks.map pumpOf := by
  cases act with
  | task i act =>
    refine map_pumpOf_of_task hpump ?_ hstep
    rintro owned rfl
    exact hrestart i owned rfl
  | forward i => exact map_pumpOf_of_forward hstep
  | swap i => exact map_pumpOf_of_swap hstep
  | lock => rw [tasks_of_lock hstep]
  | load => rw [tasks_of_load hstep]
  | stop => exact map_pumpOf_of_stop hstep
  | openFail => rw [tasks_of_openFail hstep]
  | openOk owned => exact absurd rfl (hopen owned)
  | install => exact map_pumpOf_of_install hstep
  | close => exact map_pumpOf_of_close hstep

theorem started_eq {act : Action WireEvent} (hrestart : ∀ i owned, act ≠ .task i (.restartOk owned))
    (hopen : ∀ owned, act ≠ .openOk owned) : started pumps h' act = pumps := by
  unfold started
  split
  · next i owned => exact absurd rfl (hrestart i owned)
  · next owned => exact absurd rfl (hopen owned)
  · rfl

/-- A pump that is started resumes from a cursor no higher than what was forwarded. -/
theorem Agrees.host (hI : Agrees seq journal h.tasks pumps) (horder : HostOrder seq journal a m h)
    (hlen : journal.length < 2 ^ 64 - 1) {act : Action WireEvent} (hpump : act.ofPump = false)
    (hstep : h.step act = some h') : Agrees seq journal h'.tasks (started pumps h' act) := by
  have hbound : ∀ {k}, k ≤ m → k < 2 ^ 64 - 1 := fun hk =>
    (hk.trans horder.length).trans_lt hlen
  by_cases hrestart : ∃ i owned, act = .task i (.restartOk owned)
  · obtain ⟨i, owned, rfl⟩ := hrestart
    obtain ⟨t, ht, hstep⟩ := Option.bind_eq_some_iff.mp hstep
    obtain ⟨t', ht', hstep⟩ := Option.bind_eq_some_iff.mp hstep
    cases hstep
    simp only [superviseStep, Task.restartOk] at ht'
    split at ht'
    · next attempt hpc _ =>
      cases ht'
      have hupper := (horder.task ht).inv.upper
      rw [reach_of_not_stored (by simp [hpc])] at hupper
      rw [started, Pool.getElem?_set_self ht]
      exact hI.set rfl (pumpInv_start journal (hbound hupper))
    · cases ht'
  by_cases hopen : ∃ owned, act = .openOk owned
  · obtain ⟨owned, rfl⟩ := hopen
    have hrequest := horder.request
    unfold Host.step at hstep
    dsimp only at hstep
    split at hstep
    · next appliedThrough hreq =>
      cases hstep
      rw [hreq] at hrequest
      simp only [started, List.getLast?_concat, Option.elim_some]
      exact hI.concat rfl (pumpInv_start journal (hbound hrequest.2))
    · cases hstep
  · simp only [not_exists] at hrestart hopen
    rw [started_eq hrestart hopen]
    exact hI.of_map (map_pumpOf_of_step hpump hrestart hopen hstep)

/-! ### One step of the whole -/

structure SystemInv (seq : WireEvent → ℕ) (json : WireEvent → Json) (journal : List WireEvent)
    (a m c : ℕ) (s : System WireEvent) : Prop where
  openedFrom : s.openedFrom = a
  host : HostOrder seq journal a m s.host
  agrees : Agrees seq journal s.host.tasks s.pumps
  channel : Leads (journal.map json) c s.channel m
  le : a ≤ c
  store : Holds s.store (journal.map json) c
  lastSeq : s.store.lastSeq = c

theorem SystemInv.length (hI : SystemInv seq json journal a m c s) : c ≤ journal.length :=
  hI.channel.le.trans hI.host.length

theorem natCast_max (a b : ℕ) : ((a : Num)).max b = ((max a b : ℕ) : Num) := by
  rw [Num.max, if_neg (by simp [Num.natCast_def])]
  split_ifs with hlt
  · rw [max_eq_right (Num.natCast_lt.mp hlt).le]
  · rw [max_eq_left (Nat.not_lt.mp (Num.natCast_lt.not.mp hlt))]

theorem lastSeq_ingest {journal : List Json} {lo hi : ℕ} (h : store.lastSeq = c) (hlo : lo ≤ c)
    (hhi : hi ≤ journal.length) :
    (store.ingestBatch (batchOf journal lo hi)).lastSeq = ((max c hi : ℕ) : Num) := by
  unfold Store.ingestBatch
  by_cases hempty : (batchOf journal lo hi).events = []
  · rw [if_pos hempty]
    have hlen := congrArg List.length hempty
    simp only [batchOf, slice, List.length_drop, List.length_take, List.length_nil] at hlen
    rw [h, max_eq_left (by omega)]
  · rw [if_neg hempty]
    change store.lastSeq.max (hi : Num) = _
    rw [h, natCast_max]

theorem SystemInv.pump (hj : Numbered seq journal) (hlen : journal.length < 2 ^ 64 - 1)
    (hI : SystemInv seq json journal a m c s) {act : PumpAction WireEvent}
    (hserved : ∀ p ∈ s.pumps[i]?, ServedGapFree seq journal p act)
    (hstep : s.step seq json (.pump i act) = some s') : SystemInv seq json journal a m c s' := by
  obtain ⟨p, hp, hstep⟩ := Option.bind_eq_some_iff.mp hstep
  obtain ⟨p', hp', hstep⟩ := Option.bind_eq_some_iff.mp hstep
  obtain ⟨h', hrun, hstep⟩ := Option.bind_eq_some_iff.mp hstep
  cases hstep
  have hlt : i < s.host.tasks.length := by
    rw [← hI.agrees.length]
    exact (List.getElem?_eq_some_iff.mp hp).1
  have ht := List.getElem?_eq_getElem hlt
  obtain ⟨hsent, hpump⟩ := hI.agrees.pump i _ p ht hp
  obtain ⟨returned, rfl⟩ := run_pumped ht hsent hp' hrun
  have hpump' := PumpInv.step hj hlen hpump (hserved p hp) hp'
  obtain ⟨new, hnew⟩ := sent_of_pumpLoop hp'
  have hpre : s.host.tasks[i].pump.sent <+: p'.sent := by
    rw [hnew, hsent]
    exact List.prefix_append _ _
  refine ⟨hI.openedFrom, ?_, ?_, hI.channel, hI.le, hI.store, hI.lastSeq⟩
  · exact hI.host.set ((hI.host.task ht).pump hpre hpump'.exactly returned)
  · exact hI.agrees.set rfl hpump'

theorem SystemInv.act (hj : Numbered seq journal) (hlen : journal.length < 2 ^ 64 - 1)
    (hI : SystemInv seq json journal a m c s) {act : Action WireEvent} (hrace : Unraced s.host act)
    (hstep : s.step seq json (.host act) = some s') :
    ∃ m', SystemInv seq json journal a m' c s' := by
  simp only [System.step] at hstep
  split at hstep
  · cases hstep
  next hpump =>
  rw [Bool.not_eq_true] at hpump
  obtain ⟨h', hact, hstep⟩ := Option.bind_eq_some_iff.mp hstep
  cases hstep
  have hagrees := hI.agrees.host hI.host hlen hpump hact
  by_cases hforward : ∃ i, act = .forward i
  · obtain ⟨i, rfl⟩ := hforward
    obtain ⟨t, ht, hact⟩ := Option.bind_eq_some_iff.mp hact
    split at hact
    · next b hpc =>
      cases hact
      obtain ⟨⟨lo, -, hlo, -, hhi, hb⟩, hhost⟩ := hI.host.forward hj ht hpc
      refine ⟨max m b.lastSeq, hI.openedFrom, hhost, hagrees, ?_, hI.le, hI.store, hI.lastSeq⟩
      have hsends : sends json s.host (.forward i) =
          [batchOf (journal.map json) lo b.lastSeq] := by
        rw [sends, ht, Option.map_some, hpc, ← forwardBatch_journalBatch, ← hb]
      change Leads (journal.map json) c (s.channel ++ sends json s.host (.forward i)) _
      rw [hsends]
      exact hI.channel.concat hlo (by rwa [List.length_map])
    · cases hact
  · rw [not_exists] at hforward
    have hdeliver : PumpsDeliver seq journal s.host act := by
      unfold PumpsDeliver
      split
      · cases hpump
      · trivial
    have hsends : sends json s.host act = [] := by
      unfold sends
      split
      · next i => exact absurd rfl (hforward i)
      · rfl
    refine ⟨m, hI.openedFrom, hI.host.step hj hdeliver hrace hforward hact, hagrees, ?_, hI.le,
      hI.store, hI.lastSeq⟩
    change Leads (journal.map json) c (s.channel ++ sends json s.host act) m
    rw [hsends, List.append_nil]
    exact hI.channel

theorem systemInv_start (ha : a ≤ journal.length) (hstore : Holds store (journal.map json) a)
    (hlast : store.lastSeq = a) : SystemInv seq json journal a a a (System.start a store) where
  openedFrom := rfl
  host := hostOrder_opening ha
  agrees := ⟨rfl, by simp [System.start, Host.opening]⟩
  channel := rfl
  le := le_rfl
  store := hstore
  lastSeq := hlast

theorem SystemInv.step (hj : Numbered seq journal) (hjournal : Journal (journal.map json))
    (hlen : journal.length < 2 ^ 64 - 1) :
    Machine.Preserves (System.step seq json) (SystemServed seq journal)
      fun s => ∃ b m c, a ≤ b ∧ SystemInv seq json journal b m c s := by
  rintro s act s' ⟨b, m, c, hab, hI⟩ hg hstep
  cases act with
  | pump i act => exact ⟨b, m, c, hab, hI.pump hj hlen hg hstep⟩
  | host act =>
    obtain ⟨m', hI'⟩ := hI.act hj hlen hg hstep
    exact ⟨b, m', c, hab, hI'⟩
  | ingest =>
    simp only [System.step] at hstep
    split at hstep
    · cases hstep
    · next batch channel hchannel =>
      cases hstep
      have hleads := hI.channel
      rw [hchannel] at hleads
      obtain ⟨lo, hi, hlo, hhi, rfl, hrest⟩ := hleads
      have hc : c ≤ (journal.map json).length := by
        rw [List.length_map]
        exact hI.length
      exact ⟨b, m, max c hi, hab, hI.openedFrom, hI.host, hI.agrees, hrest,
        hI.le.trans (le_max_left _ _), hI.store.ingest_batchOf hjournal hc hlo,
        lastSeq_ingest hI.lastSeq hlo hhi⟩
  | setConnection state =>
    cases hstep
    exact ⟨b, m, c, hab, hI.openedFrom, hI.host, hI.agrees, hI.channel, hI.le,
      hI.store.setConnection state, hI.lastSeq⟩
  | respawn =>
    cases hstep
    have hfrom : reopenFrom s.store = c := by
      have hlt : c < 2 ^ 64 := by
        have hle := hI.length
        omega
      rw [reopenFrom, hI.lastSeq, Dispatch.asU64_natCast hlt]
      rfl
    rw [hfrom]
    exact ⟨c, c, c, hab.trans hI.le, systemInv_start hI.length hI.store hI.lastSeq⟩

/-- However the pumps, the supervise tasks, the restarts and the requests interleave, the streams
break and hosts die: the store holds a prefix of the journal, without a gap. What the present host
has forwarded goes on from where it was asked to; when all of it has arrived, the prefix ends with
the highest event forwarded. -/
theorem store_holds_prefix (hj : Numbered seq journal) (hjournal : Journal (journal.map json))
    (hlen : journal.length < 2 ^ 64 - 1) (ha : a ≤ journal.length)
    (hstore : Holds store (journal.map json) a) (hlast : store.lastSeq = a)
    {as : List (SystemAction WireEvent)}
    (hrun : Machine.run (System.step seq json) (System.start a store) as = some s)
    (hserved : Machine.Guarded (System.step seq json) (SystemServed seq journal)
      (System.start a store) as) :
    ∃ m c, a ≤ s.openedFrom ∧ s.openedFrom ≤ c ∧ c ≤ m ∧ m ≤ journal.length ∧
      (∀ k, k ∈ s.host.forwarded.map seq ↔ s.openedFrom < k ∧ k ≤ m) ∧
      Holds s.store (journal.map json) c ∧ s.store.lastSeq = c ∧ s.store.state.lastSeq = c ∧
      s.store.state.gapDetected = false ∧ (s.channel = [] → c = m) := by
  obtain ⟨b, m, c, hab, hI⟩ := (SystemInv.step hj hjournal hlen).run
    ⟨a, a, a, le_rfl, systemInv_start ha hstore hlast⟩ hserved hrun
  obtain rfl := hI.openedFrom
  have hc : c ≤ (journal.map json).length := by
    rw [List.length_map]
    exact hI.length
  have hgap : s.store.state.gapDetected = false := by
    obtain ⟨connection, hstate⟩ := hI.store
    rw [hstate]
    exact hjournal.replay_gapDetected hc
  refine ⟨m, c, hab, hI.le, hI.channel.le, hI.host.length, hI.host.forwarded, hI.store,
    hI.lastSeq, hI.store.lastSeq hjournal hc, hgap, fun hempty => ?_⟩
  have hleads := hI.channel
  rw [hempty] at hleads
  exact hleads

/-- The request loads the cursor after the task received a batch and before it moves it, so that
the next session sends the batch again. -/
def overlapRun : List (SystemAction ℕ) :=
  [.host (.openOk true), .host .install, .pump 0 (.subscribe (streamOf [1, 2]) true),
    .pump 0 (.collect 5 true), .host (.task 0 .recv), .host .lock, .host .load,
    .host (.task 0 .store), .host .stop, .host (.forward 0), .host (.task 0 .kill),
    .host (.openOk true), .host .install, .pump 1 (.subscribe (streamOf [1, 2, 3]) true),
    .pump 1 (.collect 5 true), .host (.task 1 .recv), .host (.task 1 .store), .ingest,
    .host (.forward 1), .ingest]

def sampleEvent (k : ℕ) : Json := sampleJournal.getD (k - 1) .null

def overlapReached : System ℕ :=
  (Machine.run (System.step id sampleEvent) (System.start 0 Store.new) overlapRun).get rfl

theorem overlapRun_served (json : ℕ → Json) : Machine.Guarded (System.step id json)
    (SystemServed id [1, 2, 3]) (System.start 0 Store.new) overlapRun := by
  have hfirst : GapFree id [1, 2, 3] 0 (streamOf [1, 2]) := gapFree_streamOf (by decide)
  have hsecond : GapFree id [1, 2, 3] 0 (streamOf [1, 2, 3]) := gapFree_streamOf (by decide)
  refine .cons trivial rfl <| .cons trivial rfl <| .cons ?_ rfl <| .cons ?_ rfl <|
    .cons trivial rfl <| .cons trivial rfl <| .cons ?_ rfl <| .cons trivial rfl <|
    .cons trivial rfl <| .cons trivial rfl <| .cons trivial rfl <| .cons trivial rfl <|
    .cons trivial rfl <| .cons ?_ rfl <| .cons ?_ rfl <| .cons trivial rfl <|
    .cons trivial rfl <| .cons trivial rfl <| .cons trivial rfl <| .cons trivial rfl trivial
  · rintro _ ⟨⟩
    exact hfirst
  · rintro _ ⟨⟩
    trivial
  · rintro _ ⟨⟩ _ ⟨⟩ b ⟨⟩
  · rintro _ ⟨⟩
    exact hsecond
  · rintro _ ⟨⟩
    trivial

theorem store_holds_prefix_overlap : Holds overlapReached.store sampleJournal 3 := by
  have hnumbered : Numbered id [1, 2, 3] := by decide
  have hjournal : Journal ([1, 2, 3].map sampleEvent) := sampleJournal_journal
  have hstore : Holds Store.new ([1, 2, 3].map sampleEvent) 0 := ⟨emptyStore.connection, rfl⟩
  have hrun : Machine.run (System.step id sampleEvent) (System.start 0 Store.new) overlapRun =
      some overlapReached := (Option.some_get _).symm
  obtain ⟨m, c, -, -, -, -, hforwarded, hholds, -, -, -, hempty⟩ :=
    store_holds_prefix hnumbered hjournal (by decide) (Nat.zero_le _) hstore rfl hrun
      (overlapRun_served sampleEvent)
  have hlast : 3 ∈ overlapReached.host.forwarded.map id ∧
      4 ∉ overlapReached.host.forwarded.map id := by decide
  have hm := hforwarded 3
  have hm' := hforwarded 4
  obtain rfl : c = 3 := by
    have hcm := hempty rfl
    simp only [hlast.1, true_iff, hlast.2, false_iff] at hm hm'
    omega
  exact hholds

end Together

end ValyriaApp.BridgeHost
