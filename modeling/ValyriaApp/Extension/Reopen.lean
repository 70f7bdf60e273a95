import ValyriaApp.Extension.Store
import ValyriaApp.Lib.Machine

/-! # Opening another session

A fresh open resets the store before the host has stopped forwarding the old
session, and both streams travel on one channel. A late batch of the old session
moves the cursor of the fresh store, and the events of the new session below it
are dropped. The store shows the new session when every such batch is harmless.
-/

namespace ValyriaApp

/-! ## Two sessions on one channel -/

/-- What the host sends on the notification channel, with the session a batch is of. -/
inductive Notice where
  | old (batch : EventBatch)
  /-- The events `lo + 1, …, hi` of the new session. -/
  | new (batch : EventBatch) (hi : ℕ)
  | connection (state : ConnectionState)

structure Reopen where
  store : Store
  /-- `reopen(root, 0)` has reset the store and sent the request. -/
  requested : Bool
  /-- The supervise task of the old session is still the live one. -/
  oldLive : Bool
  oldSent : ℕ
  newStarted : Bool
  newSent : ℕ
  newIngested : ℕ
  channel : List Notice

inductive ReopenAction where
  | forwardOld (hi : ℕ)
  | reopen
  | start
  | forwardNew (hi : ℕ)
  | replace
  | emitState (state : ConnectionState)
  | ingest
  deriving DecidableEq

namespace Reopen

/-- An old session is open; its batches may be on their way to a store in any state. -/
def begin (store : Store) (oldSent : ℕ) (inFlight : List EventBatch) : Reopen where
  store := store
  requested := false
  oldLive := true
  oldSent := oldSent
  newStarted := false
  newSent := 0
  newIngested := 0
  channel := inFlight.map .old

def receive (r : Reopen) : Notice → Reopen
  | .old batch => { r with store := r.store.ingestBatch batch }
  | .new batch hi => { r with store := r.store.ingestBatch batch, newIngested := hi }
  | .connection state => { r with store := r.store.setConnection state }

/-- One step of the extension, of the host or of one of its two supervise tasks. -/
def step (old new : List Json) (r : Reopen) : ReopenAction → Option Reopen
  | .forwardOld hi =>
    if r.oldLive ∧ r.oldSent < hi ∧ hi ≤ old.length then
      some { r with
        channel := r.channel ++ [.old (batchOf old r.oldSent hi)], oldSent := hi }
    else none
  | .reopen =>
    if r.requested then none
    else some { r with store := r.store.reset, requested := true }
  | .start => if r.requested ∧ !r.newStarted then some { r with newStarted := true } else none
  | .forwardNew hi =>
    if r.newStarted ∧ r.newSent < hi ∧ hi ≤ new.length then
      some { r with
        channel := r.channel ++ [.new (batchOf new r.newSent hi) hi], newSent := hi }
    else none
  | .replace => if r.newStarted then some { r with oldLive := false } else none
  | .emitState state => some { r with channel := r.channel ++ [.connection state] }
  | .ingest =>
    match r.channel with
    | [] => none
    | notice :: rest => some ({ r with channel := rest }.receive notice)

end Reopen

/-- With the cursor at `c`, each event is already passed or reads as the next one of the
journal. -/
def Harmless (journal : List Json) : ℕ → List Json → Prop
  | _, [] => True
  | c, raw :: raws =>
    ((decodeEvent raw).seq < (c : Num) + 1 ∧ Harmless journal c raws) ∨
      (journal[c]?.map decodeEvent = some (decodeEvent raw) ∧ Harmless journal (c + 1) raws)

/-- Every batch of the old session that is ingested after the reset is harmless. -/
def LateBatchesHarmless (new : List Json) (r : Reopen) : ReopenAction → Prop
  | .ingest => ∀ batch, r.channel.head? = some (.old batch) → r.requested = true →
      ∀ c : ℕ, r.store.state.lastSeq = c → Harmless new c batch.events
  | _ => True

/-- The projections, the rows and the cursor are those of the journal. -/
def ShowsJournal (store : Store) (journal : List Json) : Prop :=
  SameProjections store.state (replay journal) ∧
    store.state.lastSeq = (replay journal).lastSeq

/-! ## The new session alone moves the store -/

section Shown

variable {old new : List Json} {r r' : Reopen} {a b c hi : ℕ} {raws : List Json}

/-- The new batches of the channel are consecutive and lead from `a` to `b`. -/
def NewChain (new : List Json) : ℕ → List Notice → ℕ → Prop
  | a, [], b => a = b
  | a, .new batch hi :: rest, b => a < hi ∧ batch = batchOf new a hi ∧ NewChain new hi rest b
  | a, .old _ :: rest, b => NewChain new a rest b
  | a, .connection _ :: rest, b => NewChain new a rest b

theorem NewChain.le {channel : List Notice} (h : NewChain new a channel b) : a ≤ b := by
  induction channel generalizing a with
  | nil => exact h.le
  | cons notice rest ih =>
    cases notice with
    | old batch => exact ih h
    | new batch hi => exact h.1.le.trans (ih h.2.2)
    | connection state => exact ih h

theorem NewChain.append {channel channel' : List Notice} (h : NewChain new a channel b)
    (h' : NewChain new b channel' c) : NewChain new a (channel ++ channel') c := by
  induction channel generalizing a with
  | nil => exact (show a = b from h) ▸ h'
  | cons notice rest ih =>
    cases notice with
    | old batch => exact ih h
    | new batch hi => exact ⟨h.1, h.2.1, ih h.2.2⟩
    | connection state => exact ih h

theorem newChain_old (inFlight : List EventBatch) (a : ℕ) :
    NewChain new a (inFlight.map .old) a := by
  induction inFlight with
  | nil => rfl
  | cons batch rest ih => exact ih

theorem applyRawEvent_next {raw : Json}
    (h : new[c]?.map decodeEvent = some (decodeEvent raw)) :
    applyRawEvent (replay (new.take c)) raw = replay (new.take (c + 1)) := by
  obtain ⟨next, hget, hraw⟩ := Option.map_eq_some_iff.mp h
  obtain ⟨hc, rfl⟩ := List.getElem?_eq_some_iff.mp hget
  rw [replay_take_succ hc, applyRawEvent, applyRawEvent, hraw]

/-- A harmless batch leads from a prefix of the journal to a prefix of it. -/
theorem Journal.applyBatch_harmless (hnew : Journal new) (hc : c ≤ new.length)
    (h : Harmless new c raws) : ∃ d, c ≤ d ∧ d ≤ new.length ∧
      applyBatch (replay (new.take c)) raws = replay (new.take d) := by
  simp only [applyBatch_eq_foldl]
  induction raws generalizing c with
  | nil => exact ⟨c, le_rfl, hc, rfl⟩
  | cons raw raws ih =>
    rcases h with ⟨hold, hrest⟩ | ⟨hnext, hrest⟩
    · have hskip : applyRawEvent (replay (new.take c)) raw = replay (new.take c) := by
        apply applyDecoded_of_lt
        rw [hnew.replay_lastSeq hc]
        exact hold
      rw [List.foldl_cons, hskip]
      exact ih hc hrest
    · have hlt : c < new.length := by
        obtain ⟨next, hget, -⟩ := Option.map_eq_some_iff.mp hnext
        exact (List.getElem?_eq_some_iff.mp hget).1
      obtain ⟨d, hcd, hd, heq⟩ := ih hlt hrest
      refine ⟨d, (Nat.le_succ c).trans hcd, hd, ?_⟩
      rw [List.foldl_cons, applyRawEvent_next hnext]
      exact heq

structure ReopenInv (new : List Json) (r : Reopen) : Prop where
  before : r.requested = false → r.newStarted = false ∧ r.newSent = 0
  chain : NewChain new r.newIngested r.channel r.newSent
  sent_le : r.newSent ≤ new.length
  shown : r.requested = true → ∃ c, r.newIngested ≤ c ∧ c ≤ new.length ∧ Holds r.store new c

theorem reopenInv_begin (store : Store) (oldSent : ℕ) (inFlight : List EventBatch) :
    ReopenInv new (Reopen.begin store oldSent inFlight) where
  before _ := ⟨rfl, rfl⟩
  chain := newChain_old inFlight 0
  sent_le := Nat.zero_le _
  shown := nofun

theorem ReopenInv.send (h : ReopenInv new r) {notice : Notice} {oldSent : ℕ}
    (hnotice : NewChain new r.newSent [notice] r.newSent) :
    ReopenInv new { r with channel := r.channel ++ [notice], oldSent } :=
  ⟨h.before, h.chain.append hnotice, h.sent_le, h.shown⟩

theorem ReopenInv.reset (h : ReopenInv new r) (hreq : r.requested = false) :
    ReopenInv new { r with store := r.store.reset, requested := true } := by
  have hzero : r.newIngested = 0 := Nat.le_zero.mp ((h.before hreq).2 ▸ h.chain.le)
  refine ⟨nofun, h.chain, h.sent_le, fun _ => ⟨0, hzero.le, Nat.zero_le _, .starting, ?_⟩⟩
  rfl

theorem ReopenInv.receive (h : ReopenInv new r) (hnew : Journal new) {notice : Notice}
    {rest : List Notice} (hchannel : r.channel = notice :: rest)
    (hguard : LateBatchesHarmless new r .ingest) :
    ReopenInv new ({ r with channel := rest }.receive notice) := by
  have hchain : NewChain new r.newIngested (notice :: rest) r.newSent := hchannel ▸ h.chain
  cases notice with
  | old batch =>
    refine ⟨h.before, hchain, h.sent_le, fun hreq => ?_⟩
    obtain ⟨c, hle, hc, hholds⟩ := h.shown hreq
    have hharmless := hguard batch (by rw [hchannel]; rfl) hreq c (hholds.lastSeq hnew hc)
    obtain ⟨d, hcd, hd, heq⟩ := hnew.applyBatch_harmless hc hharmless
    exact ⟨d, hle.trans hcd, hd, hholds.ingestBatch heq⟩
  | new batch hi =>
    obtain ⟨hlt, hbatch, hrest⟩ := hchain
    refine ⟨h.before, hrest, h.sent_le, fun hreq => ?_⟩
    obtain ⟨c, hle, hc, hholds⟩ := h.shown hreq
    have hhi : hi ≤ new.length := hrest.le.trans h.sent_le
    refine ⟨max c hi, le_max_right c hi, max_le hc hhi, ?_⟩
    rw [hbatch]
    exact hholds.ingest_batchOf hnew hc hle
  | connection state =>
    refine ⟨h.before, hchain, h.sent_le, fun hreq => ?_⟩
    obtain ⟨c, hle, hc, hholds⟩ := h.shown hreq
    exact ⟨c, hle, hc, hholds.setConnection state⟩

theorem ReopenInv.step (hnew : Journal new) :
    Machine.Preserves (Reopen.step old new) (LateBatchesHarmless new) (ReopenInv new) := by
  intro r a r' h hguard hstep
  cases a with
  | forwardOld hi =>
    simp only [Reopen.step, Option.ite_none_right_eq_some] at hstep
    obtain ⟨-, ⟨⟩⟩ := hstep
    exact h.send rfl
  | reopen =>
    simp only [Reopen.step, Option.ite_none_left_eq_some, Bool.not_eq_true] at hstep
    obtain ⟨hreq, ⟨⟩⟩ := hstep
    exact h.reset hreq
  | start =>
    simp only [Reopen.step, Option.ite_none_right_eq_some] at hstep
    obtain ⟨⟨hreq, -⟩, ⟨⟩⟩ := hstep
    exact ⟨fun hnot => absurd hreq (by simp [show r.requested = false from hnot]), h.chain,
      h.sent_le, h.shown⟩
  | forwardNew hi =>
    simp only [Reopen.step, Option.ite_none_right_eq_some] at hstep
    obtain ⟨⟨hstarted, hlt, hle⟩, ⟨⟩⟩ := hstep
    refine ⟨fun hreq => ?_, h.chain.append ⟨hlt, rfl, rfl⟩, hle, h.shown⟩
    rw [(h.before hreq).1] at hstarted
    cases hstarted
  | replace =>
    simp only [Reopen.step, Option.ite_none_right_eq_some] at hstep
    obtain ⟨-, ⟨⟩⟩ := hstep
    exact ⟨h.before, h.chain, h.sent_le, h.shown⟩
  | emitState state =>
    obtain ⟨⟩ := hstep
    exact h.send rfl
  | ingest =>
    simp only [Reopen.step] at hstep
    split at hstep
    · cases hstep
    · next notice rest hchannel =>
      obtain ⟨⟩ := hstep
      exact h.receive hnew hchannel hguard

/-- A fresh open shows the new session alone when no late batch of the old session moves the
cursor or brings an event of its own. -/
theorem fresh_open_shows_journal (hnew : Journal new) {store : Store} {oldSent : ℕ}
    {inFlight : List EventBatch} {as : List ReopenAction}
    (hrun : Machine.run (Reopen.step old new) (Reopen.begin store oldSent inFlight) as = some r)
    (hguard : Machine.Guarded (Reopen.step old new) (LateBatchesHarmless new)
      (Reopen.begin store oldSent inFlight) as)
    (hreq : r.requested = true) (hall : r.newIngested = new.length) :
    ShowsJournal r.store new := by
  have h := (ReopenInv.step hnew).run (reopenInv_begin store oldSent inFlight) hguard hrun
  obtain ⟨c, hle, hc, connection, hstate⟩ := h.shown hreq
  have hcn : new.length ≤ c := hall ▸ hle
  rw [List.take_of_length_le hcn] at hstate
  rw [ShowsJournal, hstate]
  exact ⟨sameProjections_withConnection connection, rfl⟩

/-- The journal of another workspace. -/
def otherJournal : List Json := [coreEvent 1 "u" 5 "task_started" (.obj [])]

theorem otherJournal_journal : Journal otherJournal := by
  intro i hi
  match i, hi with
  | 0, _ => exact carriesSafeSeq_coreEvent (by norm_num) (by norm_num) ..

/-- The old session's event is ingested when the cursor has passed its number. -/
def lateReplay : List ReopenAction :=
  [.reopen, .start, .forwardNew 2, .forwardOld 1, .replace, .emitState .ready, .forwardNew 3,
    .ingest, .ingest, .ingest, .ingest]

theorem fresh_open_shows_journal_late :
    ∃ r, Machine.run (Reopen.step otherJournal sampleJournal) (Reopen.begin Store.new 0 [])
      lateReplay = some r ∧ ShowsJournal r.store sampleJournal := by
  obtain ⟨r, hr⟩ : ∃ r, Machine.run (Reopen.step otherJournal sampleJournal)
      (Reopen.begin Store.new 0 []) lateReplay = some r := ⟨_, rfl⟩
  refine ⟨r, hr, fresh_open_shows_journal sampleJournal_journal hr ?_ (by cases hr; rfl)
    (by cases hr; rfl)⟩
  refine .cons trivial rfl <| .cons trivial rfl <| .cons trivial rfl <| .cons trivial rfl <|
    .cons trivial rfl <| .cons trivial rfl <| .cons trivial rfl <| .cons nofun rfl <|
    .cons ?_ rfl <| .cons nofun rfl <| .cons nofun rfl trivial
  rintro _ ⟨⟩ - c hc
  exact .inl ⟨hc ▸ (by decide +kernel), trivial⟩

/-- The old session's batch overtakes the new events. -/
def overtaken : List ReopenAction :=
  [.reopen, .forwardOld 3, .ingest, .start, .forwardNew 1, .replace, .ingest]

/-- After a late batch the event of the new session is dropped. -/
theorem fresh_open_shows_old_session :
    ¬ ∀ (old new : List Json) (as : List ReopenAction) (r : Reopen), Journal old → Journal new →
      Machine.run (Reopen.step old new) (Reopen.begin Store.new 0 []) as = some r →
      r.requested = true → r.newIngested = new.length → ShowsJournal r.store new := by
  intro h
  obtain ⟨r, hr⟩ : ∃ r, Machine.run (Reopen.step sampleJournal otherJournal)
      (Reopen.begin Store.new 0 []) overtaken = some r := ⟨_, rfl⟩
  obtain ⟨hsame, -⟩ := h sampleJournal otherJournal overtaken r sampleJournal_journal
    otherJournal_journal hr (by cases hr; rfl) (by cases hr; rfl)
  have hrows := congrArg List.length hsame.events
  cases hr
  revert hrows
  decide +kernel

end Shown

end ValyriaApp
