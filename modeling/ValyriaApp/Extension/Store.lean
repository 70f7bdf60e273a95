import ValyriaApp.State.Replay

/-! # The store of the extension host

The store feeds the batches of the event stream to the reducer. A hole in the
stream moves the cursor past the events it skips, so that a later delivery of
them is taken for a duplicate, and the gap flag is never lowered: the
projections are those of the journal exactly when no event was skipped.
-/

namespace ValyriaApp

/-- A batch of Core events with its bounds, as the host sends it. -/
structure EventBatch where
  firstSeq : Num
  lastSeq : Num
  gapBefore : Bool
  events : List Json

/-- What the store logs while it ingests a batch. -/
inductive StoreWarning where
  | eventGap (expected start : Num)
  | hole (lastSeq : Num)

structure Store where
  state : StoreState
  lastSeq : Num
  expectedNextSeq : Num
  warnings : List StoreWarning

namespace Store

def new : Store := { state := emptyStore, lastSeq := 0, expectedNextSeq := 1, warnings := [] }

/-- Drop everything: a new session opens and replay starts from the beginning. -/
def reset (store : Store) : Store :=
  { store with state := emptyStore, lastSeq := 0, expectedNextSeq := 1 }

def ingestBatch (store : Store) (batch : EventBatch) : Store :=
  if batch.events = [] then store
  else
    let gap := if batch.firstSeq ≠ store.expectedNextSeq ∧ batch.gapBefore = false ∧
      store.lastSeq ≠ 0 then [.eventGap store.expectedNextSeq batch.firstSeq] else []
    let state := applyBatch store.state batch.events
    let lastSeq := store.lastSeq.max batch.lastSeq
    let hole := if state.gapDetected then [.hole lastSeq] else []
    { state, lastSeq, expectedNextSeq := batch.lastSeq + 1
      warnings := store.warnings ++ gap ++ hole }

def setConnection (store : Store) (c : ConnectionState) : Store :=
  { store with state := ValyriaApp.setConnection store.state c }

/-- What the extension does to its store. -/
inductive Change where
  | ingestBatch (batch : EventBatch)
  | reset
  | setConnection (state : ConnectionState)

/-- The store after a change; `none` when the listeners are not called. -/
def changed (store : Store) : Change → Option Store
  | .ingestBatch batch => if batch.events = [] then none else some (store.ingestBatch batch)
  | .reset => some store.reset
  | .setConnection state => some (store.setConnection state)

@[simp] theorem new_state : new.state = emptyStore := rfl

@[simp] theorem reset_state (store : Store) : store.reset.state = emptyStore := rfl

@[simp] theorem setConnection_state (store : Store) (c : ConnectionState) :
    (store.setConnection c).state = ValyriaApp.setConnection store.state c := rfl

@[simp] theorem ingestBatch_state (store : Store) (batch : EventBatch) :
    (store.ingestBatch batch).state = applyBatch store.state batch.events := by
  unfold ingestBatch
  split
  · next h => rw [h]; rfl
  · rfl

theorem foldl_ingestBatch_state (store : Store) (batches : List EventBatch) :
    (batches.foldl ingestBatch store).state =
      applyBatch store.state (batches.map (·.events)).flatten := by
  induction batches generalizing store with
  | nil => rfl
  | cons b batches ih =>
    rw [List.foldl_cons, ih, ingestBatch_state, List.map_cons, List.flatten_cons,
      applyBatch_append]

end Store

/-- The projections and the rows, without the cursor, the gap flag and the connection. -/
structure SameProjections (s t : StoreState) : Prop where
  tasks : s.tasks = t.tasks
  plans : s.plans = t.plans
  approvals : s.approvals = t.approvals
  files : s.files = t.files
  tests : s.tests = t.tests
  modelInstalls : s.modelInstalls = t.modelInstalls
  engineInstalls : s.engineInstalls = t.engineInstalls
  modelServers : s.modelServers = t.modelServers
  events : s.events = t.events

theorem SameProjections.refl (s : StoreState) : SameProjections s s :=
  ⟨rfl, rfl, rfl, rfl, rfl, rfl, rfl, rfl, rfl⟩

/-! ## The connection is apart from the rest -/

section Connection

variable {s : StoreState} {ev : DecodedEvent} {raw : Json}

def StoreState.withConnection (s : StoreState) (connection : ConnectionState) : StoreState :=
  { s with connection }

theorem sameProjections_withConnection (connection : ConnectionState) :
    SameProjections (s.withConnection connection) s :=
  ⟨rfl, rfl, rfl, rfl, rfl, rfl, rfl, rfl, rfl⟩

theorem setConnection_eq (s : StoreState) (connection : ConnectionState) :
    setConnection s connection = s.withConnection connection := by
  unfold setConnection
  split
  · next h => rw [← h]; rfl
  · rfl

theorem foldGlobal_withConnection (c : ConnectionState) :
    foldGlobal (s.withConnection c) ev = (foldGlobal s ev).withConnection c := by
  unfold foldGlobal
  split <;> rfl

theorem foldTask_withConnection (c : ConnectionState) (id : String) :
    foldTask (s.withConnection c) id ev = (foldTask s id ev).withConnection c := by
  unfold foldTask
  split <;> rfl

theorem advance_withConnection (c : ConnectionState) :
    advance (s.withConnection c) ev = (advance s ev).withConnection c := by
  have hg : foldGlobal (moveCursor (s.withConnection c) ev) ev =
      (foldGlobal (moveCursor s ev) ev).withConnection c :=
    foldGlobal_withConnection (s := moveCursor s ev) c
  unfold advance
  split
  · rw [hg, foldTask_withConnection]
  · exact hg

theorem applyRawEvent_withConnection (c : ConnectionState) :
    applyRawEvent (s.withConnection c) raw = (applyRawEvent s raw).withConnection c := by
  by_cases h : (decodeEvent raw).seq < s.lastSeq + 1
  · have hold : applyRawEvent s raw = s := applyDecoded_of_lt h
    rw [hold]
    exact applyDecoded_of_lt h
  · have hnew : applyRawEvent s raw =
        (advance s (decodeEvent raw)).withEvents (s.events ++ [rowOf (decodeEvent raw)]) :=
      applyDecoded_of_not_lt h
    have hnew' : applyRawEvent (s.withConnection c) raw =
        (advance (s.withConnection c) (decodeEvent raw)).withEvents
          (s.events ++ [rowOf (decodeEvent raw)]) := applyDecoded_of_not_lt h
    rw [hnew, hnew', advance_withConnection]
    rfl

theorem applyBatch_withConnection (c : ConnectionState) (raws : List Json) :
    applyBatch (s.withConnection c) raws = (applyBatch s raws).withConnection c := by
  rw [applyBatch_eq_foldl, applyBatch_eq_foldl]
  induction raws generalizing s with
  | nil => rfl
  | cons raw raws ih => rw [List.foldl_cons, List.foldl_cons, applyRawEvent_withConnection, ih]

end Connection

/-! ## What the store holds of a journal -/

/-- The batch of the journal events `lo + 1, …, hi`, as the host sends it. -/
def batchOf (journal : List Json) (lo hi : ℕ) : EventBatch where
  firstSeq := ((lo + 1 : ℕ) : Num)
  lastSeq := (hi : Num)
  gapBefore := false
  events := slice journal (lo + 1) hi

section Holds

variable {journal : List Json} {store : Store} {batch : EventBatch} {c d lo hi : ℕ}

/-- The store holds the first `c` events of the journal, whatever the connection. -/
def Holds (store : Store) (journal : List Json) (c : ℕ) : Prop :=
  ∃ connection, store.state = (replay (journal.take c)).withConnection connection

theorem Holds.lastSeq (h : Holds store journal c) (hjournal : Journal journal)
    (hc : c ≤ journal.length) : store.state.lastSeq = c := by
  obtain ⟨connection, hstate⟩ := h
  rw [hstate]
  exact hjournal.replay_lastSeq hc

theorem Holds.setConnection (h : Holds store journal c) (state : ConnectionState) :
    Holds (store.setConnection state) journal c := by
  obtain ⟨connection, hstate⟩ := h
  refine ⟨state, ?_⟩
  rw [Store.setConnection_state, setConnection_eq, hstate]
  rfl

theorem Holds.ingestBatch (h : Holds store journal c)
    (hbatch : applyBatch (replay (journal.take c)) batch.events = replay (journal.take d)) :
    Holds (store.ingestBatch batch) journal d := by
  obtain ⟨connection, hstate⟩ := h
  refine ⟨connection, ?_⟩
  rw [Store.ingestBatch_state, hstate, applyBatch_withConnection, hbatch]

theorem Holds.append (h : Holds store journal c) (hc : c ≤ journal.length) (more : List Json) :
    Holds store (journal ++ more) c := by
  obtain ⟨connection, hstate⟩ := h
  refine ⟨connection, ?_⟩
  rw [List.take_append_of_le_length hc]
  exact hstate

/-- A batch that starts at or below the cursor. -/
theorem Holds.ingest_batchOf (h : Holds store journal c) (hjournal : Journal journal)
    (hc : c ≤ journal.length) (hlo : lo ≤ c) :
    Holds (store.ingestBatch (batchOf journal lo hi)) journal (max c hi) := by
  apply h.ingestBatch
  exact hjournal.applyBatch_slice hc (Nat.succ_le_succ hlo)

end Holds

/-! ## Holes -/

section Holes

variable {journal : List Json}

/-- Once every event of the journal was delivered, the store shows the journal with the gap flag
low if and only if no event was ever skipped: each one lies at most one past the highest
delivered before it. -/
theorem hole_repaired_iff (hj : Journal journal) (batches : List EventBatch)
    (indices : List (List (Fin journal.length)))
    (hb : batches.map (·.events) = indices.map (·.map journal.get))
    (hcover : ∀ i, i ∈ indices.flatten) :
    SameProjections (batches.foldl Store.ingestBatch Store.new).state (replay journal) ∧
        (batches.foldl Store.ingestBatch Store.new).state.gapDetected = false ↔
      NumberedLog.NoSkip 0 (indices.flatten.map Fin.val) := by
  have hstate : (batches.foldl Store.ingestBatch Store.new).state =
      (indices.flatten.map journal.get).foldl applyRawEvent emptyStore := by
    rw [Store.foldl_ingestBatch_state, hb, List.map_flatten, applyBatch_eq_foldl]
    rfl
  have hflag := hj.resumable.flag_foldl (fun hi hs h => hj.gapDetected_next hi hs.2 h)
    indices.flatten (emptyStore_at journal)
  rw [hstate]
  constructor
  · rintro ⟨-, hgap⟩
    exact (hflag.mp hgap).2
  · intro hskip
    refine ⟨?_, hflag.mpr ⟨rfl, hskip⟩⟩
    have hreach : journal.length ≤ NumberedLog.reach 0 (indices.flatten.map Fin.val) := by
      rcases Nat.eq_zero_or_pos journal.length with h0 | hpos
      · exact h0.le.trans (Nat.zero_le _)
      · have hlast : journal.length - 1 ∈ indices.flatten.map Fin.val :=
          List.mem_map.mpr ⟨⟨journal.length - 1, by omega⟩, hcover _, rfl⟩
        have := NumberedLog.lt_reach (c := 0) hlast
        omega
    have h :=
      hj.resumable.foldl_noSkip (emptyStore_at journal) indices.flatten (Nat.zero_le _) hskip
    rw [prefixState_eq_replay, prefixState_eq_replay, List.take_of_length_le hreach] at h
    exact (show _ = replay journal from h) ▸ SameProjections.refl _

/-- A batch of the events at the given places of a journal. -/
def batchAt (journal : List Json) (is : List (Fin journal.length)) : EventBatch where
  firstSeq := (is.head?.map fun i => ((i.val + 1 : ℕ) : Num)).getD 0
  lastSeq := (is.getLast?.map fun i => ((i.val + 1 : ℕ) : Num)).getD 0
  gapBefore := false
  events := is.map journal.get

theorem map_batchAt_events (journal : List Json) (indices : List (List (Fin journal.length))) :
    (indices.map (batchAt journal)).map (·.events) = indices.map (·.map journal.get) := by
  rw [List.map_map]
  rfl

/-- Two overlapping batches. -/
def overlapping : List (List (Fin sampleJournal.length)) :=
  [[⟨0, by decide⟩, ⟨1, by decide⟩], [⟨1, by decide⟩, ⟨2, by decide⟩]]

theorem hole_repaired_overlapping :
    SameProjections ((overlapping.map (batchAt sampleJournal)).foldl
        Store.ingestBatch Store.new).state (replay sampleJournal) ∧
      ((overlapping.map (batchAt sampleJournal)).foldl
        Store.ingestBatch Store.new).state.gapDetected = false :=
  (hole_repaired_iff sampleJournal_journal _ overlapping (map_batchAt_events _ _)
    (by decide)).mpr (by decide)

/-- The second event is skipped, and the whole journal is delivered again. -/
def skipped : List (List (Fin sampleJournal.length)) :=
  [[⟨0, by decide⟩, ⟨2, by decide⟩], [⟨0, by decide⟩, ⟨1, by decide⟩, ⟨2, by decide⟩]]

/-- A hole is not repaired: the row of the skipped event stays lost. -/
theorem hole_not_repaired :
    ¬ ∀ (journal : List Json) (indices : List (List (Fin journal.length))), Journal journal →
      (∀ is ∈ indices, is.Pairwise (· < ·)) → (∀ i, i ∈ indices.flatten) →
      SameProjections ((indices.map (batchAt journal)).foldl
          Store.ingestBatch Store.new).state (replay journal) ∧
        ((indices.map (batchAt journal)).foldl
          Store.ingestBatch Store.new).state.gapDetected = false := by
  intro h
  obtain ⟨hsame, -⟩ := h sampleJournal skipped sampleJournal_journal (by decide) (by decide)
  have hrows := congrArg List.length hsame.events
  revert hrows
  decide +kernel

end Holes

end ValyriaApp
