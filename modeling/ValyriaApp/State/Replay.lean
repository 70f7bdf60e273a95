import ValyriaApp.Lib.NumberedLog
import ValyriaApp.State.Reducer

/-! # Replay

A batch is the left fold of its events, and the store is a resumable consumer
of the journal: the cursor is the number of events it has passed. Hence every
way of cutting the journal into overlapping deliveries rebuilds the same store.
-/

namespace ValyriaApp

variable {s t : StoreState} {ev : DecodedEvent} {raw : Json} {raws : List Json}

/-! ## What one event changes -/

@[simp] theorem foldGlobal_lastSeq : (foldGlobal s ev).lastSeq = s.lastSeq := by
  unfold foldGlobal; split <;> rfl

@[simp] theorem foldGlobal_gapDetected : (foldGlobal s ev).gapDetected = s.gapDetected := by
  unfold foldGlobal; split <;> rfl

@[simp] theorem foldTask_lastSeq {id : String} : (foldTask s id ev).lastSeq = s.lastSeq := by
  unfold foldTask; split <;> rfl

@[simp] theorem foldTask_gapDetected {id : String} :
    (foldTask s id ev).gapDetected = s.gapDetected := by
  unfold foldTask; split <;> rfl

@[simp] theorem advance_lastSeq : (advance s ev).lastSeq = ev.seq := by
  unfold advance; split <;> simp [moveCursor]

@[simp] theorem advance_gapDetected :
    (advance s ev).gapDetected = (s.gapDetected || decide (s.lastSeq + 1 < ev.seq)) := by
  unfold advance; split <;> simp [moveCursor]

def StoreState.withEvents (s : StoreState) (rows : List EventRow) : StoreState :=
  { s with events := rows }

@[simp] theorem withEvents_withEvents (rows rows' : List EventRow) :
    (s.withEvents rows).withEvents rows' = s.withEvents rows' := rfl

@[simp] theorem withEvents_lastSeq (rows : List EventRow) :
    (s.withEvents rows).lastSeq = s.lastSeq := rfl

@[simp] theorem withEvents_events (rows : List EventRow) :
    (s.withEvents rows).events = rows := rfl

@[simp] theorem withEvents_self : s.withEvents s.events = s := rfl

theorem foldGlobal_withEvents (rows : List EventRow) :
    foldGlobal (s.withEvents rows) ev = (foldGlobal s ev).withEvents rows := by
  unfold foldGlobal; split <;> rfl

theorem foldTask_withEvents {id : String} (rows : List EventRow) :
    foldTask (s.withEvents rows) id ev = (foldTask s id ev).withEvents rows := by
  unfold foldTask; split <;> rfl

theorem advance_withEvents (rows : List EventRow) :
    advance (s.withEvents rows) ev = (advance s ev).withEvents rows := by
  have hg : foldGlobal (moveCursor (s.withEvents rows) ev) ev =
      (foldGlobal (moveCursor s ev) ev).withEvents rows :=
    foldGlobal_withEvents (s := moveCursor s ev) rows
  unfold advance
  split
  · rw [hg, foldTask_withEvents]
  · exact hg

@[simp] theorem advance_events : (advance s ev).events = s.events := by
  have h : advance (s.withEvents s.events) ev = (advance s ev).withEvents s.events :=
    advance_withEvents s.events
  rw [withEvents_self] at h
  rw [h, withEvents_events]

theorem applyDecoded_of_lt (h : ev.seq < s.lastSeq + 1) : applyDecoded s ev = s := by
  simp only [applyDecoded, applyDecodedNoAppend, if_pos h]

theorem applyDecoded_of_not_lt (h : ¬ ev.seq < s.lastSeq + 1) :
    applyDecoded s ev = (advance s ev).withEvents (s.events ++ [rowOf ev]) := by
  simp only [applyDecoded, applyDecodedNoAppend, if_neg h]
  rfl

/-! ## A batch is a fold -/

theorem applyBatchLoop_eq (appended : List EventRow) :
    (applyBatchLoop s appended raws).1.withEvents
        (s.events ++ (applyBatchLoop s appended raws).2) =
      raws.foldl applyRawEvent (s.withEvents (s.events ++ appended)) := by
  induction raws generalizing s appended with
  | nil => rfl
  | cons raw raws ih =>
    rw [List.foldl_cons, applyBatchLoop, applyDecodedNoAppend]
    by_cases h : (decodeEvent raw).seq < s.lastSeq + 1
    · rw [if_pos h]
      have hskip : applyRawEvent (s.withEvents (s.events ++ appended)) raw =
          s.withEvents (s.events ++ appended) := applyDecoded_of_lt h
      rw [hskip]
      exact ih appended
    · rw [if_neg h]
      have hnew : applyRawEvent (s.withEvents (s.events ++ appended)) raw =
          (advance s (decodeEvent raw)).withEvents
            (s.events ++ (appended ++ [rowOf (decodeEvent raw)])) := by
        rw [applyRawEvent, applyDecoded_of_not_lt (s := s.withEvents (s.events ++ appended)) h,
          advance_withEvents, withEvents_withEvents, withEvents_events, List.append_assoc]
      have hrows := ih (s := advance s (decodeEvent raw)) (appended ++ [rowOf (decodeEvent raw)])
      rw [advance_events] at hrows
      rw [hnew]
      exact hrows

theorem applyBatchLoop_events (appended : List EventRow) :
    (applyBatchLoop s appended raws).1.events = s.events := by
  induction raws generalizing s appended with
  | nil => rfl
  | cons raw raws ih =>
    rw [applyBatchLoop, applyDecodedNoAppend]
    by_cases h : (decodeEvent raw).seq < s.lastSeq + 1
    · rw [if_pos h]; exact ih appended
    · rw [if_neg h]; exact (ih _).trans advance_events

theorem applyBatch_eq_foldl (s : StoreState) (raws : List Json) :
    applyBatch s raws = raws.foldl applyRawEvent s := by
  have h := @applyBatchLoop_eq s raws []
  have hev := @applyBatchLoop_events s raws []
  rw [List.append_nil, withEvents_self] at h
  rw [applyBatch, ← h]
  rcases hl : applyBatchLoop s [] raws with ⟨next, _ | ⟨row, rows⟩⟩
  · rw [hl] at hev
    change next = next.withEvents (s.events ++ [])
    rw [List.append_nil, ← hev, withEvents_self]
  · rfl

theorem applyBatch_append (s : StoreState) (xs ys : List Json) :
    applyBatch s (xs ++ ys) = applyBatch (applyBatch s xs) ys := by
  simp only [applyBatch_eq_foldl, List.foldl_append]

theorem replay_eq_foldl (raws : List Json) : replay raws = raws.foldl applyRawEvent emptyStore :=
  applyBatch_eq_foldl _ _

theorem replay_take_succ {journal : List Json} {c : ℕ} (hc : c < journal.length) :
    replay (journal.take (c + 1)) = applyRawEvent (replay (journal.take c)) journal[c] := by
  rw [replay_eq_foldl, replay_eq_foldl, List.take_succ_eq_append_getElem hc, List.foldl_append]
  rfl

/-! ## The store consumes the journal -/

/-- The `i`-th raw event is well formed and carries the number `i`, counting from one. -/
def Journal (journal : List Json) : Prop :=
  ∀ i (h : i < journal.length), CarriesSafeSeq (i + 1) journal[i]

theorem Journal.concat {journal : List Json} (hj : Journal journal)
    (hraw : CarriesSafeSeq (journal.length + 1) raw) : Journal (journal ++ [raw]) := by
  intro i hi
  rcases Nat.lt_or_eq_of_le (Nat.le_of_lt_succ (by simpa using hi)) with hlt | rfl
  · rw [List.getElem_append_left hlt]
    exact hj i hlt
  · rw [List.getElem_concat_length rfl]
    exact hraw

theorem Journal.carriesSeq {journal : List Json} (hj : Journal journal) {i : ℕ}
    (hi : i < journal.length) : CarriesSeq (i + 1) journal[i] := (hj i hi).2

theorem Journal.length_lt {journal : List Json} (hj : Journal journal) :
    journal.length < 2 ^ 53 := by
  rcases Nat.eq_zero_or_pos journal.length with hnil | hpos
  · rw [hnil]
    exact Nat.two_pow_pos 53
  · have hlast := (hj (journal.length - 1) (Nat.sub_lt hpos Nat.one_pos)).1
    rwa [Nat.sub_add_cancel hpos] at hlast

theorem applyRawEvent_of_le {n c : ℕ} (hraw : CarriesSeq n raw) (hs : s.lastSeq = c)
    (hc : c < 2 ^ 53) (h : n ≤ c) : applyRawEvent s raw = s := by
  apply applyDecoded_of_lt
  rw [hraw.decodeEvent_seq, hs, Num.natCast_add_one hc, Num.natCast_lt]
  exact Nat.lt_succ_of_le h

theorem applyRawEvent_of_lt {n c : ℕ} (hraw : CarriesSeq n raw) (hs : s.lastSeq = c)
    (h : c < n) :
    applyRawEvent s raw = (advance s (decodeEvent raw)).withEvents
      (s.events ++ [rowOf (decodeEvent raw)]) := by
  apply applyDecoded_of_not_lt
  rw [hraw.decodeEvent_seq, hs]
  exact Num.not_natCast_lt_add_one hraw.toDouble h

theorem Journal.resumable {journal : List Json} (hj : Journal journal) :
    NumberedLog.Resumable applyRawEvent (fun s c => c ≤ journal.length ∧ s.lastSeq = c)
      journal where
  old hi hs h :=
    applyRawEvent_of_le (hj.carriesSeq hi) hs.2 (hs.1.trans_lt hj.length_lt) h
  next hi hs h := by
    refine ⟨hi, ?_⟩
    rw [applyRawEvent_of_lt (hj.carriesSeq hi) hs.2 (Nat.lt_succ_of_le h), withEvents_lastSeq,
      advance_lastSeq, (hj.carriesSeq hi).decodeEvent_seq]

theorem Journal.gapDetected_next {journal : List Json} (hj : Journal journal) {c i : ℕ}
    (hi : i < journal.length) (hs : s.lastSeq = c) (h : c ≤ i) :
    (applyRawEvent s journal[i]).gapDetected = (s.gapDetected || decide (c < i)) := by
  rw [applyRawEvent_of_lt (hj.carriesSeq hi) hs (Nat.lt_succ_of_le h)]
  change (advance s (decodeEvent journal[i])).gapDetected = _
  rw [advance_gapDetected, (hj.carriesSeq hi).decodeEvent_seq, hs,
    Num.natCast_add_one ((h.trans_lt hi).trans hj.length_lt)]
  simp only [Num.natCast_lt, Nat.add_lt_add_iff_right]

theorem prefixState_eq_replay (journal : List Json) (c : ℕ) :
    NumberedLog.prefixState applyRawEvent journal emptyStore c = replay (journal.take c) :=
  (replay_eq_foldl _).symm

theorem emptyStore_lastSeq : emptyStore.lastSeq = ((0 : ℕ) : Num) := rfl

theorem emptyStore_at (journal : List Json) :
    0 ≤ journal.length ∧ emptyStore.lastSeq = ((0 : ℕ) : Num) := ⟨Nat.zero_le _, rfl⟩

theorem Journal.replay_lastSeq {journal : List Json} (hj : Journal journal) {c : ℕ}
    (hc : c ≤ journal.length) : (replay (journal.take c)).lastSeq = c := by
  rw [← prefixState_eq_replay]
  exact (hj.resumable.at_prefix (emptyStore_at journal) hc).2

theorem Journal.replay_gapDetected {journal : List Json} (hj : Journal journal) {c : ℕ}
    (hc : c ≤ journal.length) : (replay (journal.take c)).gapDetected = false := by
  induction c with
  | zero => rfl
  | succ c ih =>
    rw [replay_take_succ hc]
    have hlast := hj.replay_lastSeq (Nat.le_of_succ_le hc)
    have h := hj.gapDetected_next hc hlast le_rfl
    rw [ih (Nat.le_of_succ_le hc)] at h
    simpa using h

/-! ## Deliveries -/

/-- `journal[a..b]`, counting from one. -/
def slice (journal : List Json) (a b : ℕ) : List Json := (journal.take b).drop (a - 1)

/-- Deliveries `(a, b)` of slices, none of which starts past the cursor at the moment it is
applied. -/
inductive Deliveries (journal : List Json) : StoreState → List (ℕ × ℕ) → StoreState → Prop
  | nil {s : StoreState} : Deliveries journal s [] s
  | cons {s t : StoreState} {a b : ℕ} {ds : List (ℕ × ℕ)} :
      1 ≤ a → b ≤ journal.length → (a : Num) ≤ s.lastSeq + 1 →
      Deliveries journal (applyBatch s (slice journal a b)) ds t →
      Deliveries journal s ((a, b) :: ds) t

/-- The last event number delivered so far, `0` when nothing was. -/
def lastDelivered (ds : List (ℕ × ℕ)) : ℕ := ds.foldr (fun d m => max d.2 m) 0

theorem Journal.applyBatch_slice {journal : List Json} (hj : Journal journal) {a b c : ℕ}
    (hc : c ≤ journal.length) (ha : a ≤ c + 1) :
    applyBatch (replay (journal.take c)) (slice journal a b) =
      replay (journal.take (max c b)) := by
  rw [applyBatch_eq_foldl, ← prefixState_eq_replay, ← prefixState_eq_replay]
  exact hj.resumable.foldl_slice (emptyStore_at journal) hc (by omega)

theorem Journal.deliveries {journal : List Json} (hj : Journal journal) {ds : List (ℕ × ℕ)}
    {c : ℕ} (hc : c ≤ journal.length) (hs : s = replay (journal.take c))
    (h : Deliveries journal s ds t) :
    t = replay (journal.take (max c (lastDelivered ds))) ∧
      max c (lastDelivered ds) ≤ journal.length := by
  induction h generalizing c with
  | nil => simpa [lastDelivered, hs] using hc
  | @cons s a b ds t _ hb ha _ ih =>
    subst hs
    rw [hj.replay_lastSeq hc, Num.natCast_add_one (hc.trans_lt hj.length_lt),
      Num.natCast_le] at ha
    have h := ih (max_le hc hb) (hj.applyBatch_slice hc ha)
    simpa only [lastDelivered, List.foldr_cons, max_assoc] using h

/-- Crash recovery by replay: the store does not depend on how the journal was cut and
overlapped on its way. -/
theorem crash_recovery {journal : List Json} (hj : Journal journal) {ds : List (ℕ × ℕ)}
    (h : Deliveries journal emptyStore ds t) :
    t = replay (journal.take (lastDelivered ds)) ∧ t.gapDetected = false := by
  obtain ⟨ht, hle⟩ := hj.deliveries (Nat.zero_le _) rfl h
  rw [Nat.zero_max] at ht hle
  exact ⟨ht, ht ▸ hj.replay_gapDetected hle⟩

def sampleJournal : List Json :=
  [coreEvent 1 "t" 10 "task_started" (.obj []),
    coreEvent 2 "t" 20 "file_changed" (.obj [("path", .str "a.rs")]),
    coreEvent 3 "t" 30 "task_completed" (.obj [])]

theorem sampleJournal_journal : Journal sampleJournal := by
  intro i hi
  match i, hi with
  | 0, _ => exact carriesSafeSeq_coreEvent (by norm_num) (by norm_num) ..
  | 1, _ => exact carriesSafeSeq_coreEvent (by norm_num) (by norm_num) ..
  | 2, _ => exact carriesSafeSeq_coreEvent (by norm_num) (by norm_num) ..

/-- Two overlapping deliveries and one wholly in the past. -/
theorem crash_recovery_overlap :
    applyBatch (applyBatch (applyBatch emptyStore (slice sampleJournal 1 2))
        (slice sampleJournal 2 3)) (slice sampleJournal 1 1) =
      replay (sampleJournal.take (lastDelivered [(1, 2), (2, 3), (1, 1)])) ∧
    (applyBatch (applyBatch (applyBatch emptyStore (slice sampleJournal 1 2))
        (slice sampleJournal 2 3)) (slice sampleJournal 1 1)).gapDetected = false :=
  crash_recovery sampleJournal_journal
    (.cons (by decide) (by decide) (by decide +kernel)
      (.cons (by decide) (by decide) (by decide +kernel)
        (.cons (by decide) (by decide) (by decide +kernel) .nil)))

end ValyriaApp
