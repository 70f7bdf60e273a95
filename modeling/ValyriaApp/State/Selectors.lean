import Mathlib.Data.List.Sort
import ValyriaApp.State.Replay

/-! # Selectors

Tasks are listed by recency, and the approval of a task is shown while the task
waits for permission. An approval is never cleared: the one stored for a task is
the latest of the requests its events have made.
-/

namespace ValyriaApp

variable {s : StoreState} {ev : DecodedEvent} {journal : List Json}

/-! ## Tasks -/

/-- A property key that is an array index in its canonical form. -/
def arrayIndex? (key : String) : Option ℕ :=
  key.toNat?.filter fun n => n < 2 ^ 32 - 1 ∧ toString n = key

/-- `Object.values`: array indices in increasing order, then the other keys as first written. -/
def objectValues {α : Type} (record : Record α) : List α :=
  let indexed := record.entries.filterMap fun e => (arrayIndex? e.1).map fun i => (i, e.2)
  let named := record.entries.filter fun e => (arrayIndex? e.1).isNone
  (indexed.insertionSort fun a b => a.1 ≤ b.1).map Prod.snd ++ named.map Prod.snd

def tasksByRecency (s : StoreState) : List TaskProjection :=
  (objectValues s.tasks).insertionSort fun a b => ¬ a.lastSeq < b.lastSeq

/-- The most recently touched task, the default focus. -/
def currentTask (s : StoreState) : Option TaskProjection := (tasksByRecency s).head?

theorem mem_objectValues {α : Type} (record : Record α) (v : α) :
    v ∈ objectValues record ↔ ∃ key, record.get? key = some v := by
  simp only [objectValues, List.mem_append, List.mem_map, List.mem_insertionSort,
    List.mem_filterMap, List.mem_filter, OrderedMap.get?_eq_some_iff]
  constructor
  · rintro (⟨⟨i, w⟩, ⟨⟨key, w'⟩, hmem, hindex⟩, rfl⟩ | ⟨⟨key, w⟩, ⟨hmem, -⟩, rfl⟩)
    · obtain ⟨j, -, hpair⟩ := Option.map_eq_some_iff.mp hindex
      obtain ⟨-, rfl⟩ := Prod.mk.inj hpair
      exact ⟨key, hmem⟩
    · exact ⟨key, hmem⟩
  · rintro ⟨key, hmem⟩
    cases hindex : arrayIndex? key with
    | none => exact .inr ⟨(key, v), ⟨hmem, by simp [hindex]⟩, rfl⟩
    | some i => exact .inl ⟨(i, v), ⟨(key, v), hmem, by simp [hindex]⟩, rfl⟩

theorem mem_tasksByRecency (t : TaskProjection) :
    t ∈ tasksByRecency s ↔ ∃ key, s.tasks.get? key = some t := by
  rw [tasksByRecency, List.mem_insertionSort, mem_objectValues]

theorem head?_insertionSort {α : Type} {r : α → α → Prop} [DecidableRel r] {a : α} {l : List α}
    (hmem : a ∈ l) (hfirst : ∀ b ∈ l, r a b) (hlast : ∀ b ∈ l, r b a → b = a) :
    (l.insertionSort r).head? = some a := by
  induction l with
  | nil => simp at hmem
  | cons b l ih =>
    rw [List.insertionSort_cons]
    by_cases hb : b = a
    · subst hb
      cases hsorted : l.insertionSort r with
      | nil => rfl
      | cons c rest =>
        have hc : c ∈ l := (List.mem_insertionSort r).mp (hsorted ▸ List.mem_cons_self)
        rw [List.orderedInsert_cons, if_pos (hfirst c (List.mem_cons_of_mem _ hc))]
        rfl
    · have hl : a ∈ l := (List.mem_cons.mp hmem).resolve_left (Ne.symm hb)
      obtain ⟨rest, hrest⟩ := List.head?_eq_some_iff.mp (ih hl
        (fun c hc => hfirst c (List.mem_cons_of_mem _ hc))
        fun c hc => hlast c (List.mem_cons_of_mem _ hc))
      have hafter : ¬ r b a := fun h => hb (hlast b List.mem_cons_self h)
      rw [hrest, List.orderedInsert_cons, if_neg hafter]
      rfl

/-- The task touched after all others is the current one. -/
theorem currentTask_eq_some {key : String} {task : TaskProjection}
    (hstored : s.tasks.get? key = some task)
    (hlatest : ∀ other t, s.tasks.get? other = some t → t = task ∨ t.lastSeq < task.lastSeq) :
    currentTask s = some task := by
  refine head?_insertionSort ((mem_objectValues _ _).mpr ⟨key, hstored⟩) ?_ ?_
  · intro t ht
    obtain ⟨other, ht⟩ := (mem_objectValues _ _).mp ht
    rcases hlatest other t ht with rfl | hlt
    · exact Num.lt_irrefl _
    · exact fun h => Num.lt_irrefl _ (Num.lt_trans h hlt)
  · intro t ht hnot
    obtain ⟨other, ht⟩ := (mem_objectValues _ _).mp ht
    exact (hlatest other t ht).resolve_right hnot

/-! ## Approvals -/

/-- The approval of a task, only while the task is blocked on one. -/
def pendingApprovalFor (s : StoreState) (taskId : String) : Option ApprovalProjection :=
  match s.tasks.get? taskId with
  | some task => if task.state = .waitingForPermission then s.approvals.get? taskId else none
  | none => none

/-- Is the approval last rendered for the task, with number `seenSeq`, still the latest one? -/
def approvalIsCurrent (s : StoreState) (taskId : String) (seenSeq : Num) : Bool :=
  (s.approvals.get? taskId).any fun ap => ap.seq.strictEq seenSeq

/-- The approval a decoded event asks for. -/
def approvalAsked (ev : DecodedEvent) : Option ApprovalProjection :=
  match owningTask ev, ev.body with
  | some id, .ok .approvalRequested payload => some { taskId := id, seq := ev.seq, payload }
  | _, _ => none

/-- The approval the journal's event number `k` asks for. -/
def requestAt (journal : List Json) : ℕ → Option ApprovalProjection
  | 0 => none
  | i + 1 => journal[i]?.bind fun raw => approvalAsked (decodeEvent raw)

def asksFor (journal : List Json) (taskId : String) (k : ℕ) : Bool :=
  (requestAt journal k).any (·.taskId = taskId)

/-- Event `k` is the last one up to `c` that asks for an approval of the task. -/
def LatestAsk (journal : List Json) (taskId : String) (c k : ℕ) : Prop :=
  k ≤ c ∧ asksFor journal taskId k ∧ ∀ j ≤ c, asksFor journal taskId j → j ≤ k

instance (journal : List Json) (taskId : String) (c k : ℕ) :
    Decidable (LatestAsk journal taskId c k) :=
  inferInstanceAs (Decidable (_ ∧ _ ∧ _))

theorem LatestAsk.unique {taskId : String} {c j k : ℕ} (hj : LatestAsk journal taskId c j)
    (hk : LatestAsk journal taskId c k) : j = k :=
  Nat.le_antisymm (hk.2.2 j hj.1 hj.2.1) (hj.2.2 k hk.1 hk.2.1)

theorem asksFor_eq_true {taskId : String} {k : ℕ} :
    asksFor journal taskId k = true ↔ ∃ ap, requestAt journal k = some ap ∧ ap.taskId = taskId := by
  rw [asksFor, Option.any_eq_true]
  simp only [decide_eq_true_eq]

theorem requestAt_append {k : ℕ} {ap : ApprovalProjection} (h : requestAt journal k = some ap)
    (more : List Json) : requestAt (journal ++ more) k = some ap := by
  cases k with
  | zero => cases h
  | succ i =>
    obtain ⟨raw, hraw, hap⟩ := Option.bind_eq_some_iff.mp h
    obtain ⟨hi, -⟩ := List.getElem?_eq_some_iff.mp hraw
    rw [requestAt, List.getElem?_append_left hi, hraw]
    exact hap

theorem approvalAsked_seq {ap : ApprovalProjection} (h : approvalAsked ev = some ap) :
    ap.seq = ev.seq := by
  unfold approvalAsked at h
  split at h
  · cases h; rfl
  · cases h

theorem Journal.requestAt_seq (hj : Journal journal) {k : ℕ} {ap : ApprovalProjection}
    (h : requestAt journal k = some ap) : ap.seq = k := by
  cases k with
  | zero => cases h
  | succ i =>
    obtain ⟨raw, hraw, hap⟩ := Option.bind_eq_some_iff.mp h
    obtain ⟨hi, rfl⟩ := List.getElem?_eq_some_iff.mp hraw
    rw [approvalAsked_seq hap, (hj.carriesSeq hi).decodeEvent_seq]

theorem approvalIsCurrent_eq_true {taskId : String} {seenSeq : Num}
    (h : approvalIsCurrent s taskId seenSeq = true) :
    ∃ ap, s.approvals.get? taskId = some ap ∧ ap.seq = seenSeq := by
  obtain ⟨ap, hap, hseq⟩ := (Option.any_eq_true _ _).mp h
  exact ⟨ap, hap, (Num.strictEq_eq_true.mp hseq).1⟩

theorem pendingApprovalFor_eq_some {taskId : String} {ap : ApprovalProjection}
    (h : pendingApprovalFor s taskId = some ap) : s.approvals.get? taskId = some ap := by
  unfold pendingApprovalFor at h
  split at h
  · split at h
    · exact h
    · cases h
  · cases h

/-! ## The approval stored for a task -/

@[simp] theorem foldGlobal_approvals : (foldGlobal s ev).approvals = s.approvals := by
  unfold foldGlobal; split <;> rfl

/-- An event that asks for an approval of the task replaces the one stored. -/
theorem advance_approvals (taskId : String) :
    (advance s ev).approvals.get? taskId =
      ((approvalAsked ev).filter (·.taskId = taskId)).or (s.approvals.get? taskId) := by
  unfold advance approvalAsked
  cases hown : owningTask ev with
  | none => simp [moveCursor]
  | some id =>
    unfold foldTask
    cases ev.body with
    | failed reason kind raw => simp [moveCursor]
    | ok kind payload =>
      by_cases hkind : kind = .approvalRequested
      · subst hkind
        by_cases ht : taskId = id
        · simp [moveCursor, Option.filter, ht]
        · simp [moveCursor, Option.filter, OrderedMap.get?_set, ht, Ne.symm ht]
      · simp [moveCursor, hkind]

theorem Journal.approvals_take_succ (hj : Journal journal) {c : ℕ} (hc : c < journal.length)
    (taskId : String) :
    (replay (journal.take (c + 1))).approvals.get? taskId =
      ((requestAt journal (c + 1)).filter (·.taskId = taskId)).or
        ((replay (journal.take c)).approvals.get? taskId) := by
  have hlast := hj.replay_lastSeq hc.le
  have hrequest : requestAt journal (c + 1) = approvalAsked (decodeEvent journal[c]) := by
    rw [requestAt, List.getElem?_eq_getElem hc, Option.bind_some]
  rw [replay_take_succ hc, applyRawEvent_of_lt (hj.carriesSeq hc) hlast (Nat.lt_succ_self c), hrequest]
  exact advance_approvals taskId

/-- The approval stored for a task is the latest one asked for by its events. -/
theorem Journal.latest_approval (hj : Journal journal) {taskId : String}
    {ap : ApprovalProjection} {c : ℕ} (hc : c ≤ journal.length)
    (h : (replay (journal.take c)).approvals.get? taskId = some ap) :
    ∃ k, requestAt journal k = some ap ∧ LatestAsk journal taskId c k := by
  induction c with
  | zero => cases h
  | succ c ih =>
    rw [hj.approvals_take_succ hc, Option.or_eq_some_iff] at h
    rcases h with hfilter | ⟨hfilter, hprev⟩
    · obtain ⟨hap, ht⟩ := Option.filter_eq_some_iff.mp hfilter
      refine ⟨c + 1, hap, le_rfl, ?_, fun j hj _ => hj⟩
      exact asksFor_eq_true.mpr ⟨ap, hap, of_decide_eq_true ht⟩
    · obtain ⟨k, hap, hk, hasks, hlatest⟩ := ih (Nat.le_of_succ_le hc) hprev
      refine ⟨k, hap, hk.trans (Nat.le_succ c), hasks, fun j hjc hasksj => ?_⟩
      rcases Nat.lt_or_eq_of_le hjc with hlt | rfl
      · exact hlatest j (Nat.le_of_lt_succ hlt) hasksj
      · obtain ⟨ap', hap', ht'⟩ := asksFor_eq_true.mp hasksj
        simp [hap', ht'] at hfilter

end ValyriaApp
