import ValyriaApp.Lib.Machine
import ValyriaApp.State.Prototype

/-! # Task summaries

A `task_list` answer is merged into the tasks: summaries fill the objective,
and everything for a task the stream has not touched. State and terminal flag
are written by the merge and by four kinds of events, and they race.
-/

namespace ValyriaApp

/-- A `task_list` or `task_status` row. -/
structure TaskSummaryLike where
  taskId : String
  objective : String
  state : String
  createdAtMs : Option Num
  updatedAtMs : Option Num

/-- The projection a summary is merged into. -/
def mergedTask (prev : Option TaskProjection) (su : TaskSummaryLike) : TaskProjection :=
  let streamed := prev.filter fun p => decide (0 < p.lastSeq)
  let summaryState := normalizeState su.state
  { id := su.taskId
    state := (streamed.map (·.state)).getD summaryState
    objective := (prev.bind (·.objective)).or
      (if su.objective = "" then none else some su.objective)
    lastSeq := (prev.map (·.lastSeq)).getD 0
    firstSeenSeq := (prev.map (·.firstSeenSeq)).getD 0
    firstTs := (prev.map (·.firstTs)).getD (su.createdAtMs.getD 0)
    lastTs := (prev.map (·.lastTs)).getD (su.updatedAtMs.getD 0)
    terminal := (streamed.map (·.terminal)).getD (decide (summaryState ∈ terminalStates)) }

/-- The fields that decide whether a merged projection is written. -/
def TaskProjection.sameAs (prev merged : TaskProjection) : Bool :=
  decide (prev.state = merged.state) && decide (prev.objective = merged.objective) &&
    prev.terminal == merged.terminal && prev.lastTs.strictEq merged.lastTs

def mergeSummary (tasks : Record TaskProjection) (su : TaskSummaryLike) : Record TaskProjection :=
  let prev := tasks.get? su.taskId
  let merged := mergedTask prev su
  if prev.any (·.sameAs merged) then tasks else tasks.set su.taskId merged

/-- Merge task summaries into the projection. -/
def mergeTaskSummaries (s : StoreState) (summaries : List TaskSummaryLike) : StoreState :=
  { s with tasks := summaries.foldl mergeSummary s.tasks }

/-! ## State and terminal flag -/

/-- The state and the terminal flag of a task. -/
abbrev Status := TaskState × Bool

def TaskProjection.status (p : TaskProjection) : Status := (p.state, p.terminal)

def statusFor (s : StoreState) (id : String) : Option Status :=
  (s.tasks.get? id).map TaskProjection.status

/-- The state an event moves its task to. -/
def moveOf (ev : DecodedEvent) : Option TaskState :=
  match ev.body with
  | .ok kind payload => nextState kind payload
  | .failed .. => none

def Status.move (st : Status) (ev : DecodedEvent) : Status :=
  ((moveOf ev).getD st.1, st.2 || (moveOf ev).any (· ∈ terminalStates))

/-- A task the store does not know starts in no known state. -/
def freshStatus : Status := (.unknown, false)

theorem status_advanceTask (prev : Option TaskProjection) (id : String) (ev : DecodedEvent) :
    (advanceTask prev id ev).status = ((prev.map (·.status)).getD freshStatus).move ev := by
  unfold advanceTask Status.move moveOf TaskProjection.status
  cases prev <;> cases ev.body <;> simp [freshStatus]

theorem statusFor_advance (s : StoreState) (ev : DecodedEvent) (id : String) :
    statusFor (advance s ev) id =
      if owningTask ev = some id then some (((statusFor s id).getD freshStatus).move ev)
      else statusFor s id := by
  have htask := congrArg TaskSlice.task (sliceFor_advance s ev id)
  change (advance s ev).tasks.get? id = _ at htask
  rw [statusFor, htask]
  split
  · rw [TaskSlice.task_fold, Option.map_some, status_advanceTask]
    rfl
  · rfl

/-- The status a summary gives a task the stream has not touched. -/
def TaskSummaryLike.status (su : TaskSummaryLike) : Status :=
  (normalizeState su.state, decide (normalizeState su.state ∈ terminalStates))

theorem get?_mergeSummary (tasks : Record TaskProjection) (su : TaskSummaryLike) (id : String) :
    ((mergeSummary tasks su).get? id).map (·.status) =
      if su.taskId = id then some (mergedTask (tasks.get? id) su).status
      else (tasks.get? id).map (·.status) := by
  simp only [mergeSummary]
  split
  · rename_i hsame
    split
    · rename_i hid
      subst hid
      cases hprev : tasks.get? su.taskId with
      | none => simp [hprev] at hsame
      | some p =>
        simp only [hprev, Option.any_some, TaskProjection.sameAs, Bool.and_eq_true,
          decide_eq_true_eq, beq_iff_eq] at hsame
        obtain ⟨⟨⟨hstate, -⟩, hterminal⟩, -⟩ := hsame
        rw [Option.map_some, TaskProjection.status, TaskProjection.status, hstate, hterminal]
    · rfl
  · rw [OrderedMap.get?_set]
    by_cases hid : su.taskId = id
    · subst hid
      simp
    · rw [if_neg (Ne.symm hid), if_neg hid]

/-- The stream has touched the task. -/
def streamed (tasks : Record TaskProjection) (id : String) : Bool :=
  (tasks.get? id).any fun p => decide (0 < p.lastSeq)

theorem status_mergedTask (prev : Option TaskProjection) (su : TaskSummaryLike) :
    (mergedTask prev su).status =
      ((prev.filter fun p => decide (0 < p.lastSeq)).map (·.status)).getD su.status := by
  unfold mergedTask TaskProjection.status TaskSummaryLike.status
  cases prev.filter fun p => decide (0 < p.lastSeq) <;> rfl

theorem streamed_mergeSummary (tasks : Record TaskProjection) (su : TaskSummaryLike)
    (id : String) : streamed (mergeSummary tasks su) id = streamed tasks id := by
  simp only [streamed, mergeSummary]
  split
  · rfl
  · rw [OrderedMap.get?_set]
    split
    · rename_i hid
      subst hid
      cases tasks.get? su.taskId with
      | none => rfl
      | some p => rfl
    · rfl

/-! ## Terminal states -/

/-- One call on the store: a delivery, or an answer of `task_list`. -/
inductive StoreCall where
  | events (raws : List Json)
  | summaries (summaries : List TaskSummaryLike)

def storeStep (s : StoreState) : StoreCall → Option StoreState
  | .events raws => some (applyBatch s raws)
  | .summaries sus => some (mergeTaskSummaries s sus)

/-- The terminal flag says that the state is terminal. -/
def TerminalAgrees (s : StoreState) : Prop :=
  ∀ id st, statusFor s id = some st → (st.2 = true ↔ st.1 ∈ terminalStates)

/-- Every task in a terminal state of the first store has this state in the second one. -/
def TerminalHeld (s t : StoreState) : Prop :=
  ∀ id st, statusFor s id = some st → st.1 ∈ terminalStates → statusFor t id = some (st.1, true)

/-- The event is an old one, or leaves a task in a terminal state where it is. -/
def EventSettled (s : StoreState) (raw : Json) : Prop :=
  ¬ (decodeEvent raw).seq < s.lastSeq + 1 → ∀ id st moved, owningTask (decodeEvent raw) = some id →
    statusFor s id = some st → st.1 ∈ terminalStates → moveOf (decodeEvent raw) = some moved →
    moved = st.1

def BatchSettled : StoreState → List Json → Prop
  | _, [] => True
  | s, raw :: raws => EventSettled s raw ∧ BatchSettled (applyRawEvent s raw) raws

/-- The summary leaves an untouched task in a terminal state where it is. -/
def SummarySettled (s : StoreState) (su : TaskSummaryLike) : Prop :=
  streamed s.tasks su.taskId = false → ∀ st, statusFor s su.taskId = some st →
    st.1 ∈ terminalStates → normalizeState su.state = st.1

def SummariesSettled : StoreState → List TaskSummaryLike → Prop
  | _, [] => True
  | s, su :: sus => SummarySettled s su ∧ SummariesSettled (mergeTaskSummaries s [su]) sus

def CallSettled (s : StoreState) : StoreCall → Prop
  | .events raws => BatchSettled s raws
  | .summaries sus => SummariesSettled s sus

variable {s t u : StoreState} {raw : Json} {su : TaskSummaryLike} {id : String}

theorem TerminalAgrees.held_refl (h : TerminalAgrees s) : TerminalHeld s s := by
  intro id st hst hterm
  rw [hst, ← (h id st hst).mpr hterm]

theorem TerminalHeld.trans (hst : TerminalHeld s t) (htu : TerminalHeld t u) :
    TerminalHeld s u :=
  fun id st h hterm => htu id (st.1, true) (hst id st h hterm) hterm

/-- A move that does not leave a terminal state keeps the flag and the state in step. -/
theorem Status.move_agrees {st : Status} {ev : DecodedEvent}
    (h : st.2 = true ↔ st.1 ∈ terminalStates)
    (hsettled : st.1 ∈ terminalStates → ∀ moved, moveOf ev = some moved → moved = st.1) :
    ((st.move ev).2 = true ↔ (st.move ev).1 ∈ terminalStates) ∧
      (st.1 ∈ terminalStates → st.move ev = (st.1, true)) := by
  unfold Status.move
  cases hmove : moveOf ev with
  | none =>
    refine ⟨by simpa using h, fun hterm => ?_⟩
    simp [h.mpr hterm]
  | some moved =>
    by_cases hterm : st.1 ∈ terminalStates
    · obtain rfl := hsettled hterm moved hmove
      simp [h.mpr hterm, hterm]
    · have hflag : st.2 = false := by
        rw [← Bool.not_eq_true, h]
        exact hterm
      simp [hflag, hterm]

theorem TerminalAgrees.applyRawEvent (h : TerminalAgrees s) (hsettled : EventSettled s raw) :
    TerminalAgrees (applyRawEvent s raw) ∧ TerminalHeld s (applyRawEvent s raw) := by
  by_cases hlt : (decodeEvent raw).seq < s.lastSeq + 1
  · rw [ValyriaApp.applyRawEvent, applyDecoded_of_lt hlt]
    exact ⟨h, h.held_refl⟩
  · have hstatus (id : String) : statusFor (ValyriaApp.applyRawEvent s raw) id =
        if owningTask (decodeEvent raw) = some id then
          some (((statusFor s id).getD freshStatus).move (decodeEvent raw))
        else statusFor s id := by
      rw [ValyriaApp.applyRawEvent, applyDecoded_of_not_lt hlt]
      exact statusFor_advance s (decodeEvent raw) id
    have hmove (id : String) (howner : owningTask (decodeEvent raw) = some id) :
        let st := (statusFor s id).getD freshStatus
        ((st.move (decodeEvent raw)).2 = true ↔ (st.move (decodeEvent raw)).1 ∈ terminalStates) ∧
          (st.1 ∈ terminalStates → st.move (decodeEvent raw) = (st.1, true)) := by
      cases hst : statusFor s id with
      | none =>
        refine Status.move_agrees (by decide) fun hterm => ?_
        exact absurd hterm (by decide)
      | some st =>
        exact Status.move_agrees (h id st hst) fun hterm moved hmoved =>
          hsettled hlt id st moved howner hst hterm hmoved
    constructor
    · intro id st hst
      rw [hstatus] at hst
      split at hst
      · rename_i howner
        rw [← Option.some.inj hst]
        exact (hmove id howner).1
      · exact h id st hst
    · intro id st hst hterm
      rw [hstatus]
      split
      · rename_i howner
        have hheld := (hmove id howner).2
        simp only [hst, Option.getD_some] at hheld ⊢
        rw [hheld hterm]
      · exact h.held_refl id st hst hterm

theorem statusFor_mergeTaskSummaries (s : StoreState) (su : TaskSummaryLike) (id : String) :
    statusFor (mergeTaskSummaries s [su]) id =
      if su.taskId = id ∧ streamed s.tasks id = false then some su.status
      else statusFor s id := by
  have hget := get?_mergeSummary s.tasks su id
  change statusFor (mergeTaskSummaries s [su]) id = _ at hget
  rw [hget, status_mergedTask, statusFor, streamed]
  by_cases hid : su.taskId = id
  · cases hprev : s.tasks.get? id with
    | none => simp [hid]
    | some p => by_cases hp : 0 < p.lastSeq <;> simp [hid, hp, Option.filter_some]
  · simp [hid]

theorem TerminalAgrees.mergeTaskSummaries (h : TerminalAgrees s) (hsettled : SummarySettled s su) :
    TerminalAgrees (mergeTaskSummaries s [su]) ∧
      TerminalHeld s (mergeTaskSummaries s [su]) := by
  constructor
  · intro id st hst
    rw [statusFor_mergeTaskSummaries] at hst
    split at hst
    · rw [← Option.some.inj hst]
      simp [TaskSummaryLike.status]
    · exact h id st hst
  · intro id st hst hterm
    rw [statusFor_mergeTaskSummaries]
    split
    · rename_i hmerged
      obtain ⟨rfl, hfresh⟩ := hmerged
      have hstate := hsettled hfresh st hst hterm
      simp [TaskSummaryLike.status, hstate, hterm]
    · exact h.held_refl id st hst hterm

theorem mergeTaskSummaries_cons (s : StoreState) (su : TaskSummaryLike)
    (sus : List TaskSummaryLike) : ValyriaApp.mergeTaskSummaries s (su :: sus) =
      ValyriaApp.mergeTaskSummaries (ValyriaApp.mergeTaskSummaries s [su]) sus := rfl

/-- A settled call keeps the agreement and every terminal state. -/
theorem TerminalAgrees.call {call : StoreCall} (h : TerminalAgrees s)
    (hsettled : CallSettled s call) (hstep : storeStep s call = some t) :
    TerminalAgrees t ∧ TerminalHeld s t := by
  cases call with
  | events raws =>
    obtain rfl := Option.some.inj hstep
    rw [applyBatch_eq_foldl]
    clear hstep
    induction raws generalizing s with
    | nil => exact ⟨h, h.held_refl⟩
    | cons raw raws ih =>
      obtain ⟨hagrees, hheld⟩ := h.applyRawEvent hsettled.1
      obtain ⟨hlast, hrest⟩ := ih hagrees hsettled.2
      exact ⟨hlast, hheld.trans hrest⟩
  | summaries sus =>
    obtain rfl := Option.some.inj hstep
    clear hstep
    induction sus generalizing s with
    | nil => exact ⟨h, h.held_refl⟩
    | cons su sus ih =>
      obtain ⟨hagrees, hheld⟩ := h.mergeTaskSummaries hsettled.1
      obtain ⟨hlast, hrest⟩ := ih hagrees hsettled.2
      rw [mergeTaskSummaries_cons]
      exact ⟨hlast, hheld.trans hrest⟩

/-- In a run of settled calls the flag says whether the state is terminal, and a task that has
reached a terminal state keeps it. -/
theorem terminal_stays {as bs : List StoreCall}
    (hsettled : Machine.Guarded storeStep CallSettled emptyStore (as ++ bs))
    (hs : Machine.run storeStep emptyStore as = some s)
    (ht : Machine.run storeStep s bs = some t) :
    TerminalAgrees s ∧ TerminalAgrees t ∧ TerminalHeld s t := by
  obtain ⟨hfirst, hsecond⟩ := Machine.guarded_append.mp hsettled
  have hempty : TerminalAgrees emptyStore := by
    intro id st hst
    simp [statusFor, emptyStore] at hst
  have hagrees : TerminalAgrees s :=
    Machine.Preserves.run (fun _ _ _ h hg hstep => (h.call hg hstep).1) hempty hfirst hs
  have hpreserves : Machine.Preserves storeStep CallSettled
      fun u => TerminalAgrees u ∧ TerminalHeld s u := by
    rintro u call v ⟨hu, hheld⟩ hg hstep
    obtain ⟨hv, hstay⟩ := hu.call hg hstep
    exact ⟨hv, hheld.trans hstay⟩
  exact ⟨hagrees, hpreserves.run ⟨hagrees, hagrees.held_refl⟩ (hsecond s hs) ht⟩

def completedOnce : List Json := [coreEvent 1 "t" 10 "task_completed" (.obj [])]

def staleSummary : TaskSummaryLike :=
  { taskId := "t", objective := "fix it", state := "IMPLEMENTING", createdAtMs := none
    updatedAtMs := none }

/-- A summary older than the stream leaves a completed task alone. -/
theorem terminal_stays_stale_summary :
    TerminalAgrees (applyBatch emptyStore completedOnce) ∧
      TerminalAgrees (mergeTaskSummaries (applyBatch emptyStore completedOnce) [staleSummary]) ∧
      TerminalHeld (applyBatch emptyStore completedOnce)
        (mergeTaskSummaries (applyBatch emptyStore completedOnce) [staleSummary]) := by
  have hsettled : Machine.Guarded storeStep CallSettled emptyStore
      ([.events completedOnce] ++ [.summaries [staleSummary]]) := by
    refine .cons ⟨?_, trivial⟩ rfl (.cons ⟨?_, trivial⟩ rfl trivial)
    · intro _ id st moved _ hst
      simp [statusFor, emptyStore] at hst
    · intro hfresh
      exact absurd hfresh (by decide +kernel)
  exact terminal_stays hsettled rfl rfl

/-- A late `state_changed` moves a completed task on, and its flag stays. -/
theorem late_event_reopens_task :
    ∃ s t, Machine.run storeStep emptyStore [.events completedOnce] = some s ∧
      Machine.run storeStep s [.events [coreEvent 2 "t" 20 "state_changed"
        (.obj [("to", .str "PLANNING")])]] = some t ∧
      ¬ TerminalAgrees t ∧ ¬ TerminalHeld s t := by
  refine ⟨_, _, rfl, rfl, ?_, ?_⟩
  · intro h
    have hflag := (h "t" (.planning, true) (by decide +kernel)).mp rfl
    exact absurd hflag (by decide)
  · intro h
    have hkept := h "t" (.completed, true) (by decide +kernel) (by decide)
    exact absurd hkept (by decide +kernel)

/-! ## The order of merging -/

variable {es : List Json} {sus : List TaskSummaryLike} {evs : List DecodedEvent}

/-- Well-formed events with consecutive numbers. -/
def Contiguous (es : List Json) : Prop :=
  ∃ k, ∀ i (h : i < es.length), CarriesSeq (k + i) es[i]

/-- The events of the task that the store takes up. -/
def ownEvents (id : String) (es : List Json) : List DecodedEvent :=
  (counted es).filter (owningTask · = some id)

/-- The states the events move the task to, in order. -/
def movesFor (id : String) (es : List Json) : List TaskState := (ownEvents id es).filterMap moveOf

def lastSummary (id : String) (sus : List TaskSummaryLike) : Option TaskSummaryLike :=
  (sus.filter (·.taskId = id)).getLast?

theorem Contiguous.takenUp_eq (h : Contiguous es) :
    takenUp 0 es = es.filter fun raw => (decodeEvent raw).seq ≠ 0 := by
  obtain ⟨k, hk⟩ := h
  have hpos {raws : List Json} {k : ℕ} (hraws : ∀ i (hi : i < raws.length),
      CarriesSeq (k + 1 + i) raws[i]) :
      takenUp 0 raws = raws.filter fun raw => (decodeEvent raw).seq ≠ 0 := by
    have hall : takenUp ((0 : ℕ) : Num) raws = raws := takenUp_of_carriesSeq hraws (by omega)
    refine hall.trans (List.filter_eq_self.mpr fun raw hraw => ?_).symm
    obtain ⟨i, hi, rfl⟩ := List.mem_iff_getElem.mp hraw
    rw [(hraws i hi).decodeEvent_seq]
    exact decide_eq_true fun hzero => by
      have : k + 1 + i = 0 := Num.natCast_inj.mp hzero
      omega
  cases k with
  | succ k => exact hpos hk
  | zero =>
    cases es with
    | nil => rfl
    | cons raw es =>
      have hraw : (decodeEvent raw).seq = ((0 : ℕ) : Num) :=
        (hk 0 (Nat.succ_pos _)).decodeEvent_seq
      have hlt : (decodeEvent raw).seq < ((0 : ℕ) : Num) + 1 := by
        rw [hraw, Num.natCast_add_one (Nat.two_pow_pos 53), Num.natCast_lt]
        omega
      have hskip : takenUp 0 (raw :: es) = takenUp 0 es := if_pos hlt
      have hzero : (decodeEvent raw).seq = 0 := hraw
      rw [hskip, List.filter_cons_of_neg (by simp [hzero])]
      refine hpos (k := 0) fun i hi => ?_
      have hget := hk (i + 1) (Nat.succ_lt_succ hi)
      rwa [List.getElem_cons_succ, Nat.zero_add, Nat.add_comm] at hget

theorem Contiguous.applyBatch_eq (h : Contiguous es) (hs : s.lastSeq = 0) :
    applyBatch s es = (counted es).foldl next s := by
  rw [applyBatch_eq_foldl, foldl_applyRawEvent_eq, hs, h.takenUp_eq, counted, List.filter_map]
  rfl

theorem foldl_move (evs : List DecodedEvent) (st : Status) :
    evs.foldl Status.move st =
      ((evs.filterMap moveOf).getLast?.getD st.1,
        st.2 || (evs.filterMap moveOf).any (· ∈ terminalStates)) := by
  induction evs generalizing st with
  | nil => simp
  | cons ev evs ih =>
    rw [List.foldl_cons, ih, Status.move]
    cases hmove : moveOf ev with
    | none => simp [List.filterMap_cons_none hmove]
    | some moved =>
      rw [List.filterMap_cons_some hmove, List.getLast?_cons]
      simp [Bool.or_assoc]

theorem statusFor_foldl_next (evs : List DecodedEvent) (s : StoreState) (id : String) :
    statusFor (evs.foldl next s) id =
      if (evs.filter (owningTask · = some id)) = [] then statusFor s id
      else some ((evs.filter (owningTask · = some id)).foldl Status.move
        ((statusFor s id).getD freshStatus)) := by
  induction evs generalizing s with
  | nil => rfl
  | cons ev evs ih =>
    have hnext : statusFor (next s ev) id = statusFor (advance s ev) id := rfl
    rw [List.foldl_cons, ih, hnext, statusFor_advance]
    by_cases howner : owningTask ev = some id
    · simp only [howner, if_true, List.filter_cons_of_pos, decide_true, List.foldl_cons,
        Option.getD_some, reduceCtorEq, if_false]
      split
      · rename_i hnil
        rw [hnil, List.foldl_nil]
      · rfl
    · simp [howner]

/-- The status of the task after the events, whatever the store knew of it before. -/
theorem Contiguous.statusFor_applyBatch (h : Contiguous es) (hs : s.lastSeq = 0) (id : String) :
    statusFor (applyBatch s es) id =
      if ownEvents id es = [] then statusFor s id
      else some ((movesFor id es).getLast?.getD ((statusFor s id).getD freshStatus).1,
        ((statusFor s id).getD freshStatus).2 || (movesFor id es).any (· ∈ terminalStates)) := by
  rw [h.applyBatch_eq hs, statusFor_foldl_next, foldl_move]
  rfl

theorem streamed_foldl_mergeSummary (tasks : Record TaskProjection) (sus : List TaskSummaryLike)
    (id : String) : streamed (sus.foldl mergeSummary tasks) id = streamed tasks id := by
  induction sus generalizing tasks with
  | nil => rfl
  | cons su sus ih => rw [List.foldl_cons, ih, streamed_mergeSummary]

/-- The last summary of a task decides, unless the stream has touched it. -/
theorem statusFor_mergeTaskSummaries_all (s : StoreState) (sus : List TaskSummaryLike)
    (id : String) :
    statusFor (mergeTaskSummaries s sus) id =
      if streamed s.tasks id then statusFor s id
      else ((lastSummary id sus).map (·.status)).or (statusFor s id) := by
  induction sus using List.reverseRecOn with
  | nil =>
    change statusFor s id = _
    simp [lastSummary]
  | append_singleton sus su ih =>
    have hsplit : mergeTaskSummaries s (sus ++ [su]) =
        mergeTaskSummaries (mergeTaskSummaries s sus) [su] := by
      simp [mergeTaskSummaries]
    have hstreamed : streamed (mergeTaskSummaries s sus).tasks id = streamed s.tasks id :=
      streamed_foldl_mergeSummary _ _ _
    rw [hsplit, statusFor_mergeTaskSummaries, hstreamed, ih]
    by_cases hid : su.taskId = id
    · cases hs : streamed s.tasks id <;> simp [hid, lastSummary]
    · simp [hid, lastSummary]

theorem streamed_of_ownEvents (h : Contiguous es) {id : String} (hown : ownEvents id es ≠ []) :
    streamed (applyBatch emptyStore es).tasks id = true := by
  have htask : ((sliceFor ((counted es).foldl next emptyStore) id).task) =
      ((ownEvents id es).foldl (TaskSlice.fold id) (sliceFor emptyStore id)).task :=
    congrArg TaskSlice.task (sliceFor_foldl_next _ _ _)
  obtain hnil | ⟨init, last, hsplit⟩ := List.eq_nil_or_concat (ownEvents id es)
  · exact absurd hnil hown
  · rw [List.concat_eq_append] at hsplit
    have hmem : last ∈ counted es :=
      List.mem_of_mem_filter (p := (owningTask · = some id)) (by
        change last ∈ ownEvents id es
        rw [hsplit]
        simp)
    obtain ⟨raw, hraw, rfl⟩ := List.mem_map.mp (List.mem_of_mem_filter hmem)
    obtain ⟨k, hk⟩ := h
    obtain ⟨i, hi, rfl⟩ := List.mem_iff_getElem.mp hraw
    have hseq := (hk i hi).decodeEvent_seq
    have hpos : 0 < k + i := by
      have hne : (decodeEvent es[i]).seq ≠ 0 := of_decide_eq_true (List.mem_filter.mp hmem).2
      rw [hseq] at hne
      exact Nat.pos_of_ne_zero fun hzero => hne (by rw [hzero]; rfl)
    have hlast (d : TaskSlice) : (d.fold id (decodeEvent es[i])).task.any
        (fun p => decide (0 < p.lastSeq)) = true := by
      rw [TaskSlice.task_fold, Option.any_some, advanceTask_lastSeq, hseq]
      exact decide_eq_true (Num.natCast_lt.mpr hpos)
    rw [Contiguous.applyBatch_eq ⟨k, hk⟩ rfl]
    change (sliceFor ((counted es).foldl next emptyStore) id).task.any _ = true
    rw [htask, hsplit, List.foldl_append, List.foldl_cons, List.foldl_nil]
    exact hlast _

/-- A summary of a task with a name that no object inherits. -/
def OwnSummary : Type := { su : TaskSummaryLike // su.taskId ∉ objectPrototype }

def ObjectStore.mergeTaskSummaries (o : ObjectStore) (sus : List OwnSummary) : ObjectStore :=
  { o with store := ValyriaApp.mergeTaskSummaries o.store (sus.map Subtype.val) }

/-- Merging before the stream, after it, or not at all gives the task one state and one flag. -/
def OrderFree (es : List Json) (sus : List OwnSummary) (id : String) : Prop :=
  ∃ plain first, ObjectStore.begin.applyBatch? es = some plain ∧
    (ObjectStore.begin.mergeTaskSummaries sus).applyBatch? es = some first ∧
    statusFor (plain.mergeTaskSummaries sus).store id = statusFor plain.store id ∧
    statusFor first.store id = statusFor plain.store id

/-- The events write all that the last summary of the task seeds: a state, unless the summary's is
unknown, and a terminal one if the summary's is. -/
def StreamDecides (es : List Json) (sus : List TaskSummaryLike) (id : String) : Prop :=
  ∀ su, lastSummary id sus = some su → ownEvents id es ≠ [] ∧
    (movesFor id es ≠ [] ∨ normalizeState su.state = .unknown) ∧
    (normalizeState su.state ∈ terminalStates → ∃ st ∈ movesFor id es, st ∈ terminalStates)

theorem statusFor_emptyStore (id : String) : statusFor emptyStore id = none := rfl

theorem seeded_eq_iff (moves : List TaskState) (state : TaskState) :
    (moves.getLast?.getD state, decide (state ∈ terminalStates) || moves.any (· ∈ terminalStates)) =
        (moves.getLast?.getD freshStatus.1, freshStatus.2 || moves.any (· ∈ terminalStates)) ↔
      (moves ≠ [] ∨ state = .unknown) ∧
        (state ∈ terminalStates → ∃ st ∈ moves, st ∈ terminalStates) := by
  have hlast : moves.getLast?.getD state = moves.getLast?.getD .unknown ↔
      moves ≠ [] ∨ state = .unknown := by
    obtain rfl | ⟨init, last, rfl⟩ := List.eq_nil_or_concat moves
    · simp
    · simp
  have hflag : (decide (state ∈ terminalStates) || moves.any (· ∈ terminalStates)) =
      moves.any (· ∈ terminalStates) ↔
        (state ∈ terminalStates → ∃ st ∈ moves, st ∈ terminalStates) := by
    by_cases hterm : state ∈ terminalStates
    · rw [decide_eq_true hterm, Bool.true_or, eq_comm, List.any_eq_true]
      simp [hterm]
    · simp [hterm]
  rw [Prod.mk.injEq, freshStatus, Bool.false_or, hlast, hflag]

theorem Contiguous.decodeThrows (h : Contiguous es) : ¬ es.any decodeThrows = true := by
  obtain ⟨k, hk⟩ := h
  rw [List.any_eq_true]
  rintro ⟨raw, hmem, hthrow⟩
  obtain ⟨i, hi, rfl⟩ := List.mem_iff_getElem.mp hmem
  exact absurd hthrow (by rw [decodeThrows_of_carriesSeq (hk i hi)]; decide)

theorem Contiguous.applyBatch?_own (h : Contiguous es) (hown : ∀ raw ∈ es, OwnNamed raw)
    (o : ObjectStore) : o.applyBatch? es = some { o with store := applyBatch o.store es } := by
  rw [ObjectStore.applyBatch?_own fun raw hraw => hown raw (mem_of_mem_takenUp hraw),
    applyBatch?_eq, if_neg h.decodeThrows]
  rfl

theorem status_order_free_iff (hes : Contiguous es) (sus : List TaskSummaryLike) (id : String) :
    statusFor (mergeTaskSummaries (applyBatch emptyStore es) sus) id =
          statusFor (applyBatch emptyStore es) id ∧
        statusFor (applyBatch (mergeTaskSummaries emptyStore sus) es) id =
          statusFor (applyBatch emptyStore es) id ↔
      StreamDecides es sus id := by
  have hseed : statusFor (mergeTaskSummaries emptyStore sus) id =
      (lastSummary id sus).map (·.status) := by
    rw [statusFor_mergeTaskSummaries_all, statusFor_emptyStore, Option.or_none]
    rfl
  have hfirst := hes.statusFor_applyBatch (s := mergeTaskSummaries emptyStore sus) rfl id
  have hplain := hes.statusFor_applyBatch (s := emptyStore) rfl id
  rw [hseed] at hfirst
  rw [StreamDecides, statusFor_mergeTaskSummaries_all, hfirst, hplain, statusFor_emptyStore]
  by_cases hown : ownEvents id es = []
  · simp only [hown, if_true, ne_eq, not_true_eq_false, false_and, Option.or_none]
    cases lastSummary id sus with
    | none => simp
    | some su => simp
  · rw [streamed_of_ownEvents hes hown]
    simp only [hown, if_false, if_true, true_and, ne_eq, not_false_eq_true, Option.some.injEq]
    cases lastSummary id sus with
    | none => simp
    | some su =>
      rw [Option.map_some, Option.getD_some, Option.getD_none, TaskSummaryLike.status,
        seeded_eq_iff]
      constructor
      · rintro hdecides su' hsu
        obtain rfl := Option.some.inj hsu
        exact hdecides
      · intro hdecides
        exact hdecides su rfl

theorem orderFree_iff (hes : Contiguous es) (hown : ∀ raw ∈ es, OwnNamed raw)
    (sus : List OwnSummary) (id : String) :
    OrderFree es sus id ↔ StreamDecides es (sus.map Subtype.val) id := by
  rw [← status_order_free_iff hes, OrderFree, hes.applyBatch?_own hown, hes.applyBatch?_own hown]
  constructor
  · rintro ⟨plain, first, hplain, hfirst, hsame⟩
    obtain rfl := Option.some.inj hplain
    obtain rfl := Option.some.inj hfirst
    exact hsame
  · exact fun hsame => ⟨_, _, rfl, rfl, hsame⟩

/-- For the tasks the events name, none of them a name every object inherits, the order of merging
does not matter exactly when the events write all that the summaries seed. -/
theorem merge_order_free_iff (hes : Contiguous es) (hown : ∀ raw ∈ es, OwnNamed raw)
    (sus : List OwnSummary) :
    (∀ id, (∃ raw ∈ es, (decodeEvent raw).taskId = some id) → OrderFree es sus id) ↔
      ∀ id, (∃ raw ∈ es, (decodeEvent raw).taskId = some id) →
        StreamDecides es (sus.map Subtype.val) id := by
  simp only [orderFree_iff hes hown]

def startedOnce : List Json := [coreEvent 1 "t" 10 "task_started" (.obj [])]

theorem startedOnce_contiguous : Contiguous startedOnce := by
  refine ⟨1, fun i hi => ?_⟩
  match i, hi with
  | 0, _ => exact carriesSeq_coreEvent (by norm_num) (by norm_num) ..

def ownStale : OwnSummary := ⟨staleSummary, by decide⟩

theorem startedOnce_order_free_iff :
    (∀ id, (∃ raw ∈ startedOnce, (decodeEvent raw).taskId = some id) →
        OrderFree startedOnce [ownStale] id) ↔
      ∀ id, (∃ raw ∈ startedOnce, (decodeEvent raw).taskId = some id) →
        StreamDecides startedOnce ([ownStale].map Subtype.val) id :=
  merge_order_free_iff startedOnce_contiguous (by decide +kernel) [ownStale]

/-- A summary merged before the task's first event stays in its state. -/
theorem early_summary_stays :
    Contiguous startedOnce ∧ (∃ raw ∈ startedOnce, (decodeEvent raw).taskId = some "t") ∧
      ¬ OrderFree startedOnce [ownStale] "t" := by
  refine ⟨startedOnce_contiguous, ⟨_, List.mem_cons_self, rfl⟩, ?_⟩
  rintro ⟨plain, first, hplain, hfirst, -, hsame⟩
  have hunknown : (ObjectStore.begin.applyBatch? startedOnce).map (statusFor ·.store "t") =
      some (some (.unknown, false)) := by decide +kernel
  have hstays : ((ObjectStore.begin.mergeTaskSummaries [ownStale]).applyBatch? startedOnce).map
      (statusFor ·.store "t") = some (some (.implementing, false)) := by decide +kernel
  rw [hplain, Option.map_some, Option.some.injEq] at hunknown
  rw [hfirst, Option.map_some, Option.some.injEq, hsame, hunknown] at hstays
  exact absurd hstays (by decide)

end ValyriaApp
