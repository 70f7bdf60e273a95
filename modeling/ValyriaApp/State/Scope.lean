import ValyriaApp.State.Replay

/-! # The stream of one task

What the store projects of a task is a fold over the events the task owns, and
the install and server maps are a fold over the install and server events.
Hence a stream from which other tasks' events are left out rebuilds the same
projections of the task, although its cursor and its gap flag differ.
-/

namespace ValyriaApp

variable {s : StoreState} {ev : DecodedEvent} {raw : Json} {journal : List Json} {id t : String}

/-! ## One task -/

/-- What the store projects of one task. -/
@[ext] structure TaskSlice where
  task : Option TaskProjection
  plan : Option PlanProjection
  approval : Option ApprovalProjection
  files : Option (List FileChangeProjection)
  tests : Option TestProjection

def sliceFor (s : StoreState) (id : String) : TaskSlice where
  task := s.tasks.get? id
  plan := s.plans.get? id
  approval := s.approvals.get? id
  files := s.files.get? id
  tests := s.tests.get? id

/-- Fold an event of the task into its own projections. -/
def TaskSlice.fold (id : String) (d : TaskSlice) (ev : DecodedEvent) : TaskSlice :=
  let d := { d with task := some (advanceTask d.task id ev) }
  match ev.body with
  | .failed .. => d
  | .ok kind payload =>
    { d with
      plan := if kind = .planCreated then some { taskId := id, seq := ev.seq, payload } else d.plan
      approval := if kind = .approvalRequested then some { taskId := id, seq := ev.seq, payload }
        else d.approval
      files := some (foldFileChange d.files ev.seq kind payload)
      tests := (foldTestRun d.tests id ev.seq kind payload).or d.tests }

theorem advanceTask_lastSeq (prev : Option TaskProjection) (id : String) (ev : DecodedEvent) :
    (advanceTask prev id ev).lastSeq = ev.seq := by
  unfold advanceTask
  cases ev.body <;> rfl

theorem advanceTask_lastTs (prev : Option TaskProjection) (id : String) (ev : DecodedEvent) :
    (advanceTask prev id ev).lastTs = ev.ts := by
  unfold advanceTask
  cases ev.body <;> rfl

theorem TaskSlice.task_fold (d : TaskSlice) :
    (d.fold t ev).task = some (advanceTask d.task t ev) := by
  unfold TaskSlice.fold
  split <;> rfl

theorem TaskSlice.task_foldl {evs : List DecodedEvent} (h : evs ≠ []) (d : TaskSlice) :
    ((evs.foldl (TaskSlice.fold t) d).task).isSome := by
  obtain rfl | ⟨init, last, rfl⟩ := List.eq_nil_or_concat evs
  · exact absurd rfl h
  · rw [List.concat_eq_append, List.foldl_append, List.foldl_cons, List.foldl_nil, task_fold]
    rfl

theorem sliceFor_foldTask (s : StoreState) (id t : String) (ev : DecodedEvent) :
    sliceFor (foldTask s id ev) t =
      if t = id then (sliceFor s t).fold t ev else sliceFor s t := by
  obtain ⟨seq, ts, taskId, body⟩ := ev
  by_cases h : t = id
  · subst h
    cases body with
    | failed => ext1 <;> simp [foldTask, sliceFor, TaskSlice.fold]
    | ok kind payload =>
      ext1
      · simp [foldTask, sliceFor, TaskSlice.fold]
      · by_cases hk : kind = .planCreated <;> simp [foldTask, sliceFor, TaskSlice.fold, hk]
      · by_cases hk : kind = .approvalRequested <;> simp [foldTask, sliceFor, TaskSlice.fold, hk]
      · simp [foldTask, sliceFor, TaskSlice.fold]
      · cases ht : foldTestRun (s.tests.get? t) t seq kind payload <;>
          simp [foldTask, sliceFor, TaskSlice.fold, ht]
  · cases body with
    | failed => simp [foldTask, sliceFor, OrderedMap.get?_set, h]
    | ok kind payload =>
      rw [if_neg h]
      ext1
      · simp [foldTask, sliceFor, OrderedMap.get?_set, h]
      · by_cases hk : kind = .planCreated <;> simp [foldTask, sliceFor, OrderedMap.get?_set, h, hk]
      · by_cases hk : kind = .approvalRequested <;>
          simp [foldTask, sliceFor, OrderedMap.get?_set, h, hk]
      · simp [foldTask, sliceFor, OrderedMap.get?_set, h]
      · cases ht : foldTestRun (s.tests.get? id) id seq kind payload <;>
          simp [foldTask, sliceFor, OrderedMap.get?_set, h, ht]

@[simp] theorem sliceFor_foldGlobal : sliceFor (foldGlobal s ev) t = sliceFor s t := by
  unfold foldGlobal
  split <;> rfl

theorem sliceFor_advance (s : StoreState) (ev : DecodedEvent) (t : String) :
    sliceFor (advance s ev) t =
      if owningTask ev = some t then (sliceFor s t).fold t ev else sliceFor s t := by
  have hmove : sliceFor (moveCursor s ev) t = sliceFor s t := rfl
  unfold advance
  cases howner : owningTask ev with
  | none => simp [hmove]
  | some id =>
    simp only [sliceFor_foldTask, sliceFor_foldGlobal, hmove, Option.some.injEq, eq_comm]

/-! ## The install and server maps -/

@[ext] structure Globals where
  modelInstalls : Record ModelInstallProjection
  engineInstalls : Record ModelInstallProjection
  modelServers : Record ModelServerProjection

def globalsOf (s : StoreState) : Globals where
  modelInstalls := s.modelInstalls
  engineInstalls := s.engineInstalls
  modelServers := s.modelServers

def Globals.fold (g : Globals) (ev : DecodedEvent) : Globals :=
  match ev.body with
  | .failed .. => g
  | .ok kind payload =>
    { modelInstalls := foldModelInstall g.modelInstalls ev.seq kind payload
      engineInstalls := foldEngineInstall g.engineInstalls ev.seq kind payload
      modelServers := foldModelServer g.modelServers ev.seq kind payload }

/-- A decoded install or server event. -/
def installsOrServes (ev : DecodedEvent) : Bool :=
  match ev.body with
  | .failed .. => false
  | .ok kind _ => (modelInstallStep kind).isSome || (engineInstallStep kind).isSome ||
      (serverState kind).isSome

theorem globalsOf_foldGlobal : globalsOf (foldGlobal s ev) = (globalsOf s).fold ev := by
  obtain ⟨seq, ts, taskId, body⟩ := ev
  cases body <;> rfl

@[simp] theorem globalsOf_foldTask : globalsOf (foldTask s id ev) = globalsOf s := by
  unfold foldTask
  split <;> rfl

theorem globalsOf_advance (s : StoreState) (ev : DecodedEvent) :
    globalsOf (advance s ev) = (globalsOf s).fold ev := by
  have hmove : globalsOf (moveCursor s ev) = globalsOf s := rfl
  unfold advance
  split
  · rw [globalsOf_foldTask, globalsOf_foldGlobal, hmove]
  · rw [globalsOf_foldGlobal, hmove]

theorem Globals.fold_of_not (g : Globals) (h : installsOrServes ev = false) : g.fold ev = g := by
  unfold installsOrServes at h
  unfold Globals.fold
  split
  · rfl
  · rename_i kind payload hbody
    simp only [hbody, Bool.or_eq_false_iff, Option.isSome_eq_false_iff, Option.isNone_iff_eq_none]
      at h
    obtain ⟨⟨hmodel, hengine⟩, hserver⟩ := h
    simp only [foldModelInstall, foldEngineInstall, foldInstall, foldModelServer, hmodel, hengine,
      hserver]

/-! ## Runs of new events -/

/-- A new event is folded in and becomes a row. -/
def next (s : StoreState) (ev : DecodedEvent) : StoreState :=
  (advance s ev).withEvents (s.events ++ [rowOf ev])

theorem sliceFor_foldl_next (evs : List DecodedEvent) (s : StoreState) (t : String) :
    sliceFor (evs.foldl next s) t =
      (evs.filter (owningTask · = some t)).foldl (TaskSlice.fold t) (sliceFor s t) := by
  induction evs generalizing s with
  | nil => rfl
  | cons ev evs ih =>
    have hnext : sliceFor (next s ev) t = sliceFor (advance s ev) t := rfl
    rw [List.foldl_cons, ih, hnext, sliceFor_advance]
    by_cases h : owningTask ev = some t <;> simp [h]

theorem globalsOf_foldl_next (evs : List DecodedEvent) (s : StoreState) :
    globalsOf (evs.foldl next s) =
      (evs.filter installsOrServes).foldl Globals.fold (globalsOf s) := by
  induction evs generalizing s with
  | nil => rfl
  | cons ev evs ih =>
    have hnext : globalsOf (next s ev) = (globalsOf s).fold ev := globalsOf_advance s ev
    rw [List.foldl_cons, ih, hnext]
    cases h : installsOrServes ev with
    | true => simp [h]
    | false => simp [h, Globals.fold_of_not _ h]

theorem events_foldl_next (evs : List DecodedEvent) (s : StoreState) :
    (evs.foldl next s).events = s.events ++ evs.map rowOf := by
  induction evs generalizing s with
  | nil => simp
  | cons ev evs ih => rw [List.foldl_cons, ih]; simp [next]

/-! ## Streams -/

/-- A stream of well-formed events with increasing numbers, where a task id is never empty. -/
structure Stream (journal : List Json) : Prop where
  envelopes : ∀ raw ∈ journal, (wireEventEnvelope raw).isSome
  increasing : journal.Pairwise fun a b => (decodeEvent a).seq < (decodeEvent b).seq
  named : ∀ raw ∈ journal, (decodeEvent raw).taskId ≠ some ""

theorem Stream.filter (h : Stream journal) (p : Json → Bool) : Stream (journal.filter p) where
  envelopes raw hraw := h.envelopes raw (List.mem_of_mem_filter hraw)
  increasing := h.increasing.filter p
  named raw hraw := h.named raw (List.mem_of_mem_filter hraw)

/-- The events of a stream that the store takes up: it expects numbers from one. -/
def counted (journal : List Json) : List DecodedEvent :=
  (journal.map decodeEvent).filter (·.seq ≠ 0)

theorem foldl_counted (henvelopes : ∀ raw ∈ journal, (wireEventEnvelope raw).isSome)
    (hincreasing : journal.Pairwise fun a b => (decodeEvent a).seq < (decodeEvent b).seq)
    {m : ℕ} (hs : s.lastSeq = m)
    (hlater : ∀ raw ∈ journal, ∀ n : ℕ, (decodeEvent raw).seq = n → m = 0 ∨ m < n) :
    journal.foldl applyRawEvent s = (counted journal).foldl next s := by
  induction journal generalizing s m with
  | nil => rfl
  | cons raw journal ih =>
    obtain ⟨n, hn, hdouble⟩ := seq_nat_of_envelope (henvelopes raw List.mem_cons_self)
    have hfresh := hlater raw List.mem_cons_self n hn
    have htail : ∀ r ∈ journal, (wireEventEnvelope r).isSome :=
      fun r hr => henvelopes r (List.mem_cons_of_mem _ hr)
    obtain ⟨hfirst, hincreasing⟩ := List.pairwise_cons.mp hincreasing
    have hrest : ∀ r ∈ journal, ∀ k : ℕ, (decodeEvent r).seq = k → n < k := by
      intro r hr k hk
      have hlt := hfirst r hr
      rwa [hn, hk, Num.natCast_lt] at hlt
    by_cases hzero : n = 0
    · subst hzero
      have hm : m = 0 := by omega
      subst hm
      have hskip : applyRawEvent s raw = s := by
        refine applyDecoded_of_lt ?_
        rw [hn, hs, Num.natCast_add_one (Nat.two_pow_pos 53), Num.natCast_lt]
        exact Nat.zero_lt_one
      have hcount : counted (raw :: journal) = counted journal := by
        simp only [counted, List.map_cons]
        exact List.filter_cons_of_neg (by rw [hn]; decide)
      rw [List.foldl_cons, hskip, hcount]
      exact ih htail hincreasing hs fun r hr k hk => .inl rfl
    · have hnew : applyRawEvent s raw = next s (decodeEvent raw) := by
        refine applyDecoded_of_not_lt ?_
        rw [hn, hs]
        exact Num.not_natCast_lt_add_one hdouble (by omega)
      have hcount : counted (raw :: journal) = decodeEvent raw :: counted journal := by
        refine List.filter_cons_of_pos (decide_eq_true ?_)
        rw [hn]
        exact fun h => hzero (Num.natCast_inj.mp h)
      have hlast : (next s (decodeEvent raw)).lastSeq = n := by simp [next, hn]
      rw [List.foldl_cons, hnew, hcount, List.foldl_cons]
      exact ih htail hincreasing hlast fun r hr k hk => .inr (hrest r hr k hk)

theorem replay_counted (henvelopes : ∀ raw ∈ journal, (wireEventEnvelope raw).isSome)
    (hincreasing : journal.Pairwise fun a b => (decodeEvent a).seq < (decodeEvent b).seq) :
    replay journal = (counted journal).foldl next emptyStore := by
  rw [replay_eq_foldl]
  exact foldl_counted henvelopes hincreasing (m := 0) rfl fun _ _ _ _ => .inl rfl

theorem Stream.replay_eq (h : Stream journal) :
    replay journal = (counted journal).foldl next emptyStore :=
  replay_counted h.envelopes h.increasing

/-! ## Leaving other tasks out -/

/-- Events of the task and events of no task. -/
def inScope (t : String) (raw : Json) : Bool := (decodeEvent raw).taskId.all (· = t)

def taskStream (t : String) (journal : List Json) : List Json := journal.filter (inScope t)

theorem Stream.of_task (h : Stream journal) (t : String) : Stream (taskStream t journal) :=
  h.filter _

theorem counted_taskStream (t : String) (journal : List Json) :
    counted (taskStream t journal) = (counted journal).filter (·.taskId.all (· = t)) := by
  rw [counted, counted, taskStream, List.filter_filter, List.filter_map, List.filter_filter,
    List.filter_map]
  congr 1
  refine List.filter_congr fun raw _ => ?_
  simp [inScope, Bool.and_comm]

theorem filter_counted_taskStream {p : DecodedEvent → Bool}
    (h : ∀ ev ∈ counted journal, p ev = true → ev.taskId.all (· = t) = true) :
    (counted (taskStream t journal)).filter p = (counted journal).filter p := by
  rw [counted_taskStream, List.filter_filter]
  refine List.filter_congr fun ev hev => ?_
  cases hp : p ev with
  | false => simp
  | true => simpa using h ev hev hp

theorem Stream.sliceFor_taskStream (h : Stream journal) (t : String) :
    sliceFor (replay (taskStream t journal)) t = sliceFor (replay journal) t := by
  rw [h.replay_eq, (h.of_task t).replay_eq, sliceFor_foldl_next, sliceFor_foldl_next]
  congr 1
  refine filter_counted_taskStream fun ev _ hev => ?_
  obtain ⟨htask, -⟩ := Option.filter_eq_some_iff.mp (of_decide_eq_true hev)
  simp [htask]

theorem Stream.rows_taskStream (h : Stream journal) (t : String) :
    (replay (taskStream t journal)).events.filter (·.taskId = some t) =
      (replay journal).events.filter (·.taskId = some t) := by
  have hrow (ev : DecodedEvent) : (rowOf ev).taskId = ev.taskId := by
    unfold rowOf
    split <;> rfl
  rw [h.replay_eq, (h.of_task t).replay_eq, events_foldl_next, events_foldl_next]
  simp only [emptyStore, List.nil_append, List.filter_map]
  congr 1
  refine filter_counted_taskStream fun ev _ hev => ?_
  have htask : ev.taskId = some t := by simpa [hrow] using hev
  simp [htask]

/-- An install or server event that names another task. -/
def ForeignInstall (t : String) (journal : List Json) : Prop :=
  ∃ raw ∈ journal, inScope t raw = false ∧ installsOrServes (decodeEvent raw) = true

theorem Stream.globals_taskStream (h : Stream journal) (t : String)
    (hforeign : ¬ ForeignInstall t journal) :
    globalsOf (replay (taskStream t journal)) = globalsOf (replay journal) := by
  rw [h.replay_eq, (h.of_task t).replay_eq, globalsOf_foldl_next, globalsOf_foldl_next]
  congr 1
  refine filter_counted_taskStream fun ev hev hinstall => ?_
  obtain ⟨raw, hraw, rfl⟩ := List.mem_map.mp (List.mem_of_mem_filter hev)
  by_contra hscope
  exact hforeign ⟨raw, hraw, by simpa [inScope] using hscope, hinstall⟩

/-- A task with an event the store takes up is known to it. -/
theorem Stream.task_known (h : Stream journal) {raw : Json} (hraw : raw ∈ journal)
    (htask : (decodeEvent raw).taskId = some t) (hseq : (decodeEvent raw).seq ≠ 0) :
    ((replay journal).tasks.get? t).isSome := by
  have hfold : ((sliceFor (replay journal) t).task).isSome := by
    rw [h.replay_eq, sliceFor_foldl_next]
    have howner : owningTask (decodeEvent raw) = some t := by
      rw [owningTask, htask, Option.filter_some, if_pos]
      exact decide_eq_true fun ht => h.named raw hraw (by rw [htask, ht])
    have hmem : decodeEvent raw ∈ (counted journal).filter (owningTask · = some t) := by
      refine List.mem_filter.mpr ⟨List.mem_filter.mpr ⟨List.mem_map_of_mem hraw, ?_⟩, ?_⟩
      · exact decide_eq_true hseq
      · exact decide_eq_true howner
    exact TaskSlice.task_foldl (List.ne_nil_of_mem hmem) _
  exact hfold

end ValyriaApp
