import ValyriaApp.State.Activity
import ValyriaApp.State.Prototype

/-! # The store invariant

The rows of a reachable store carry increasing numbers and the cursor is the
last of them; the gap flag is low exactly when they are `1, 2, …`. Every number
a projection holds is the number of a row. A delivery in any order, with gaps
and duplicates, keeps all of this.
-/

namespace ValyriaApp

variable {s : StoreState} {ev : DecodedEvent} {raw : Json} {raws : List Json}

/-! ## Numbers of rows -/

/-- The rows carry the given numbers, which increase and end at the cursor. -/
structure Numbered (s : StoreState) (ks : List ℕ) : Prop where
  rows : s.events.map (·.seq) = ks.map fun k : ℕ => (k : Num)
  increasing : ks.Pairwise (· < ·)
  lastSeq : s.lastSeq = ks.getLastD 0
  gap : s.gapDetected = false ↔ ks = List.range' 1 (ks.getLastD 0)
  bounded : ks.getLastD 0 < 2 ^ 53

theorem le_getLastD {ks : List ℕ} (h : ks.Pairwise (· < ·)) {k : ℕ} (hk : k ∈ ks) :
    k ≤ ks.getLastD 0 := by
  obtain rfl | ⟨init, last, rfl⟩ := List.eq_nil_or_concat ks
  · simp at hk
  · rw [List.concat_eq_append] at h hk ⊢
    rw [List.getLastD_concat]
    rcases List.mem_append.mp hk with hinit | hlast
    · exact ((List.pairwise_append.mp h).2.2 k hinit last List.mem_cons_self).le
    · exact (List.mem_singleton.mp hlast).le

theorem getLastD_range' (n : ℕ) : (List.range' 1 n).getLastD 0 = n := by
  cases n with
  | zero => rfl
  | succ n => rw [List.range'_1_concat, List.getLastD_concat, Nat.add_comm]

theorem concat_eq_range' {ks : List ℕ} {m : ℕ} (hm : ks.getLastD 0 < m) :
    ks ++ [m] = List.range' 1 m ↔ ks = List.range' 1 (ks.getLastD 0) ∧ m ≤ ks.getLastD 0 + 1 := by
  obtain ⟨k, rfl⟩ : ∃ k, m = k + 1 := ⟨m - 1, by omega⟩
  rw [List.range'_1_concat]
  constructor
  · intro h
    obtain ⟨rfl, -⟩ := List.append_inj' h rfl
    rw [getLastD_range']
    exact ⟨rfl, le_rfl⟩
  · rintro ⟨hks, hle⟩
    have hlast : ks.getLastD 0 = k := by omega
    rw [hlast] at hks
    rw [hks, Nat.add_comm]

theorem Numbered.next {ks : List ℕ} {m : ℕ} (h : Numbered s ks) (hseq : ev.seq = m)
    (hm : ks.getLastD 0 < m) (hbound : m < 2 ^ 53) : Numbered (next s ev) (ks ++ [m]) where
  rows := by simp [ValyriaApp.next, h.rows, hseq]
  increasing := by
    refine List.pairwise_append.mpr ⟨h.increasing, List.pairwise_singleton _ _, ?_⟩
    intro k hk l hl
    rw [List.mem_singleton.mp hl]
    exact (le_getLastD h.increasing hk).trans_lt hm
  lastSeq := by simp [ValyriaApp.next, hseq]
  gap := by
    have hgap : (ValyriaApp.next s ev).gapDetected =
        (s.gapDetected || decide (s.lastSeq + 1 < ev.seq)) := advance_gapDetected
    rw [hgap, Bool.or_eq_false_iff, h.gap, h.lastSeq, hseq, List.getLastD_concat,
      concat_eq_range' hm, decide_eq_false_iff_not, Num.natCast_add_one h.bounded, Num.natCast_lt,
      Nat.not_lt]
  bounded := by rwa [List.getLastD_concat]

/-! ## Numbers in projections -/

def RowSeq (s : StoreState) (n : Num) : Prop := ∃ row ∈ s.events, row.seq = n

/-- The number of the last row of a task. -/
def lastRowSeq (s : StoreState) (id : String) : Option Num :=
  ((eventsForTask s id).getLast?).map (·.seq)

structure TaskNumbers (s : StoreState) (id : String) (p : TaskProjection) : Prop where
  lastSeq : RowSeq s p.lastSeq
  firstSeenSeq : RowSeq s p.firstSeenSeq
  ordered : p.firstSeenSeq ≤ p.lastSeq
  lastRow : lastRowSeq s id = some p.lastSeq

structure FileNumbers (P : Num → Prop) (f : FileChangeProjection) : Prop where
  firstSeq : P f.firstSeq
  lastSeq : P f.lastSeq
  ordered : f.firstSeq ≤ f.lastSeq

theorem all_foldInstall {idKey : String} {sizeKey : Option String}
    {step : EventKind → Option InstallStep} {prev : Record ModelInstallProjection} {seq : Num}
    {kind : EventKind} {payload : Option Json} {P : Num → Prop}
    (h : prev.All fun _ p => P p.lastSeq) (hseq : P seq) :
    (foldInstall idKey sizeKey step prev seq kind payload).All fun _ p => P p.lastSeq := by
  unfold foldInstall
  split
  · rename_i step id _ _
    apply h.set
    cases step <;> exact hseq
  · exact h

theorem all_foldModelServer {prev : Record ModelServerProjection} {seq : Num} {kind : EventKind}
    {payload : Option Json} {P : Num → Prop} (h : prev.All fun _ p => P p.lastSeq)
    (hseq : P seq) : (foldModelServer prev seq kind payload).All fun _ p => P p.lastSeq := by
  unfold foldModelServer
  split
  · exact h.set hseq
  · exact h

theorem fileNumbers_touchFile {path : String} {change : Option String} {seq : Num}
    {P : Num → Prop} {fs : List FileChangeProjection} (h : ∀ f ∈ fs, FileNumbers P f)
    (hseq : P seq) (hrefl : seq ≤ seq) (hle : ∀ n, P n → n ≤ seq) :
    ∀ f ∈ touchFile path change seq fs, FileNumbers P f := by
  induction fs with
  | nil =>
    intro f hf
    obtain rfl := List.mem_singleton.mp hf
    exact ⟨hseq, hseq, hrefl⟩
  | cons g fs ih =>
    obtain ⟨hg, hfs⟩ := List.forall_mem_cons.mp h
    intro f hf
    rw [touchFile] at hf
    split at hf
    · rcases List.mem_cons.mp hf with rfl | hf
      · exact ⟨hg.firstSeq, hseq, hle _ hg.firstSeq⟩
      · exact hfs f hf
    · rcases List.mem_cons.mp hf with rfl | hf
      · exact hg
      · exact ih hfs f hf

theorem mem_recordRun {run r : TestRunProjection} {runs : List TestRunProjection}
    (h : r ∈ recordRun run runs) : r = run ∨ r ∈ runs := by
  induction runs with
  | nil => exact .inl (List.mem_singleton.mp h)
  | cons q runs ih =>
    rw [recordRun] at h
    split at h
    · rcases List.mem_cons.mp h with rfl | h
      · exact .inl rfl
      · exact .inr (List.mem_cons_of_mem _ h)
    · rcases List.mem_cons.mp h with rfl | h
      · exact .inr List.mem_cons_self
      · exact (ih h).imp_right (List.mem_cons_of_mem _)

theorem mem_runs_foldTestRun {prev : Option TestProjection} {id : String} {seq : Num}
    {kind : EventKind} {payload : Option Json} {p : TestProjection} {run : TestRunProjection}
    (hp : foldTestRun prev id seq kind payload = some p) (hrun : run ∈ p.runs) :
    run.seq = seq ∨ ∃ q, prev = some q ∧ run ∈ q.runs := by
  unfold foldTestRun at hp
  split at hp
  · exact .inr ⟨p, hp, hrun⟩
  · obtain rfl := Option.some.inj hp
    rcases mem_recordRun hrun with rfl | hmem
    · exact .inl rfl
    · cases prev with
      | none => simp at hmem
      | some q => exact .inr ⟨q, rfl, hmem⟩

/-- The numbers of one task's projections are numbers of rows. -/
structure SliceNumbers (s : StoreState) (id : String) (d : TaskSlice) : Prop where
  task : ∀ p, d.task = some p → TaskNumbers s id p
  plan : ∀ p, d.plan = some p → RowSeq s p.seq
  approval : ∀ p, d.approval = some p → RowSeq s p.seq
  files : ∀ fs, d.files = some fs → ∀ f ∈ fs, FileNumbers (RowSeq s) f
  tests : ∀ p, d.tests = some p → ∀ run ∈ p.runs, RowSeq s run.seq

/-- What a new event with a number above all rows does to the numbers of the rows. -/
structure NewRow (s t : StoreState) (seq : Num) : Prop where
  old : ∀ n, RowSeq s n → RowSeq t n
  new : RowSeq t seq
  above : ∀ n, RowSeq s n → n ≤ seq
  refl : seq ≤ seq

variable {t : StoreState} {id : String} {d : TaskSlice}

theorem FileNumbers.mono {P Q : Num → Prop} {f : FileChangeProjection} (h : FileNumbers P f)
    (hPQ : ∀ n, P n → Q n) : FileNumbers Q f :=
  ⟨hPQ _ h.firstSeq, hPQ _ h.lastSeq, h.ordered⟩

theorem SliceNumbers.keep {seq : Num} (h : SliceNumbers s id d) (hrow : NewRow s t seq)
    (hlast : ∀ p, d.task = some p → lastRowSeq t id = lastRowSeq s id) : SliceNumbers t id d where
  task p hp :=
    have hold := h.task p hp
    ⟨hrow.old _ hold.lastSeq, hrow.old _ hold.firstSeenSeq, hold.ordered,
      (hlast p hp).trans hold.lastRow⟩
  plan p hp := hrow.old _ (h.plan p hp)
  approval p hp := hrow.old _ (h.approval p hp)
  files fs hfs f hf := (h.files fs hfs f hf).mono hrow.old
  tests p hp run hrun := hrow.old _ (h.tests p hp run hrun)

theorem advanceTask_firstSeenSeq (prev : Option TaskProjection) (id : String) (ev : DecodedEvent) :
    (advanceTask prev id ev).firstSeenSeq = (prev.map (·.firstSeenSeq)).getD ev.seq := by
  unfold advanceTask
  cases prev <;> cases ev.body <;> simp

theorem foldFileChange_numbers {prev : Option (List FileChangeProjection)} {seq : Num}
    {kind : EventKind} {payload : Option Json} {P Q : Num → Prop}
    (h : ∀ fs, prev = some fs → ∀ f ∈ fs, FileNumbers P f) (hPQ : ∀ n, P n → Q n) (hseq : Q seq)
    (hrefl : seq ≤ seq) (hle : ∀ n, P n → n ≤ seq) :
    ∀ f ∈ foldFileChange prev seq kind payload, FileNumbers Q f := by
  have hprev : ∀ f ∈ prev.getD [], FileNumbers P f := by
    cases prev with
    | none => simp
    | some fs => exact h fs rfl
  unfold foldFileChange
  split
  · intro f hf
    refine (fileNumbers_touchFile (P := fun n => Q n ∧ n ≤ seq) ?_ ⟨hseq, hrefl⟩ hrefl
      (fun _ hn => hn.2) f hf).mono fun _ hn => hn.1
    intro g hg
    exact (hprev g hg).mono fun n hn => ⟨hPQ n hn, hle n hn⟩
  · intro f hf
    exact (hprev f hf).mono hPQ

theorem SliceNumbers.fold (h : SliceNumbers s id d) (hrow : NewRow s t ev.seq)
    (hlast : lastRowSeq t id = some ev.seq) : SliceNumbers t id (d.fold id ev) := by
  have htask : TaskNumbers t id (advanceTask d.task id ev) := by
    have hseq := advanceTask_lastSeq d.task id ev
    have hfirst := advanceTask_firstSeenSeq d.task id ev
    refine ⟨hseq ▸ hrow.new, ?_, ?_, hseq ▸ hlast⟩
    all_goals
      cases hd : d.task with
      | none =>
        simp only [hd, Option.map_none, Option.getD_none] at hseq hfirst
        simp only [hseq, hfirst, hrow.new, hrow.refl]
      | some p =>
        have hp := (h.task p hd).firstSeenSeq
        simp only [hd, Option.map_some, Option.getD_some] at hseq hfirst
        simp only [hseq, hfirst, hrow.old _ hp, hrow.above _ hp]
  have hkept : SliceNumbers t id { d with task := some (advanceTask d.task id ev) } :=
    { task := fun p hp => Option.some.inj hp ▸ htask
      plan := fun p hp => hrow.old _ (h.plan p hp)
      approval := fun p hp => hrow.old _ (h.approval p hp)
      files := fun fs hfs f hf => (h.files fs hfs f hf).mono hrow.old
      tests := fun p hp run hrun => hrow.old _ (h.tests p hp run hrun) }
  unfold TaskSlice.fold
  split
  · exact hkept
  · rename_i kind payload hbody
    constructor
    · exact hkept.task
    · intro p hp
      simp only at hp
      split at hp
      · obtain rfl := Option.some.inj hp
        exact hrow.new
      · exact hkept.plan p hp
    · intro p hp
      simp only at hp
      split at hp
      · obtain rfl := Option.some.inj hp
        exact hrow.new
      · exact hkept.approval p hp
    · intro fs hfs
      obtain rfl := Option.some.inj hfs
      exact foldFileChange_numbers h.files hrow.old hrow.new hrow.refl hrow.above
    · intro p hp run hrun
      rcases Option.or_eq_some_iff.mp hp with hnew | ⟨-, hold⟩
      · rcases mem_runs_foldTestRun hnew hrun with hseq | ⟨q, hq, hmem⟩
        · exact hseq ▸ hrow.new
        · exact hkept.tests q hq run hmem
      · exact hkept.tests p hold run hrun

/-- The numbers of the install and server entries are numbers of rows. -/
structure GlobalNumbers (P : Num → Prop) (g : Globals) : Prop where
  modelInstalls : g.modelInstalls.All fun _ p => P p.lastSeq
  engineInstalls : g.engineInstalls.All fun _ p => P p.lastSeq
  modelServers : g.modelServers.All fun _ p => P p.lastSeq

theorem GlobalNumbers.mono {P Q : Num → Prop} {g : Globals} (h : GlobalNumbers P g)
    (hPQ : ∀ n, P n → Q n) : GlobalNumbers Q g :=
  ⟨h.modelInstalls.mono fun _ _ => hPQ _, h.engineInstalls.mono fun _ _ => hPQ _,
    h.modelServers.mono fun _ _ => hPQ _⟩

theorem GlobalNumbers.fold {P : Num → Prop} {g : Globals} (h : GlobalNumbers P g)
    (hseq : P ev.seq) : GlobalNumbers P (g.fold ev) := by
  unfold Globals.fold
  split
  · exact h
  · constructor
    · exact all_foldInstall h.modelInstalls hseq
    · exact all_foldInstall h.engineInstalls hseq
    · exact all_foldModelServer h.modelServers hseq

/-! ## Runs -/

/-- What holds of every store that deliveries of well-formed events reach. -/
structure StoreInvariant (s : StoreState) : Prop where
  increasing : s.events.Pairwise fun a b => a.seq < b.seq
  lastSeq : s.lastSeq = ((s.events.getLast?).map (·.seq)).getD 0
  gap : s.gapDetected = false ↔
    ∃ n : ℕ, s.lastSeq = n ∧ s.events.map (·.seq) = (List.range' 1 n).map fun k : ℕ => (k : Num)
  slices : ∀ id, SliceNumbers s id (sliceFor s id)
  globals : GlobalNumbers (RowSeq s) (globalsOf s)

/-- The invariant in the form the steps keep: the numbers are those of a list of naturals. -/
structure Kept (s : StoreState) (ks : List ℕ) : Prop where
  numbered : Numbered s ks
  slices : ∀ id, SliceNumbers s id (sliceFor s id)
  globals : GlobalNumbers (RowSeq s) (globalsOf s)
  unnamed : s.tasks.get? "" = none

theorem Numbered.rowSeq_iff {ks : List ℕ} (h : Numbered s ks) (n : Num) :
    RowSeq s n ↔ ∃ k ∈ ks, (k : Num) = n := by
  have hmem : RowSeq s n ↔ n ∈ s.events.map (·.seq) := by simp [RowSeq]
  rw [hmem, h.rows, List.mem_map]

theorem Numbered.newRow {ks : List ℕ} {m : ℕ} (h : Numbered s ks) (hseq : ev.seq = m)
    (hm : ks.getLastD 0 < m) (hbound : m < 2 ^ 53) :
    NewRow s (ValyriaApp.next s ev) ev.seq where
  old n := by
    rw [h.rowSeq_iff, (h.next hseq hm hbound).rowSeq_iff]
    rintro ⟨k, hk, rfl⟩
    exact ⟨k, List.mem_append_left _ hk, rfl⟩
  new := by
    rw [(h.next hseq hm hbound).rowSeq_iff, hseq]
    exact ⟨m, by simp, rfl⟩
  above n := by
    rw [h.rowSeq_iff, hseq]
    rintro ⟨k, hk, rfl⟩
    exact Num.natCast_le.mpr ((le_getLastD h.increasing hk).trans hm.le)
  refl := by rw [hseq, Num.natCast_le]

theorem eventsForTask_next (s : StoreState) (ev : DecodedEvent) (id : String) :
    eventsForTask (ValyriaApp.next s ev) id =
      eventsForTask s id ++ if ev.taskId = some id then [rowOf ev] else [] := by
  simp only [eventsForTask, ValyriaApp.next, withEvents_events, List.filter_append]
  congr 1
  by_cases h : ev.taskId = some id <;> simp [h]

theorem Kept.next {ks : List ℕ} {m : ℕ} (h : Kept s ks) (hseq : ev.seq = m)
    (hm : ks.getLastD 0 < m) (hbound : m < 2 ^ 53) :
    Kept (ValyriaApp.next s ev) (ks ++ [m]) := by
  have hrow := h.numbered.newRow hseq hm hbound
  have hslice (id : String) : sliceFor (ValyriaApp.next s ev) id =
      if owningTask ev = some id then (sliceFor s id).fold id ev else sliceFor s id :=
    sliceFor_advance s ev id
  constructor
  · exact h.numbered.next hseq hm hbound
  · intro id
    rw [hslice]
    split
    · rename_i howner
      obtain ⟨htask, -⟩ := Option.filter_eq_some_iff.mp howner
      refine (h.slices id).fold hrow ?_
      rw [lastRowSeq, eventsForTask_next, if_pos htask]
      simp
    · rename_i howner
      refine (h.slices id).keep hrow fun p hp => ?_
      have htask : ev.taskId ≠ some id := by
        intro htask
        have hid : id ≠ "" := by
          rintro rfl
          rw [sliceFor, h.unnamed] at hp
          cases hp
        exact howner (by simp [owningTask, htask, hid])
      rw [lastRowSeq, lastRowSeq, eventsForTask_next, if_neg htask, List.append_nil]
  · have hglobals : globalsOf (ValyriaApp.next s ev) = (globalsOf s).fold ev :=
      globalsOf_advance s ev
    rw [hglobals]
    exact (h.globals.mono hrow.old).fold hrow.new
  · have hempty : owningTask ev ≠ some "" := by simp [owningTask, Option.filter_eq_some_iff]
    have hnone := congrArg TaskSlice.task (hslice "")
    rw [if_neg hempty] at hnone
    exact hnone.trans h.unnamed

theorem Kept.applyRawEvent {ks : List ℕ} {n : ℕ} (h : Kept s ks) (hraw : CarriesSafeSeq n raw) :
    ∃ ks, Kept (applyRawEvent s raw) ks := by
  obtain ⟨hbound, hraw⟩ := hraw
  rcases Nat.lt_or_ge (ks.getLastD 0) n with hlt | hge
  · rw [applyRawEvent_of_lt hraw h.numbered.lastSeq hlt]
    exact ⟨ks ++ [n], h.next hraw.decodeEvent_seq hlt hbound⟩
  · rw [applyRawEvent_of_le hraw h.numbered.lastSeq h.numbered.bounded hge]
    exact ⟨ks, h⟩

theorem Kept.applyBatch {ks : List ℕ} (h : Kept s ks)
    (hraws : ∀ raw ∈ raws, ∃ n, CarriesSafeSeq n raw) : ∃ ks, Kept (applyBatch s raws) ks := by
  rw [applyBatch_eq_foldl]
  induction raws generalizing s ks with
  | nil => exact ⟨ks, h⟩
  | cons raw raws ih =>
    obtain ⟨hraw, hraws⟩ := List.forall_mem_cons.mp hraws
    obtain ⟨n, hn⟩ := hraw
    obtain ⟨ks, hks⟩ := h.applyRawEvent hn
    exact ih hks hraws

theorem kept_emptyStore : Kept emptyStore [] where
  numbered :=
    { rows := rfl, increasing := List.Pairwise.nil, lastSeq := rfl, gap := by simp [emptyStore]
      bounded := Nat.two_pow_pos 53 }
  slices id := by
    constructor
    all_goals
      intro p hp
      simp [sliceFor, emptyStore] at hp
  globals := ⟨OrderedMap.all_empty, OrderedMap.all_empty, OrderedMap.all_empty⟩
  unnamed := rfl

theorem Kept.storeInvariant {ks : List ℕ} (h : Kept s ks) : StoreInvariant s where
  increasing := by
    have hks : (s.events.map (·.seq)).Pairwise (· < ·) := by
      rw [h.numbered.rows, List.pairwise_map]
      exact h.numbered.increasing.imp Num.natCast_lt.mpr
    exact List.pairwise_map.mp hks
  lastSeq := by
    rw [h.numbered.lastSeq, ← List.getLast?_map, h.numbered.rows, List.getLast?_map]
    obtain rfl | ⟨init, last, rfl⟩ := List.eq_nil_or_concat ks
    · rfl
    · simp
  gap := by
    rw [h.numbered.gap, h.numbered.rows, h.numbered.lastSeq]
    constructor
    · intro hks
      exact ⟨ks.getLastD 0, rfl, by rw [← hks]⟩
    · rintro ⟨n, hn, hks⟩
      rw [Num.natCast_inj] at hn
      rw [hn]
      exact List.map_injective_iff.mpr (fun _ _ => Num.natCast_inj.mp) hks
  slices := h.slices
  globals := h.globals

theorem kept_foldl_applyBatch {batches : List (List Json)}
    (hraws : ∀ raws ∈ batches, ∀ raw ∈ raws, ∃ n, CarriesSafeSeq n raw) :
    ∃ ks, Kept (batches.foldl applyBatch emptyStore) ks := by
  have hstart : ∃ ks, Kept emptyStore ks := ⟨[], kept_emptyStore⟩
  generalize emptyStore = s at hstart
  induction batches generalizing s with
  | nil => exact hstart
  | cons raws batches ih =>
    obtain ⟨hraws, hbatches⟩ := List.forall_mem_cons.mp hraws
    obtain ⟨ks, hks⟩ := hstart
    exact ih hbatches _ (hks.applyBatch hraws)

theorem ObjectStore.foldlM_applyBatch? (o : ObjectStore) (batches : List (List Json)) :
    batches.foldlM ObjectStore.applyBatch? o = o.applyBatch? batches.flatten := by
  induction batches generalizing o with
  | nil => rfl
  | cons raws batches ih =>
    rw [List.foldlM_cons, List.flatten_cons, ObjectStore.applyBatch?, ObjectStore.applyBatch?,
      List.foldlM_append]
    exact congrArg _ (funext ih)

/-- The invariant of a store that may hold tasks under inherited names; their entries are to have
the numbers of a task, too. -/
structure ObjectStore.Invariant (o : ObjectStore) : Prop where
  store : StoreInvariant o.store
  inherited : o.inherited.All fun id t => ∃ p, t.lastSeq = some p.lastSeq ∧
    t.firstSeenSeq = some p.firstSeenSeq ∧ TaskNumbers o.store id p

/-- Deliveries of well-formed events reach a store that meets the invariant exactly when no event
taken up is of a task with a name of `Object.prototype`. -/
theorem store_invariant_iff {batches : List (List Json)}
    (hraws : ∀ raws ∈ batches, ∀ raw ∈ raws, ∃ n < 2 ^ 53 - 1, CarriesSeq n raw) :
    (∃ o ∈ batches.foldlM ObjectStore.applyBatch? .begin, o.Invariant) ↔
      ∀ raw ∈ takenUp 0 batches.flatten, OwnNamed raw := by
  rw [ObjectStore.foldlM_applyBatch?]
  constructor
  · rintro ⟨o, ho, hinv⟩
    by_contra hstray
    push Not at hstray
    obtain ⟨hfirst, hmore⟩ := ObjectStore.inherited_of_applyBatch? ho OrderedMap.all_empty
    obtain ⟨id, hid⟩ := hmore (.inr hstray)
    obtain ⟨t, ht⟩ := Option.isSome_iff_exists.mp hid
    obtain ⟨p, -, hp, -⟩ := hinv.inherited ht
    exact nomatch (hfirst ht).symm.trans hp
  · intro hown
    have hsafe : ∀ raws ∈ batches, ∀ raw ∈ raws, ∃ n, CarriesSafeSeq n raw := by
      intro raws hmem raw hraw
      obtain ⟨n, hlt, hn⟩ := hraws raws hmem raw hraw
      exact ⟨n, by omega, hn⟩
    have hquiet : ¬ batches.flatten.any decodeThrows = true := by
      rw [List.any_eq_true]
      rintro ⟨raw, hmem, hthrow⟩
      obtain ⟨raws, hraws', hraw⟩ := List.mem_flatten.mp hmem
      obtain ⟨n, -, hn⟩ := hraws raws hraws' raw hraw
      exact absurd hthrow (by rw [decodeThrows_of_carriesSeq hn]; decide)
    obtain ⟨ks, hks⟩ := kept_foldl_applyBatch hsafe
    have hstore : batches.foldl applyBatch emptyStore = applyBatch emptyStore batches.flatten := by
      rw [applyBatch_eq_foldl, List.foldl_flatten]
      exact congrArg (List.foldl · emptyStore batches) (funext₂ applyBatch_eq_foldl)
    have hrun : ObjectStore.begin.applyBatch? batches.flatten =
        some ⟨batches.foldl applyBatch emptyStore, .empty⟩ := by
      rw [ObjectStore.applyBatch?_own hown]
      change (applyBatch? emptyStore batches.flatten).map _ = _
      rw [applyBatch?_eq, if_neg hquiet, hstore]
      rfl
    exact ⟨_, hrun, hks.storeInvariant, OrderedMap.all_empty⟩

/-- A batch with a gap, then an old event and a duplicate. -/
def disorder : List (List Json) :=
  [[coreEvent 3 "t" 10 "task_started" (.obj [])],
    [coreEvent 1 "u" 20 "plan_created" (.obj []), coreEvent 3 "t" 10 "task_started" (.obj [])]]

theorem store_invariant_disorder :
    (∃ o ∈ disorder.foldlM ObjectStore.applyBatch? .begin, o.Invariant) ↔
      ∀ raw ∈ takenUp 0 disorder.flatten, OwnNamed raw := by
  refine store_invariant_iff fun raws hraws raw hraw => ?_
  simp only [disorder, List.mem_cons, List.not_mem_nil, or_false] at hraws
  rcases hraws with rfl | rfl
  · obtain rfl := List.mem_singleton.mp hraw
    exact ⟨3, by norm_num, carriesSeq_coreEvent (by norm_num) (by norm_num) ..⟩
  · simp only [List.mem_cons, List.not_mem_nil, or_false] at hraw
    rcases hraw with rfl | rfl
    · exact ⟨1, by norm_num, carriesSeq_coreEvent (by norm_num) (by norm_num) ..⟩
    · exact ⟨3, by norm_num, carriesSeq_coreEvent (by norm_num) (by norm_num) ..⟩

/-- The entry of a task named `constructor` does not say when the task was first seen. -/
theorem constructor_never_first_seen :
    ¬ ∀ batches : List (List Json),
      (∀ raws ∈ batches, ∀ raw ∈ raws, ∃ n < 2 ^ 53 - 1, CarriesSeq n raw) →
      ∀ o ∈ batches.foldlM ObjectStore.applyBatch? .begin, o.Invariant := by
  intro h
  have hevent : CarriesSeq 1 (coreEvent 1 "constructor" 10 "task_started" (.obj [])) :=
    carriesSeq_coreEvent (by norm_num) (by norm_num) ..
  have hrun : ([[coreEvent 1 "constructor" 10 "task_started" (.obj [])]].foldlM
      ObjectStore.applyBatch? .begin).map (fun o =>
        (o.inherited.get? "constructor").map (·.firstSeenSeq)) = some (some none) := by
    decide +kernel
  obtain ⟨o, ho, hentry⟩ := Option.map_eq_some_iff.mp hrun
  obtain ⟨t, ht, hfirst⟩ := Option.map_eq_some_iff.mp hentry
  have hinv := h [[coreEvent 1 "constructor" 10 "task_started" (.obj [])]]
    (by simpa using ⟨1, by norm_num, hevent⟩) o ho
  obtain ⟨p, -, hp, -⟩ := hinv.inherited ht
  exact nomatch hfirst.symm.trans hp

end ValyriaApp
