import ValyriaApp.State.Scope

/-! # Raw deliveries

The number and the time of a malformed envelope go through `Number`, which
throws on an object whose own `toString` hides the inherited one; a batch that
holds such a value is not applied. Every other delivery is a run of the values
its cursor lets through.
-/

namespace ValyriaApp

variable {s t : StoreState} {ev : DecodedEvent} {raw : Json} {raws : List Json} {x : Num}

/-! ## Conversions that throw -/

mutual

/-- Whether `Number` throws; an array is converted by converting each of its elements. -/
def Json.numberThrows : Json → Bool
  | .obj fields => ((Json.obj fields).get? "toString").isSome
  | .arr xs => Json.anyThrows xs
  | _ => false

def Json.anyThrows : List Json → Bool
  | [] => false
  | x :: xs => x.numberThrows || Json.anyThrows xs

end

def wellFormed (raw : Json) : Bool := (wireEventEnvelope raw).isSome

def decodeThrows (raw : Json) : Bool :=
  !wellFormed raw && ((nullish (.num (.fin (-1))) (raw.get? "seq")).numberThrows ||
    (nullish (.num 0) (raw.get? "ts_ms")).numberThrows)

theorem decodeThrows_of_carriesSeq {n : ℕ} (h : CarriesSeq n raw) : decodeThrows raw = false := by
  obtain ⟨env, henv, -⟩ := h
  simp [decodeThrows, wellFormed, Option.mem_def.mp henv]

/-- `decodeEvent`; `none` when it throws. -/
def decodeEvent? (raw : Json) : Option DecodedEvent :=
  if decodeThrows raw then none else some (decodeEvent raw)

def applyRawEvent? (s : StoreState) (raw : Json) : Option StoreState :=
  (decodeEvent? raw).map (applyDecoded s)

def applyBatchLoop? (s : StoreState) (appended : List EventRow) :
    List Json → Option (StoreState × List EventRow)
  | [] => some (s, appended)
  | raw :: raws => do
    match applyDecodedNoAppend s (← decodeEvent? raw) with
    | (next, some row) => applyBatchLoop? next (appended ++ [row]) raws
    | (next, none) => applyBatchLoop? next appended raws

/-- `applyBatch`; `none` when it throws. -/
def applyBatch? (s : StoreState) (raws : List Json) : Option StoreState :=
  (applyBatchLoop? s [] raws).map fun
    | (next, []) => next
    | (next, row :: rows) => { next with events := s.events ++ row :: rows }

theorem applyBatchLoop?_eq (appended : List EventRow) :
    applyBatchLoop? s appended raws =
      if raws.any decodeThrows then none else some (applyBatchLoop s appended raws) := by
  induction raws generalizing s appended with
  | nil => rfl
  | cons raw raws ih =>
    rw [applyBatchLoop?, applyBatchLoop, decodeEvent?, List.any_cons]
    cases hraw : decodeThrows raw with
    | true => rfl
    | false =>
      change (match applyDecodedNoAppend s (decodeEvent raw) with
        | (next, some row) => applyBatchLoop? next (appended ++ [row]) raws
        | (next, none) => applyBatchLoop? next appended raws) = _
      rcases applyDecodedNoAppend s (decodeEvent raw) with ⟨next, _ | row⟩
      · exact ih appended
      · exact ih (appended ++ [row])

theorem applyBatch?_eq :
    applyBatch? s raws = if raws.any decodeThrows then none else some (applyBatch s raws) := by
  rw [applyBatch?, applyBatchLoop?_eq]
  split
  · rfl
  · rw [applyBatch]
    rcases applyBatchLoop s [] raws with ⟨next, _ | ⟨row, rows⟩⟩ <;> rfl

theorem foldlM_applyRawEvent? :
    raws.foldlM applyRawEvent? s =
      if raws.any decodeThrows then none else some (raws.foldl applyRawEvent s) := by
  induction raws generalizing s with
  | nil => rfl
  | cons raw raws ih =>
    rw [List.foldlM_cons, applyRawEvent?, decodeEvent?, List.any_cons, List.foldl_cons]
    cases hraw : decodeThrows raw with
    | true => rfl
    | false => exact ih

/-- A batch is the fold of its events, whatever the store and whatever the values. -/
theorem batch_is_fold (s : StoreState) (raws xs ys : List Json) :
    applyBatch? s raws = raws.foldlM applyRawEvent? s ∧
      applyBatch? s (xs ++ ys) = (applyBatch? s xs).bind (applyBatch? · ys) := by
  have hfold (s : StoreState) (raws : List Json) :
      applyBatch? s raws = raws.foldlM applyRawEvent? s := by
    rw [applyBatch?_eq, foldlM_applyRawEvent?, applyBatch_eq_foldl]
  refine ⟨hfold s raws, ?_⟩
  simp only [hfold]
  exact List.foldlM_append

/-! ## The cursor -/

/-- The cursor after a value: its number, unless that is below the one expected. -/
def cursorStep (x : Num) (raw : Json) : Num :=
  let seq := (decodeEvent raw).seq
  if seq < x + 1 then x else seq

/-- The cursor of an empty store after a delivery. -/
def cursorAfter (delivered : List Json) : Num := delivered.foldl cursorStep 0

/-- The values the cursor lets through, starting from the given one. -/
def takenUp (x : Num) : List Json → List Json
  | [] => []
  | raw :: raws =>
    if (decodeEvent raw).seq < x + 1 then takenUp x raws
    else raw :: takenUp (decodeEvent raw).seq raws

theorem foldl_applyRawEvent_eq (s : StoreState) (raws : List Json) :
    raws.foldl applyRawEvent s = ((takenUp s.lastSeq raws).map decodeEvent).foldl next s := by
  induction raws generalizing s with
  | nil => rfl
  | cons raw raws ih =>
    rw [List.foldl_cons, takenUp]
    by_cases h : (decodeEvent raw).seq < s.lastSeq + 1
    · rw [if_pos h, ih, applyRawEvent, applyDecoded_of_lt h]
    · have hnext : applyRawEvent s raw = next s (decodeEvent raw) := applyDecoded_of_not_lt h
      have hlast : (next s (decodeEvent raw)).lastSeq = (decodeEvent raw).seq := by simp [next]
      rw [if_neg h, hnext, ih, hlast]
      rfl

theorem events_foldl_applyRawEvent (s : StoreState) (raws : List Json) :
    (raws.foldl applyRawEvent s).events =
      s.events ++ (takenUp s.lastSeq raws).map fun raw => rowOf (decodeEvent raw) := by
  rw [foldl_applyRawEvent_eq, events_foldl_next, List.map_map]
  rfl

theorem applyRawEvent_lastSeq : (applyRawEvent s raw).lastSeq = cursorStep s.lastSeq raw := by
  rw [cursorStep]
  by_cases h : (decodeEvent raw).seq < s.lastSeq + 1
  · rw [if_pos h, applyRawEvent, applyDecoded_of_lt h]
  · rw [if_neg h, applyRawEvent, applyDecoded_of_not_lt h, withEvents_lastSeq, advance_lastSeq]

theorem foldl_applyRawEvent_lastSeq (s : StoreState) (raws : List Json) :
    (raws.foldl applyRawEvent s).lastSeq = raws.foldl cursorStep s.lastSeq := by
  induction raws generalizing s with
  | nil => rfl
  | cons raw raws ih => rw [List.foldl_cons, List.foldl_cons, ih, applyRawEvent_lastSeq]

theorem advance_connection : (advance s ev).connection = s.connection := by
  have hglobal (s : StoreState) : (foldGlobal s ev).connection = s.connection := by
    unfold foldGlobal
    split <;> rfl
  have htask (s : StoreState) (id : String) : (foldTask s id ev).connection = s.connection := by
    unfold foldTask
    split <;> rfl
  unfold advance
  split
  · rw [htask, hglobal, moveCursor]
  · rw [hglobal, moveCursor]

theorem foldl_applyRawEvent_connection (s : StoreState) (raws : List Json) :
    (raws.foldl applyRawEvent s).connection = s.connection := by
  rw [foldl_applyRawEvent_eq]
  generalize (takenUp s.lastSeq raws).map decodeEvent = evs
  induction evs generalizing s with
  | nil => rfl
  | cons ev evs ih =>
    rw [List.foldl_cons, ih]
    exact advance_connection

theorem mem_takenUp :
    raw ∈ takenUp x raws ↔ ∃ pre post, raws = pre ++ raw :: post ∧
      ¬ (decodeEvent raw).seq < pre.foldl cursorStep x + 1 := by
  induction raws generalizing x with
  | nil => simp [takenUp]
  | cons r raws ih =>
    have hcons : (∃ pre post, r :: raws = pre ++ raw :: post ∧
          ¬ (decodeEvent raw).seq < pre.foldl cursorStep x + 1) ↔
        (r = raw ∧ ¬ (decodeEvent raw).seq < x + 1) ∨ raw ∈ takenUp (cursorStep x r) raws := by
      rw [ih]
      constructor
      · rintro ⟨_ | ⟨p, pre⟩, post, heq, hlt⟩
        · exact .inl ⟨(List.cons.inj heq).1, hlt⟩
        · obtain ⟨rfl, rfl⟩ := List.cons.inj heq
          exact .inr ⟨pre, post, rfl, hlt⟩
      · rintro (⟨rfl, hlt⟩ | ⟨pre, post, rfl, hlt⟩)
        · exact ⟨[], raws, rfl, hlt⟩
        · exact ⟨r :: pre, post, rfl, hlt⟩
    rw [hcons, takenUp, cursorStep]
    by_cases h : (decodeEvent r).seq < x + 1
    · rw [if_pos h, if_pos h]
      constructor
      · exact .inr
      · rintro (⟨rfl, hlt⟩ | hmem)
        · exact absurd h hlt
        · exact hmem
    · rw [if_neg h, if_neg h, List.mem_cons]
      constructor
      · rintro (rfl | hmem)
        · exact .inl ⟨rfl, h⟩
        · exact .inr hmem
      · rintro (⟨rfl, -⟩ | hmem)
        · exact .inl rfl
        · exact .inr hmem

/-! ## Malformed values -/

/-- All the store projects of the events: everything but the rows and the cursor. -/
@[ext] structure Projections where
  tasks : Record TaskProjection
  plans : Record PlanProjection
  approvals : Record ApprovalProjection
  files : Record (List FileChangeProjection)
  tests : Record TestProjection
  globals : Globals

def projectionsOf (s : StoreState) : Projections where
  tasks := s.tasks
  plans := s.plans
  approvals := s.approvals
  files := s.files
  tests := s.tests
  globals := globalsOf s

theorem projectionsOf_advance (h : projectionsOf s = projectionsOf t) :
    projectionsOf (advance s ev) = projectionsOf (advance t ev) := by
  have htasks : s.tasks = t.tasks := congrArg Projections.tasks h
  have hplans : s.plans = t.plans := congrArg Projections.plans h
  have happrovals : s.approvals = t.approvals := congrArg Projections.approvals h
  have hfiles : s.files = t.files := congrArg Projections.files h
  have htests : s.tests = t.tests := congrArg Projections.tests h
  have hglobals : globalsOf s = globalsOf t := congrArg Projections.globals h
  ext1
  case globals =>
    change globalsOf (advance s ev) = globalsOf (advance t ev)
    rw [globalsOf_advance, globalsOf_advance, hglobals]
  all_goals
    simp only [projectionsOf, advance, foldGlobal, foldTask, moveCursor]
    cases owningTask ev <;> cases ev.body <;> simp [*]

@[simp] theorem rowOf_taskId : (rowOf ev).taskId = ev.taskId := by
  unfold rowOf
  split <;> rfl

@[simp] theorem rowOf_seq : (rowOf ev).seq = ev.seq := by
  unfold rowOf
  split <;> rfl

theorem rowOf_malformed (h : wellFormed raw = false) :
    (rowOf (decodeEvent raw)).degraded = true ∧ (rowOf (decodeEvent raw)).taskId = none := by
  have hnone : wireEventEnvelope raw = none := by simpa [wellFormed] using h
  simp [decodeEvent, hnone, rowOf]

/-- A degraded event of no task changes nothing but the rows and the cursor. -/
theorem projectionsOf_advance_degraded (hdeg : (rowOf ev).degraded = true)
    (htask : ev.taskId = none) : projectionsOf (advance s ev) = projectionsOf s := by
  have howner : owningTask ev = none := by rw [owningTask, htask, Option.filter_none]
  unfold rowOf at hdeg
  split at hdeg
  · cases hdeg
  · rename_i hbody
    simp only [advance, howner, foldGlobal, hbody]
    rfl

theorem Journal.of_append {xs ys : List Json} (h : Journal (xs ++ ys)) : Journal xs := by
  intro i hi
  have hget := h i (by simp; omega)
  rwa [List.getElem_append_left hi] at hget

theorem Journal.foldl_lastSeq {journal : List Json} (h : Journal journal) :
    (journal.foldl applyRawEvent emptyStore).lastSeq = journal.length := by
  have hlast := h.replay_lastSeq le_rfl
  rwa [List.take_length, replay_eq_foldl] at hlast

/-- The cursor lets through consecutive numbers that lie above it. -/
theorem takenUp_of_carriesSeq {k c : ℕ}
    (h : ∀ i (hi : i < raws.length), CarriesSeq (k + i) raws[i]) (hc : c < k) :
    takenUp c raws = raws := by
  induction raws generalizing k c with
  | nil => rfl
  | cons raw raws ih =>
    have hraw : CarriesSeq k raw := h 0 (Nat.succ_pos _)
    have htail : ∀ i (hi : i < raws.length), CarriesSeq (k + 1 + i) raws[i] := by
      intro i hi
      have hget := h (i + 1) (Nat.succ_lt_succ hi)
      rwa [List.getElem_cons_succ, ← Nat.add_assoc, Nat.add_right_comm] at hget
    have hfree : ¬ (k : Num) < (c : Num) + 1 := Num.not_natCast_lt_add_one hraw.toDouble hc
    rw [takenUp, hraw.decodeEvent_seq, if_neg hfree, ih htail (Nat.lt_succ_self k)]

/-- The store takes up every event of a journal. -/
theorem Journal.events_eq {journal : List Json} (h : Journal journal) :
    (journal.foldl applyRawEvent emptyStore).events =
      journal.map fun raw => rowOf (decodeEvent raw) := by
  have hall : takenUp ((0 : ℕ) : Num) journal = journal := by
    refine takenUp_of_carriesSeq (k := 1) (fun i hi => ?_) Nat.zero_lt_one
    rw [Nat.add_comm]
    exact h.carriesSeq hi
  rw [events_foldl_applyRawEvent, emptyStore_lastSeq, hall]
  rfl

/-- Every well-formed event finds the cursor below its number, unless a malformed value that is
let through leaves the very row the event would. -/
def Undisturbed (delivered : List Json) : Prop :=
  ∀ pre raw post, delivered = pre ++ raw :: post → wellFormed raw = true →
    ¬ (decodeEvent raw).seq < cursorAfter pre + 1 ∨
      ∃ bad ∈ takenUp 0 delivered, wellFormed bad = false ∧
        rowOf (decodeEvent bad) = rowOf (decodeEvent raw)

/-- The first store has what the second has, and beyond it only degraded rows and the gap flag. -/
structure OnlyDegradedAdded (s t : StoreState) : Prop where
  projections : projectionsOf s = projectionsOf t
  connection : s.connection = t.connection
  lastSeq : s.lastSeq = t.lastSeq
  kept : t.events ⊆ s.events
  extra : ∀ row ∈ s.events, row ∈ t.events ∨ row.degraded = true

section Malformed

variable {delivered pre post : List Json}

theorem Journal.carriesSeq_split (hj : Journal (delivered.filter wellFormed))
    (hsplit : delivered = pre ++ raw :: post) (hraw : wellFormed raw = true) :
    CarriesSeq ((pre.filter wellFormed).length + 1) raw := by
  have hfilter : delivered.filter wellFormed =
      pre.filter wellFormed ++ raw :: post.filter wellFormed := by
    rw [hsplit, List.filter_append, List.filter_cons_of_pos hraw]
  have hget := hj.carriesSeq (i := (pre.filter wellFormed).length) (by rw [hfilter]; simp)
  simpa only [hfilter, List.getElem_append_right le_rfl, Nat.sub_self, List.getElem_cons_zero]
    using hget

theorem Journal.of_split (hj : Journal (delivered.filter wellFormed))
    (hsplit : delivered = pre ++ post) : Journal (pre.filter wellFormed) := by
  rw [hsplit, List.filter_append] at hj
  exact hj.of_append

theorem projections_of_undisturbed (hj : Journal (delivered.filter wellFormed))
    (hund : Undisturbed delivered) (hsplit : delivered = pre ++ post) :
    projectionsOf (pre.foldl applyRawEvent emptyStore) =
      projectionsOf ((pre.filter wellFormed).foldl applyRawEvent emptyStore) := by
  induction pre using List.reverseRecOn generalizing post with
  | nil => rfl
  | append_singleton pre raw ih =>
    rw [List.append_assoc, List.singleton_append] at hsplit
    have ih := ih hsplit
    rw [List.foldl_append, List.filter_append, List.foldl_cons, List.foldl_nil]
    cases hraw : wellFormed raw with
    | false =>
      rw [List.filter_cons_of_neg (by simp [hraw]), List.filter_nil, List.append_nil, ← ih]
      by_cases hlt : (decodeEvent raw).seq < (pre.foldl applyRawEvent emptyStore).lastSeq + 1
      · rw [applyRawEvent, applyDecoded_of_lt hlt]
      · obtain ⟨hdeg, htask⟩ := rowOf_malformed hraw
        rw [applyRawEvent, applyDecoded_of_not_lt hlt]
        exact projectionsOf_advance_degraded hdeg (by simpa using htask)
    | true =>
      have hnew := applyRawEvent_of_lt (hj.carriesSeq_split hsplit hraw)
        (hj.of_split hsplit).foldl_lastSeq (Nat.lt_succ_self _)
      rw [List.filter_cons_of_pos hraw, List.filter_nil, List.foldl_append, List.foldl_cons,
        List.foldl_nil, hnew]
      change _ = projectionsOf (advance _ _)
      by_cases hlt : (decodeEvent raw).seq < (pre.foldl applyRawEvent emptyStore).lastSeq + 1
      · rw [applyRawEvent, applyDecoded_of_lt hlt, ih]
        rcases hund pre raw post hsplit hraw with hfree | ⟨bad, -, hbad, hrow⟩
        · rw [foldl_applyRawEvent_lastSeq] at hlt
          exact absurd hlt hfree
        · obtain ⟨hdeg, htask⟩ := rowOf_malformed hbad
          rw [hrow] at hdeg htask
          exact (projectionsOf_advance_degraded hdeg (by simpa using htask)).symm
      · rw [applyRawEvent, applyDecoded_of_not_lt hlt]
        exact projectionsOf_advance ih

theorem rows_of_undisturbed (hund : Undisturbed delivered) :
    ((delivered.filter wellFormed).map fun raw => rowOf (decodeEvent raw)) ⊆
      (takenUp 0 delivered).map fun raw => rowOf (decodeEvent raw) := by
  intro row hrow
  obtain ⟨raw, hmem, rfl⟩ := List.mem_map.mp hrow
  obtain ⟨hmem, hraw⟩ := List.mem_filter.mp hmem
  obtain ⟨pre, post, hsplit⟩ := List.append_of_mem hmem
  rcases hund pre raw post hsplit hraw with hfree | ⟨bad, hbad, -, hecho⟩
  · exact List.mem_map_of_mem (mem_takenUp.mpr ⟨pre, post, hsplit, hfree⟩)
  · exact List.mem_map.mpr ⟨bad, hbad, hecho⟩

/-- Well-formed events of a journal with one number stand at one place. -/
theorem Journal.split_unique (hj : Journal (delivered.filter wellFormed)) {a b : Json}
    {pre' post' : List Json} (ha : delivered = pre ++ a :: post)
    (hb : delivered = pre' ++ b :: post') (hwa : wellFormed a = true) (hwb : wellFormed b = true)
    (hseq : (decodeEvent a).seq = (decodeEvent b).seq) : pre = pre' := by
  have hlen : (pre.filter wellFormed).length = (pre'.filter wellFormed).length := by
    rw [(hj.carriesSeq_split ha hwa).decodeEvent_seq,
      (hj.carriesSeq_split hb hwb).decodeEvent_seq, Num.natCast_inj] at hseq
    omega
  rcases List.append_eq_append_iff.mp (ha.symm.trans hb) with ⟨ys, rfl, h⟩ | ⟨ys, rfl, h⟩
  · cases ys with
    | nil => simp
    | cons y ys =>
      obtain ⟨rfl, -⟩ := List.cons.inj h
      simp [hwa] at hlen
  · cases ys with
    | nil => simp
    | cons y ys =>
      obtain ⟨rfl, -⟩ := List.cons.inj h
      simp [hwb] at hlen

theorem undisturbed_of_rows (hj : Journal (delivered.filter wellFormed))
    (hrows : ((delivered.filter wellFormed).map fun raw => rowOf (decodeEvent raw)) ⊆
      (takenUp 0 delivered).map fun raw => rowOf (decodeEvent raw)) :
    Undisturbed delivered := by
  intro pre raw post hsplit hraw
  have hmem : raw ∈ delivered.filter wellFormed :=
    List.mem_filter.mpr ⟨hsplit ▸ List.mem_append_right _ List.mem_cons_self, hraw⟩
  obtain ⟨other, hother, hecho⟩ := List.mem_map.mp (hrows (List.mem_map_of_mem hmem))
  cases hwf : wellFormed other with
  | false => exact .inr ⟨other, hother, hwf, hecho⟩
  | true =>
    obtain ⟨pre', post', hsplit', hfree⟩ := mem_takenUp.mp hother
    have hseq : (decodeEvent raw).seq = (decodeEvent other).seq := by
      simpa using (congrArg EventRow.seq hecho).symm
    obtain rfl := hj.split_unique hsplit hsplit' hraw hwf hseq
    exact .inl (hseq ▸ hfree)

/-- Malformed values among a journal do no harm exactly when none of them throws, the cursor stays
below every well-formed event still to come, and it ends at the last of them. -/
theorem malformed_harmless_iff (hj : Journal (delivered.filter wellFormed)) :
    (∃ s, applyBatch? emptyStore delivered = some s ∧
      OnlyDegradedAdded s (replay (delivered.filter wellFormed))) ↔
    (∀ raw ∈ delivered, decodeThrows raw = false) ∧ Undisturbed delivered ∧
      cursorAfter delivered = (delivered.filter wellFormed).length := by
  have hrows : (delivered.foldl applyRawEvent emptyStore).events =
      (takenUp 0 delivered).map fun raw => rowOf (decodeEvent raw) :=
    events_foldl_applyRawEvent emptyStore delivered
  have hlast : (delivered.foldl applyRawEvent emptyStore).lastSeq = cursorAfter delivered :=
    foldl_applyRawEvent_lastSeq _ _
  rw [applyBatch?_eq, applyBatch_eq_foldl, replay_eq_foldl]
  constructor
  · rintro ⟨s, hs, hsame⟩
    split at hs
    · exact nomatch hs
    · rename_i hthrow
      obtain rfl := Option.some.inj hs
      refine ⟨by simpa using hthrow, undisturbed_of_rows hj ?_, ?_⟩
      · rw [← hrows, ← hj.events_eq]
        exact hsame.kept
      · rw [← hlast, hsame.lastSeq, hj.foldl_lastSeq]
  · rintro ⟨hthrow, hund, hend⟩
    rw [if_neg (by simpa using hthrow)]
    refine ⟨_, rfl, ?_, ?_, ?_, ?_, ?_⟩
    · exact projections_of_undisturbed hj hund (List.append_nil delivered).symm
    · rw [foldl_applyRawEvent_connection, foldl_applyRawEvent_connection]
    · rw [hlast, hend, hj.foldl_lastSeq]
    · rw [hrows, hj.events_eq]
      exact rows_of_undisturbed hund
    · intro row hrow
      rw [hrows] at hrow
      rw [hj.events_eq]
      obtain ⟨raw, hmem, rfl⟩ := List.mem_map.mp hrow
      cases hraw : wellFormed raw with
      | false => exact .inr (rowOf_malformed hraw).1
      | true =>
        obtain ⟨pre, post, rfl, -⟩ := mem_takenUp.mp hmem
        exact .inl (List.mem_map_of_mem (List.mem_filter.mpr ⟨by simp, hraw⟩))

theorem wellFormed_coreEvent {seq tsMs : ℕ} (hseq : seq ≤ 2 ^ 53) (hts : tsMs ≤ 2 ^ 53)
    (taskId : Option String) (kind : String) (payload : Json) :
    wellFormed (coreEvent seq taskId tsMs kind payload) = true := by
  simp [wellFormed, wireEventEnvelope_coreEvent hseq hts]

/-- A malformed value with a large number between the two events of a journal. -/
def strayDelivery : List Json :=
  [coreEvent 1 "t" 10 "task_started" (.obj []), .obj [("seq", .str "7")],
    coreEvent 2 "t" 20 "task_completed" (.obj [])]

theorem strayDelivery_journal : Journal (strayDelivery.filter wellFormed) := by
  have hstray : wellFormed (.obj [("seq", .str "7")]) = false := rfl
  have hgood : strayDelivery.filter wellFormed =
      [coreEvent 1 "t" 10 "task_started" (.obj []),
        coreEvent 2 "t" 20 "task_completed" (.obj [])] := by
    simp [strayDelivery, wellFormed_coreEvent, hstray]
  rw [hgood]
  intro i hi
  match i, hi with
  | 0, _ => exact carriesSafeSeq_coreEvent (by norm_num) (by norm_num) ..
  | 1, _ => exact carriesSafeSeq_coreEvent (by norm_num) (by norm_num) ..

theorem strayDelivery_harmless_iff :
    (∃ s, applyBatch? emptyStore strayDelivery = some s ∧
      OnlyDegradedAdded s (replay (strayDelivery.filter wellFormed))) ↔
    (∀ raw ∈ strayDelivery, decodeThrows raw = false) ∧ Undisturbed strayDelivery ∧
      cursorAfter strayDelivery = (strayDelivery.filter wellFormed).length :=
  malformed_harmless_iff strayDelivery_journal

/-- The task's completion is lost: its row is not in the store. -/
theorem stray_value_hides_event :
    Journal (strayDelivery.filter wellFormed) ∧
      ¬ ∃ s, applyBatch? emptyStore strayDelivery = some s ∧
        OnlyDegradedAdded s (replay (strayDelivery.filter wellFormed)) := by
  refine ⟨strayDelivery_journal, ?_⟩
  rintro ⟨s, hs, hsame⟩
  have hseqs : (applyBatch? emptyStore strayDelivery).map (fun s => s.events.map (·.seq)) =
      some [1, 7] := by decide +kernel
  have hgood : (replay (strayDelivery.filter wellFormed)).events.map (·.seq) = [1, 2] := by
    decide +kernel
  rw [hs, Option.map_some, Option.some.injEq] at hseqs
  have hmem : (2 : Num) ∈ s.events.map (·.seq) :=
    List.map_subset _ hsame.kept (by rw [hgood]; decide)
  rw [hseqs] at hmem
  exact absurd hmem (by decide)

end Malformed

end ValyriaApp
