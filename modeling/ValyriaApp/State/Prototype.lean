import ValyriaApp.State.Delivery

/-! # Tasks named like inherited properties

The maps of the store are plain objects. Where a map has no entry of its own
under a name of `Object.prototype`, a lookup yields the inherited property, and
the folds of a task take it for an earlier projection: spread into a task it
adds no fields, spread into a list it throws. The entries such tasks get are kept
beside the store; as long as no task is named so, the reducer is the plain one.
-/

namespace ValyriaApp

/-- The properties every object inherits. -/
def objectPrototype : List String :=
  ["constructor", "__defineGetter__", "__defineSetter__", "hasOwnProperty", "__lookupGetter__",
    "__lookupSetter__", "isPrototypeOf", "propertyIsEnumerable", "toString", "valueOf",
    "__proto__", "toLocaleString"]

/-- A task entry any field of which may be missing. -/
structure PartialTask where
  id : Option String := none
  state : Option TaskState := none
  objective : Option String := none
  lastSeq : Option Num := none
  firstSeenSeq : Option Num := none
  firstTs : Option Num := none
  lastTs : Option Num := none
  terminal : Option Bool := none

/-- The store, and the tasks whose ids are inherited names. -/
structure ObjectStore where
  store : StoreState
  inherited : Record PartialTask

/-- The task an event belongs to has a name that no object inherits. -/
def OwnNamed (raw : Json) : Prop := ∀ id ∈ (decodeEvent raw).taskId, id ∉ objectPrototype

instance (raw : Json) : Decidable (OwnNamed raw) :=
  inferInstanceAs (Decidable (∀ id ∈ (decodeEvent raw).taskId, _))

/-- `advanceTask` where the earlier projection may lack fields; an inherited property lacks
them all. -/
def PartialTask.advance (base : PartialTask) (ev : DecodedEvent) : PartialTask :=
  let moved := { base with lastSeq := some ev.seq, lastTs := some ev.ts }
  match ev.body with
  | .failed .. => moved
  | .ok kind payload =>
    { moved with
      objective := if kind = .taskStarted then (strField payload "objective").or base.objective
        else base.objective
      state := (nextState kind payload).or base.state
      terminal := if (nextState kind payload).any (· ∈ terminalStates) then some true
        else base.terminal }

theorem takenUp_cons (x : Num) (raw : Json) (raws : List Json) :
    takenUp x (raw :: raws) = (if (decodeEvent raw).seq < x + 1 then [] else [raw]) ++
      takenUp (cursorStep x raw) raws := by
  rw [takenUp, cursorStep]
  split <;> rfl

theorem mem_of_mem_takenUp {x : Num} {raw : Json} {raws : List Json}
    (h : raw ∈ takenUp x raws) : raw ∈ raws := by
  obtain ⟨pre, post, rfl, -⟩ := mem_takenUp.mp h
  simp

namespace ObjectStore

/-- `foldTask` under an inherited id. Plans and approvals are written without a lookup; the list
of files and the test runs are copied from the inherited property, which is not iterable. -/
def foldTask? (o : ObjectStore) (id : String) (ev : DecodedEvent) : Option ObjectStore :=
  let o := { o with inherited := o.inherited.set id (((o.inherited.get? id).getD {}).advance ev) }
  match ev.body with
  | .failed .. => some o
  | .ok kind payload =>
    if (changedPath kind payload).isSome ∨ (testOutcome kind).isSome then none
    else some { o with store := { o.store with
      plans := if kind = .planCreated then
        o.store.plans.set id { taskId := id, seq := ev.seq, payload } else o.store.plans
      approvals := if kind = .approvalRequested then
        o.store.approvals.set id { taskId := id, seq := ev.seq, payload }
        else o.store.approvals } }

/-- `applyDecoded`; `none` when it throws. -/
def applyDecoded? (o : ObjectStore) (ev : DecodedEvent) : Option ObjectStore :=
  match (owningTask ev).filter (· ∈ objectPrototype) with
  | none => some { o with store := applyDecoded o.store ev }
  | some id =>
    if ev.seq < o.store.lastSeq + 1 then some o
    else (foldTask? { o with store := foldGlobal (moveCursor o.store ev) ev } id ev).map
      fun next => { next with store := next.store.withEvents (o.store.events ++ [rowOf ev]) }

def applyRawEvent? (o : ObjectStore) (raw : Json) : Option ObjectStore :=
  (decodeEvent? raw).bind o.applyDecoded?

/-- `applyBatch`, which is the fold of its events; `none` when one of them throws. -/
def applyBatch? (o : ObjectStore) (raws : List Json) : Option ObjectStore :=
  raws.foldlM applyRawEvent? o

def begin : ObjectStore := ⟨emptyStore, .empty⟩

variable {o o' : ObjectStore} {ev : DecodedEvent} {raw : Json} {raws : List Json} {id : String}

theorem foldTask?_eq_some (h : o.foldTask? id ev = some o') :
    o'.store.lastSeq = o.store.lastSeq ∧
      o'.inherited = o.inherited.set id (((o.inherited.get? id).getD {}).advance ev) := by
  cases hbody : ev.body with
  | failed =>
    simp only [foldTask?, hbody] at h
    exact Option.some.inj h ▸ ⟨rfl, rfl⟩
  | ok kind payload =>
    simp only [foldTask?, hbody] at h
    obtain ⟨-, h⟩ := Option.ite_none_left_eq_some.mp h
    exact Option.some.inj h ▸ ⟨rfl, rfl⟩

theorem applyDecoded?_old (h : ev.seq < o.store.lastSeq + 1) : o.applyDecoded? ev = some o := by
  unfold applyDecoded?
  split
  · rw [applyDecoded_of_lt h]
  · exact if_pos h

theorem filter_owningTask (raw : Json) :
    OwnNamed raw ↔ (owningTask (decodeEvent raw)).filter (· ∈ objectPrototype) = none := by
  rw [Option.filter_eq_none_iff]
  constructor
  · intro h id hid
    simpa using h id (Option.filter_eq_some_iff.mp hid).1
  · intro h id hid hmem
    have hid' : id ≠ "" := by
      rintro rfl
      exact absurd hmem (by decide)
    exact h id (Option.filter_eq_some_iff.mpr ⟨hid, decide_eq_true hid'⟩) (decide_eq_true hmem)

theorem applyDecoded?_own (h : OwnNamed raw) : o.applyDecoded? (decodeEvent raw) =
    some { o with store := applyDecoded o.store (decodeEvent raw) } := by
  simp only [applyDecoded?, (filter_owningTask raw).mp h]

/-- An event is ignored, applied as in the plain reducer, or folded under an inherited id. -/
theorem applyRawEvent?_cases (h : o.applyRawEvent? raw = some o') :
    (decodeEvent raw).seq < o.store.lastSeq + 1 ∧ o' = o ∨
    ¬ (decodeEvent raw).seq < o.store.lastSeq + 1 ∧ o'.store.lastSeq = (decodeEvent raw).seq ∧
      (OwnNamed raw ∧ o'.inherited = o.inherited ∨
        ¬ OwnNamed raw ∧ ∃ id, o'.inherited = o.inherited.set id
          (((o.inherited.get? id).getD {}).advance (decodeEvent raw))) := by
  obtain ⟨ev, hev, happly⟩ := Option.bind_eq_some_iff.mp h
  obtain rfl : decodeEvent raw = ev := by
    unfold decodeEvent? at hev
    split at hev
    · exact nomatch hev
    · exact Option.some.inj hev
  by_cases hold : (decodeEvent raw).seq < o.store.lastSeq + 1
  · rw [applyDecoded?_old hold] at happly
    exact .inl ⟨hold, (Option.some.inj happly).symm⟩
  refine .inr ⟨hold, ?_⟩
  by_cases hown : OwnNamed raw
  · rw [applyDecoded?_own hown] at happly
    obtain rfl := Option.some.inj happly
    refine ⟨?_, .inl ⟨hown, rfl⟩⟩
    rw [applyDecoded_of_not_lt hold, withEvents_lastSeq, advance_lastSeq]
  · unfold applyDecoded? at happly
    split at happly
    · rename_i hnone
      exact absurd ((filter_owningTask raw).mpr hnone) hown
    · rename_i id _
      rw [if_neg hold] at happly
      obtain ⟨next, hnext, rfl⟩ := Option.map_eq_some_iff.mp happly
      obtain ⟨hlast, hinherited⟩ := foldTask?_eq_some hnext
      refine ⟨?_, .inr ⟨hown, id, hinherited⟩⟩
      rw [withEvents_lastSeq, hlast, foldGlobal_lastSeq, moveCursor]

theorem applyRawEvent?_lastSeq (h : o.applyRawEvent? raw = some o') :
    o'.store.lastSeq = cursorStep o.store.lastSeq raw := by
  rw [cursorStep]
  rcases applyRawEvent?_cases h with ⟨hold, rfl⟩ | ⟨hnew, hlast, -⟩
  · exact (if_pos hold).symm
  · rw [hlast, if_neg hnew]

theorem applyRawEvent?_own
    (h : ¬ (decodeEvent raw).seq < o.store.lastSeq + 1 → OwnNamed raw) :
    o.applyRawEvent? raw =
      (ValyriaApp.applyRawEvent? o.store raw).map fun s => { o with store := s } := by
  rw [applyRawEvent?, ValyriaApp.applyRawEvent?, decodeEvent?]
  cases hthrow : decodeThrows raw with
  | true => rfl
  | false =>
    change o.applyDecoded? (decodeEvent raw) = some _
    by_cases hold : (decodeEvent raw).seq < o.store.lastSeq + 1
    · rw [applyDecoded?_old hold, applyDecoded_of_lt hold]
    · exact applyDecoded?_own (h hold)

/-- As long as every event taken up is named otherwise, the reducer is the plain one. -/
theorem applyBatch?_own (h : ∀ raw ∈ takenUp o.store.lastSeq raws, OwnNamed raw) :
    o.applyBatch? raws =
      (ValyriaApp.applyBatch? o.store raws).map fun s => { o with store := s } := by
  rw [(batch_is_fold o.store raws [] []).1, applyBatch?]
  induction raws generalizing o with
  | nil => rfl
  | cons raw raws ih =>
    rw [takenUp_cons] at h
    have hraw : o.applyRawEvent? raw =
        (ValyriaApp.applyRawEvent? o.store raw).map fun s => { o with store := s } :=
      applyRawEvent?_own fun hnew => h raw (List.mem_append_left _ (by simp [hnew]))
    rw [List.foldlM_cons, List.foldlM_cons, hraw]
    cases hs : ValyriaApp.applyRawEvent? o.store raw with
    | none => rfl
    | some s =>
      rw [hs] at hraw
      refine ih (o := { o with store := s }) fun r hr => h r (List.mem_append_right _ ?_)
      rwa [← applyRawEvent?_lastSeq hraw]

/-- An entry under an inherited id never learns when its task was first seen, and it stays. -/
theorem inherited_of_applyBatch? (h : o.applyBatch? raws = some o')
    (hfirst : o.inherited.All fun _ t => t.firstSeenSeq = none) :
    (o'.inherited.All fun _ t => t.firstSeenSeq = none) ∧
      ((∃ id, (o.inherited.get? id).isSome) ∨
          (∃ raw ∈ takenUp o.store.lastSeq raws, ¬ OwnNamed raw) →
        ∃ id, (o'.inherited.get? id).isSome) := by
  induction raws generalizing o with
  | nil =>
    obtain rfl := Option.some.inj h
    refine ⟨hfirst, ?_⟩
    rintro (hid | ⟨raw, hraw, -⟩)
    · exact hid
    · exact nomatch hraw
  | cons raw raws ih =>
    obtain ⟨next, hnext, hrest⟩ := Option.bind_eq_some_iff.mp ((List.foldlM_cons ..).symm.trans h)
    rw [takenUp_cons, ← applyRawEvent?_lastSeq hnext]
    rcases applyRawEvent?_cases hnext with ⟨hold, rfl⟩ | ⟨hnew, -, ⟨hown, hsame⟩ | ⟨-, id, hset⟩⟩
    · rw [if_pos hold]
      exact ih hrest hfirst
    · rw [← hsame] at hfirst
      refine (ih hrest hfirst).imp_right fun hmore hany => hmore (hany.imp ?_ ?_)
      · rw [hsame]
        exact id
      · rintro ⟨r, hr, hstray⟩
        rw [if_neg hnew, List.singleton_append] at hr
        rcases List.mem_cons.mp hr with rfl | hr
        · exact absurd hown hstray
        · exact ⟨r, hr, hstray⟩
    · have hadvance (t : PartialTask) (ht : t.firstSeenSeq = none) :
          (t.advance (decodeEvent raw)).firstSeenSeq = none := by
        unfold PartialTask.advance
        split <;> exact ht
      have hentry : ((o.inherited.get? id).getD {}).firstSeenSeq = none := by
        cases hget : o.inherited.get? id with
        | none => rfl
        | some t => exact hfirst hget
      have hfirst' : next.inherited.All fun _ t => t.firstSeenSeq = none :=
        hset ▸ hfirst.set (hadvance _ hentry)
      refine (ih hrest hfirst').imp_right fun hmore _ => hmore (.inl ⟨id, ?_⟩)
      rw [hset, OrderedMap.get?_set_self]
      rfl

end ObjectStore

end ValyriaApp
