import ValyriaApp.Bridge.EventPump

/-! # Holes in the stream

A stream served from a cursor may lack events. A batch tells of a hole before
its first event only, and a later subscription starts from the last event
delivered, past every hole. So all holes are flagged exactly when no batch that
starts right after the cursor has one inside, and the pump does not subscribe
again once it has delivered a hole.
-/

namespace ValyriaApp.Bridge

open Reassembly

variable {WireEvent : Type} (seq : WireEvent → ℕ)

/-- What the pump does towards the outside: it subscribes from a cursor or sends a batch. -/
inductive PumpOutput (WireEvent : Type) where
  | subscribed (since : ℕ)
  | batch (b : EventBatch WireEvent)

def PumpOutput.events : PumpOutput WireEvent → List WireEvent
  | .subscribed _ => []
  | .batch b => b.events

/-- The cursor of the first subscription. -/
def nextSubscription : List (PumpOutput WireEvent) → Option ℕ
  | [] => none
  | .subscribed since :: _ => some since
  | .batch _ :: trace => nextSubscription trace

/-- The events of all batches, in the order sent. -/
def deliveredBy (trace : List (PumpOutput WireEvent)) : List WireEvent :=
  trace.flatMap PumpOutput.events

def PumpMessage.output : PumpMessage WireEvent → Option (PumpOutput WireEvent)
  | .batch b => some (.batch b)
  | _ => none

structure TracedPump (WireEvent : Type) where
  pump : Pump WireEvent
  trace : List (PumpOutput WireEvent)

def TracedPump.start (appliedThrough : ℕ) : TracedPump WireEvent := ⟨.start appliedThrough, []⟩

/-- What a step from `p` to `q` adds to the trace. -/
def PumpAction.outputs (p q : Pump WireEvent) :
    PumpAction WireEvent → List (PumpOutput WireEvent)
  | .subscribe .. => [.subscribed p.deliveredLast]
  | _ => (q.sent.drop p.sent.length).filterMap PumpMessage.output

/-- The numbers of the stream do not decrease; there may be holes between them. -/
def Increasing (stream : BoxStream WireEvent) : Prop :=
  ∀ m n e e', m < n → stream m = some e → stream n = some e' → seq e ≤ seq e'

def PumpAction.Increasing : PumpAction WireEvent → Prop
  | .subscribe stream _ => Bridge.Increasing seq stream
  | _ => True

/-- One step of `pump_loop` on increasing streams, with what it does towards the outside. -/
def tracedLoop (t : TracedPump WireEvent) (a : {a : PumpAction WireEvent // a.Increasing seq}) :
    Option (TracedPump WireEvent) :=
  (pumpLoop seq t.pump a.val).map fun q => ⟨q, t.trace ++ a.val.outputs t.pump q⟩

/-- The number just before the next event: that of the last event delivered, or the cursor the
pump was started at. -/
def seqBefore (applied : ℕ) (events : List WireEvent) : ℕ :=
  (events.getLast?.map seq).getD applied

/-- After `events`, the event `e` comes past a hole. Before the first event there is none, unless
the pump was started at a cursor. -/
def Hole (applied : ℕ) (events : List WireEvent) (e : WireEvent) : Prop :=
  (events ≠ [] ∨ 0 < applied) ∧ seqBefore seq applied events + 1 < seq e

instance (applied : ℕ) (events : List WireEvent) (e : WireEvent) :
    Decidable (Hole seq applied events e) :=
  decidable_of_iff ((events.isEmpty = false ∨ 0 < applied) ∧
    seqBefore seq applied events + 1 < seq e) (by simp [Hole])

/-- The batch past a hole says so, and the next subscription starts from before the hole. -/
def HolesFlagged (applied : ℕ) (trace : List (PumpOutput WireEvent)) : Prop :=
  ∀ before b after es e es', trace = before ++ .batch b :: after → b.events = es ++ e :: es' →
    Hole seq applied (deliveredBy before ++ es) e →
    b.gapBefore = true ∧
      ∀ since ∈ nextSubscription after, since = seqBefore seq applied (deliveredBy before ++ es)

/-- `collect` takes the event at `n`: it comes before the window elapses and while the batch is
not full, and the stream does not end before it. -/
def Takes (stream : BoxStream WireEvent) (pos window n : ℕ) : Prop :=
  pos ≤ n ∧ n ≤ pos + window ∧ n < pos + maxBatch ∧ ∀ m, pos ≤ m → m ≤ n → stream m ≠ none

/-- The numbers `collect` takes. -/
def takenSeqs (stream : BoxStream WireEvent) (pos window : ℕ) : Set ℕ :=
  {k | ∃ n e, Takes stream pos window n ∧ stream n = some e ∧ seq e = k}

/-- Together with the event right after the cursor no event past a hole is taken, and nothing is
subscribed once a hole was delivered. -/
def HoleGuard (applied : ℕ) (t : TracedPump WireEvent)
    (a : {a : PumpAction WireEvent // a.Increasing seq}) : Prop :=
  match a.val, t.pump.pc with
  | .subscribe .., .subscribing =>
    ∀ es e es', deliveredBy t.trace = es ++ e :: es' → ¬ Hole seq applied es e
  | .collect window true, .collecting stream pos =>
    succU64 t.pump.deliveredLast ∈ takenSeqs seq stream pos window →
      ∀ k ∈ takenSeqs seq stream pos window, succU64 t.pump.deliveredLast < k →
        k - 1 ∈ takenSeqs seq stream pos window
  | _, _ => True

/-! ## Splitting what was delivered -/

section Trace

variable {seq} {applied : ℕ} {trace trace' : List (PumpOutput WireEvent)}
  {es es' : List WireEvent} {e : WireEvent}

theorem deliveredBy_append :
    deliveredBy (trace ++ trace') = deliveredBy trace ++ deliveredBy trace' :=
  List.flatMap_append

theorem nextSubscription_append :
    nextSubscription (trace ++ trace') = (nextSubscription trace).or (nextSubscription trace') := by
  induction trace with
  | nil => rfl
  | cons o trace ih =>
    cases o with
    | subscribed since => rfl
    | batch b => exact ih

theorem nextSubscription_concat_batch (b : EventBatch WireEvent) :
    nextSubscription (trace ++ [.batch b]) = nextSubscription trace := by
  rw [nextSubscription_append, nextSubscription, nextSubscription, Option.or_none]

theorem exists_batch_of_delivered (h : deliveredBy trace = es ++ e :: es') :
    ∃ before b after es₁ es₂, trace = before ++ .batch b :: after ∧
      b.events = es₁ ++ e :: es₂ ∧ deliveredBy before ++ es₁ = es := by
  induction trace generalizing es with
  | nil =>
    rw [deliveredBy, List.flatMap_nil] at h
    simp at h
  | cons o trace ih =>
    rw [deliveredBy, List.flatMap_cons] at h
    rcases List.append_eq_append_iff.mp h with ⟨mid, rfl, hrest⟩ | ⟨mid, ho, hrest⟩
    · obtain ⟨before, b, after, es₁, es₂, rfl, hb, rfl⟩ := ih hrest
      refine ⟨o :: before, b, after, es₁, es₂, rfl, hb, ?_⟩
      rw [deliveredBy, List.flatMap_cons, List.append_assoc, ← deliveredBy]
    · cases mid with
      | nil =>
        have hempty : deliveredBy trace = [] ++ e :: es' := hrest.symm
        obtain ⟨before, b, after, es₁, es₂, rfl, hb, hes⟩ := ih hempty
        refine ⟨o :: before, b, after, es₁, es₂, rfl, hb, ?_⟩
        rw [deliveredBy, List.flatMap_cons, List.append_assoc, ← deliveredBy, hes, ho]
        simp
      | cons x mid =>
        obtain ⟨rfl, -⟩ := List.cons.inj hrest
        cases o with
        | subscribed since => simp [PumpOutput.events] at ho
        | batch b => exact ⟨[], b, trace, es, mid, rfl, ho, rfl⟩

/-- Of two places in a trace and what is added to it, the second is new or both are old. -/
theorem batch_of_concat {o : PumpOutput WireEvent} {b : EventBatch WireEvent}
    {before after : List (PumpOutput WireEvent)} (h : trace ++ [o] = before ++ .batch b :: after) :
    (o = .batch b ∧ before = trace ∧ after = []) ∨
      ∃ after', after = after' ++ [o] ∧ trace = before ++ .batch b :: after' := by
  rcases List.eq_nil_or_concat after with rfl | ⟨after', last, rfl⟩
  · obtain ⟨rfl, hlast⟩ := List.append_inj' h rfl
    exact Or.inl ⟨(List.cons.inj hlast).1, rfl, rfl⟩
  · rw [List.concat_eq_append, ← List.cons_append, ← List.append_assoc] at h
    obtain ⟨rfl, hlast⟩ := List.append_inj' h rfl
    rw [List.concat_eq_append, (List.cons.inj hlast).1]
    exact Or.inr ⟨after', rfl, rfl⟩

end Trace

/-! ## What one call of collect takes -/

section Collect

variable {seq} {stream : BoxStream WireEvent} {window pos minWanted k : ℕ}
  {events : List WireEvent} {e : WireEvent}

theorem mem_pull_iff : e ∈ (pull stream window pos events).1 ↔
    e ∈ events ∨ ∃ n, pos ≤ n ∧ n < pos + window ∧ n + events.length < pos + maxBatch ∧
      (∀ m, pos ≤ m → m ≤ n → stream m ≠ none) ∧ stream n = some e := by
  induction window generalizing pos events with
  | zero =>
    constructor
    · exact Or.inl
    · rintro (h | ⟨n, hle, hlt, -⟩)
      · exact h
      · exact absurd hlt (Nat.not_lt.mpr hle)
  | succ window ih =>
    rw [pull]
    split
    · next hroom =>
      cases hs : stream pos with
      | none =>
        constructor
        · exact Or.inl
        · rintro (h | ⟨n, hle, -, -, hsome, -⟩)
          · exact h
          · exact absurd hs (hsome pos le_rfl hle)
      | some ev =>
        simp only
        rw [ih, List.mem_append, List.mem_singleton, List.length_append, List.length_singleton]
        constructor
        · rintro ((h | rfl) | ⟨n, hle, hlt, hroom', hsome, hn⟩)
          · exact Or.inl h
          · refine Or.inr ⟨pos, le_rfl, by omega, by omega, fun m hm hm' => ?_, hs⟩
            obtain rfl : m = pos := le_antisymm hm' hm
            simp [hs]
          · refine Or.inr ⟨n, by omega, by omega, by omega, fun m hm hm' => ?_, hn⟩
            rcases Nat.lt_or_eq_of_le hm with hlt' | rfl
            · exact hsome m hlt' hm'
            · simp [hs]
        · rintro (h | ⟨n, hle, hlt, hroom', hsome, hn⟩)
          · exact Or.inl (Or.inl h)
          · rcases Nat.lt_or_eq_of_le hle with hlt' | rfl
            · exact Or.inr ⟨n, hlt', by omega, by omega,
                fun m hm hm' => hsome m (Nat.le_of_succ_le hm) hm', hn⟩
            · rw [hs] at hn
              exact Or.inl (Or.inr (Option.some.inj hn).symm)
    · next hfull =>
      constructor
      · exact Or.inl
      · rintro (h | ⟨n, hle, -, hroom, -⟩)
        · exact h
        · omega

theorem mem_pull_cons_iff {ev : WireEvent} (hs : stream pos = some ev) :
    e ∈ (pull stream window (pos + 1) [ev]).1 ↔
      ∃ n, Takes stream pos window n ∧ stream n = some e := by
  -- the first event is taken like the others, in a window longer by one
  have hpull : pull stream (window + 1) pos [] = pull stream window (pos + 1) [ev] := by
    have hroom : ([] : List WireEvent).length < maxBatch := by simp [maxBatch]
    rw [pull, if_pos hroom, hs]
    rfl
  rw [← hpull, mem_pull_iff]
  simp only [List.not_mem_nil, false_or, List.length_nil, Nat.add_zero, ← Nat.add_assoc,
    Nat.lt_add_one_iff, Takes, and_assoc]

/-- What a batch is made of: the numbers taken from `minWanted` on, each once and in order. -/
structure BatchOf (seq : WireEvent → ℕ) (stream : BoxStream WireEvent)
    (pos window minWanted pos' : ℕ) (events : List WireEvent) : Prop where
  ne_nil : events ≠ []
  sorted : events.Pairwise fun x y => seq x < seq y
  mem_seqs : ∀ k, k ∈ events.map seq ↔ k ∈ takenSeqs seq stream pos window ∧ minWanted ≤ k
  range : ∀ e ∈ events, ∃ n, pos ≤ n ∧ n < pos' ∧ stream n = some e

theorem mem_takenSeqs_iff {ev : WireEvent} (hs : stream pos = some ev) :
    k ∈ takenSeqs seq stream pos window ↔
      ∃ e ∈ (pull stream window (pos + 1) [ev]).1, seq e = k := by
  constructor
  · rintro ⟨n, e, hn, he, hk⟩
    exact ⟨e, (mem_pull_cons_iff hs).mpr ⟨n, hn, he⟩, hk⟩
  · rintro ⟨e, he, hk⟩
    obtain ⟨n, hn, he⟩ := (mem_pull_cons_iff hs).mp he
    exact ⟨n, e, hn, he, hk⟩

theorem exists_of_mem_pull {ev : WireEvent} (hs : stream pos = some ev)
    (he : e ∈ (pull stream window (pos + 1) [ev]).1) :
    ∃ n, pos ≤ n ∧ n < (pull stream window (pos + 1) [ev]).2 ∧ stream n = some e := by
  rcases mem_pull.mp he with he | ⟨n, hle, hlt, hn⟩
  · obtain rfl := List.mem_singleton.mp he
    exact ⟨pos, le_rfl, le_pull, hs⟩
  · exact ⟨n, Nat.le_of_succ_le hle, hlt, hn⟩

/-- Sorted and without duplicates, the events from `minWanted` on keep their numbers. -/
theorem batchOf_dedup {pulled : List WireEvent} {pos' : ℕ}
    (htaken : ∀ k, k ∈ takenSeqs seq stream pos window ↔ ∃ e ∈ pulled, seq e = k)
    (hrange : ∀ e ∈ pulled, ∃ n, pos ≤ n ∧ n < pos' ∧ stream n = some e)
    (hne : pulled.filter (fun e => minWanted ≤ seq e) ≠ []) :
    BatchOf seq stream pos window minWanted pos'
      (dedupByKey seq (sortByKey seq (pulled.filter fun e => minWanted ≤ seq e))) := by
  have hsub : ∀ e ∈ dedupByKey seq (sortByKey seq (pulled.filter fun e => minWanted ≤ seq e)),
      e ∈ pulled ∧ minWanted ≤ seq e := by
    intro e he
    have hmem := mem_sortByKey.mp ((dedupByKey_sublist _ _).subset he)
    simpa using hmem
  have hkeep : ∀ e ∈ pulled, minWanted ≤ seq e → ∃ e' ∈
      dedupByKey seq (sortByKey seq (pulled.filter fun e => minWanted ≤ seq e)),
        seq e' = seq e := by
    intro e he hle
    exact exists_mem_dedupByKey (mem_sortByKey.mpr (List.mem_filter.mpr ⟨he, by simpa⟩))
  refine ⟨?_, pairwise_dedupByKey (pairwise_sortByKey _ _), ?_, ?_⟩
  · obtain ⟨x, hx⟩ := List.exists_mem_of_ne_nil _ hne
    obtain ⟨hx, hle⟩ := List.mem_filter.mp hx
    obtain ⟨y, hy, -⟩ := hkeep x hx (by simpa using hle)
    exact List.ne_nil_of_mem hy
  · intro k
    rw [List.mem_map, htaken]
    constructor
    · rintro ⟨e, he, rfl⟩
      exact ⟨⟨e, (hsub e he).1, rfl⟩, (hsub e he).2⟩
    · rintro ⟨⟨e, he, rfl⟩, hle⟩
      exact hkeep e he hle
  · intro e he
    exact hrange e (hsub e he).1

/-- A call finds the stream ended, takes nothing from `minWanted` on, or makes a batch. -/
theorem collect_cases {r : Collected WireEvent × ℕ}
    (hr : collect seq stream pos window minWanted = r) :
    (r.1 = .streamEnded ∧ takenSeqs seq stream pos window = ∅) ∨
      (r.1 = .idle ∧ pos ≤ r.2 ∧ ∀ k ∈ takenSeqs seq stream pos window, k < minWanted) ∨
      ∃ events, r.1 = .events events ∧ pos ≤ r.2 ∧
        BatchOf seq stream pos window minWanted r.2 events := by
  subst hr
  unfold collect
  cases hs : stream pos with
  | none =>
    refine Or.inl ⟨rfl, Set.eq_empty_of_forall_notMem ?_⟩
    rintro k ⟨n, e, ⟨hle, -, -, hsome⟩, -⟩
    exact hsome pos le_rfl hle hs
  | some ev =>
    right
    have htaken := fun k => @mem_takenSeqs_iff _ seq stream window pos k _ hs
    have hrange := fun e => @exists_of_mem_pull _ stream window pos e _ hs
    have hpos : pos ≤ (pull stream window (pos + 1) [ev]).2 := (Nat.le_succ pos).trans le_pull
    simp only
    generalize pull stream window (pos + 1) [ev] = r at htaken hrange hpos
    obtain ⟨pulled, pos'⟩ := r
    simp only at htaken hrange hpos ⊢
    by_cases hempty : pulled.filter (fun e => minWanted ≤ seq e) = []
    · left
      rw [hempty]
      refine ⟨rfl, hpos, fun k hk => ?_⟩
      obtain ⟨e, he, rfl⟩ := (htaken k).mp hk
      simpa using List.filter_eq_nil_iff.mp hempty e he
    · right
      rw [List.isEmpty_eq_false_iff.mpr hempty]
      exact ⟨_, rfl, hpos, batchOf_dedup htaken hrange hempty⟩

end Collect

/-! ## The steps of the traced pump -/

section Steps

variable {seq} {applied : ℕ} {t u : TracedPump WireEvent}

/-- The pump goes on: it neither returned nor panicked. -/
def Pump.live (p : Pump WireEvent) : Prop := p.pc ≠ .returned ∧ p.pc ≠ .panicked

/-- A step that delivers nothing and subscribes to nothing leaves the cursor where it is. -/
structure Quiet (t u : TracedPump WireEvent) : Prop where
  trace_eq : u.trace = t.trace
  cursor_eq : u.pump.deliveredLast = t.pump.deliveredLast
  wasLive : t.pump.live
  forward : ∀ stream pos, u.pump.pc = .collecting stream pos →
    ∃ pos' ≤ pos, t.pump.pc = .collecting stream pos'

/-- A subscription from the cursor. -/
structure Subscribed (seq : WireEvent → ℕ) (t u : TracedPump WireEvent) : Prop where
  trace_eq : u.trace = t.trace ++ [.subscribed t.pump.deliveredLast]
  cursor_eq : u.pump.deliveredLast = t.pump.deliveredLast
  wasLive : t.pump.live
  fresh : ∀ stream pos, u.pump.pc = .collecting stream pos → Increasing seq stream

/-- A batch that reaches the consumer. -/
structure Sent (seq : WireEvent → ℕ) (window : ℕ) (stream : BoxStream WireEvent) (pos pos' : ℕ)
    (b : EventBatch WireEvent) (t u : TracedPump WireEvent) : Prop where
  pc_eq : t.pump.pc = .collecting stream pos
  pc_eq' : u.pump.pc = .collecting stream pos'
  le_pos : pos ≤ pos'
  batchOf : BatchOf seq stream pos window (succU64 t.pump.deliveredLast) pos' b.events
  trace_eq : u.trace = t.trace ++ [.batch b]
  head_eq : b.events.head?.map seq = some b.firstSeq
  last_eq : b.events.getLast?.map seq = some u.pump.deliveredLast
  gap_eq : b.gapBefore = decide (b.firstSeq ≠ succU64 t.pump.deliveredLast)

theorem deliver_false {events : List WireEvent} (p : Pump WireEvent) (next : PumpPc WireEvent)
    (hne : events ≠ []) :
    (p.deliver seq events false next).sent = p.sent ∧
      (p.deliver seq events false next).pc = .returned := by
  rw [Pump.deliver, List.head?_eq_some_head hne, List.getLast?_eq_some_getLast hne]
  exact ⟨rfl, rfl⟩

theorem deliver_true {events : List WireEvent} (p : Pump WireEvent) (next : PumpPc WireEvent)
    (hne : events ≠ []) : ∃ b : EventBatch WireEvent, b.events = events ∧
      (p.deliver seq events true next).pc = next ∧
      (p.deliver seq events true next).sent = p.sent ++ [.batch b] ∧
      b.events.head?.map seq = some b.firstSeq ∧
      b.events.getLast?.map seq = some (p.deliver seq events true next).deliveredLast ∧
      b.gapBefore = decide (b.firstSeq ≠ succU64 p.deliveredLast) := by
  rw [Pump.deliver, List.head?_eq_some_head hne, List.getLast?_eq_some_getLast hne]
  refine ⟨⟨_, _, events, _⟩, rfl, rfl, rfl, ?_, ?_, rfl⟩
  · rw [List.head?_eq_some_head hne]
    rfl
  · rw [List.getLast?_eq_some_getLast hne]
    rfl

theorem tracedLoop_subscribe {stream : BoxStream WireEvent} {ok : Bool}
    (hi : (PumpAction.subscribe stream ok).Increasing seq)
    (h : tracedLoop seq t ⟨.subscribe stream ok, hi⟩ = some u) :
    t.pump.pc = .subscribing ∧ Subscribed seq t u := by
  obtain ⟨q, hq, rfl⟩ := Option.map_eq_some_iff.mp h
  have hfresh : ∀ stream' pos, PumpPc.collecting stream 0 = .collecting stream' pos →
      Increasing seq stream' := by
    rintro _ _ ⟨⟩
    exact hi
  cases pumped_of_pumpLoop seq hq with
  | connected hpc hfirst => exact ⟨hpc, rfl, rfl, by simp [Pump.live, hpc], hfresh⟩
  | reconnected hpc hfirst =>
    have hlive : t.pump.live := by simp [Pump.live, hpc]
    cases ok with
    | true => exact ⟨hpc, rfl, rfl, hlive, hfresh⟩
    | false => exact ⟨hpc, rfl, rfl, hlive, by rintro _ _ ⟨⟩⟩

theorem tracedLoop_reconnect {probe : ℕ → Probe} {ok : Bool}
    (hi : (PumpAction.reconnect probe ok).Increasing seq)
    (h : tracedLoop seq t ⟨.reconnect probe ok, hi⟩ = some u) : Quiet t u := by
  obtain ⟨q, hq, rfl⟩ := Option.map_eq_some_iff.mp h
  cases pumped_of_pumpLoop seq hq with
  | probed hpc hprobe =>
    exact ⟨by simp [PumpAction.outputs], rfl, by simp [Pump.live, hpc], by rintro _ _ ⟨⟩⟩
  | closed hpc hprobe =>
    have hlive : t.pump.live := by simp [Pump.live, hpc]
    cases ok with
    | true =>
      exact ⟨by simp [PumpAction.outputs, Pump.send, PumpMessage.output], rfl, hlive,
        by rintro _ _ ⟨⟩⟩
    | false => exact ⟨by simp [PumpAction.outputs, Pump.send], rfl, hlive, by rintro _ _ ⟨⟩⟩

/-- A call of `collect` delivers nothing, and takes nothing past the cursor or loses its consumer,
or a batch of what it takes is sent. -/
theorem tracedLoop_collect {window : ℕ} {ok : Bool}
    (hi : (PumpAction.collect window ok).Increasing seq)
    (h : tracedLoop seq t ⟨.collect window ok, hi⟩ = some u) :
    ∃ stream pos, t.pump.pc = .collecting stream pos ∧
      ((Quiet t u ∧ ∀ k ∈ takenSeqs seq stream pos window, k < succU64 t.pump.deliveredLast) ∨
        (ok = false ∧ u.trace = t.trace ∧ u.pump.pc = .returned) ∨
        ok = true ∧ ∃ pos' b, Sent seq window stream pos pos' b t u) := by
  obtain ⟨q, hq, rfl⟩ := Option.map_eq_some_iff.mp h
  cases pumped_of_pumpLoop seq hq with
  | @ended _ pos _ _ stream hpc hr =>
    have hlive : t.pump.live := by simp [Pump.live, hpc]
    rcases collect_cases hr with ⟨-, hnone⟩ | ⟨hidle, -⟩ | ⟨events, hevents, -⟩
    · exact ⟨stream, pos, hpc, Or.inl ⟨⟨by simp [PumpAction.outputs], rfl, hlive,
        by rintro _ _ ⟨⟩⟩, by simp [hnone]⟩⟩
    · cases hidle
    · cases hevents
  | @idle _ pos pos' _ stream hpc hr =>
    have hlive : t.pump.live := by simp [Pump.live, hpc]
    rcases collect_cases hr with ⟨hend, -⟩ | ⟨-, hle, hlt⟩ | ⟨events, hevents, -⟩
    · cases hend
    · refine ⟨stream, pos, hpc, Or.inl ⟨⟨by simp [PumpAction.outputs], rfl, hlive, ?_⟩, hlt⟩⟩
      rintro _ _ ⟨⟩
      exact ⟨pos, hle, hpc⟩
    · cases hevents
  | @collected _ pos pos' _ stream events hpc hr =>
    refine ⟨stream, pos, hpc, Or.inr ?_⟩
    rcases collect_cases hr with ⟨hend, -⟩ | ⟨hidle, -⟩ | ⟨events', hevents, hle, hbatch⟩
    · cases hend
    · cases hidle
    · cases hevents
      cases ok with
      | false =>
        obtain ⟨hsent, hpc'⟩ := deliver_false t.pump (.collecting stream pos') hbatch.ne_nil
        exact Or.inl ⟨rfl, by simp [PumpAction.outputs, hsent], hpc'⟩
      | true =>
        obtain ⟨b, rfl, hpc', hsent, hhead, hlast, hgap⟩ := deliver_true t.pump
          (.collecting stream pos') hbatch.ne_nil
        exact Or.inr ⟨rfl, pos', b, ⟨hpc, hpc', hle, hbatch,
          by simp [PumpAction.outputs, hsent, PumpMessage.output], hhead, hlast, hgap⟩⟩

end Steps

/-! ## What was delivered, step by step -/

section Invariant

variable {seq} {applied since d s : ℕ} {trace after : List (PumpOutput WireEvent)}
  {b : EventBatch WireEvent} {t u : TracedPump WireEvent}

/-- A hole past the number `s`, with what the pump did after the batch that has it. -/
def HoleAt (seq : WireEvent → ℕ) (applied : ℕ) (trace after : List (PumpOutput WireEvent))
    (s : ℕ) : Prop :=
  ∃ before b es e es', trace = before ++ .batch b :: after ∧ b.events = es ++ e :: es' ∧
    Hole seq applied (deliveredBy before ++ es) e ∧
    seqBefore seq applied (deliveredBy before ++ es) = s

/-- Every hole lies before the cursor of the next subscription, and of the one to come. -/
structure HoleInv (seq : WireEvent → ℕ) (applied : ℕ) (t : TracedPump WireEvent) : Prop where
  cursor : t.pump.live → t.pump.deliveredLast = seqBefore seq applied (deliveredBy t.trace)
  resumed : ∀ after s, HoleAt seq applied t.trace after s →
    ∀ since ∈ nextSubscription after, s < since
  passed : t.pump.live → ∀ after s, HoleAt seq applied t.trace after s →
    nextSubscription after = none → s < t.pump.deliveredLast
  ahead : ∀ stream pos, t.pump.pc = .collecting stream pos → Increasing seq stream ∧
    ∀ b, t.trace.getLast? = some (.batch b) → ∀ n e, pos ≤ n → stream n = some e →
      t.pump.deliveredLast ≤ seq e

theorem holeAt_concat {o : PumpOutput WireEvent} :
    HoleAt seq applied (trace ++ [o]) after s ↔
      (∃ after', after = after' ++ [o] ∧ HoleAt seq applied trace after' s) ∨
      ∃ b es e es', o = .batch b ∧ after = [] ∧ b.events = es ++ e :: es' ∧
        Hole seq applied (deliveredBy trace ++ es) e ∧
        seqBefore seq applied (deliveredBy trace ++ es) = s := by
  constructor
  · rintro ⟨before, b, es, e, es', htrace, hb, hole, hs⟩
    rcases batch_of_concat htrace with ⟨rfl, rfl, rfl⟩ | ⟨after', rfl, rfl⟩
    · exact Or.inr ⟨b, es, e, es', rfl, rfl, hb, hole, hs⟩
    · exact Or.inl ⟨after', rfl, before, b, es, e, es', rfl, hb, hole, hs⟩
  · rintro (⟨after', rfl, before, b, es, e, es', rfl, hb, hole, hs⟩ |
      ⟨b, es, e, es', rfl, rfl, hb, hole, hs⟩)
    · exact ⟨before, b, es, e, es', by simp, hb, hole, hs⟩
    · exact ⟨trace, b, es, e, es', rfl, hb, hole, hs⟩

theorem HoleAt.getLast?_batch (h : HoleAt seq applied trace after s)
    (hnone : nextSubscription after = none) : ∃ b, trace.getLast? = some (.batch b) := by
  obtain ⟨before, b, es, e, es', rfl, -⟩ := h
  rcases List.eq_nil_or_concat after with rfl | ⟨after, o, rfl⟩
  · exact ⟨b, by simp⟩
  · rw [List.concat_eq_append, nextSubscription_append, Option.or_eq_none_iff] at hnone
    cases o with
    | subscribed since => cases hnone.2
    | batch b' =>
      rw [List.concat_eq_append, ← List.cons_append, ← List.append_assoc]
      exact ⟨b', List.getLast?_concat⟩

theorem seqBefore_append {es es' : List WireEvent} (h : es'.getLast?.map seq = some d) :
    seqBefore seq applied (es ++ es') = d := by
  have hne : es' ≠ [] := by
    rintro rfl
    cases h
  rw [seqBefore, List.getLast?_append_of_ne_nil _ hne, h, Option.getD_some]

theorem holeInv_start : HoleInv seq applied (TracedPump.start applied) where
  cursor _ := rfl
  resumed := by
    rintro _ _ ⟨before, b, es, e, es', htrace, -⟩
    simp [TracedPump.start] at htrace
  passed := by
    rintro - _ _ ⟨before, b, es, e, es', htrace, -⟩
    simp [TracedPump.start] at htrace
  ahead := by rintro _ _ ⟨⟩

theorem HoleInv.quiet (h : HoleInv seq applied t) (hq : Quiet t u) : HoleInv seq applied u where
  cursor _ := by rw [hq.cursor_eq, hq.trace_eq, h.cursor hq.wasLive]
  resumed := by
    rw [hq.trace_eq]
    exact h.resumed
  passed _ := by
    rw [hq.trace_eq, hq.cursor_eq]
    exact h.passed hq.wasLive
  ahead stream pos hpc := by
    obtain ⟨pos', hle, hpc'⟩ := hq.forward stream pos hpc
    obtain ⟨hinc, hahead⟩ := h.ahead stream pos' hpc'
    rw [hq.trace_eq, hq.cursor_eq]
    exact ⟨hinc, fun b hb n e hn => hahead b hb n e (hle.trans hn)⟩

theorem HoleInv.subscribed (h : HoleInv seq applied t) (hsub : Subscribed seq t u) :
    HoleInv seq applied u where
  cursor _ := by
    rw [hsub.cursor_eq, hsub.trace_eq, h.cursor hsub.wasLive, deliveredBy_append]
    simp [deliveredBy, PumpOutput.events]
  resumed := by
    rw [hsub.trace_eq]
    intro after s hat since hsince
    rcases holeAt_concat.mp hat with ⟨after', rfl, hold⟩ | ⟨b, es, e, es', ho, -⟩
    · rw [nextSubscription_append] at hsince
      cases hnext : nextSubscription after' with
      | none =>
        rw [hnext] at hsince
        obtain rfl : t.pump.deliveredLast = since := Option.some.inj hsince
        exact h.passed hsub.wasLive after' s hold hnext
      | some c =>
        rw [hnext] at hsince
        exact h.resumed after' s hold since (hnext.trans hsince)
    · cases ho
  passed _ := by
    rw [hsub.trace_eq]
    intro after s hat hnone
    rcases holeAt_concat.mp hat with ⟨after', rfl, -⟩ | ⟨b, es, e, es', ho, -⟩
    · rw [nextSubscription_append, Option.or_eq_none_iff] at hnone
      cases hnone.2
    · cases ho
  ahead stream pos hpc := by
    refine ⟨hsub.fresh stream pos hpc, fun b hb => ?_⟩
    rw [hsub.trace_eq, List.getLast?_concat] at hb
    cases hb

theorem Sent.last {window pos pos' : ℕ} {stream : BoxStream WireEvent}
    (hsent : Sent seq window stream pos pos' b t u) :
    (∃ n e, pos ≤ n ∧ n < pos' ∧ stream n = some e ∧ seq e = u.pump.deliveredLast) ∧
      ∀ e ∈ b.events, seq e ≤ u.pump.deliveredLast := by
  obtain ⟨z, hz, hlast⟩ := Option.map_eq_some_iff.mp hsent.last_eq
  obtain ⟨n, hle, hlt, hn⟩ := hsent.batchOf.range z (List.mem_of_getLast? hz)
  refine ⟨⟨n, z, hle, hlt, hn, hlast⟩, fun e he => ?_⟩
  obtain ⟨es, hes⟩ := List.getLast?_eq_some_iff.mp hz
  have hsorted := hsent.batchOf.sorted
  rw [hes] at he hsorted
  rcases List.mem_append.mp he with he | he
  · exact ((List.pairwise_append.mp hsorted).2.2 e he z (List.mem_singleton_self z)).le.trans
      hlast.le
  · rw [List.mem_singleton.mp he, hlast]

theorem HoleInv.sent (h : HoleInv seq applied t) {window pos pos' : ℕ}
    {stream : BoxStream WireEvent} (hsent : Sent seq window stream pos pos' b t u) :
    HoleInv seq applied u := by
  have hlive : t.pump.live := by simp [Pump.live, hsent.pc_eq]
  obtain ⟨⟨n, z, hpn, hn, hz, hlast⟩, hmax⟩ := hsent.last
  obtain ⟨hinc, hahead⟩ := h.ahead stream pos hsent.pc_eq
  refine ⟨fun _ => ?_, ?_, fun _ => ?_, ?_⟩
  · rw [hsent.trace_eq, deliveredBy_append, seqBefore_append (d := u.pump.deliveredLast)]
    simpa [deliveredBy, PumpOutput.events] using hsent.last_eq
  · rw [hsent.trace_eq]
    intro after s hat since hsince
    rcases holeAt_concat.mp hat with ⟨after', rfl, hold⟩ | ⟨b', es, e, es', -, rfl, -⟩
    · rw [nextSubscription_concat_batch] at hsince
      exact h.resumed after' s hold since hsince
    · cases hsince
  · rw [hsent.trace_eq]
    intro after s hat hnone
    rcases holeAt_concat.mp hat with ⟨after', rfl, hold⟩ | ⟨b', es, e, es', hb', -, hb, hole, rfl⟩
    · rw [nextSubscription_concat_batch] at hnone
      obtain ⟨b', hb'⟩ := hold.getLast?_batch hnone
      exact (h.passed hlive after' s hold hnone).trans_le
        (hlast ▸ hahead b' hb' n z hpn hz)
    · cases hb'
      have he := hmax e (by simp [hb])
      have := hole.2
      omega
  · intro stream' p hpc
    rw [hsent.pc_eq'] at hpc
    cases hpc
    refine ⟨hinc, fun _ _ m e hm he => ?_⟩
    rw [← hlast]
    exact hinc n m z e (hn.trans_le hm) hz he

theorem HoleInv.step {a : {a : PumpAction WireEvent // a.Increasing seq}}
    (h : HoleInv seq applied t) (hstep : tracedLoop seq t a = some u) :
    HoleInv seq applied u := by
  obtain ⟨a, hi⟩ := a
  cases a with
  | subscribe stream ok => exact h.subscribed (tracedLoop_subscribe hi hstep).2
  | reconnect probe ok => exact h.quiet (tracedLoop_reconnect hi hstep)
  | collect window ok =>
    obtain ⟨stream, pos, -, ⟨hq, -⟩ | ⟨-, htrace, hpc⟩ | ⟨-, pos', b, hsent⟩⟩ :=
      tracedLoop_collect hi hstep
    · exact h.quiet hq
    · refine ⟨fun hlive => absurd hpc hlive.1, ?_, fun hlive => absurd hpc hlive.1, ?_⟩
      · rw [htrace]
        exact h.resumed
      · rw [hpc]
        rintro _ _ ⟨⟩
    · exact h.sent hsent

end Invariant

/-! ## Exactly when all holes are flagged -/

section Flagged

variable {seq} {applied d : ℕ} {trace : List (PumpOutput WireEvent)} {b : EventBatch WireEvent}
  {t u : TracedPump WireEvent}

theorem holesFlagged_subscribed :
    HolesFlagged seq applied (trace ++ [.subscribed d]) ↔ HolesFlagged seq applied trace ∧
      ∀ after s, HoleAt seq applied trace after s → nextSubscription after = none → d = s := by
  constructor
  · intro h
    have hold : ∀ before b after es e es', trace = before ++ .batch b :: after →
        b.events = es ++ e :: es' → Hole seq applied (deliveredBy before ++ es) e →
        b.gapBefore = true ∧ ∀ since ∈ (nextSubscription after).or (some d),
          since = seqBefore seq applied (deliveredBy before ++ es) := by
      rintro before b after es e es' rfl hb hole
      have := h before b (after ++ [.subscribed d]) es e es' (by simp) hb hole
      rwa [nextSubscription_append] at this
    refine ⟨fun before b after es e es' htrace hb hole => ?_, ?_⟩
    · obtain ⟨hgap, hnext⟩ := hold before b after es e es' htrace hb hole
      refine ⟨hgap, fun since hsince => hnext since ?_⟩
      rw [Option.mem_def.mp hsince, Option.or_some]
      rfl
    · rintro after s ⟨before, b, es, e, es', htrace, hb, hole, rfl⟩ hnone
      refine (hold before b after es e es' htrace hb hole).2 d ?_
      rw [hnone]
      rfl
  · rintro ⟨h, hlast⟩ before b after es e es' htrace hb hole
    rcases batch_of_concat htrace with ⟨ho, -⟩ | ⟨after', rfl, htrace'⟩
    · cases ho
    · obtain ⟨hgap, hnext⟩ := h before b after' es e es' htrace' hb hole
      refine ⟨hgap, fun since hsince => ?_⟩
      rw [nextSubscription_append] at hsince
      cases hafter : nextSubscription after' with
      | none =>
        rw [hafter] at hsince
        rw [← Option.some.inj hsince]
        exact hlast after' _ ⟨before, b, es, e, es', htrace', hb, hole, rfl⟩ hafter
      | some c =>
        rw [hafter] at hsince
        exact hnext since (hafter.trans hsince)

theorem holesFlagged_batch :
    HolesFlagged seq applied (trace ++ [.batch b]) ↔ HolesFlagged seq applied trace ∧
      ∀ es e es', b.events = es ++ e :: es' → Hole seq applied (deliveredBy trace ++ es) e →
        b.gapBefore = true := by
  constructor
  · intro h
    refine ⟨?_, fun es e es' hb hole => (h trace b [] es e es' rfl hb hole).1⟩
    rintro before b' after es e es' rfl hb hole
    have := h before b' (after ++ [.batch b]) es e es' (by simp) hb hole
    rwa [nextSubscription_concat_batch] at this
  · rintro ⟨h, hnew⟩ before b' after es e es' htrace hb hole
    rcases batch_of_concat htrace with ⟨ho, rfl, rfl⟩ | ⟨after', rfl, htrace'⟩
    · cases ho
      exact ⟨hnew es e es' hb hole, by rintro _ ⟨⟩⟩
    · rw [nextSubscription_concat_batch]
      exact h before b' after' es e es' htrace' hb hole

/-- A subscription starts past every hole, so there must be none. -/
theorem HoleInv.flagged_subscribed (h : HoleInv seq applied t)
    (hflagged : HolesFlagged seq applied t.trace) (hsub : Subscribed seq t u) :
    HolesFlagged seq applied u.trace ↔
      ∀ es e es', deliveredBy t.trace = es ++ e :: es' → ¬ Hole seq applied es e := by
  rw [hsub.trace_eq, holesFlagged_subscribed]
  constructor
  · rintro ⟨-, hlast⟩ es e es' hdelivered hole
    obtain ⟨before, b, after, es₁, es₂, htrace, hb, rfl⟩ := exists_batch_of_delivered hdelivered
    have hat : HoleAt seq applied t.trace after
        (seqBefore seq applied (deliveredBy before ++ es₁)) :=
      ⟨before, b, es₁, e, es₂, htrace, hb, hole, rfl⟩
    cases hnext : nextSubscription after with
    | none =>
      have hlt := h.passed hsub.wasLive after _ hat hnext
      have heq := hlast after _ hat hnext
      omega
    | some since =>
      have hlt := h.resumed after _ hat since hnext
      have heq := (hflagged before b after es₁ e es₂ htrace hb hole).2 since hnext
      omega
  · intro hnone
    refine ⟨hflagged, ?_⟩
    rintro after s ⟨before, b, es, e, es', htrace, hb, hole, -⟩
    refine absurd hole (hnone _ e (es' ++ deliveredBy after) ?_)
    rw [htrace, deliveredBy_append, deliveredBy, deliveredBy, List.flatMap_cons,
      PumpOutput.events, hb, deliveredBy]
    simp

theorem le_succU64 (n : ℕ) : succU64 n ≤ n + 1 := Nat.mod_le _ _

theorem hole_concat {es : List WireEvent} {y e : WireEvent} :
    Hole seq applied (es ++ [y]) e ↔ seq y + 1 < seq e := by
  rw [Hole, seqBefore, List.getLast?_concat, Option.map_some, Option.getD_some]
  simp

theorem Sent.first {window pos pos' : ℕ} {stream : BoxStream WireEvent}
    (hsent : Sent seq window stream pos pos' b t u) :
    ∃ x, b.events.head? = some x ∧ seq x = b.firstSeq ∧ ∀ e ∈ b.events, b.firstSeq ≤ seq e := by
  obtain ⟨x, hx, hfirst⟩ := Option.map_eq_some_iff.mp hsent.head_eq
  refine ⟨x, hx, hfirst, fun e he => ?_⟩
  obtain ⟨xs, hxs⟩ := List.head?_eq_some_iff.mp hx
  have hsorted := hsent.batchOf.sorted
  rw [hxs] at he hsorted
  rcases List.mem_cons.mp he with rfl | he
  · exact hfirst.ge
  · exact hfirst.ge.trans ((List.pairwise_cons.mp hsorted).1 e he).le

/-- A batch starts right after the cursor when the number there is taken. -/
theorem Sent.firstSeq_eq_iff {window pos pos' : ℕ} {stream : BoxStream WireEvent}
    (hsent : Sent seq window stream pos pos' b t u) :
    b.firstSeq = succU64 t.pump.deliveredLast ↔
      succU64 t.pump.deliveredLast ∈ takenSeqs seq stream pos window := by
  have hmem := hsent.batchOf.mem_seqs
  obtain ⟨x, hx, hfirst, hleast⟩ := hsent.first
  obtain ⟨htaken, hle⟩ := (hmem (seq x)).mp (List.mem_map_of_mem (List.mem_of_head? hx))
  rw [hfirst] at htaken hle
  constructor
  · intro heq
    rwa [← heq]
  · intro hsucc
    obtain ⟨z, hz, hzeq⟩ := List.mem_map.mp ((hmem _).mpr ⟨hsucc, le_rfl⟩)
    exact le_antisymm ((hleast z hz).trans hzeq.le) hle

/-- A batch that starts right after the cursor has no hole inside when each number above is taken
together with the one before. -/
theorem Sent.gapless_events_iff {window pos pos' : ℕ} {stream : BoxStream WireEvent}
    (hsent : Sent seq window stream pos pos' b t u)
    (hstart : b.firstSeq = succU64 t.pump.deliveredLast) :
    (∀ xs y z ys, b.events = xs ++ y :: z :: ys → seq z ≤ seq y + 1) ↔
      ∀ k ∈ takenSeqs seq stream pos window, succU64 t.pump.deliveredLast < k →
        k - 1 ∈ takenSeqs seq stream pos window := by
  have hmem := hsent.batchOf.mem_seqs
  obtain ⟨x, hx, hfirst, -⟩ := hsent.first
  rw [gapless_iff hsent.batchOf.sorted, ← hstart]
  constructor
  · intro hgapless k hk hlt
    obtain ⟨y, hy, rfl⟩ := List.mem_map.mp ((hmem k).mpr ⟨hk, hstart ▸ hlt.le⟩)
    obtain ⟨z, hz, hzy⟩ := hgapless x hx y hy (hfirst.trans_lt hlt)
    rw [← hzy, Nat.add_sub_cancel]
    exact ((hmem (seq z)).mp (List.mem_map_of_mem hz)).1
  · intro htaken x' hx' z hz hlt
    obtain rfl : x' = x := Option.some.inj (hx'.symm.trans hx)
    obtain ⟨hztaken, -⟩ := (hmem (seq z)).mp (List.mem_map_of_mem hz)
    rw [hfirst] at hlt
    have hprev := htaken (seq z) hztaken hlt
    obtain ⟨w, hw, hweq⟩ := List.mem_map.mp ((hmem (seq z - 1)).mpr ⟨hprev, by omega⟩)
    exact ⟨w, hw, by omega⟩

theorem HoleInv.flagged_batch (h : HoleInv seq applied t)
    (hflagged : HolesFlagged seq applied t.trace) {window pos pos' : ℕ}
    {stream : BoxStream WireEvent} (hsent : Sent seq window stream pos pos' b t u) :
    HolesFlagged seq applied u.trace ↔ (b.firstSeq = succU64 t.pump.deliveredLast →
      ∀ xs y z ys, b.events = xs ++ y :: z :: ys → seq z ≤ seq y + 1) := by
  have hlive : t.pump.live := by simp [Pump.live, hsent.pc_eq]
  rw [hsent.trace_eq, holesFlagged_batch, hsent.gap_eq, decide_eq_true_iff]
  constructor
  · rintro ⟨-, hnew⟩ hstart xs y z ys hb
    by_contra hhole
    refine hnew (xs ++ [y]) z ys (by simpa using hb) ?_ hstart
    rw [← List.append_assoc, hole_concat]
    exact Nat.lt_of_not_le hhole
  · intro hgapless
    refine ⟨hflagged, fun es e es' hb hole hstart => ?_⟩
    rcases List.eq_nil_or_concat es with rfl | ⟨xs, y, rfl⟩
    · -- the first event comes right after the cursor
      obtain ⟨x, hx, hfirst, -⟩ := hsent.first
      obtain rfl : e = x := by
        rw [hb] at hx
        exact Option.some.inj hx
      have hlt := hole.2
      have hle := le_succU64 t.pump.deliveredLast
      rw [List.append_nil, ← h.cursor hlive, hfirst, hstart] at hlt
      omega
    · rw [List.concat_eq_append, List.append_assoc] at hb
      rw [List.concat_eq_append, ← List.append_assoc, hole_concat] at hole
      have hno := hgapless hstart xs y e es' hb
      omega

theorem HoleInv.flagged_sent (h : HoleInv seq applied t)
    (hflagged : HolesFlagged seq applied t.trace) {window pos pos' : ℕ}
    {stream : BoxStream WireEvent} (hsent : Sent seq window stream pos pos' b t u) :
    HolesFlagged seq applied u.trace ↔
      (succU64 t.pump.deliveredLast ∈ takenSeqs seq stream pos window →
        ∀ k ∈ takenSeqs seq stream pos window, succU64 t.pump.deliveredLast < k →
          k - 1 ∈ takenSeqs seq stream pos window) := by
  rw [h.flagged_batch hflagged hsent, ← hsent.firstSeq_eq_iff]
  exact forall_congr' hsent.gapless_events_iff

theorem HoleInv.flagged_step {a : {a : PumpAction WireEvent // a.Increasing seq}}
    (h : HoleInv seq applied t) (hflagged : HolesFlagged seq applied t.trace)
    (hstep : tracedLoop seq t a = some u) :
    HolesFlagged seq applied u.trace ↔ HoleGuard seq applied t a := by
  obtain ⟨a, hi⟩ := a
  cases a with
  | subscribe stream ok =>
    obtain ⟨hpc, hsub⟩ := tracedLoop_subscribe hi hstep
    rw [h.flagged_subscribed hflagged hsub, HoleGuard]
    simp only [hpc]
  | reconnect probe ok =>
    rw [(tracedLoop_reconnect hi hstep).trace_eq, HoleGuard]
    exact iff_of_true hflagged trivial
  | collect window ok =>
    obtain ⟨stream, pos, hpc, ⟨hq, hlt⟩ | ⟨rfl, htrace, -⟩ | ⟨rfl, pos', b, hsent⟩⟩ :=
      tracedLoop_collect hi hstep
    · rw [hq.trace_eq, HoleGuard]
      cases ok with
      | true =>
        simp only [hpc]
        exact iff_of_true hflagged fun hsucc => absurd (hlt _ hsucc) (Nat.lt_irrefl _)
      | false => exact iff_of_true hflagged trivial
    · rw [htrace, HoleGuard]
      exact iff_of_true hflagged trivial
    · rw [h.flagged_sent hflagged hsent, HoleGuard]
      simp only [hpc]

theorem holeGuard_of_step_none {a : {a : PumpAction WireEvent // a.Increasing seq}}
    (hstep : tracedLoop seq t a = none) : HoleGuard seq applied t a := by
  obtain ⟨a, hi⟩ := a
  rw [tracedLoop, Option.map_eq_none_iff] at hstep
  unfold pumpLoop at hstep
  unfold HoleGuard
  cases a with
  | subscribe stream ok =>
    cases hpc : t.pump.pc with
    | subscribing =>
      simp only [hpc] at hstep
      split at hstep
      · cases hstep
      · cases hstep
    | _ => trivial
  | reconnect probe ok => trivial
  | collect window ok =>
    cases hpc : t.pump.pc with
    | collecting stream pos =>
      simp only [hpc] at hstep
      split at hstep
      · cases hstep
      · cases hstep
      · cases hstep
    | _ =>
      cases ok with
      | true => trivial
      | false => trivial

/-- In a run on increasing streams every hole is flagged, by its batch and by the next subscription,
exactly when each batch that takes the event right after the cursor takes none past a hole, and
the pump does not subscribe once it has delivered a hole. -/
theorem holes_flagged_iff (applied : ℕ)
    (as : List {a : PumpAction WireEvent // a.Increasing seq}) :
    Machine.Guarded (tracedLoop seq) (HoleGuard seq applied) (.start applied) as ↔
      ∀ bs cs, as = bs ++ cs → ∀ t, Machine.run (tracedLoop seq) (.start applied) bs = some t →
        HolesFlagged seq applied t.trace := by
  refine Machine.guarded_iff (I := HoleInv seq applied) (fun _ _ _ h => h.step)
    (fun _ _ => holeGuard_of_step_none) (fun _ _ _ h => h.flagged_step) holeInv_start ?_
  intro before b after es e es' htrace
  simp [TracedPump.start] at htrace

theorem increasing_streamOf {items : List WireEvent} (h : items.Pairwise fun x y => seq x ≤ seq y) :
    Increasing seq (streamOf items) := by
  intro m n e e' hmn hm hn
  obtain ⟨hlt, rfl⟩ := List.getElem?_eq_some_iff.mp hm
  obtain ⟨hlt', rfl⟩ := List.getElem?_eq_some_iff.mp hn
  exact List.pairwise_iff_getElem.mp h m n hlt hlt' hmn

/-- A stream that lacks the event `2`. -/
def subscribeHoled : {a : PumpAction ℕ // a.Increasing id} :=
  ⟨.subscribe (streamOf [1, 3]) true, increasing_streamOf (by decide)⟩

/-- Both events in one batch, and each in its own with a subscription after them. -/
theorem hole_not_flagged :
    (∃ t, Machine.run (tracedLoop id) (.start 0) [subscribeHoled, ⟨.collect 1 true, trivial⟩] =
        some t ∧ ¬ HolesFlagged id 0 t.trace) ∧
      ∃ t, Machine.run (tracedLoop id) (.start 0) [subscribeHoled, ⟨.collect 0 true, trivial⟩,
        ⟨.collect 0 true, trivial⟩, ⟨.collect 0 true, trivial⟩,
        ⟨.reconnect (fun _ => .quiet) true, trivial⟩, subscribeHoled] = some t ∧
          ¬ HolesFlagged id 0 t.trace := by
  constructor
  · refine ⟨_, rfl, fun h => ?_⟩
    have hflag := h [.subscribed 0] ⟨1, 3, [1, 3], false⟩ [] [1] 3 [] rfl rfl (by decide)
    cases hflag.1
  · refine ⟨_, rfl, fun h => ?_⟩
    have hflag := h [.subscribed 0, .batch ⟨1, 1, [1], false⟩] ⟨3, 3, [3], true⟩ [.subscribed 3]
      [] 3 [] rfl rfl (by decide)
    cases hflag.2 3 rfl

end Flagged

end ValyriaApp.Bridge
