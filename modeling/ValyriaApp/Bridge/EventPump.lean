import Mathlib.Algebra.Group.Nat.Defs
import ValyriaApp.Lib.Machine
import ValyriaApp.Lib.Reassembly

/-! # The event pump

The pump holds one subscription at a time and resumes it from the last number
it delivered. A stream may repeat events and may start before its cursor, but it
yields no journal event before those between the cursor and it. Hence what one
batch takes from the stream is a chunk of the journal past the cursor, and the
batches put together are the journal itself.
-/

namespace ValyriaApp.Bridge

open Reassembly

/-- Hard cap on a single batch. -/
def maxBatch : ℕ := 512

def reconnectAttempts : ℕ := 5

/-- `+ 1` on `u64`. -/
def succU64 (n : ℕ) : ℕ := (n + 1) % 2 ^ 64

structure EventBatch (WireEvent : Type) where
  firstSeq : ℕ
  lastSeq : ℕ
  events : List WireEvent
  gapBefore : Bool

inductive PumpMessage (WireEvent : Type) where
  | batch (b : EventBatch WireEvent)
  /-- The subscription dropped and was established again. -/
  | reconnected (start : ℕ)
  /-- The stream ended and could not be established again. -/
  | closed (lastSeq : ℕ)

/-- What the calls of `next` on one subscription yield. -/
abbrev BoxStream (WireEvent : Type) := ℕ → Option WireEvent

inductive Collected (WireEvent : Type) where
  | events (events : List WireEvent)
  | idle
  | streamEnded

/-- What `next` on a probe subscription brings before its timeout. -/
inductive Probe where
  | event
  | closed
  | quiet
  deriving DecidableEq

inductive PumpPc (WireEvent : Type) where
  | subscribing
  | collecting (stream : BoxStream WireEvent) (pos : ℕ)
  | reconnecting
  | returned
  | panicked

structure Pump (WireEvent : Type) where
  deliveredLast : ℕ
  firstConnect : Bool
  pc : PumpPc WireEvent
  sent : List (PumpMessage WireEvent)

/-- What the environment decides at each step: the stream of a subscription, how many more
events come before the window elapses, the probes, and whether the consumer is still there. -/
inductive PumpAction (WireEvent : Type) where
  | subscribe (stream : BoxStream WireEvent) (sendOk : Bool)
  | collect (window : ℕ) (sendOk : Bool)
  | reconnect (probe : ℕ → Probe) (sendOk : Bool)

variable {WireEvent : Type} (seq : WireEvent → ℕ)

/-- The loop of `collect`: at most `window` more events come before the deadline. -/
def pull (stream : BoxStream WireEvent) : ℕ → ℕ → List WireEvent → List WireEvent × ℕ
  | 0, pos, events => (events, pos)
  | window + 1, pos, events =>
    if events.length < maxBatch then
      match stream pos with
      | some ev => pull stream window (pos + 1) (events ++ [ev])
      | none => (events, pos + 1)
    else (events, pos)

def collect (stream : BoxStream WireEvent) (pos window minWanted : ℕ) :
    Collected WireEvent × ℕ :=
  match stream pos with
  | none => (.streamEnded, pos + 1)
  | some ev =>
    let (pulled, pos) := pull stream window (pos + 1) [ev]
    let events := pulled.filter fun e => minWanted ≤ seq e
    if events.isEmpty then (.idle, pos)
    else (.events (dedupByKey seq (sortByKey seq events)), pos)

def reconnect (probe : ℕ → Probe) : ℕ → Bool
  | 0 => false
  | attempts + 1 =>
    match probe attempts with
    | .event => true
    | .closed => reconnect probe attempts
    | .quiet => true

namespace Pump

def start (appliedThrough : ℕ) : Pump WireEvent where
  deliveredLast := appliedThrough
  firstConnect := true
  pc := .subscribing
  sent := []

/-- Send a message and go on, or return when the consumer is gone. -/
def send (p : Pump WireEvent) (msg : PumpMessage WireEvent) (sendOk : Bool)
    (next : PumpPc WireEvent) : Pump WireEvent :=
  if sendOk then { p with sent := p.sent ++ [msg], pc := next } else { p with pc := .returned }

/-- Deliver what was collected. -/
def deliver (p : Pump WireEvent) (events : List WireEvent) (sendOk : Bool)
    (next : PumpPc WireEvent) : Pump WireEvent :=
  match events.head?.map seq, events.getLast?.map seq with
  | some firstSeq, some lastSeq =>
    let gapBefore := decide (firstSeq ≠ succU64 p.deliveredLast)
    { p with deliveredLast := lastSeq }.send
      (.batch { firstSeq, lastSeq, events, gapBefore }) sendOk next
  | _, _ => { p with pc := .panicked }

end Pump

/-- One step of `pump_loop`. -/
def pumpLoop (p : Pump WireEvent) : PumpAction WireEvent → Option (Pump WireEvent)
  | .subscribe stream sendOk =>
    match p.pc with
    | .subscribing =>
      if p.firstConnect then some { p with firstConnect := false, pc := .collecting stream 0 }
      else some (p.send (.reconnected p.deliveredLast) sendOk (.collecting stream 0))
    | _ => none
  | .collect window sendOk =>
    match p.pc with
    | .collecting stream pos =>
      match collect seq stream pos window (succU64 p.deliveredLast) with
      | (.events events, pos) => some (p.deliver seq events sendOk (.collecting stream pos))
      | (.idle, pos) => some { p with pc := .collecting stream pos }
      | (.streamEnded, _) => some { p with pc := .reconnecting }
    | _ => none
  | .reconnect probe sendOk =>
    match p.pc with
    | .reconnecting =>
      if reconnect probe reconnectAttempts then some { p with pc := .subscribing }
      else some (p.send (.closed p.deliveredLast) sendOk .returned)
    | _ => none

/-- What a step can do, by where the pump is. -/
inductive Pumped (p : Pump WireEvent) : PumpAction WireEvent → Pump WireEvent → Prop where
  | connected {stream : BoxStream WireEvent} {sendOk : Bool} (hpc : p.pc = .subscribing)
      (hfirst : p.firstConnect = true) : Pumped p (.subscribe stream sendOk)
        { p with firstConnect := false, pc := .collecting stream 0 }
  | reconnected {stream : BoxStream WireEvent} {sendOk : Bool} (hpc : p.pc = .subscribing)
      (hfirst : p.firstConnect = false) : Pumped p (.subscribe stream sendOk)
        (p.send (.reconnected p.deliveredLast) sendOk (.collecting stream 0))
  | collected {window pos pos' : ℕ} {sendOk : Bool} {stream : BoxStream WireEvent}
      {events : List WireEvent} (hpc : p.pc = .collecting stream pos)
      (hr : collect seq stream pos window (succU64 p.deliveredLast) = (.events events, pos')) :
      Pumped p (.collect window sendOk) (p.deliver seq events sendOk (.collecting stream pos'))
  | idle {window pos pos' : ℕ} {sendOk : Bool} {stream : BoxStream WireEvent}
      (hpc : p.pc = .collecting stream pos)
      (hr : collect seq stream pos window (succU64 p.deliveredLast) = (.idle, pos')) :
      Pumped p (.collect window sendOk) { p with pc := .collecting stream pos' }
  | ended {window pos pos' : ℕ} {sendOk : Bool} {stream : BoxStream WireEvent}
      (hpc : p.pc = .collecting stream pos)
      (hr : collect seq stream pos window (succU64 p.deliveredLast) = (.streamEnded, pos')) :
      Pumped p (.collect window sendOk) { p with pc := .reconnecting }
  | probed {probe : ℕ → Probe} {sendOk : Bool} (hpc : p.pc = .reconnecting)
      (hprobe : reconnect probe reconnectAttempts = true) :
      Pumped p (.reconnect probe sendOk) { p with pc := .subscribing }
  | closed {probe : ℕ → Probe} {sendOk : Bool} (hpc : p.pc = .reconnecting)
      (hprobe : reconnect probe reconnectAttempts = false) :
      Pumped p (.reconnect probe sendOk) (p.send (.closed p.deliveredLast) sendOk .returned)

theorem pumped_of_pumpLoop {p q : Pump WireEvent} {a : PumpAction WireEvent}
    (h : pumpLoop seq p a = some q) : Pumped seq p a q := by
  unfold pumpLoop at h
  cases a with
  | subscribe stream sendOk =>
    cases hpc : p.pc with
    | subscribing =>
      simp only [hpc] at h
      split at h
      · next hfirst =>
        cases h
        exact .connected hpc hfirst
      · next hfirst =>
        cases h
        exact .reconnected hpc (by simpa using hfirst)
    | _ => simp [hpc] at h
  | collect window sendOk =>
    cases hpc : p.pc with
    | collecting stream pos =>
      simp only [hpc] at h
      split at h
      · next hr =>
        cases h
        exact .collected hpc hr
      · next hr =>
        cases h
        exact .idle hpc hr
      · next hr =>
        cases h
        exact .ended hpc hr
    | _ => simp [hpc] at h
  | reconnect probe sendOk =>
    cases hpc : p.pc with
    | reconnecting =>
      simp only [hpc] at h
      split at h
      · next hprobe =>
        cases h
        exact .probed hpc hprobe
      · next hprobe =>
        cases h
        exact .closed hpc (by simpa using hprobe)
    | _ => simp [hpc] at h

/-! ## Delivery -/

/-- Gap-free delivery from `since`: an event past the cursor is an event of the journal, and the
journal events between the cursor and it were yielded before. -/
structure GapFree (journal : List WireEvent) (since : ℕ) (stream : BoxStream WireEvent) :
    Prop where
  mem_journal : ∀ {n e}, stream n = some e → since < seq e → e ∈ journal
  before : ∀ {n e}, stream n = some e → ∀ e' ∈ journal, since < seq e' → seq e' < seq e →
    ∃ m < n, stream m = some e'

/-- Every subscription is served gap-free from its cursor. -/
def ServedGapFree (journal : List WireEvent) (p : Pump WireEvent) :
    PumpAction WireEvent → Prop
  | .subscribe stream _ => GapFree seq journal p.deliveredLast stream
  | _ => True

def PumpMessage.events : PumpMessage WireEvent → List WireEvent
  | .batch b => b.events
  | _ => []

/-- The events of all batches, in the order sent. -/
def delivered (sent : List (PumpMessage WireEvent)) : List WireEvent :=
  sent.flatMap PumpMessage.events

/-- The number of the last event delivered, `applied` when there is none. -/
def lastDelivered (applied : ℕ) (sent : List (PumpMessage WireEvent)) : ℕ :=
  ((delivered sent).getLast?.map seq).getD applied

/-- What a message says is true of the messages sent before it. -/
def Truthful (applied : ℕ) (before : List (PumpMessage WireEvent)) :
    PumpMessage WireEvent → Prop
  | .batch b => b.events ≠ [] ∧ b.events.length ≤ maxBatch ∧
      b.events.head?.map seq = some b.firstSeq ∧ b.events.getLast?.map seq = some b.lastSeq ∧
      b.gapBefore = false
  | .reconnected start => start = lastDelivered seq applied before
  | .closed lastSeq => lastSeq = lastDelivered seq applied before

/-- The batches put together are the journal from `applied` on. -/
structure ExactlyOnce (journal : List WireEvent) (applied : ℕ)
    (sent : List (PumpMessage WireEvent)) : Prop where
  delivered_eq : delivered sent =
    (journal.drop applied).take (lastDelivered seq applied sent - applied)
  truthful : ∀ before msg after, sent = before ++ msg :: after → Truthful seq applied before msg

/-- The cursor `d` has passed all that the stream yielded before `pos`. -/
structure CaughtUp (journal : List WireEvent) (stream : BoxStream WireEvent) (pos d : ℕ) :
    Prop where
  gapFree : ∃ since ≤ d, GapFree seq journal since stream
  passed : ∀ n < pos, ∀ e, stream n = some e → seq e ≤ d

/-- Between two steps the cursor is the last number delivered, and it has passed all that the
current stream has yielded. -/
structure PumpInv (journal : List WireEvent) (applied : ℕ) (p : Pump WireEvent) : Prop where
  exactly : ExactlyOnce seq journal applied p.sent
  noPanic : p.pc ≠ .panicked
  cursor : p.pc ≠ .returned → p.deliveredLast = lastDelivered seq applied p.sent
  bound : p.deliveredLast < 2 ^ 64 - 1
  caughtUp : ∀ stream pos, p.pc = .collecting stream pos →
    CaughtUp seq journal stream pos p.deliveredLast

/-! ## What one call of collect takes from the stream -/

section Collect

variable {stream : BoxStream WireEvent} {window pos : ℕ} {events : List WireEvent}

theorem le_pull : pos ≤ (pull stream window pos events).2 := by
  induction window generalizing pos events with
  | zero => exact le_rfl
  | succ window ih =>
    rw [pull]
    split
    · cases stream pos with
      | none => exact Nat.le_succ pos
      | some ev => exact (Nat.le_succ pos).trans ih
    · exact le_rfl

theorem length_pull_le (h : events.length ≤ maxBatch) :
    (pull stream window pos events).1.length ≤ maxBatch := by
  induction window generalizing pos events with
  | zero => exact h
  | succ window ih =>
    rw [pull]
    split
    · next hlt =>
      cases stream pos with
      | none => exact h
      | some ev =>
        apply ih
        rw [List.length_append]
        exact hlt
    · exact h

theorem mem_pull {e : WireEvent} : e ∈ (pull stream window pos events).1 ↔
    e ∈ events ∨ ∃ n, pos ≤ n ∧ n < (pull stream window pos events).2 ∧ stream n = some e := by
  induction window generalizing pos events with
  | zero =>
    constructor
    · exact Or.inl
    · rintro (h | ⟨n, hle, hlt, -⟩)
      · exact h
      · exact absurd hlt (Nat.not_lt.mpr hle)
  | succ window ih =>
    rw [pull]
    split
    · cases hs : stream pos with
      | none =>
        constructor
        · exact Or.inl
        · rintro (h | ⟨n, hle, hlt, hn⟩)
          · exact h
          · obtain rfl : n = pos := le_antisymm (Nat.le_of_lt_succ hlt) hle
            rw [hs] at hn
            cases hn
      | some ev =>
        simp only
        rw [ih, List.mem_append, List.mem_singleton]
        constructor
        · rintro ((h | rfl) | ⟨n, hle, hlt, hn⟩)
          · exact Or.inl h
          · exact Or.inr ⟨pos, le_rfl, le_pull, hs⟩
          · exact Or.inr ⟨n, Nat.le_of_succ_le hle, hlt, hn⟩
        · rintro (h | ⟨n, hle, hlt, hn⟩)
          · exact Or.inl (Or.inl h)
          · rcases Nat.lt_or_eq_of_le hle with hlt' | rfl
            · exact Or.inr ⟨n, hlt', hlt, hn⟩
            · rw [hs] at hn
              exact Or.inl (Or.inr (Option.some.inj hn).symm)
    · constructor
      · exact Or.inl
      · rintro (h | ⟨n, hle, hlt, -⟩)
        · exact h
        · exact absurd hlt (Nat.not_lt.mpr hle)

variable {seq} {journal : List WireEvent} {d : ℕ}

theorem succU64_of_lt (hd : d < 2 ^ 64 - 1) : succU64 d = d + 1 :=
  Nat.mod_eq_of_lt (by omega)

/-- What was pulled past the cursor is a chunk of the journal. -/
theorem CaughtUp.chunk {pos' : ℕ} {pulled : List WireEvent}
    (h : CaughtUp seq journal stream pos d)
    (hpulled : ∀ e, e ∈ pulled ↔ ∃ n, pos ≤ n ∧ n < pos' ∧ stream n = some e) :
    Chunk seq journal d (pulled.filter fun e => d + 1 ≤ seq e) := by
  obtain ⟨since, hsince, hgap⟩ := h.gapFree
  refine ⟨?_, ?_, ?_⟩
  · intro e he
    obtain ⟨-, hlt⟩ := List.mem_filter.mp he
    exact of_decide_eq_true hlt
  · intro e he
    obtain ⟨hp, hlt⟩ := List.mem_filter.mp he
    obtain ⟨n, -, -, hn⟩ := (hpulled e).mp hp
    exact hgap.mem_journal hn (hsince.trans_lt (of_decide_eq_true hlt))
  · intro e he e' he' hlt' hlt
    obtain ⟨hp, -⟩ := List.mem_filter.mp he
    obtain ⟨n, -, hn', hn⟩ := (hpulled e).mp hp
    obtain ⟨m, hmn, hm⟩ := hgap.before hn e' he' (hsince.trans_lt hlt') hlt
    have hpos : pos ≤ m := by
      by_contra hpos
      have := h.passed m (Nat.lt_of_not_le hpos) e' hm
      omega
    exact List.mem_filter.mpr ⟨(hpulled e').mpr ⟨m, hpos, hmn.trans hn', hm⟩, decide_eq_true hlt'⟩

theorem CaughtUp.advance {pos' d' : ℕ} (h : CaughtUp seq journal stream pos d) (hd : d ≤ d')
    (hnew : ∀ n, pos ≤ n → n < pos' → ∀ e, stream n = some e → seq e ≤ d') :
    CaughtUp seq journal stream pos' d' := by
  obtain ⟨since, hsince, hgap⟩ := h.gapFree
  refine ⟨⟨since, hsince.trans hd, hgap⟩, fun n hn e he => ?_⟩
  rcases Nat.lt_or_ge n pos with hlt | hge
  · exact (h.passed n hlt e he).trans hd
  · exact hnew n hge hn e he

/-- One call of `collect` gives the journal events from the cursor to a new position, or none. -/
theorem CaughtUp.collected (h : CaughtUp seq journal stream pos d) (hj : Numbered seq journal)
    (hd : d < 2 ^ 64 - 1) {r : Collected WireEvent × ℕ}
    (hr : collect seq stream pos window (succU64 d) = r) :
    r.1 = .streamEnded ∨ (r.1 = .idle ∧ CaughtUp seq journal stream r.2 d) ∨
      ∃ e, d < e ∧ e ≤ journal.length ∧ r.1 = .events ((journal.drop d).take (e - d)) ∧
        ((journal.drop d).take (e - d)).length ≤ maxBatch ∧
        CaughtUp seq journal stream r.2 e := by
  subst hr
  unfold collect
  cases hs : stream pos with
  | none => exact Or.inl rfl
  | some ev =>
    right
    have hpulled : ∀ e, e ∈ (pull stream window (pos + 1) [ev]).1 ↔
        ∃ n, pos ≤ n ∧ n < (pull stream window (pos + 1) [ev]).2 ∧ stream n = some e := by
      intro e
      rw [mem_pull, List.mem_singleton]
      constructor
      · rintro (rfl | ⟨n, hle, hlt, hn⟩)
        · exact ⟨pos, le_rfl, le_pull, hs⟩
        · exact ⟨n, Nat.le_of_succ_le hle, hlt, hn⟩
      · rintro ⟨n, hle, hlt, hn⟩
        rcases Nat.lt_or_eq_of_le hle with hlt' | rfl
        · exact Or.inr ⟨n, hlt', hlt, hn⟩
        · exact Or.inl (Option.some.inj (hs ▸ hn)).symm
    have hlen : (pull stream window (pos + 1) [ev]).1.length ≤ maxBatch :=
      length_pull_le (Nat.le_of_ble_eq_true rfl)
    have hchunk := h.chunk hpulled
    simp only [succU64_of_lt hd]
    generalize pull stream window (pos + 1) [ev] = r at *
    obtain ⟨pulled, pos'⟩ := r
    simp only at hpulled hlen hchunk ⊢
    by_cases hempty : pulled.filter (fun e => d + 1 ≤ seq e) = []
    · left
      rw [hempty]
      refine ⟨rfl, h.advance le_rfl ?_⟩
      intro n hle hlt e he
      have hmem := List.filter_eq_nil_iff.mp hempty e ((hpulled e).mpr ⟨n, hle, hlt, he⟩)
      exact Nat.le_of_lt_succ (by simpa using hmem)
    · right
      obtain ⟨z, hz, hdz, hmax, heq⟩ := hchunk.reassemble hj hempty
      have hzlen : seq z ≤ journal.length := hj.key_le_length (hchunk.mem_log z hz)
      rw [List.isEmpty_eq_false_iff.mpr hempty]
      refine ⟨seq z, hdz, hzlen, ?_, ?_, h.advance hdz.le ?_⟩
      · rw [← heq]
        rfl
      · rw [← heq]
        exact (length_dedupByKey_sortByKey_le _ _).trans
          ((List.length_filter_le _ _).trans hlen)
      · intro n hle hlt e he
        rcases Nat.lt_or_ge d (seq e) with hlt' | hge
        · exact hmax e (List.mem_filter.mpr ⟨(hpulled e).mpr ⟨n, hle, hlt, he⟩,
            decide_eq_true hlt'⟩)
        · exact hge.trans hdz.le

end Collect

/-! ## The messages sent -/

section Sent

variable {seq} {journal : List WireEvent} {applied d e : ℕ} {sent : List (PumpMessage WireEvent)}
  {msg : PumpMessage WireEvent}

theorem delivered_concat : delivered (sent ++ [msg]) = delivered sent ++ msg.events := by
  simp [delivered]

theorem ExactlyOnce.nil (journal : List WireEvent) (applied : ℕ) :
    ExactlyOnce seq journal applied [] where
  delivered_eq := by simp [delivered, lastDelivered]
  truthful := by simp

theorem ExactlyOnce.concat (h : ExactlyOnce seq journal applied sent)
    (hmsg : Truthful seq applied sent msg)
    (heq : delivered (sent ++ [msg]) =
      (journal.drop applied).take (lastDelivered seq applied (sent ++ [msg]) - applied)) :
    ExactlyOnce seq journal applied (sent ++ [msg]) := by
  refine ⟨heq, ?_⟩
  intro before msg' after hsplit
  rcases List.eq_nil_or_concat after with rfl | ⟨after, last, rfl⟩
  · obtain ⟨rfl, hlast⟩ := List.append_inj' hsplit rfl
    obtain rfl : msg = msg' := by simpa using hlast
    exact hmsg
  · rw [List.concat_eq_append, ← List.cons_append, ← List.append_assoc] at hsplit
    obtain ⟨hsplit, -⟩ := List.append_inj' hsplit rfl
    exact h.truthful before msg' after hsplit

theorem ExactlyOnce.notice (h : ExactlyOnce seq journal applied sent) (hevents : msg.events = [])
    (hmsg : Truthful seq applied sent msg) :
    ExactlyOnce seq journal applied (sent ++ [msg]) ∧
      lastDelivered seq applied (sent ++ [msg]) = lastDelivered seq applied sent := by
  have hsame : delivered (sent ++ [msg]) = delivered sent := by
    rw [delivered_concat, hevents, List.append_nil]
  have hlast : lastDelivered seq applied (sent ++ [msg]) = lastDelivered seq applied sent := by
    rw [lastDelivered, hsame, lastDelivered]
  exact ⟨h.concat hmsg (by rw [hsame, hlast, h.delivered_eq]), hlast⟩

theorem ExactlyOnce.applied_le (h : ExactlyOnce seq journal applied sent)
    (hj : Numbered seq journal) : applied ≤ lastDelivered seq applied sent := by
  rw [lastDelivered]
  cases hlast : (delivered sent).getLast? with
  | none => exact le_rfl
  | some e =>
    have he : e ∈ delivered sent := List.mem_of_getLast? hlast
    rw [h.delivered_eq, hj.mem_slice] at he
    exact he.2.1.le

/-- A batch of the journal events from the cursor to `e` moves the cursor to `e`. -/
theorem ExactlyOnce.batch (h : ExactlyOnce seq journal applied sent)
    (hj : Numbered seq journal) (hd : d = lastDelivered seq applied sent) (hde : d < e)
    (he : e ≤ journal.length) (hlen : ((journal.drop d).take (e - d)).length ≤ maxBatch) :
    ExactlyOnce seq journal applied
        (sent ++ [.batch ⟨d + 1, e, (journal.drop d).take (e - d), false⟩]) ∧
      lastDelivered seq applied
        (sent ++ [.batch ⟨d + 1, e, (journal.drop d).take (e - d), false⟩]) = e := by
  obtain ⟨hhead, hlast⟩ := hj.keys_slice hde he
  have hne : (journal.drop d).take (e - d) ≠ [] := by
    intro hnil
    rw [hnil] at hhead
    cases hhead
  have happlied : applied ≤ d := hd ▸ h.applied_le hj
  have hdelivered : delivered (sent ++ [.batch ⟨d + 1, e, (journal.drop d).take (e - d), false⟩]) =
      delivered sent ++ (journal.drop d).take (e - d) := delivered_concat
  have hlastSent : lastDelivered seq applied
      (sent ++ [.batch ⟨d + 1, e, (journal.drop d).take (e - d), false⟩]) = e := by
    rw [lastDelivered, hdelivered, List.getLast?_append_of_ne_nil _ hne, hlast]
    rfl
  refine ⟨h.concat ⟨hne, hlen, hhead, hlast, rfl⟩ ?_, hlastSent⟩
  rw [hlastSent, hdelivered, h.delivered_eq, ← hd]
  have hsum : e - applied = (d - applied) + (e - d) := by omega
  rw [hsum, List.take_add, List.drop_drop, Nat.add_sub_cancel' happlied]

theorem lastDelivered_of_slice (hj : Numbered seq journal) {k : ℕ}
    (hk : k ≤ journal.length - applied)
    (h : delivered sent = (journal.drop applied).take k) :
    lastDelivered seq applied sent = applied + k := by
  rw [lastDelivered, h]
  rcases Nat.eq_zero_or_pos k with rfl | hpos
  · rfl
  · have hlast := (hj.keys_slice (d := applied) (e := applied + k) (by omega) (by omega)).2
    rw [Nat.add_sub_cancel_left] at hlast
    rw [hlast, Option.getD_some]

theorem ExactlyOnce.of_append (hj : Numbered seq journal)
    {before after : List (PumpMessage WireEvent)}
    (h : ExactlyOnce seq journal applied (before ++ after)) :
    ExactlyOnce seq journal applied before := by
  have hprefix : delivered before <+: (journal.drop applied).take
      (lastDelivered seq applied (before ++ after) - applied) := by
    rw [← h.delivered_eq]
    exact ⟨delivered after, by simp [delivered]⟩
  have hprefix' := hprefix.trans (List.take_prefix _ _)
  have heq := List.prefix_iff_eq_take.mp hprefix'
  have hlen : (delivered before).length ≤ journal.length - applied :=
    hprefix'.length_le.trans_eq List.length_drop
  have hlast := lastDelivered_of_slice hj hlen heq
  refine ⟨by rw [hlast, Nat.add_sub_cancel_left]; exact heq, ?_⟩
  rintro before' msg after' rfl
  exact h.truthful before' msg (after' ++ after) (by simp)

theorem ExactlyOnce.batch_seqs (hj : Numbered seq journal)
    {before after : List (PumpMessage WireEvent)} {b : EventBatch WireEvent}
    (h : ExactlyOnce seq journal applied (before ++ .batch b :: after)) :
    lastDelivered seq applied (before ++ [.batch b]) = b.lastSeq ∧
      lastDelivered seq applied before < b.lastSeq ∧
      ∀ k, k ∈ b.events.map seq ↔ lastDelivered seq applied before < k ∧ k ≤ b.lastSeq := by
  have hbefore : ExactlyOnce seq journal applied before := h.of_append hj
  have hthrough : ExactlyOnce seq journal applied (before ++ [.batch b]) := by
    rw [List.append_cons] at h
    exact h.of_append hj
  obtain ⟨hne, -, -, hlast, -⟩ := h.truthful before (.batch b) after rfl
  have hevents : delivered (before ++ [.batch b]) = delivered before ++ b.events :=
    delivered_concat
  have hend : lastDelivered seq applied (before ++ [.batch b]) = b.lastSeq := by
    rw [lastDelivered, hevents, List.getLast?_append_of_ne_nil _ hne, hlast, Option.getD_some]
  have heq := hthrough.delivered_eq
  rw [hevents, hend] at heq
  obtain ⟨z, hz, hzlast⟩ := Option.map_eq_some_iff.mp hlast
  have hzmem : z ∈ b.events := List.mem_of_getLast? hz
  have hzslice : z ∈ (journal.drop applied).take (b.lastSeq - applied) :=
    heq ▸ List.mem_append_right _ hzmem
  obtain ⟨hzj, hza, -⟩ := (hj.mem_slice _).mp hzslice
  have hlt : lastDelivered seq applied before < b.lastSeq := by
    rw [lastDelivered]
    cases hprev : (delivered before).getLast? with
    | none => exact hzlast ▸ hza
    | some y =>
      have hpair : (delivered before ++ b.events).Pairwise fun x y => seq x < seq y := by
        rw [heq]
        exact hj.pairwise.sublist ((List.take_sublist _ _).trans (List.drop_sublist _ _))
      rw [← hzlast]
      exact (List.pairwise_append.mp hpair).2.2 y (List.mem_of_getLast? hprev) z hzmem
  have happlied := hbefore.applied_le hj
  have hsum : b.lastSeq - applied = (lastDelivered seq applied before - applied) +
      (b.lastSeq - lastDelivered seq applied before) := by omega
  rw [hsum, List.take_add, List.drop_drop, Nat.add_sub_cancel' happlied,
    ← hbefore.delivered_eq] at heq
  refine ⟨hend, hlt, fun k => ?_⟩
  rw [List.append_cancel_left heq]
  exact hj.mem_keys_slice (hzlast ▸ hj.key_le_length hzj)

/-- A batch is the slice of the journal from the last number delivered before it to its own. -/
theorem ExactlyOnce.batch_eq (hj : Numbered seq journal)
    {before after : List (PumpMessage WireEvent)} {b : EventBatch WireEvent}
    (h : ExactlyOnce seq journal applied (before ++ .batch b :: after))
    (hd : lastDelivered seq applied before = d) :
    b.lastSeq ≤ journal.length ∧
      b = ⟨d + 1, b.lastSeq, (journal.drop d).take (b.lastSeq - d), false⟩ := by
  subst hd
  obtain ⟨hend, hlt, -⟩ := h.batch_seqs hj
  obtain ⟨-, -, hhead, hlast, hgap⟩ := h.truthful before (.batch b) after rfl
  have hbefore : ExactlyOnce seq journal applied before := h.of_append hj
  have hthrough : ExactlyOnce seq journal applied (before ++ [.batch b]) := by
    rw [List.append_cons] at h
    exact h.of_append hj
  have happlied := hbefore.applied_le hj
  have hsum : b.lastSeq - applied = (lastDelivered seq applied before - applied) +
      (b.lastSeq - lastDelivered seq applied before) := by omega
  have heq := hthrough.delivered_eq
  rw [delivered_concat, hend, hsum, List.take_add, List.drop_drop, Nat.add_sub_cancel' happlied,
    ← hbefore.delivered_eq] at heq
  have hevents : b.events = (journal.drop (lastDelivered seq applied before)).take
      (b.lastSeq - lastDelivered seq applied before) := List.append_cancel_left heq
  have hle : b.lastSeq ≤ journal.length := by
    obtain ⟨z, hz, hzlast⟩ := Option.map_eq_some_iff.mp hlast
    have hzmem : z ∈ b.events := List.mem_of_getLast? hz
    rw [hevents, hj.mem_slice] at hzmem
    exact hzlast ▸ hj.key_le_length hzmem.1
  rw [hevents, (hj.keys_slice hlt hle).1] at hhead
  refine ⟨hle, ?_⟩
  obtain ⟨first, last, events, gap⟩ := b
  cases hhead
  cases hgap
  exact congrArg (EventBatch.mk _ _ · _) hevents

end Sent

/-! ## Every run of the pump -/

section Runs

variable {seq} {journal : List WireEvent} {applied : ℕ} {p q : Pump WireEvent}

theorem pumpInv_start (journal : List WireEvent) (happlied : applied < 2 ^ 64 - 1) :
    PumpInv seq journal applied (Pump.start applied) where
  exactly := ExactlyOnce.nil journal applied
  noPanic := nofun
  cursor _ := rfl
  bound := happlied
  caughtUp := nofun

theorem PumpInv.send_notice (h : PumpInv seq journal applied p) {msg : PumpMessage WireEvent}
    {next : PumpPc WireEvent} (sendOk : Bool) (hevents : msg.events = [])
    (hmsg : Truthful seq applied p.sent msg) (hpc : p.pc ≠ .returned) (hnext : next ≠ .panicked)
    (hcaught : ∀ stream pos, next = .collecting stream pos →
      CaughtUp seq journal stream pos p.deliveredLast) :
    PumpInv seq journal applied (p.send msg sendOk next) := by
  obtain ⟨hexact, hlast⟩ := h.exactly.notice hevents hmsg
  cases sendOk with
  | true => exact ⟨hexact, hnext, fun _ => (h.cursor hpc).trans hlast.symm, h.bound, hcaught⟩
  | false => exact ⟨h.exactly, nofun, fun hne => absurd rfl hne, h.bound, nofun⟩

theorem PumpInv.goto (h : PumpInv seq journal applied p) {next : PumpPc WireEvent}
    (hpc : p.pc ≠ .returned) (hnext : next ≠ .panicked)
    (hcaught : ∀ stream pos, next = .collecting stream pos →
      CaughtUp seq journal stream pos p.deliveredLast) :
    PumpInv seq journal applied { p with pc := next } :=
  ⟨h.exactly, hnext, fun _ => h.cursor hpc, h.bound, hcaught⟩

theorem PumpInv.deliver (h : PumpInv seq journal applied p) (hj : Numbered seq journal)
    (hlen : journal.length < 2 ^ 64 - 1) {stream : BoxStream WireEvent} {pos e : ℕ}
    (sendOk : Bool) (hpc : p.pc ≠ .returned) (hde : p.deliveredLast < e)
    (he : e ≤ journal.length)
    (hmax : ((journal.drop p.deliveredLast).take (e - p.deliveredLast)).length ≤ maxBatch)
    (hcaught : CaughtUp seq journal stream pos e) :
    PumpInv seq journal applied (p.deliver seq
      ((journal.drop p.deliveredLast).take (e - p.deliveredLast)) sendOk
      (.collecting stream pos)) := by
  obtain ⟨hhead, hlast⟩ := hj.keys_slice hde he
  obtain ⟨hexact, hcursor⟩ := h.exactly.batch hj (h.cursor hpc) hde he hmax
  have hgap : decide (p.deliveredLast + 1 ≠ succU64 p.deliveredLast) = false := by
    rw [succU64_of_lt h.bound]
    exact decide_eq_false (not_not.mpr rfl)
  rw [Pump.deliver, hhead, hlast]
  simp only [hgap]
  cases sendOk with
  | true =>
    refine ⟨hexact, nofun, fun _ => hcursor.symm, he.trans_lt hlen, ?_⟩
    rintro _ _ ⟨⟩
    exact hcaught
  | false => exact ⟨h.exactly, nofun, fun hne => absurd rfl hne, he.trans_lt hlen, nofun⟩

theorem PumpInv.step (hj : Numbered seq journal) (hlen : journal.length < 2 ^ 64 - 1) :
    Machine.Preserves (pumpLoop seq) (ServedGapFree seq journal)
      (PumpInv seq journal applied) := by
  intro p a q h hserved hstep
  have hrun {pc : PumpPc WireEvent} (hpc : p.pc = pc) (hne : pc ≠ .returned) :
      p.pc ≠ .returned := hpc ▸ hne
  have hfresh {stream : BoxStream WireEvent} (hserved : GapFree seq journal p.deliveredLast stream) :
      ∀ stream' pos, PumpPc.collecting stream 0 = .collecting stream' pos →
        CaughtUp seq journal stream' pos p.deliveredLast := by
    rintro _ _ ⟨⟩
    exact ⟨⟨p.deliveredLast, le_rfl, hserved⟩, fun n hn => absurd hn (Nat.not_lt_zero n)⟩
  cases pumped_of_pumpLoop seq hstep with
  | connected hpc hfirst =>
    exact ⟨h.exactly, nofun, fun _ => h.cursor (hrun hpc nofun), h.bound, hfresh hserved⟩
  | @reconnected stream sendOk hpc hfirst =>
    exact h.send_notice sendOk rfl (h.cursor (hrun hpc nofun)) (hrun hpc nofun) nofun
      (hfresh hserved)
  | @collected window pos pos' sendOk stream events hpc hr =>
    rcases (h.caughtUp stream pos hpc).collected hj h.bound hr with
      hend | ⟨hidle, -⟩ | ⟨e, hde, he, hevents, hmax, hcaught⟩
    · cases hend
    · cases hidle
    · cases hevents
      exact h.deliver hj hlen sendOk (hrun hpc nofun) hde he hmax hcaught
  | @idle window pos pos' sendOk stream hpc hr =>
    rcases (h.caughtUp stream pos hpc).collected hj h.bound hr with
      hend | ⟨-, hcaught⟩ | ⟨e, -, -, hevents, -⟩
    · cases hend
    · refine h.goto (hrun hpc nofun) nofun ?_
      rintro _ _ ⟨⟩
      exact hcaught
    · cases hevents
  | ended hpc hr => exact h.goto (hrun hpc nofun) nofun nofun
  | probed hpc hprobe => exact h.goto (hrun hpc nofun) nofun nofun
  | @closed probe sendOk hpc hprobe =>
    exact h.send_notice sendOk rfl (h.cursor (hrun hpc nofun)) (hrun hpc nofun) nofun nofun

/-- Every way the streams end, the window and the cap cut them and the probes turn out: the
batches sent are the journal from `applied` on, each message is truthful, and nothing the current
stream has yielded is left out. -/
theorem pump_exactly_once (hj : Numbered seq journal) (hlen : journal.length < 2 ^ 64 - 1)
    (happlied : applied < 2 ^ 64 - 1) {as : List (PumpAction WireEvent)}
    (hrun : Machine.run (pumpLoop seq) (Pump.start applied) as = some p)
    (hserved : Machine.Guarded (pumpLoop seq) (ServedGapFree seq journal)
      (Pump.start applied) as) :
    ExactlyOnce seq journal applied p.sent ∧
      ∀ stream pos, p.pc = .collecting stream pos → ∀ n < pos, ∀ e, stream n = some e →
        seq e ≤ lastDelivered seq applied p.sent := by
  have h := (PumpInv.step hj hlen).run (pumpInv_start journal happlied) hserved hrun
  refine ⟨h.exactly, fun stream pos hpc n hn e he => ?_⟩
  rw [← h.cursor (by rw [hpc]; nofun)]
  exact (h.caughtUp stream pos hpc).passed n hn e he

/-- A stream that yields the items of a list and then ends. -/
def streamOf (items : List WireEvent) : BoxStream WireEvent := fun n => items[n]?

theorem gapFree_streamOf {items : List WireEvent} {since : ℕ}
    (h : ∀ i : Fin items.length, since < seq items[i] → items[i] ∈ journal ∧
      ∀ e ∈ journal, since < seq e → seq e < seq items[i] →
        ∃ j : Fin items.length, j < i ∧ items[j] = e) :
    GapFree seq journal since (streamOf items) where
  mem_journal {n e} hn hlt := by
    obtain ⟨hi, rfl⟩ := List.getElem?_eq_some_iff.mp hn
    exact (h ⟨n, hi⟩ hlt).1
  before {n e} hn e' he' hlt' hlt := by
    obtain ⟨hi, rfl⟩ := List.getElem?_eq_some_iff.mp hn
    obtain ⟨j, hj, rfl⟩ := (h ⟨n, hi⟩ (hlt'.trans hlt)).2 e' he' hlt' hlt
    exact ⟨j, hj, List.getElem?_eq_getElem j.isLt⟩

/-- A repeated event, a stream that ends, and a second stream that starts before its cursor. -/
def resumedRun : List (PumpAction ℕ) :=
  [.subscribe (streamOf [1, 1, 2]) true, .collect 5 true, .collect 5 true,
    .reconnect (fun _ => .event) true, .subscribe (streamOf [2, 3]) true, .collect 0 true,
    .collect 0 true]

def resumedPump : Pump ℕ where
  deliveredLast := 3
  firstConnect := false
  pc := .collecting (streamOf [2, 3]) 2
  sent := [.batch ⟨1, 2, [1, 2], false⟩, .reconnected 2, .batch ⟨3, 3, [3], false⟩]

theorem pump_exactly_once_resumed :
    ExactlyOnce id [1, 2, 3] 0 resumedPump.sent ∧
      ∀ stream pos, resumedPump.pc = .collecting stream pos → ∀ n < pos, ∀ e, stream n = some e →
        id e ≤ lastDelivered id 0 resumedPump.sent := by
  have hrun : Machine.run (pumpLoop id) (Pump.start 0) resumedRun = some resumedPump := rfl
  refine pump_exactly_once (by decide) (by decide) (by decide) hrun ?_
  have hfirst : GapFree id [1, 2, 3] 0 (streamOf [1, 1, 2]) := gapFree_streamOf (by decide)
  have hsecond : GapFree id [1, 2, 3] 2 (streamOf [2, 3]) := gapFree_streamOf (by decide)
  exact .cons hfirst rfl <| .cons trivial rfl <| .cons trivial rfl <| .cons trivial rfl <|
    .cons hsecond rfl <| .cons trivial rfl <| .cons trivial rfl trivial

end Runs

end ValyriaApp.Bridge
