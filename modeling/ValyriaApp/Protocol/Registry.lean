import ValyriaApp.Protocol.Json

/-! # The event-payload decoder registry

Every wire event passes the envelope schema and then the payload decoder of its
kind. Decoders only check: they are permissive, keep unknown fields and return
the payload unchanged. An event that fails either check survives as a raw one.
-/

namespace ValyriaApp

/-- The event kinds Core emits. -/
inductive EventKind where
  | approvalRequested | artifactPublished | contextRetrieved
  | engineInstallCompleted | engineInstallFailed | engineInstallProgress
  | externalChangeDetected | fileChanged | memoryWritten
  | modelCompleted | modelEvicted
  | modelInstallCompleted | modelInstallFailed | modelInstallProgress
  | modelLoaded
  | modelServerFailed | modelServerReady | modelServerStarting | modelServerStopped
  | modelStarted | planCheckpoint | planCreated | progressStalled | resourcePressure
  | stateChanged | subtaskCompleted | subtaskStarted
  | taskCompleted | taskFailed | taskPaused | taskStarted
  | testFailed | testPassed | testStarted
  | toolCompleted | toolStarted | verificationEvidence
  deriving DecidableEq

namespace EventKind

/-- The name of the kind on the wire. -/
def name : EventKind → String
  | approvalRequested => "approval_requested"
  | artifactPublished => "artifact_published"
  | contextRetrieved => "context_retrieved"
  | engineInstallCompleted => "engine_install_completed"
  | engineInstallFailed => "engine_install_failed"
  | engineInstallProgress => "engine_install_progress"
  | externalChangeDetected => "external_change_detected"
  | fileChanged => "file_changed"
  | memoryWritten => "memory_written"
  | modelCompleted => "model_completed"
  | modelEvicted => "model_evicted"
  | modelInstallCompleted => "model_install_completed"
  | modelInstallFailed => "model_install_failed"
  | modelInstallProgress => "model_install_progress"
  | modelLoaded => "model_loaded"
  | modelServerFailed => "model_server_failed"
  | modelServerReady => "model_server_ready"
  | modelServerStarting => "model_server_starting"
  | modelServerStopped => "model_server_stopped"
  | modelStarted => "model_started"
  | planCheckpoint => "plan_checkpoint"
  | planCreated => "plan_created"
  | progressStalled => "progress_stalled"
  | resourcePressure => "resource_pressure"
  | stateChanged => "state_changed"
  | subtaskCompleted => "subtask_completed"
  | subtaskStarted => "subtask_started"
  | taskCompleted => "task_completed"
  | taskFailed => "task_failed"
  | taskPaused => "task_paused"
  | taskStarted => "task_started"
  | testFailed => "test_failed"
  | testPassed => "test_passed"
  | testStarted => "test_started"
  | toolCompleted => "tool_completed"
  | toolStarted => "tool_started"
  | verificationEvidence => "verification_evidence"

/-- `KNOWN_EVENT_KINDS`. -/
def known : List EventKind :=
  [approvalRequested, artifactPublished, contextRetrieved, engineInstallCompleted,
    engineInstallFailed, engineInstallProgress, externalChangeDetected, fileChanged,
    memoryWritten, modelCompleted, modelEvicted, modelInstallCompleted, modelInstallFailed,
    modelInstallProgress, modelLoaded, modelServerFailed, modelServerReady, modelServerStarting,
    modelServerStopped, modelStarted, planCheckpoint, planCreated, progressStalled,
    resourcePressure, stateChanged, subtaskCompleted, subtaskStarted, taskCompleted, taskFailed,
    taskPaused, taskStarted, testFailed, testPassed, testStarted, toolCompleted, toolStarted,
    verificationEvidence]

end EventKind

/-- The kind with the given wire name, if it has a decoder. -/
def hasDecoder (kind : String) : Option EventKind :=
  EventKind.known.find? fun k => k.name = kind

theorem name_of_hasDecoder {kind : String} {k : EventKind} (h : hasDecoder kind = some k) :
    k.name = kind := by
  simpa using List.find?_some h

/-- Every known kind is found under its own name: no two kinds share one. -/
theorem hasDecoder_name (k : EventKind) : hasDecoder k.name = some k := by
  cases k <;> decide

/-- Whether `safeParse` succeeds; the argument is `none` for `undefined`. -/
abbrev Decoder := Option Json → Bool

namespace Decoder

def unknown : Decoder := fun _ => true

def string : Decoder
  | some (.str _) => true
  | _ => false

def number : Decoder
  | some (.num .nan) => false
  | some (.num _) => true
  | _ => false

def boolean : Decoder
  | some (.bool _) => true
  | _ => false

def optional (d : Decoder) : Decoder
  | none => true
  | v => d v

def nullable (d : Decoder) : Decoder
  | some .null => true
  | v => d v

def array (d : Decoder) : Decoder
  | some (.arr xs) => xs.all fun x => d (some x)
  | _ => false

/-- `z.object(fields).passthrough()`. -/
def object (fields : List (String × Decoder)) : Decoder
  | some (.obj kvs) => fields.all fun f => f.2 ((Json.obj kvs).get? f.1)
  | _ => false

def union (d e : Decoder) : Decoder := fun v => d v || e v

/-- `z.string().optional()` under each of the names. -/
def strings (names : List String) : List (String × Decoder) :=
  names.map fun n => (n, optional string)

def numbers (names : List String) : List (String × Decoder) :=
  names.map fun n => (n, optional number)

theorem object_isObj {fields : List (String × Decoder)} {v : Option Json}
    (h : object fields v = true) : ∃ kvs, v = some (.obj kvs) := by
  match v, h with
  | some (.obj kvs), _ => exact ⟨kvs, rfl⟩

end Decoder

open Decoder in
/-- The parsed failures a verification result carries. -/
def failuresDecoder : Decoder :=
  array (object (strings ["kind", "message"] ++
    [("failing_test", optional (nullable string)),
      ("location", optional (array (object
        (strings ["path"] ++ [("line", optional (nullable number))]))))]))

open Decoder EventKind in
/-- The per-kind payload decoders. -/
def payloadDecoders : EventKind → Decoder
  | approvalRequested =>
    object (strings ["request_id", "prompt", "tool", "category", "target", "risk"])
  | contextRetrieved =>
    object ([("items", optional (array (object (strings ["path", "reason", "trust_level"] ++
      numbers ["tokens"] ++ [("score", optional (nullable number))]))))] ++
      numbers ["budget_used", "budget_total"])
  | planCheckpoint => object (strings ["checkpoint_id", "step_id"])
  | modelInstallProgress =>
    object (strings ["id", "phase"] ++ numbers ["downloaded_bytes", "total_bytes"])
  | modelInstallCompleted => object (strings ["id"] ++ numbers ["size_bytes"])
  | modelInstallFailed => object (strings ["id", "code", "message"])
  | engineInstallProgress =>
    object (strings ["component", "version", "phase"] ++
      numbers ["downloaded_bytes", "total_bytes"])
  | engineInstallCompleted => object (strings ["component", "version"])
  | engineInstallFailed => object (strings ["component", "version", "code", "message"])
  | modelServerStarting => object (strings ["role", "id"])
  | modelServerReady => object (strings ["role", "id"] ++ numbers ["port"])
  | modelServerFailed => object (strings ["role", "id", "code", "message"])
  | modelServerStopped => object (strings ["role", "id", "reason"])
  | modelLoaded => object (strings ["id"] ++ numbers ["footprint_bytes"])
  | modelEvicted => object (strings ["id", "reason"])
  | externalChangeDetected => object [("paths", optional (array string))]
  | fileChanged =>
    object (strings ["path", "change", "checkpoint_id"] ++
      [("reverted", optional (array string))])
  | memoryWritten => object []
  | modelCompleted => object (strings ["finish_reason", "text"])
  | modelStarted => object (numbers ["turn_index"])
  | planCreated => object (numbers ["revision"] ++ [("steps", optional (array unknown))])
  | progressStalled => object (strings ["reason"])
  | resourcePressure => object []
  | stateChanged => object (strings ["from", "to"])
  | subtaskStarted => object (strings ["child_task_id", "objective"])
  | subtaskCompleted => object (strings ["child_task_id", "final_state"])
  | artifactPublished => object (strings ["role", "kind"])
  | taskCompleted => object []
  | taskFailed => object (strings ["reason"])
  | taskPaused => object []
  | taskStarted => object (strings ["objective"])
  | testFailed =>
    object (strings ["command"] ++ [("passed", optional boolean)] ++ strings ["outcome"] ++
      numbers ["exit_code", "failure_count"] ++ strings ["run_id", "digest"] ++
      [("failures", optional failuresDecoder)] ++ strings ["summary"])
  | testPassed =>
    object (strings ["command"] ++ [("passed", optional boolean)] ++ strings ["outcome"] ++
      numbers ["exit_code", "failure_count"] ++ strings ["run_id", "digest"])
  | testStarted => object (strings ["command", "kind", "tier", "rationale"])
  | toolCompleted =>
    object (strings ["tool"] ++ [("success", optional boolean)] ++
      strings ["tool_invocation_id", "tool_record_id"] ++
      [("exit_code", optional (nullable number)), ("stdout", optional (nullable string)),
        ("stderr", optional (nullable string))] ++
      numbers ["duration_ms"] ++ strings ["rendered"])
  | toolStarted =>
    object (strings ["tool", "tool_invocation_id"] ++
      [("input", optional (union (object (strings ["program"] ++
        [("args", optional (array string))] ++ strings ["path"])) unknown))])
  | verificationEvidence =>
    object ([("passed", optional boolean)] ++ strings ["command", "kind", "outcome"] ++
      numbers ["exit_code", "failure_count"] ++ strings ["run_id", "digest"] ++
      [("failures", optional failuresDecoder)])

theorem payload_isObj {k : EventKind} {v : Option Json} (h : payloadDecoders k v = true) :
    ∃ kvs, v = some (.obj kvs) := by
  cases k <;> exact Decoder.object_isObj h

/-- The transport-level envelope of an event. -/
structure WireEvent where
  kind : String
  seq : Num
  tsMs : Num
  taskId : Option String
  payload : Option Json

/-- `z.string().nullable().optional()`, with `null` and `undefined` read alike. -/
def parseTaskId : Option Json → Option (Option String)
  | none => some none
  | some .null => some none
  | some (.str s) => some (some s)
  | _ => none

def nonnegative? (n : Num) : Option Num := if n = .nan ∨ n < 0 then none else some n

/-- `wireEventEnvelope.safeParse`. -/
def wireEventEnvelope (raw : Json) : Option WireEvent :=
  match raw with
  | .obj _ => do
    let kind ← (raw.get? "kind").bind Json.str?
    let seq ← ((raw.get? "seq").bind Json.num?).bind nonnegative?
    guard seq.isInteger
    let tsMs ← ((raw.get? "ts_ms").bind Json.num?).bind nonnegative?
    let taskId ← parseTaskId (raw.get? "task_id")
    return { kind, seq, tsMs, taskId, payload := raw.get? "payload" }
  | _ => none

inductive DecodeFailure where
  | unknownKind | badEnvelope | badPayload
  deriving DecidableEq

inductive EventBody where
  | ok (kind : EventKind) (payload : Option Json)
  | failed (reason : DecodeFailure) (kind : String) (raw : Option Json)

structure DecodedEvent where
  seq : Num
  ts : Num
  taskId : Option String
  body : EventBody

/-- `value ?? fallback`, where `value` may also be `undefined`. -/
def nullish (fallback : Json) : Option Json → Json
  | none => fallback
  | some .null => fallback
  | some v => v

def decodePayload (env : WireEvent) : EventBody :=
  match hasDecoder env.kind with
  | none => .failed .unknownKind env.kind env.payload
  | some kind =>
    if payloadDecoders kind env.payload then .ok kind env.payload
    else .failed .badPayload env.kind env.payload

/-- Decode one wire event tolerantly. -/
def decodeEvent (raw : Json) : DecodedEvent :=
  match wireEventEnvelope raw with
  | none =>
    { seq := (nullish (.num (.fin (-1))) (raw.get? "seq")).toNumber
      ts := (nullish (.num 0) (raw.get? "ts_ms")).toNumber
      taskId := none
      body := .failed .badEnvelope (((raw.get? "kind").bind Json.str?).getD "?") (some raw) }
  | some env =>
    { seq := env.seq
      ts := env.tsMs
      taskId := env.taskId
      body := decodePayload env }

/-- A raw event whose envelope is valid and carries the given sequence number. -/
def CarriesSeq (n : ℕ) (raw : Json) : Prop := ∃ env ∈ wireEventEnvelope raw, env.seq = n

instance (n : ℕ) (raw : Json) : Decidable (CarriesSeq n raw) :=
  inferInstanceAs (Decidable (∃ env ∈ wireEventEnvelope raw, _))

theorem CarriesSeq.decodeEvent_seq {n : ℕ} {raw : Json} (h : CarriesSeq n raw) :
    (decodeEvent raw).seq = n := by
  obtain ⟨env, henv, hseq⟩ := h
  rw [Option.mem_def] at henv
  simp only [decodeEvent, henv, hseq]

theorem nat_of_integer {n seq : Num} (h : nonnegative? n = some seq) (hint : seq.isInteger = true) :
    ∃ k : ℕ, seq = k := by
  unfold nonnegative? at h
  split at h
  · exact nomatch h
  · rename_i hneg
    obtain rfl := Option.some.inj h
    cases n with
    | nan => exact nomatch hint
    | inf => exact nomatch hint
    | fin q =>
      have hq : 0 ≤ q := by
        by_contra hlt
        refine hneg (.inr ?_)
        show decide (q < ((0 : ℕ) : ℚ)) = true
        simpa using hlt
      have hnum : 0 ≤ q.num := Rat.num_nonneg.mpr hq
      refine ⟨q.num.toNat, ?_⟩
      rw [Num.natCast_def, Num.fin.injEq]
      calc q = (q.num : ℚ) := Rat.eq_num_of_isInt hint
        _ = ((q.num.toNat : ℤ) : ℚ) := by rw [Int.toNat_of_nonneg hnum]
        _ = (q.num.toNat : ℚ) := Int.cast_natCast _

theorem toDouble_of_nonnegative? {json : Option Json} {seq : Num}
    (h : (json.bind Json.num?).bind nonnegative? = some seq) : seq.toDouble = seq := by
  obtain ⟨n, hn, hseq⟩ := Option.bind_eq_some_iff.mp h
  obtain ⟨json, -, hjson⟩ := Option.bind_eq_some_iff.mp hn
  unfold nonnegative? at hseq
  split at hseq
  · exact nomatch hseq
  · obtain rfl := Option.some.inj hseq
    cases json with
    | num m => exact Option.some.inj hjson ▸ m.toDouble_toDouble
    | _ => exact nomatch hjson

/-- The number in an envelope is a natural number, and a double. -/
theorem nat_of_envelope {raw : Json} {env : WireEvent} (h : wireEventEnvelope raw = some env) :
    ∃ n : ℕ, env.seq = n ∧ (n : Num).toDouble = n := by
  unfold wireEventEnvelope at h
  split at h
  · obtain ⟨kind, -, h⟩ := Option.bind_eq_some_iff.mp h
    obtain ⟨seq, hseq, h⟩ := Option.bind_eq_some_iff.mp h
    obtain ⟨u, hint, h⟩ := Option.bind_eq_some_iff.mp h
    obtain ⟨tsMs, -, h⟩ := Option.bind_eq_some_iff.mp h
    obtain ⟨taskId, -, henv⟩ := Option.bind_eq_some_iff.mp h
    obtain ⟨n, -, hn⟩ := Option.bind_eq_some_iff.mp hseq
    obtain ⟨k, rfl⟩ := nat_of_integer hn (by simpa using hint)
    exact ⟨k, congrArg WireEvent.seq (Option.some.inj henv).symm, toDouble_of_nonnegative? hseq⟩
  · exact nomatch h

theorem seq_nat_of_envelope {raw : Json} (h : (wireEventEnvelope raw).isSome) :
    ∃ n : ℕ, (decodeEvent raw).seq = n ∧ (n : Num).toDouble = n := by
  obtain ⟨env, henv⟩ := Option.isSome_iff_exists.mp h
  obtain ⟨n, hn, hdouble⟩ := nat_of_envelope henv
  exact ⟨n, by simp only [decodeEvent, henv, hn], hdouble⟩

theorem CarriesSeq.toDouble {n : ℕ} {raw : Json} (h : CarriesSeq n raw) :
    (n : Num).toDouble = n := by
  obtain ⟨env, henv, hseq⟩ := h
  obtain ⟨k, hk, hdouble⟩ := nat_of_envelope henv
  rwa [← Num.natCast_inj.mp (hseq.symm.trans hk)] at hdouble

/-- The number is also a safe integer, which `lastSeq + 1` counts past. An array has fewer than
`2 ^ 32` elements, so every number of a list that is counted from one is. -/
def CarriesSafeSeq (n : ℕ) (raw : Json) : Prop := n < 2 ^ 53 ∧ CarriesSeq n raw

instance (n : ℕ) (raw : Json) : Decidable (CarriesSafeSeq n raw) :=
  inferInstanceAs (Decidable (_ ∧ _))

/-- An event as the host forwards it: Core's own fields, one JSON object. -/
def coreEvent (seq : ℕ) (taskId : Option String) (tsMs : ℕ) (kind : String) (payload : Json) :
    Json :=
  .obj [("seq", .num seq), ("task_id", (taskId.map .str).getD .null), ("ts_ms", .num tsMs),
    ("kind", .str kind), ("payload", payload)]

theorem nonnegative?_natCast (n : ℕ) : nonnegative? (n : Num) = some (n : Num) := by
  rw [nonnegative?, if_neg]
  rintro (h | h)
  · exact Num.noConfusion h
  · exact Nat.not_lt_zero n (Num.natCast_lt.mp h)

theorem isInteger_natCast (n : ℕ) : (n : Num).isInteger = true := by
  simp [Num.isInteger, Rat.isInt]

theorem wireEventEnvelope_coreEvent {seq tsMs : ℕ} (hseq : seq ≤ 2 ^ 53) (hts : tsMs ≤ 2 ^ 53)
    (taskId : Option String) (kind : String) (payload : Json) :
    wireEventEnvelope (coreEvent seq taskId tsMs kind payload) =
      some { kind, seq, tsMs, taskId, payload := some payload } := by
  have htask : parseTaskId (some ((taskId.map Json.str).getD Json.null)) = some taskId := by
    cases taskId <;> rfl
  simp [wireEventEnvelope, coreEvent, Json.get?, Json.str?, Json.num?, nonnegative?_natCast,
    isInteger_natCast, htask, Num.toDouble_natCast hseq, Num.toDouble_natCast hts]

theorem carriesSeq_coreEvent {seq tsMs : ℕ} (hseq : seq ≤ 2 ^ 53) (hts : tsMs ≤ 2 ^ 53)
    (taskId : Option String) (kind : String) (payload : Json) :
    CarriesSeq seq (coreEvent seq taskId tsMs kind payload) :=
  ⟨_, wireEventEnvelope_coreEvent hseq hts .., rfl⟩

theorem carriesSafeSeq_coreEvent {seq tsMs : ℕ} (hseq : seq < 2 ^ 53) (hts : tsMs ≤ 2 ^ 53)
    (taskId : Option String) (kind : String) (payload : Json) :
    CarriesSafeSeq seq (coreEvent seq taskId tsMs kind payload) :=
  ⟨hseq, carriesSeq_coreEvent hseq.le hts ..⟩

end ValyriaApp
