import ValyriaApp.Extension.Views
import ValyriaApp.Lib.Related

/-! # Model text stays out of the narrative

Two traces that differ only in what a model wrote replay to stores that differ
only in the payloads of two kinds of rows, and no narrative surface reads those
fields. The traces are compared after blanking the text.
-/

namespace ValyriaApp

/-! ## Blanking model text -/

/-- The payload field of a kind that holds text a model wrote. -/
def hiddenField : String → Option String
  | "model_completed" => some "text"
  | "tool_completed" => some "rendered"
  | _ => none

def blank : Json → Json
  | .str _ => .str ""
  | v => v

def mapField (key : String) (g : Json → Json) (fields : List (String × Json)) :
    List (String × Json) :=
  fields.map fun f => if f.1 = key then (f.1, g f.2) else f

/-- Apply a function to the value under a key of an object. -/
def mapKey (key : String) (g : Json → Json) : Json → Json
  | .obj fields => .obj (mapField key g fields)
  | v => v

/-- Blank the text a model wrote in a raw event. -/
def redact (raw : Json) : Json :=
  match ((raw.get? "kind").bind Json.str?).bind hiddenField with
  | some hidden => mapKey "payload" (mapKey hidden blank) raw
  | none => raw

section MapKey

variable {key hidden : String} {g : Json → Json} {v : Json} {p : Option Json}

theorem get?_mapKey (key : String) (g : Json → Json) (v : Json) (k : String) :
    (mapKey key g v).get? k = if k = key then (v.get? k).map g else v.get? k := by
  cases v with
  | obj fields =>
    simp only [mapKey, mapField, Json.get?, List.find?_map]
    have hcomp : ((fun f : String × Json => decide (f.1 = k)) ∘
        fun f => if f.1 = key then (f.1, g f.2) else f) = fun f => decide (f.1 = k) := by
      funext f
      by_cases hf : f.1 = key <;> simp [hf]
    rw [hcomp]
    cases hfind : fields.find? fun f => decide (f.1 = k) with
    | none => simp
    | some f =>
      have hk : f.1 = k := by simpa using List.find?_some hfind
      by_cases hkey : k = key
      · simp [hk, hkey]
      · simp [hk, hkey]
  | _ => simp [mapKey, Json.get?]

theorem get?_mapKey_of_ne {k : String} (h : k ≠ key) : (mapKey key g v).get? k = v.get? k := by
  rw [get?_mapKey, if_neg h]

theorem field_mapKey_of_ne {k : String} (h : k ≠ key) :
    field (p.map (mapKey key g)) k = field p k := by
  cases p with
  | none => rfl
  | some v => exact get?_mapKey_of_ne h

@[simp] theorem hasKey?_mapKey (k : String) : hasKey? (p.map (mapKey key g)) k = hasKey? p k := by
  cases p with
  | none => rfl
  | some v =>
    cases v with
    | obj fields =>
      have h := get?_mapKey key g (.obj fields) k
      rw [mapKey] at h
      simp only [Option.map_some, mapKey, hasKey?, h]
      split <;> simp
    | _ => rfl

end MapKey

/-! ## Decoding a blanked event -/

section Decode

variable {kind : EventKind} {hidden : String} {raw : Json} {v : Option Json}

/-- A decoder only asks whether the text is a string. -/
theorem optional_string_blank :
    Decoder.optional Decoder.string (v.map blank) = Decoder.optional Decoder.string v := by
  cases v with
  | none => rfl
  | some v => cases v <;> rfl

theorem hiddenField_name (kind : EventKind) :
    hiddenField kind.name = if kind = .modelCompleted then some "text"
      else if kind = .toolCompleted then some "rendered" else none := by
  cases kind <;> rfl

theorem hiddenField_name_cases (h : hiddenField kind.name = some hidden) :
    kind = .modelCompleted ∧ hidden = "text" ∨ kind = .toolCompleted ∧ hidden = "rendered" := by
  rw [hiddenField_name] at h
  split_ifs at h with h₁ h₂
  · exact .inl ⟨h₁, (Option.some.inj h).symm⟩
  · exact .inr ⟨h₂, (Option.some.inj h).symm⟩

theorem payloadDecoders_blank (h : hiddenField kind.name = some hidden) :
    payloadDecoders kind (v.map (mapKey hidden blank)) = payloadDecoders kind v := by
  cases v with
  | none => rfl
  | some v =>
    cases v with
    | obj fields =>
      have hget := get?_mapKey hidden blank (.obj fields)
      rw [mapKey] at hget
      obtain ⟨rfl, rfl⟩ | ⟨rfl, rfl⟩ := hiddenField_name_cases h
      · simp [payloadDecoders, Decoder.object, Decoder.strings, mapKey, hget, optional_string_blank]
      · simp [payloadDecoders, Decoder.object, Decoder.strings, Decoder.numbers, mapKey, hget,
          optional_string_blank]
    | _ => rfl

theorem wireEventEnvelope_mapKey (g : Json → Json) (raw : Json) :
    wireEventEnvelope (mapKey "payload" g raw) =
      (wireEventEnvelope raw).map fun env => { env with payload := env.payload.map g } := by
  cases raw with
  | obj fields =>
    have hget := get?_mapKey "payload" g (.obj fields)
    rw [mapKey] at hget
    simp [wireEventEnvelope, mapKey, hget, Option.map_bind]
  | _ => rfl

/-- The payload of an event or of its row, before and after blanking. A row of an event with a bad
envelope holds the whole event. -/
inductive Blanked (hidden : String) : Option Json → Option Json → Prop
  | payload (p : Option Json) : Blanked hidden p (p.map (mapKey hidden blank))
  | event (p : Option Json) :
    Blanked hidden p (p.map (mapKey "payload" (mapKey hidden blank)))

inductive BodyAlike : EventBody → EventBody → Prop
  | same (body : EventBody) : BodyAlike body body
  | ok {kind : EventKind} {hidden : String} {p p' : Option Json}
    (hkind : hiddenField kind.name = some hidden) (hp : Blanked hidden p p') :
    BodyAlike (.ok kind p) (.ok kind p')
  | failed {reason : DecodeFailure} {kind hidden : String} {p p' : Option Json}
    (hkind : hiddenField kind = some hidden) (hp : Blanked hidden p p') :
    BodyAlike (.failed reason kind p) (.failed reason kind p')

structure EventAlike (ev ev' : DecodedEvent) : Prop where
  seq : ev'.seq = ev.seq
  ts : ev'.ts = ev.ts
  taskId : ev'.taskId = ev.taskId
  body : BodyAlike ev.body ev'.body

theorem decodePayload_blank {env : WireEvent} (h : hiddenField env.kind = some hidden) :
    BodyAlike (decodePayload env)
      (decodePayload { env with payload := env.payload.map (mapKey hidden blank) }) := by
  unfold decodePayload
  cases hdec : hasDecoder env.kind with
  | none => exact .failed h (.payload _)
  | some kind =>
    have hname : hiddenField kind.name = some hidden := by rw [name_of_hasDecoder hdec, h]
    simp only [payloadDecoders_blank hname]
    split
    · exact .ok hname (.payload _)
    · exact .failed h (.payload _)

theorem kind_of_envelope {env : WireEvent} (h : wireEventEnvelope raw = some env) :
    (raw.get? "kind").bind Json.str? = some env.kind := by
  unfold wireEventEnvelope at h
  split at h
  · simp only [bind, Option.bind_eq_some_iff] at h
    obtain ⟨kind, hkind, seq, -, -, -, tsMs, -, taskId, -, henv⟩ := h
    rw [Option.bind_eq_some_iff.mpr hkind, ← Option.some.inj henv]
  · exact nomatch h

theorem decodeEvent_redact (raw : Json) :
    EventAlike (decodeEvent raw) (decodeEvent (redact raw)) := by
  unfold redact
  split
  · rename_i hidden hhidden
    obtain ⟨kind, hkind, hname⟩ := Option.bind_eq_some_iff.mp hhidden
    have henv := wireEventEnvelope_mapKey (mapKey hidden blank) raw
    unfold decodeEvent
    rw [henv]
    cases hraw : wireEventEnvelope raw with
    | none =>
      have hkept : ∀ k, k ≠ "payload" →
          (mapKey "payload" (mapKey hidden blank) raw).get? k = raw.get? k :=
        fun k hk => get?_mapKey_of_ne hk
      simp only [Option.map_none, hkept "seq" (by decide), hkept "ts_ms" (by decide),
        hkept "kind" (by decide), hkind]
      exact ⟨rfl, rfl, rfl, .failed hname (.event (some raw))⟩
    | some env =>
      obtain rfl : kind = env.kind := Option.some.inj (hkind.symm.trans (kind_of_envelope hraw))
      exact ⟨rfl, rfl, rfl, decodePayload_blank hname⟩
  · exact ⟨rfl, rfl, rfl, .same _⟩

end Decode

/-! ## The stores -/

/-- Rows that differ in the text a model wrote at most. -/
structure RowAlike (r r' : EventRow) : Prop where
  seq : r'.seq = r.seq
  ts : r'.ts = r.ts
  kind : r'.kind = r.kind
  taskId : r'.taskId = r.taskId
  degraded : r'.degraded = r.degraded
  payload : hiddenField r.kind = none → r'.payload = r.payload
  shape : ∀ key, hasKey? r'.payload key = hasKey? r.payload key
  fields : ∀ key, key ∉ ["text", "rendered", "payload"] →
    field r'.payload key = field r.payload key

theorem RowAlike.refl (r : EventRow) : RowAlike r r :=
  ⟨rfl, rfl, rfl, rfl, rfl, fun _ => rfl, fun _ => rfl, fun _ _ => rfl⟩

/-- Stores with the same projections and alike rows. -/
structure StoreAlike (s s' : StoreState) : Prop where
  projections : s' = s.withEvents s'.events
  rows : List.Forall₂ RowAlike s.events s'.events

section Fold

variable {s s' : StoreState} {ev ev' : DecodedEvent} {raws : List Json}

theorem Blanked.shape {hidden : String} {p p' : Option Json} (h : Blanked hidden p p')
    (key : String) : hasKey? p' key = hasKey? p key := by
  cases h <;> exact hasKey?_mapKey key

theorem Blanked.fields {kind hidden : String} {p p' : Option Json} (h : Blanked hidden p p')
    (hkind : hiddenField kind = some hidden) {key : String}
    (hkey : key ∉ ["text", "rendered", "payload"]) : field p' key = field p key := by
  have hhidden : hidden = "text" ∨ hidden = "rendered" := by
    unfold hiddenField at hkind
    split at hkind
    · exact .inl (Option.some.inj hkind).symm
    · exact .inr (Option.some.inj hkind).symm
    · exact nomatch hkind
  simp only [List.mem_cons, List.not_mem_nil, or_false, not_or] at hkey
  cases h with
  | payload =>
    refine field_mapKey_of_ne ?_
    rcases hhidden with rfl | rfl
    · exact hkey.1
    · exact hkey.2.1
  | event => exact field_mapKey_of_ne hkey.2.2

theorem EventAlike.row (h : EventAlike ev ev') : RowAlike (rowOf ev) (rowOf ev') := by
  obtain ⟨seq, ts, taskId, body⟩ := ev
  obtain ⟨seq', ts', taskId', body'⟩ := ev'
  obtain ⟨hseq, hts, htask, hbody⟩ := h
  cases hseq
  cases hts
  cases htask
  cases hbody with
  | same => cases body <;> exact .refl _
  | ok hkind hp =>
    refine ⟨rfl, rfl, rfl, rfl, rfl, fun h => ?_, hp.shape, fun _ hkey => hp.fields hkind hkey⟩
    exact nomatch hkind.symm.trans h
  | failed hkind hp =>
    refine ⟨rfl, rfl, rfl, rfl, rfl, fun h => ?_, hp.shape, fun _ hkey => hp.fields hkind hkey⟩
    exact nomatch hkind.symm.trans h

/-- No fold reads the payload of a kind that holds model text. -/
theorem EventAlike.advance (h : EventAlike ev ev') :
    ValyriaApp.advance s ev' = ValyriaApp.advance s ev := by
  obtain ⟨seq, ts, taskId, body⟩ := ev
  obtain ⟨seq', ts', taskId', body'⟩ := ev'
  obtain ⟨hseq, hts, htask, hbody⟩ := h
  cases hseq
  cases hts
  cases htask
  cases hbody with
  | same => rfl
  | ok hkind hp =>
    obtain ⟨rfl, -⟩ | ⟨rfl, -⟩ := hiddenField_name_cases hkind <;> rfl
  | failed hkind hp => rfl

theorem StoreAlike.apply (h : StoreAlike s s') (raw : Json) :
    StoreAlike (applyRawEvent s raw) (applyRawEvent s' (redact raw)) := by
  have hev := decodeEvent_redact raw
  obtain ⟨hproj, hrows⟩ := h
  generalize s'.events = rows at hproj hrows
  subst hproj
  have hlast : (decodeEvent (redact raw)).seq < (s.withEvents rows).lastSeq + 1 ↔
      (decodeEvent raw).seq < s.lastSeq + 1 := by rw [hev.seq, withEvents_lastSeq]
  unfold applyRawEvent
  by_cases hold : (decodeEvent raw).seq < s.lastSeq + 1
  · rw [applyDecoded_of_lt hold, applyDecoded_of_lt (hlast.mpr hold)]
    exact ⟨rfl, hrows⟩
  · rw [applyDecoded_of_not_lt hold, applyDecoded_of_not_lt (fun h => hold (hlast.mp h)),
      advance_withEvents, hev.advance]
    exact ⟨rfl, List.rel_append hrows (.cons hev.row .nil)⟩

theorem replay_redact (raws : List Json) :
    StoreAlike (replay raws) (replay (raws.map redact)) := by
  rw [replay_eq_foldl, replay_eq_foldl]
  have hfold : ∀ s s', StoreAlike s s' →
      StoreAlike (raws.foldl applyRawEvent s) ((raws.map redact).foldl applyRawEvent s') := by
    induction raws with
    | nil => exact fun _ _ h => h
    | cons raw raws ih => exact fun s s' h => ih _ _ (h.apply raw)
  exact hfold _ _ ⟨rfl, .nil⟩

end Fold

/-! ## The rows -/

section Rows

variable {r r' e e' : EventRow} {rows rows' rest rest' : List EventRow}

theorem RowAlike.eq_of_hiddenField (h : RowAlike r r') (hkind : hiddenField r.kind = none) :
    r' = r := by
  have hpayload := h.payload hkind
  obtain ⟨hseq, hts, hkind, htask, hdegraded, -, -, -⟩ := h
  cases r
  cases r'
  rw [EventRow.mk.injEq]
  exact ⟨hseq, hts, hkind, htask, hpayload, hdegraded⟩

theorem hidden_kind {kind : String} (h : hiddenField kind ≠ none) :
    kind = "model_completed" ∨ kind = "tool_completed" := by
  unfold hiddenField at h
  split at h
  · exact .inl rfl
  · exact .inr rfl
  · exact absurd rfl h

theorem RowAlike.strField (h : RowAlike r r') {key : String}
    (hkey : key ∉ ["text", "rendered", "payload"]) :
    ValyriaApp.strField r'.payload key = ValyriaApp.strField r.payload key := by
  rw [ValyriaApp.strField, ValyriaApp.strField, h.fields key hkey]

theorem RowAlike.boolField (h : RowAlike r r') {key : String}
    (hkey : key ∉ ["text", "rendered", "payload"]) :
    ValyriaApp.boolField r'.payload key = ValyriaApp.boolField r.payload key := by
  rw [ValyriaApp.boolField, ValyriaApp.boolField, h.fields key hkey]

theorem RowAlike.activityLine (h : RowAlike r r') :
    ValyriaApp.activityLine r' = ValyriaApp.activityLine r := by
  by_cases hkind : hiddenField r.kind = none
  · rw [h.eq_of_hiddenField hkind]
  · unfold ValyriaApp.activityLine
    rw [h.kind]
    have htool : ValyriaApp.strField r'.payload "tool" = ValyriaApp.strField r.payload "tool" :=
      h.strField (by decide)
    have hsuccess : ValyriaApp.boolField r'.payload "success" =
        ValyriaApp.boolField r.payload "success" := h.boolField (by decide)
    rcases hidden_kind hkind with hk | hk <;> rw [hk]
    · rfl
    · simp only [htool, hsuccess]

theorem RowAlike.rowPhase (h : RowAlike r r') (n : ℕ) :
    ValyriaApp.rowPhase n r' = ValyriaApp.rowPhase n r := by
  by_cases hkind : hiddenField r.kind = none
  · rw [h.eq_of_hiddenField hkind]
  · unfold ValyriaApp.rowPhase
    rw [h.kind]
    rcases hidden_kind hkind with hk | hk <;> rw [hk] <;> rfl

theorem RowAlike.isShellStart (h : RowAlike r r') :
    ValyriaApp.isShellStart r' = ValyriaApp.isShellStart r := by
  rw [ValyriaApp.isShellStart, ValyriaApp.isShellStart, h.kind, h.strField (by decide)]

/-- The code throws at the first `in` or not at all. -/
theorem AgentCommand.complete_isSome (cmd : AgentCommand) (completion : EventRow) :
    (cmd.complete completion).isSome =
      ((hasKey? completion.payload "exit_code").isSome &&
        ((hasKey? completion.payload "stdout").isSome &&
          (hasKey? completion.payload "stderr").isSome)) := by
  unfold AgentCommand.complete
  cases hasKey? completion.payload "exit_code" with
  | none => rfl
  | some exitCode =>
    cases hasKey? completion.payload "stdout" with
    | none => rfl
    | some stdout => cases hasKey? completion.payload "stderr" <;> rfl

theorem completionFor_alike (hrows : List.Forall₂ RowAlike rows rows')
    (hrest : List.Forall₂ RowAlike rest rest') (invocationId : Option String) :
    Option.Rel RowAlike (completionFor rows rest invocationId)
      (completionFor rows' rest' invocationId) := by
  unfold completionFor
  split
  · refine Related.find? (fun a b hab => ?_) hrows
    rw [hab.kind, hab.strField (by decide)]
  · refine Related.optionFilter (fun a b hab => by rw [hab.kind]) ?_
    exact Related.find? (fun a b hab => by rw [hab.kind]) hrest

theorem agentCommand_isSome (hrows : List.Forall₂ RowAlike rows rows')
    (hrest : List.Forall₂ RowAlike rest rest') (e : EventRow) :
    (agentCommand rows' rest' e).isSome = (agentCommand rows rest e).isSome := by
  unfold agentCommand
  have hrel := completionFor_alike hrows hrest (strField e.payload "tool_invocation_id")
  simp only
  generalize completionFor rows rest (strField e.payload "tool_invocation_id") = c at hrel ⊢
  generalize completionFor rows' rest' (strField e.payload "tool_invocation_id") = c' at hrel ⊢
  cases hrel with
  | none => rfl
  | some hab =>
    simp only [AgentCommand.complete_isSome, hab.shape]

theorem agentCommandsFrom_cons (rows rest : List EventRow) (e : EventRow) :
    (agentCommandsFrom rows (e :: rest)).map List.length =
      if isShellStart e then
        if (agentCommand rows rest e).isSome then
          ((agentCommandsFrom rows rest).map List.length).map (· + 1)
        else none
      else (agentCommandsFrom rows rest).map List.length := by
  rw [agentCommandsFrom]
  split
  · cases agentCommand rows rest e with
    | none => rfl
    | some cmd => cases agentCommandsFrom rows rest <;> rfl
  · rfl

/-- How many commands a task ran does not depend on what they printed. -/
theorem agentCommandsFrom_alike (hrows : List.Forall₂ RowAlike rows rows')
    (hrest : List.Forall₂ RowAlike rest rest') :
    (agentCommandsFrom rows' rest').map List.length =
      (agentCommandsFrom rows rest).map List.length := by
  induction hrest with
  | nil => rfl
  | @cons e e' rest rest' he hrest ih =>
    rw [agentCommandsFrom_cons, agentCommandsFrom_cons, ih, he.isShellStart]
    by_cases hshell : isShellStart e = true
    · have hkind : hiddenField e.kind = none := by
        have hstart : e.kind = "tool_started" := (of_decide_eq_true hshell).1
        rw [hstart]
        rfl
      obtain rfl := he.eq_of_hiddenField hkind
      rw [agentCommand_isSome hrows hrest]
    · rw [if_neg hshell, if_neg hshell]

end Rows

/-! ## The surfaces -/

section Surfaces

variable {s : StoreState} {rows : List EventRow} {focusId : Option String}
  {connection : ConnectionState} (h : List.Forall₂ RowAlike s.events rows)
include h

theorem eventsForTask_alike (id : String) :
    List.Forall₂ RowAlike (eventsForTask s id) (eventsForTask (s.withEvents rows) id) :=
  Related.filter (fun _ _ hab => by rw [hab.taskId]) h

theorem forFocus_alike (focusId : Option String) :
    List.Forall₂ RowAlike (forFocus s focusId (eventsForTask s))
      (forFocus (s.withEvents rows) focusId (eventsForTask (s.withEvents rows))) := by
  have hfocus : resolveFocus (s.withEvents rows) focusId = resolveFocus s focusId := rfl
  unfold forFocus
  rw [hfocus]
  split
  · exact eventsForTask_alike h _
  · exact .nil

theorem chatModel_withEvents :
    chatModel (s.withEvents rows) focusId connection = chatModel s focusId connection := by
  have hlines := Related.map_eq
    (f := fun e : EventRow =>
      ({ seq := e.seq, role := .agent, text := activityLine e } : ChatEntry))
    (fun a b hab => by rw [hab.seq, hab.activityLine])
    (Related.filter (p := fun e => decide (e.kind ∈ transcriptKinds))
      (fun a b hab => by rw [hab.kind]) (forFocus_alike h focusId))
  simp only [chatModel, hlines]
  rfl

theorem checkpointIdsForTask_withEvents (id : String) :
    checkpointIdsForTask (s.withEvents rows) id = checkpointIdsForTask s id := by
  refine Related.foldl_eq (R := RowAlike) (fun out a b hab => ?_) ?_ _
  · rw [hab.strField (by decide), hab.strField (by decide)]
  · exact Related.filter (fun a b hab => by rw [hab.kind]) (eventsForTask_alike h id)

theorem agentCommandsForTask_withEvents (id : String) :
    (agentCommandsForTask (s.withEvents rows) id).map List.length =
      (agentCommandsForTask s id).map List.length := by
  have hsorted := Related.insertionSort (r := fun a b : EventRow => ¬ b.seq < a.seq)
    (fun a a' b b' hab hcd => by rw [hab.seq, hcd.seq]) (eventsForTask_alike h id)
  exact agentCommandsFrom_alike hsorted hsorted

theorem taskView_withEvents (id : String) (task : TaskProjection) (rollbackCapable : Bool)
    (n : ℕ) :
    taskView (s.withEvents rows) id task rollbackCapable n =
      taskView s id task rollbackCapable n := by
  have hrow : checkpointRow (s.withEvents rows) task id rollbackCapable =
      checkpointRow s task id rollbackCapable := by
    funext c
    simp only [checkpointRow, checkpointIdsForTask_withEvents h]
  simp only [taskView, hrow]
  rfl

theorem taskModel_withEvents (rollbackCapable : Bool) :
    taskModel (s.withEvents rows) focusId rollbackCapable =
      taskModel s focusId rollbackCapable := by
  have hfocus : resolveFocus (s.withEvents rows) focusId = resolveFocus s focusId := rfl
  have htask : focusedTask (s.withEvents rows) focusId = focusedTask s focusId := rfl
  unfold taskModel
  rw [hfocus, htask]
  split
  · rename_i id task _ _
    have hcount := congrArg (Option.map (taskView s id task rollbackCapable))
      (agentCommandsForTask_withEvents h id)
    simpa only [Option.map_map, Function.comp_def, taskView_withEvents h] using hcount
  · rfl

theorem tickerModel_withEvents :
    tickerModel (s.withEvents rows) focusId connection = tickerModel s focusId connection := by
  have hfocus : resolveFocus (s.withEvents rows) focusId = resolveFocus s focusId := rfl
  have htask : focusedTask (s.withEvents rows) focusId = focusedTask s focusId := rfl
  unfold tickerModel
  rw [hfocus, htask]
  split
  · rename_i id task _ _
    have hfiles : changedFilesForTask (s.withEvents rows) id = changedFilesForTask s id := rfl
    have htail := Related.findSome?_eq (f := rowPhase (changedFilesForTask s id).length)
      (fun a b hab => hab.rowPhase _)
      (List.forall₂_take 16 (List.forall₂_reverse_iff.mpr (eventsForTask_alike h id)))
    simp only [hfiles, htail]
  · rfl

theorem workspaceModel_withEvents (input : WorkspaceInput) :
    workspaceModel (s.withEvents rows) focusId input = workspaceModel s focusId input := by
  simp only [workspaceModel, chatModel_withEvents h, taskModel_withEvents h]
  rfl

theorem modelChatModel_withEvents (input : ModelChatInput) :
    modelChatModel (s.withEvents rows) focusId connection input =
      modelChatModel s focusId connection input := by
  simp only [modelChatModel, chatModel_withEvents h]
  rfl

end Surfaces

/-- Every narrative surface shows the same for both stores, whatever task is pinned and whatever
else the surface is given. -/
structure SameNarrative (s s' : StoreState) : Prop where
  chat : ∀ focusId connection, chatModel s' focusId connection = chatModel s focusId connection
  task : ∀ focusId rollbackCapable,
    taskModel s' focusId rollbackCapable = taskModel s focusId rollbackCapable
  ticker : ∀ focusId connection,
    tickerModel s' focusId connection = tickerModel s focusId connection
  home : ∀ input, homeModel s' input = homeModel s input
  history : ∀ focusId, historyModel s' focusId = historyModel s focusId
  review : ∀ focusId input, reviewModel s' focusId input = reviewModel s focusId input
  workspace : ∀ focusId input, workspaceModel s' focusId input = workspaceModel s focusId input
  modelChat : ∀ focusId connection input,
    modelChatModel s' focusId connection input = modelChatModel s focusId connection input
  activity : s'.events.map activityLine = s.events.map activityLine

theorem StoreAlike.narrative {s s' : StoreState} (h : StoreAlike s s') : SameNarrative s s' := by
  obtain ⟨hproj, hrows⟩ := h
  generalize s'.events = rows at hproj hrows
  subst hproj
  exact
    { chat := fun _ _ => chatModel_withEvents hrows
      task := fun _ => taskModel_withEvents hrows
      ticker := fun _ _ => tickerModel_withEvents hrows
      home := fun _ => rfl
      history := fun _ => rfl
      review := fun _ _ => rfl
      workspace := fun _ => workspaceModel_withEvents hrows
      modelChat := fun _ _ => modelChatModel_withEvents hrows
      activity := Related.map_eq (fun _ _ hab => hab.activityLine) hrows }

/-- Traces that agree up to the text a model wrote tell the same story on every surface. -/
theorem model_text_never_shown (raws raws' : List Json)
    (h : raws.map redact = raws'.map redact) : SameNarrative (replay raws) (replay raws') := by
  have hleft := (replay_redact raws).narrative
  have hright := (replay_redact raws').narrative
  rw [h] at hleft
  exact
    { chat := fun f c => (hright.chat f c).symm.trans (hleft.chat f c)
      task := fun f r => (hright.task f r).symm.trans (hleft.task f r)
      ticker := fun f c => (hright.ticker f c).symm.trans (hleft.ticker f c)
      home := fun i => (hright.home i).symm.trans (hleft.home i)
      history := fun f => (hright.history f).symm.trans (hleft.history f)
      review := fun f i => (hright.review f i).symm.trans (hleft.review f i)
      workspace := fun f i => (hright.workspace f i).symm.trans (hleft.workspace f i)
      modelChat := fun f c i => (hright.modelChat f c i).symm.trans (hleft.modelChat f c i)
      activity := hright.activity.symm.trans hleft.activity }

/-- A task in which a model answers and a tool prints. -/
def toldTrace (text rendered : String) : List Json :=
  [coreEvent 1 (some "t") 5 "task_started" (.obj [("objective", .str "fix the build")]),
    coreEvent 2 (some "t") 6 "model_completed" (.obj [("text", .str text)]),
    coreEvent 3 (some "t") 7 "tool_completed"
      (.obj [("tool", .str "run_command"), ("success", .bool true), ("rendered", .str rendered)])]

theorem toldTrace_never_shown :
    SameNarrative (replay (toldTrace "the key is 4711" "exit=Some(0)"))
      (replay (toldTrace "" "")) :=
  model_text_never_shown _ _ rfl

end ValyriaApp
