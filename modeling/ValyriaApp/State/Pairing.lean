import ValyriaApp.Lib.Attempts
import ValyriaApp.State.Invariant

/-! # Pairing of agent commands

A shell tool's start is paired with a completion by invocation id, or by
position when it has none. The pairing is sound exactly when the ids of the
task's starts and completions are used the way the two regimes suppose.
-/

namespace ValyriaApp

variable {s : StoreState} {rows rest : List EventRow} {e c : EventRow}
  {completion : Option EventRow} {cmd : AgentCommand}

def invocationId (e : EventRow) : Option String := strField e.payload "tool_invocation_id"

/-- The command of a start and the completion chosen for it. -/
def commandOf (e : EventRow) (completion : Option EventRow) : Option AgentCommand :=
  let input := field e.payload "input"
  let cmd : AgentCommand :=
    { seq := e.seq, ts := e.ts
      program := (strField input "program").getD ""
      args := match field input "args" with
        | some (.arr args) => args.filterMap Json.str?
        | _ => []
      invocationId := invocationId e, exitCode := none, stdout := none, stderr := none
      raw := none, succeeded := none, durationMs := none, pending := completion.isNone }
  match completion with
  | some completion => cmd.complete completion
  | none => some cmd

theorem agentCommand_eq :
    agentCommand rows rest e = commandOf e (completionFor rows rest (invocationId e)) := rfl

/-- The shell starts among the rows, each with the completion chosen for it. -/
def pairings (rows : List EventRow) : List EventRow → List (EventRow × Option EventRow)
  | [] => []
  | e :: rest =>
    if isShellStart e then (e, completionFor rows rest (invocationId e)) :: pairings rows rest
    else pairings rows rest

theorem map_fst_pairings (rows l : List EventRow) :
    (pairings rows l).map Prod.fst = l.filter isShellStart := by
  induction l with
  | nil => rfl
  | cons e rest ih => cases h : isShellStart e <;> simp [pairings, h, ih]

theorem mem_pairings {rows l : List EventRow} {p : EventRow × Option EventRow}
    (h : p ∈ pairings rows l) :
    ∃ pre rest, l = pre ++ p.1 :: rest ∧ isShellStart p.1 = true ∧
      p.2 = completionFor rows rest (invocationId p.1) := by
  induction l with
  | nil => exact nomatch h
  | cons e rest ih =>
    rw [pairings] at h
    split at h
    · rename_i hshell
      rcases List.mem_cons.mp h with rfl | h
      · exact ⟨[], rest, rfl, hshell, rfl⟩
      · obtain ⟨pre, rest', rfl, hp⟩ := ih h
        exact ⟨e :: pre, rest', rfl, hp⟩
    · obtain ⟨pre, rest', rfl, hp⟩ := ih h
      exact ⟨e :: pre, rest', rfl, hp⟩

theorem pairings_mem (rows : List EventRow) {pre l : List EventRow} (hsplit : l = pre ++ e :: rest)
    (hshell : isShellStart e = true) :
    (e, completionFor rows rest (invocationId e)) ∈ pairings rows l := by
  subst hsplit
  induction pre with
  | nil => simp [pairings, hshell]
  | cons d pre ih =>
    rw [List.cons_append, pairings]
    split
    · exact List.mem_cons_of_mem _ ih
    · exact ih

theorem filled_seq (cmd : AgentCommand) (payload : Option Json) (structured : Bool) :
    (cmd.filled payload structured).seq = cmd.seq ∧
      (cmd.filled payload structured).pending = cmd.pending := by
  unfold AgentCommand.filled
  cases structured with
  | true => exact ⟨rfl, rfl⟩
  | false =>
    simp only [Bool.false_eq_true, if_false]
    split
    · exact ⟨rfl, rfl⟩
    · split <;> exact ⟨rfl, rfl⟩

theorem commandOf_seq (h : commandOf e completion = some cmd) :
    cmd.seq = e.seq ∧ cmd.pending = completion.isNone := by
  cases completion with
  | none => simp [← Option.some.inj h]
  | some c =>
    simp only [commandOf, AgentCommand.complete, bind, Option.bind_eq_some_iff] at h
    obtain ⟨exitCode, -, stdout, -, stderr, -, hcmd⟩ := h
    rw [← Option.some.inj hcmd]
    exact filled_seq _ _ _

/-- The payload is a string, a number or a boolean. -/
def isPrimitive : Option Json → Bool
  | some (.bool _) | some (.num _) | some (.str _) => true
  | _ => false

/-- A completion is read without a throw unless its payload is a primitive. -/
theorem commandOf_isSome_iff :
    (commandOf e completion).isSome = true ↔
      ∀ c, completion = some c → isPrimitive c.payload = false := by
  cases completion with
  | none => simp [commandOf]
  | some c =>
    simp only [commandOf, AgentCommand.complete, Option.some.injEq, forall_eq']
    rcases c.payload with _ | payload
    · simp [hasKey?, isPrimitive]
    · cases payload <;> simp [hasKey?, isPrimitive]

theorem agentCommandsFrom_eq (rows l : List EventRow) :
    agentCommandsFrom rows l = (pairings rows l).mapM fun p => commandOf p.1 p.2 := by
  induction l with
  | nil => rfl
  | cons e rest ih =>
    rw [agentCommandsFrom, pairings]
    split
    · rw [List.mapM_cons, ← ih, agentCommand_eq]
    · exact ih

/-! ## Choosing a completion -/

def isCompletion (e : EventRow) : Bool := e.kind = "tool_completed"

def isStart (e : EventRow) : Bool := e.kind = "tool_started"

/-- The next row that starts or completes a tool. -/
def nextTool (rest : List EventRow) : Option EventRow :=
  rest.find? fun r => r.kind = "tool_started" ∨ r.kind = "tool_completed"

/-- Rows in the order of their numbers, with an object for payload. -/
structure OrderedRows (rows : List EventRow) : Prop where
  ordered : rows.Pairwise fun a b => a.seq < b.seq
  objects : ∀ row ∈ rows, ∃ fields, row.payload = some (.obj fields)

theorem isStart_of_isShellStart (h : isShellStart e = true) : isStart e = true := by
  simp only [isShellStart, decide_eq_true_eq] at h
  exact decide_eq_true h.1

theorem OrderedRows.eq_of_seq (h : OrderedRows rows) {a b : EventRow} (ha : a ∈ rows)
    (hb : b ∈ rows) (hseq : a.seq = b.seq) : a = b := by
  have hnodup : (rows.map (·.seq)).Nodup := by
    refine List.pairwise_map.mpr (h.ordered.imp fun hlt heq => ?_)
    rw [heq] at hlt
    exact Num.lt_irrefl _ hlt
  exact List.inj_on_of_nodup_map hnodup ha hb hseq

theorem invocationId_cases (e : EventRow) :
    (∃ id, invocationId e = some id ∧ id ≠ "") ∨ invocationId e = none ∨
      invocationId e = some "" := by
  cases invocationId e with
  | none => exact .inr (.inl rfl)
  | some id => exact (em (id = "")).elim (fun h => .inr (.inr (h ▸ rfl))) fun h => .inl ⟨id, rfl, h⟩

theorem completionFor_keyed {id : String} (hid : id ≠ "") :
    completionFor rows rest (some id) =
      rows.find? fun r => isCompletion r && decide (invocationId r = some id) := by
  rw [completionFor, Option.filter_some, if_pos (decide_eq_true hid)]
  refine congrArg (rows.find? ·) (funext fun r => ?_)
  exact Bool.decide_and _ _

theorem completionFor_positional (h : invocationId e = none ∨ invocationId e = some "") :
    completionFor rows rest (invocationId e) = (nextTool rest).filter isCompletion := by
  rcases h with h | h <;> rw [h] <;> rfl

theorem keyed_spec {id : String} (hid : id ≠ "")
    (h : completionFor rows rest (some id) = some c) :
    c ∈ rows ∧ isCompletion c = true ∧ invocationId c = some id := by
  rw [completionFor_keyed hid] at h
  have hprop := List.find?_some h
  simp only [Bool.and_eq_true, decide_eq_true_eq] at hprop
  exact ⟨List.mem_of_find?_eq_some h, hprop⟩

theorem positional_spec (hpos : invocationId e = none ∨ invocationId e = some "")
    (h : completionFor rows rest (invocationId e) = some c) :
    nextTool rest = some c ∧ c ∈ rest ∧ isCompletion c = true := by
  rw [completionFor_positional hpos, Option.filter_eq_some_iff] at h
  exact ⟨h.1, List.mem_of_find?_eq_some h.1, h.2⟩

/-- The completion of an id is the first row that carries it. -/
theorem OrderedRows.keyed_first (h : OrderedRows rows) {id : String} (hid : id ≠ "")
    {d : EventRow} (hd : d ∈ rows) (hcomp : isCompletion d = true)
    (hinv : invocationId d = some id) :
    ∃ c, (∀ rest, completionFor rows rest (some id) = some c) ∧ (c = d ∨ c.seq < d.seq) := by
  have hp : (isCompletion d && decide (invocationId d = some id)) = true := by simp [hcomp, hinv]
  have hsome : (rows.find? fun r => isCompletion r && decide (invocationId r = some id)).isSome :=
    List.find?_isSome.mpr ⟨d, hd, hp⟩
  obtain ⟨c, hc⟩ := Option.isSome_iff_exists.mp hsome
  refine ⟨c, fun rest => (completionFor_keyed hid).trans hc, ?_⟩
  obtain ⟨-, as, bs, hsplit, hbefore⟩ := List.find?_eq_some_iff_append.mp hc
  rw [hsplit] at hd
  rcases List.mem_append.mp hd with has | hrest
  · have hfree := hbefore d has
    rw [hp] at hfree
    exact absurd hfree (by simp)
  · rcases List.mem_cons.mp hrest with rfl | hbs
    · exact .inl rfl
    · have hordered := h.ordered
      rw [hsplit] at hordered
      exact .inr (List.rel_of_pairwise_cons (List.pairwise_append.mp hordered).2.1 hbs)

/-! ## Sound pairings -/

/-- Every completion comes after the start it is paired with and is paired once; a start with an id
is paired with a completion that carries it, and a start without one never with a completion that
carries the id of another start. -/
structure SoundPairs (rows : List EventRow) : Prop where
  after : ∀ p ∈ pairings rows rows, ∀ c, p.2 = some c →
    c ∈ rows ∧ isCompletion c = true ∧ p.1.seq < c.seq
  once : ((pairings rows rows).filterMap Prod.snd).Pairwise fun c d => c.seq ≠ d.seq
  sameId : ∀ p ∈ pairings rows rows, ∀ c, p.2 = some c → ∀ id, invocationId p.1 = some id →
    invocationId c = some id
  notForeign : ∀ p ∈ pairings rows rows, ∀ c, p.2 = some c → invocationId p.1 = none →
    ∀ other ∈ rows, isStart other = true → invocationId other ≠ none →
      invocationId c ≠ invocationId other

/-- How ids have to be used: shell starts that some completion answers have different ids, no
completion comes before the shell start of its id, and the completion that follows a shell start
without an id carries none of another start. -/
structure IdsMatch (rows : List EventRow) : Prop where
  distinct : ∀ a ∈ rows, ∀ b ∈ rows, isShellStart a = true → isShellStart b = true →
    a.seq ≠ b.seq → ∀ id, id ≠ "" → invocationId a = some id → invocationId b = some id →
    ∀ c ∈ rows, isCompletion c = true → invocationId c ≠ some id
  later : ∀ a ∈ rows, isShellStart a = true → ∀ id, id ≠ "" → invocationId a = some id →
    ∀ c ∈ rows, isCompletion c = true → invocationId c = some id → a.seq < c.seq
  notForeign : ∀ pre a rest, rows = pre ++ a :: rest → isShellStart a = true →
    invocationId a = none → ∀ c, nextTool rest = some c → isCompletion c = true →
    ∀ other ∈ rows, isStart other = true → invocationId other ≠ none →
      invocationId c ≠ invocationId other
  emptyId : ∀ pre a rest, rows = pre ++ a :: rest → isShellStart a = true →
    invocationId a = some "" → ∀ c, nextTool rest = some c → isCompletion c = true →
    invocationId c = some ""

theorem SoundPairs.idsMatch (h : OrderedRows rows) (hsound : SoundPairs rows) :
    IdsMatch rows := by
  have hpair {a : EventRow} (ha : a ∈ rows) (hshell : isShellStart a = true) :
      ∃ rest, (a, completionFor rows rest (invocationId a)) ∈ pairings rows rows := by
    obtain ⟨pre, rest, hsplit⟩ := List.append_of_mem ha
    exact ⟨rest, pairings_mem rows hsplit hshell⟩
  constructor
  case distinct =>
    intro a ha b hb hsa hsb hne id hid hia hib c hc hcomp hinv
    obtain ⟨d, hd, -⟩ := h.keyed_first hid hc hcomp hinv
    obtain ⟨resta, hpa⟩ := hpair ha hsa
    obtain ⟨restb, hpb⟩ := hpair hb hsb
    rw [hia, hd] at hpa
    rw [hib, hd] at hpb
    have hsymm : Std.Symm fun p q : EventRow × Option EventRow =>
        ∀ c, p.2 = some c → ∀ d, q.2 = some d → c.seq ≠ d.seq :=
      ⟨fun p q hpq c hc d hd => (hpq d hd c hc).symm⟩
    have hall := (List.pairwise_filterMap.mp hsound.once).forall hpa hpb
      (fun heq => hne (congrArg (·.1.seq) heq))
    exact hall d rfl d rfl rfl
  case later =>
    intro a ha hsa id hid hia c hc hcomp hinv
    obtain ⟨d, hd, hfirst⟩ := h.keyed_first hid hc hcomp hinv
    obtain ⟨resta, hpa⟩ := hpair ha hsa
    rw [hia, hd] at hpa
    have hlt : a.seq < d.seq := (hsound.after _ hpa d rfl).2.2
    rcases hfirst with rfl | hdc
    · exact hlt
    · exact Num.lt_trans hlt hdc
  case notForeign =>
    intro pre a rest hsplit hsa hia c hnext hcomp
    have hmem := pairings_mem rows hsplit hsa
    rw [completionFor_positional (.inl hia), hnext, Option.filter_some,
      if_pos hcomp] at hmem
    exact hsound.notForeign _ hmem c rfl hia
  case emptyId =>
    intro pre a rest hsplit hsa hia c hnext hcomp
    have hmem := pairings_mem rows hsplit hsa
    rw [completionFor_positional (.inr hia), hnext, Option.filter_some,
      if_pos hcomp] at hmem
    exact hsound.sameId _ hmem c rfl "" hia

/-- The first tool row of a list in front of a start lies before it. -/
theorem nextTool_append {pre : List EventRow} (hstart : isStart e = true)
    (h : nextTool (pre ++ e :: rest) = some c) (hcomp : isCompletion c = true) : c ∈ pre := by
  rw [nextTool, List.find?_append] at h
  rcases Option.or_eq_some_iff.mp h with hpre | ⟨-, hrest⟩
  · exact List.mem_of_find?_eq_some hpre
  · have hstart' : e.kind = "tool_started" := of_decide_eq_true hstart
    rw [List.find?_cons_of_pos (by simp [hstart'])] at hrest
    obtain rfl := Option.some.inj hrest
    have hcomp' : e.kind = "tool_completed" := of_decide_eq_true hcomp
    rw [hstart'] at hcomp'
    exact absurd hcomp' (by decide)

/-- Two starts of a task are never paired with one completion. -/
theorem IdsMatch.completions_differ (h : OrderedRows rows) (hmatch : IdsMatch rows)
    {a b d : EventRow} {pre mid post : List EventRow}
    (hsplit : rows = pre ++ a :: (mid ++ b :: post)) (hsa : isShellStart a = true)
    (hsb : isShellStart b = true)
    (hc : completionFor rows (mid ++ b :: post) (invocationId a) = some c)
    (hd : completionFor rows post (invocationId b) = some d) : c.seq ≠ d.seq := by
  have hordered := h.ordered
  rw [hsplit] at hordered
  have htail := (List.pairwise_append.mp hordered).2.1
  have hab : a.seq < b.seq := List.rel_of_pairwise_cons htail (by simp)
  have ha : a ∈ rows := by simp [hsplit]
  have hb : b ∈ rows := by simp [hsplit]
  have hsplit' : rows = (pre ++ a :: mid) ++ b :: post := by simp [hsplit]
  have hmem {x y : EventRow} (hx : x ∈ rows) (hy : y ∈ rows) (hseq : x.seq = y.seq) : x = y :=
    h.eq_of_seq hx hy hseq
  intro hseq
  rcases invocationId_cases a with ⟨ida, hia, hida⟩ | hposa
  · rw [hia] at hc
    obtain ⟨hcmem, hcomp, hcid⟩ := keyed_spec hida hc
    rcases invocationId_cases b with ⟨idb, hib, hidb⟩ | hposb
    · rw [hib] at hd
      obtain ⟨hdmem, -, hdid⟩ := keyed_spec hidb hd
      obtain rfl := hmem hcmem hdmem hseq
      rw [hcid, Option.some.injEq] at hdid
      subst hdid
      have hne : a.seq ≠ b.seq := fun heq => Num.lt_irrefl _ (heq ▸ hab)
      exact hmatch.distinct a ha b hb hsa hsb hne ida hida hia hib c hcmem hcomp hcid
    · obtain ⟨hnext, hdpost, hdcomp⟩ := positional_spec hposb hd
      obtain rfl := hmem hcmem (by simp [hsplit, hdpost]) hseq
      rcases hposb with hib | hib
      · exact hmatch.notForeign _ b post hsplit' hsb hib c hnext hdcomp a ha
          (isStart_of_isShellStart hsa) (by simp [hia]) (hcid.trans hia.symm)
      · have hempty := hmatch.emptyId _ b post hsplit' hsb hib c hnext hdcomp
        rw [hcid, Option.some.injEq] at hempty
        exact hida hempty
  · obtain ⟨hnext, hcrest, hcomp⟩ := positional_spec hposa hc
    have hcmid : c ∈ mid := nextTool_append (isStart_of_isShellStart hsb) hnext hcomp
    have hcrows : c ∈ rows := by simp [hsplit, hcmid]
    rcases invocationId_cases b with ⟨idb, hib, hidb⟩ | hposb
    · rw [hib] at hd
      obtain ⟨hdmem, -, hdid⟩ := keyed_spec hidb hd
      obtain rfl := hmem hcrows hdmem hseq
      rcases hposa with hia | hia
      · exact hmatch.notForeign pre a _ hsplit hsa hia c hnext hcomp b hb
          (isStart_of_isShellStart hsb) (by simp [hib]) (hdid.trans hib.symm)
      · have hempty := hmatch.emptyId pre a _ hsplit hsa hia c hnext hcomp
        rw [hdid, Option.some.injEq] at hempty
        exact hidb hempty
    · obtain ⟨-, hdpost, -⟩ := positional_spec hposb hd
      have hcd : c.seq < d.seq := by
        refine (List.pairwise_append.mp (List.pairwise_cons.mp htail).2).2.2 c hcmid d ?_
        exact List.mem_cons_of_mem _ hdpost
      rw [hseq] at hcd
      exact Num.lt_irrefl _ hcd

theorem IdsMatch.pairwise_pairings (h : OrderedRows rows) (hmatch : IdsMatch rows)
    {pre l : List EventRow} (hsplit : rows = pre ++ l) :
    (pairings rows l).Pairwise fun p q =>
      ∀ c, p.2 = some c → ∀ d, q.2 = some d → c.seq ≠ d.seq := by
  induction l generalizing pre with
  | nil => exact .nil
  | cons a rest ih =>
    have hsplit' : rows = (pre ++ [a]) ++ rest := by rw [hsplit, List.append_cons]
    have hrest := ih hsplit'
    rw [pairings]
    split
    · rename_i hsa
      refine .cons ?_ hrest
      rintro ⟨b, q⟩ hq c hc d hd
      obtain ⟨mid, post, rfl, hsb, hcompl⟩ := mem_pairings hq
      exact hmatch.completions_differ h hsplit hsa hsb hc (hcompl ▸ hd)
    · exact hrest

theorem IdsMatch.soundPairs (h : OrderedRows rows) (hmatch : IdsMatch rows) :
    SoundPairs rows := by
  constructor
  case once =>
    have hsplit : rows = [] ++ rows := rfl
    exact List.pairwise_filterMap.mpr (hmatch.pairwise_pairings h hsplit)
  all_goals
    rintro ⟨a, q⟩ hp c hc
    obtain ⟨pre, rest, hsplit, hsa, hcompl⟩ := mem_pairings hp
    obtain rfl : q = some c := hc
    have ha : a ∈ rows := by simp [hsplit]
    have hordered := h.ordered
    rw [hsplit] at hordered
    have htail := (List.pairwise_append.mp hordered).2.1
  case after =>
    rcases invocationId_cases a with ⟨id, hia, hid⟩ | hpos
    · have hc := hcompl.symm
      simp only [hia] at hc
      obtain ⟨hmem, hcomp, hinv⟩ := keyed_spec hid hc
      exact ⟨hmem, hcomp, hmatch.later a ha hsa id hid hia c hmem hcomp hinv⟩
    · obtain ⟨-, hmem, hcomp⟩ := positional_spec hpos hcompl.symm
      exact ⟨by simp [hsplit, hmem], hcomp, List.rel_of_pairwise_cons htail hmem⟩
  case sameId =>
    intro id hia
    by_cases hid : id = ""
    · subst hid
      obtain ⟨hnext, -, hcomp⟩ := positional_spec (.inr hia) hcompl.symm
      exact hmatch.emptyId pre a rest hsplit hsa hia c hnext hcomp
    · have hc := hcompl.symm
      simp only [hia] at hc
      exact (keyed_spec hid hc).2.2
  case notForeign =>
    intro hia
    obtain ⟨hnext, -, hcomp⟩ := positional_spec (.inl hia) hcompl.symm
    exact hmatch.notForeign pre a rest hsplit hsa hia c hnext hcomp

theorem soundPairs_iff (h : OrderedRows rows) : SoundPairs rows ↔ IdsMatch rows :=
  ⟨SoundPairs.idsMatch h, IdsMatch.soundPairs h⟩

/-! ## Reachable stores -/

/-- The event is not degraded. -/
def Decodes (raw : Json) : Prop := ∃ kind payload, (decodeEvent raw).body = .ok kind payload

theorem Decodes.payload_isObj {raw : Json} (h : Decodes raw) :
    ∃ fields, (rowOf (decodeEvent raw)).payload = some (.obj fields) := by
  obtain ⟨kind, payload, hbody⟩ := h
  have hok : payloadDecoders kind payload = true := by
    unfold decodeEvent at hbody
    split at hbody
    · exact nomatch hbody
    · unfold decodePayload at hbody
      simp only at hbody
      split at hbody
      · exact nomatch hbody
      · split at hbody
        · rename_i hok
          obtain ⟨rfl, rfl⟩ := EventBody.ok.inj hbody
          exact hok
        · exact nomatch hbody
  obtain ⟨fields, rfl⟩ := ValyriaApp.payload_isObj hok
  exact ⟨fields, by simp [rowOf, hbody]⟩

theorem foldl_applyBatch (batches : List (List Json)) (s : StoreState) :
    batches.foldl applyBatch s = batches.flatten.foldl applyRawEvent s := by
  induction batches generalizing s with
  | nil => rfl
  | cons raws batches ih =>
    rw [List.foldl_cons, ih, applyBatch_eq_foldl, List.flatten_cons, List.foldl_append]

theorem orderedRows_of_decodes {batches : List (List Json)}
    (hraws : ∀ raws ∈ batches, ∀ raw ∈ raws, Decodes raw)
    (hsafe : ∀ raws ∈ batches, ∀ raw ∈ raws, ∃ n, CarriesSafeSeq n raw) (taskId : String) :
    OrderedRows (eventsForTask (batches.foldl applyBatch emptyStore) taskId) := by
  obtain ⟨ks, hks⟩ := kept_foldl_applyBatch hsafe
  constructor
  · exact hks.storeInvariant.increasing.filter _
  · intro row hrow
    have hmem := List.mem_of_mem_filter hrow
    rw [foldl_applyBatch, events_foldl_applyRawEvent] at hmem
    obtain ⟨raw, htaken, rfl⟩ := List.mem_map.mp hmem
    obtain ⟨pre, post, hsplit, -⟩ := mem_takenUp.mp htaken
    have hflat : raw ∈ batches.flatten := hsplit ▸ by simp
    obtain ⟨raws, hbatch, hraw⟩ := List.mem_flatten.mp hflat
    exact (hraws raws hbatch raw hraw).payload_isObj

/-- The commands of a task are its shell starts in order, each with the completion chosen for it,
and the choice is sound. -/
structure PairedSoundly (rows : List EventRow) (cmds : List AgentCommand) : Prop where
  entries : List.Forall₂ (fun p cmd => commandOf p.1 p.2 = some cmd ∧ cmd.pending = p.2.isNone)
    (pairings rows rows) cmds
  starts : cmds.map (·.seq) = (rows.filter isShellStart).map (·.seq)
  increasing : (cmds.map (·.seq)).Pairwise (· < ·)
  pairs : SoundPairs rows

theorem agentCommandsForTask_entries {taskId : String}
    (h : OrderedRows (eventsForTask s taskId)) :
    ∃ cmds, agentCommandsForTask s taskId = some cmds ∧
      List.Forall₂ (fun p cmd => commandOf p.1 p.2 = some cmd)
        (pairings (eventsForTask s taskId) (eventsForTask s taskId)) cmds := by
  have hsorted : (eventsForTask s taskId).insertionSort (fun a b => ¬ b.seq < a.seq) =
      eventsForTask s taskId :=
    (h.ordered.imp fun hlt => Num.lt_asymm hlt).insertionSort_eq
  have hreadable : ∀ p ∈ pairings (eventsForTask s taskId) (eventsForTask s taskId),
      (commandOf p.1 p.2).isSome = true := by
    intro p hp
    refine commandOf_isSome_iff.mpr fun c hc => ?_
    obtain ⟨pre, rest, hsplit, -, hcompl⟩ := mem_pairings hp
    rw [hc] at hcompl
    have hmem : c ∈ eventsForTask s taskId := by
      rcases invocationId_cases p.1 with ⟨id, hid, hne⟩ | hpos
      · rw [hid] at hcompl
        exact (keyed_spec hne hcompl.symm).1
      · rw [hsplit]
        exact List.mem_append_right _
          (List.mem_cons_of_mem _ (positional_spec hpos hcompl.symm).2.1)
    obtain ⟨fields, hfields⟩ := h.objects c hmem
    rw [hfields]
    rfl
  rw [agentCommandsForTask, hsorted, agentCommandsFrom_eq]
  obtain ⟨cmds, hcmds⟩ := Option.isSome_iff_exists.mp (Attempts.mapM_isSome.mpr hreadable)
  exact ⟨cmds, hcmds, Attempts.mapM_eq_some.mp hcmds⟩

/-- As long as the numbers are safe integers, the agent commands of a task are paired soundly
exactly when its rows use the ids as the two ways of pairing suppose. -/
theorem commands_paired_iff {batches : List (List Json)}
    (hraws : ∀ raws ∈ batches, ∀ raw ∈ raws, Decodes raw)
    (hsafe : ∀ raws ∈ batches, ∀ raw ∈ raws, ∃ n, CarriesSafeSeq n raw) (taskId : String) :
    (∃ cmds, agentCommandsForTask (batches.foldl applyBatch emptyStore) taskId = some cmds ∧
        PairedSoundly (eventsForTask (batches.foldl applyBatch emptyStore) taskId) cmds) ↔
      IdsMatch (eventsForTask (batches.foldl applyBatch emptyStore) taskId) := by
  have hrows := orderedRows_of_decodes hraws hsafe taskId
  rw [← soundPairs_iff hrows]
  constructor
  · rintro ⟨cmds, -, hpaired⟩
    exact hpaired.pairs
  · intro hsound
    obtain ⟨cmds, hcmds, hentries⟩ := agentCommandsForTask_entries hrows
    have hstarts : cmds.map (·.seq) =
        ((eventsForTask (batches.foldl applyBatch emptyStore) taskId).filter isShellStart).map
          (·.seq) := by
      rw [← map_fst_pairings _ (eventsForTask (batches.foldl applyBatch emptyStore) taskId),
        List.map_map]
      have hseqs := List.forall₂_map_left_iff.mpr (List.forall₂_map_right_iff.mpr
        (hentries.flip.imp fun cmd p hcmd => (commandOf_seq hcmd).1))
      rw [List.forall₂_eq_eq_eq] at hseqs
      exact hseqs
    refine ⟨cmds, hcmds, ?_, hstarts, ?_, hsound⟩
    · exact hentries.imp fun p cmd hcmd => ⟨hcmd, (commandOf_seq hcmd).2⟩
    · rw [hstarts]
      exact List.pairwise_map.mpr (hrows.ordered.filter _)

/-- A shell start without an id, then the completion of an older start that has one. -/
def strayCompletion : List Json :=
  [coreEvent 1 "t" 10 "tool_started"
      (.obj [("tool", .str "read_file"), ("tool_invocation_id", .str "r")]),
    coreEvent 2 "t" 20 "tool_started" (.obj [("tool", .str "bash")]),
    coreEvent 3 "t" 30 "tool_completed" (.obj [("tool_invocation_id", .str "r")])]

theorem decodes_coreEvent (kind : EventKind) {seq tsMs : ℕ} (hseq : seq ≤ 2 ^ 53)
    (hts : tsMs ≤ 2 ^ 53) {taskId : Option String} {payload : Json}
    (h : payloadDecoders kind (some payload) = true) :
    Decodes (coreEvent seq taskId tsMs kind.name payload) := by
  refine ⟨kind, some payload, ?_⟩
  simp only [decodeEvent, wireEventEnvelope_coreEvent hseq hts, decodePayload, hasDecoder_name, h,
    if_true]

theorem strayCompletion_decodes : ∀ raws ∈ [strayCompletion], ∀ raw ∈ raws, Decodes raw := by
  intro raws hraws raw hraw
  obtain rfl := List.mem_singleton.mp hraws
  simp only [strayCompletion, List.mem_cons, List.not_mem_nil, or_false] at hraw
  rcases hraw with rfl | rfl | rfl
  · exact decodes_coreEvent .toolStarted (by norm_num) (by norm_num) (by decide +kernel)
  · exact decodes_coreEvent .toolStarted (by norm_num) (by norm_num) (by decide +kernel)
  · exact decodes_coreEvent .toolCompleted (by norm_num) (by norm_num) (by decide +kernel)

theorem strayCompletion_safe :
    ∀ raws ∈ [strayCompletion], ∀ raw ∈ raws, ∃ n, CarriesSafeSeq n raw := by
  intro raws hraws raw hraw
  obtain rfl := List.mem_singleton.mp hraws
  simp only [strayCompletion, List.mem_cons, List.not_mem_nil, or_false] at hraw
  rcases hraw with rfl | rfl | rfl <;>
    exact ⟨_, carriesSafeSeq_coreEvent (by norm_num) (by norm_num) ..⟩

theorem strayCompletion_paired_iff :
    (∃ cmds, agentCommandsForTask ([strayCompletion].foldl applyBatch emptyStore) "t" = some cmds ∧
        PairedSoundly (eventsForTask ([strayCompletion].foldl applyBatch emptyStore) "t") cmds) ↔
      IdsMatch (eventsForTask ([strayCompletion].foldl applyBatch emptyStore) "t") :=
  commands_paired_iff strayCompletion_decodes strayCompletion_safe "t"

/-- The shell command takes the result of the file read. -/
theorem command_takes_foreign_result :
    (∀ raws ∈ [strayCompletion], ∀ raw ∈ raws, Decodes raw) ∧
      (∀ raws ∈ [strayCompletion], ∀ raw ∈ raws, ∃ n, CarriesSafeSeq n raw) ∧
      ¬ ∃ cmds,
        agentCommandsForTask ([strayCompletion].foldl applyBatch emptyStore) "t" = some cmds ∧
          PairedSoundly (eventsForTask ([strayCompletion].foldl applyBatch emptyStore) "t")
            cmds := by
  refine ⟨strayCompletion_decodes, strayCompletion_safe, ?_⟩
  rintro ⟨cmds, -, hpaired⟩
  have hmatch := hpaired.pairs.idsMatch
    (orderedRows_of_decodes strayCompletion_decodes strayCompletion_safe "t")
  have hrows : (eventsForTask ([strayCompletion].foldl applyBatch emptyStore) "t").map
      (fun r => (r.kind, isShellStart r, invocationId r)) =
      [("tool_started", false, some "r"), ("tool_started", true, none),
        ("tool_completed", false, some "r")] := by decide +kernel
  obtain ⟨a, tail, hsplit, ha, htail⟩ := List.map_eq_cons_iff.mp hrows
  obtain ⟨b, tail, rfl, hb, htail⟩ := List.map_eq_cons_iff.mp htail
  obtain ⟨c, tail, rfl, hc, hnil⟩ := List.map_eq_cons_iff.mp htail
  obtain rfl := List.map_eq_nil_iff.mp hnil
  simp only [Prod.mk.injEq] at ha hb hc
  have hnext : nextTool [c] = some c := by simp [nextTool, hc.1]
  refine hmatch.notForeign [a] b [c] hsplit hb.2.1 hb.2.2 c hnext ?_ a ?_ ?_ ?_ ?_
  · simp [isCompletion, hc.1]
  · exact hsplit ▸ List.mem_cons_self
  · simp [isStart, ha.1]
  · simp [ha.2.2]
  · rw [hc.2.2, ha.2.2]

end ValyriaApp
