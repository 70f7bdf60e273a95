import ValyriaApp.Bridge.ConfigWriter

/-! # Setting a key changes only that key

One host writes one setting. The file operations of `write_key` run by
themselves, any of them may fail, and what the call returns says what the file
holds then: the edited document when it succeeds, what it held before when not.
The edit sets one leaf. A table that stands at the key goes with everything
below it.
-/

namespace ValyriaApp.ConfigWriter

open NestedTable OrderedMap Machine
open Rpc (Bytes)

variable {V : Type}

section Edit

variable {cur doc inner t : Document V} {key rest p : List String} {part : String}
  {value : Scalar V}

theorem kindAt_set_leaf (cur : Document V) (part : String) (value : Scalar V) :
    kindAt (setEntry part (.leaf value) cur) = kindAfter (kindAt cur) [part] value := by
  funext p
  cases p with
  | nil => simp
  | cons j p =>
    rw [kindAfter_cons_cons]
    by_cases hj : j = part
    · subst hj
      by_cases hp : p = [] <;> simp [kindAt, kindAfter, hp]
    · simp [kindAt, hj]

theorem kindAt_set_table (hinner : ∀ p, p ≠ [] → kindAt cur (part :: p) = kindAt inner p)
    (ht : kindAt t = kindAfter (kindAt inner) rest value) :
    kindAt (setEntry part (.table t) cur) = kindAfter (kindAt cur) (part :: rest) value := by
  have hbelow : kindAfter (fun p => kindAt cur (part :: p)) rest value = kindAt t := by
    rw [ht]
    exact kindAfter_congr fun p hp => hinner p fun hnil => hp (hnil ▸ List.nil_prefix)
  funext p
  cases p with
  | nil => simp
  | cons j p =>
    rw [kindAfter_cons_cons, hbelow]
    by_cases hj : j = part <;> simp [kindAt, hj]

theorem kindAt_setDotted (hne : key ≠ []) (h : setDotted cur key value = some doc) :
    kindAt doc = kindAfter (kindAt cur) key value := by
  induction cur, key, value using setDotted.induct generalizing doc with
  | case1 => exact absurd rfl hne
  | case2 cur part value =>
    obtain rfl := Option.some.inj h
    exact kindAt_set_leaf cur part value
  | case3 cur part rest value hrest hget ih =>
    simp only [setDotted, hget, Option.map_eq_some_iff] at h
    obtain ⟨t, ht, rfl⟩ := h
    refine kindAt_set_table (fun p hp => ?_) (ih hrest ht)
    simp [kindAt, hget, kindAt_empty, hp]
  | case4 cur part rest value hrest entry hget ih =>
    simp only [setDotted, hget, Option.map_eq_some_iff] at h
    obtain ⟨t, ht, rfl⟩ := h
    refine kindAt_set_table (fun p _ => ?_) (ih hrest ht)
    simp [kindAt, hget]
  | case5 cur part rest value hrest v hget => simp [setDotted, hget] at h

/-- The edit is refused exactly when a leaf stands on the way to the key. -/
theorem setDotted_isSome_iff (hne : key ≠ []) :
    (setDotted cur key value).isSome ↔ NestedTable.Open (kindAt cur) key := by
  induction cur, key, value using setDotted.induct with
  | case1 => exact absurd rfl hne
  | case2 cur part value =>
    rw [open_cons kindAt_nil]
    simp [setDotted, NestedTable.Open]
  | case3 cur part rest value hrest hget ih =>
    rw [setDotted.eq_3 _ _ _ _ hrest, hget, open_cons kindAt_nil]
    have hopen : NestedTable.Open (fun p => kindAt cur (part :: p)) rest := by
      intro p _ _ a
      simp [kindAt, hget]
    have hempty : NestedTable.Open (kindAt ([] : Document V)) rest := by
      intro p _ _ a
      rw [kindAt_empty]
      split <;> simp
    simpa [hopen] using (ih hrest).mpr hempty
  | case4 cur part rest value hrest entry hget ih =>
    have hentry : (fun p => kindAt cur (part :: p)) = kindAt entry := by
      funext p
      simp [kindAt, hget]
    rw [setDotted.eq_3 _ _ _ _ hrest, hget, open_cons kindAt_nil, hentry]
    simpa using ih hrest
  | case5 cur part rest value hrest v hget =>
    rw [setDotted.eq_3 _ _ _ _ hrest, hget, open_cons kindAt_nil]
    have hshut : ¬ NestedTable.Open (fun p => kindAt cur (part :: p)) rest :=
      fun h => h [] List.nil_prefix (Ne.symm hrest) v (by simp [kindAt, hget])
    simp [hshut]

end Edit

/-- What a `write_key` that finds this file starts from. -/
def document (codec : Codec V) : Option Bytes → Option (Document V)
  | none => some []
  | some text => (codec.parse text).toOption

/-- The document `write_key` turns the file's into. -/
def Edits (codec : Codec V) (call : Call) (before : Option Bytes) (doc : Document V) : Prop :=
  ∃ cur, document codec before = some cur ∧
    setDotted cur call.parts (.string call.value) = some doc

/-- What `write_key` returns, and what the file holds then. -/
inductive Outcome (codec : Codec V) (call : Call) (before : Option Bytes) :
    Except BridgeError Unit → Option Bytes → Prop
  | written {doc : Document V} {text : Bytes} (hdoc : Edits codec call before doc)
      (hprint : codec.print doc = .ok text) : Outcome codec call before (.ok ()) (some text)
  | unreadable {text : Bytes} {e : BridgeError} (hbefore : before = some text)
      (hparse : codec.parse text = .error e) : Outcome codec call before (.error e) before
  | crosses {cur : Document V} (hcur : document codec before = some cur)
      (hset : setDotted cur call.parts (.string call.value) = none) :
      Outcome codec call before (.error (.crosses call.key)) before
  | unserialized {doc : Document V} {e : String} (hdoc : Edits codec call before doc)
      (hprint : codec.print doc = .error e) :
      Outcome codec call before (.error (.serialize e)) before
  | disk (file : File) : Outcome codec call before (.error (.fs file)) before

def Files.content (f : Files) : Option Bytes := f.config.bind fun i => f.inodes[i]?

/-- The only call is the first one, and a file that is there is seen. -/
def Sees (s : State V) (e : Event) : Prop :=
  e.call = false ∧ match s.stage false with
    | .checking => e.succeeds = true
    | _ => True

/-- A call that runs by itself, beside a left-over temporary file, returns `result`; the file held
`before` and then holds `after`. -/
def Writes (codec : Codec V) (call : Call) (before : Option Bytes)
    (result : Except BridgeError Unit) (after : Option Bytes) : Prop :=
  ∃ leftover es s, Guarded (step codec fun _ => call) Sees (start before leftover) es ∧
    run (step codec fun _ => call) (start before leftover) es = some s ∧
    s.stage false = .returned result ∧ s.files.content = after

/-- The file is as the call found it. -/
structure Files.Untouched (before : Option Bytes) (f : Files) : Prop where
  tmp : ∀ i ∈ f.tmp, i < f.inodes.length
  config : ∀ i ∈ f.config, f.Settled i
  content : f.content = before

/-- How far a call has come that runs by itself. -/
def Stage.Alone (codec : Codec V) (call : Call) (before : Option Bytes) (f : Files) :
    Stage V → Prop
  | .checking => f.Untouched before
  | .opening => f.Untouched before ∧ f.config.isSome
  | .reading i text => f.Untouched before ∧ f.config = some i ∧ ∃ rest, before = some (text ++ rest)
  | .makingDir _ doc => f.Untouched before ∧ Edits codec call before doc
  | .creatingTmp _ text => f.Untouched before ∧
    ∃ doc, Edits codec call before doc ∧ codec.print doc = .ok text
  | .writing _ i written rest => f.Untouched before ∧ f.tmp = some i ∧
    f.inodes[i]? = some written ∧
    ∃ doc, Edits codec call before doc ∧ codec.print doc = .ok (written ++ rest)
  | .publishing _ text => f.Untouched before ∧ (∃ i, f.tmp = some i ∧ f.inodes[i]? = some text) ∧
    ∃ doc, Edits codec call before doc ∧ codec.print doc = .ok text
  | .returned result => Outcome codec call before result f.content

section Run

variable {codec : Codec V} {call : Call} {before after : Option Bytes} {s t : State V} {e : Event}
  {f g : Files} {stage : Stage V} {result : Except BridgeError Unit} {doc : Document V}
  {text : Bytes}

theorem Files.Untouched.mono (h : f.Untouched before) (hkeeps : f.Keeps g)
    (hconfig : g.config = f.config) (htmp : ∀ i ∈ g.tmp, i < g.inodes.length) :
    g.Untouched before := by
  constructor
  · exact htmp
  · exact fun i hi => (hkeeps i (h.config i (hconfig ▸ hi))).1
  · rw [← h.content, Files.content, Files.content, hconfig]
    cases hc : f.config with
    | none => rfl
    | some i => exact (hkeeps i (h.config i hc)).2

theorem Files.Untouched.outcome (h : f.Untouched before)
    (hout : Outcome codec call before result before) :
    Outcome codec call before result f.content := by
  rwa [h.content]

/-- Without a file there was none before. -/
theorem Files.Untouched.absent (h : f.Untouched before) (hnone : f.config = none) :
    before = none := by
  rw [← h.content, Files.content, hnone, Option.bind_none]

theorem Files.Untouched.present {i : ℕ} (h : f.Untouched before) (hi : f.config = some i) :
    ∃ x, before = some x := by
  rw [← h.content, Files.content, hi, Option.bind_some]
  exact ⟨_, List.getElem?_eq_getElem (h.config i hi).1⟩

theorem edit_alone {seen : Option ℕ} {cur : Document V} (h : f.Untouched before)
    (hcur : document codec before = some cur) :
    (edit call seen cur).Alone codec call before f := by
  unfold edit
  split
  · rename_i doc hset
    exact ⟨h, cur, hcur, hset⟩
  · rename_i hset
    exact h.outcome (.crosses hcur hset)

theorem serialize_alone {seen : Option ℕ} (h : f.Untouched before)
    (hdoc : Edits codec call before doc) :
    (serialize codec seen doc).Alone codec call before f := by
  unfold serialize
  split
  · rename_i text hprint
    exact ⟨h, doc, hdoc, hprint⟩
  · rename_i e hprint
    exact h.outcome (.unserialized hdoc hprint)

@[simp] theorem State.go_stage (b : Bool) : (s.go b stage).stage b = stage :=
  Function.update_self ..

@[simp] theorem State.go_files (b : Bool) : (s.go b stage).files = s.files := rfl

theorem reading_alone {i : ℕ} (n : ℕ)
    (h : (Stage.reading i text).Alone codec call before s.files) :
    (Stage.reading i (text ++ (((s.files.inodes[i]?).getD []).drop text.length).take n)).Alone
      codec call before s.files := by
  obtain ⟨hf, hi, rest, hrest⟩ := h
  have hx : s.files.inodes[i]? = some (text ++ rest) := by
    rw [← hrest, ← hf.content, Files.content, hi, Option.bind_some]
  refine ⟨hf, hi, rest.drop n, ?_⟩
  simp [hx, hrest]

/-- What was read up to the end of the file is what the file held. -/
theorem before_of_read {i n : ℕ} (h : (Stage.reading i text).Alone codec call before s.files)
    (hend : (((s.files.inodes[i]?).getD []).drop text.length).take (n + 1) = []) :
    before = some text := by
  obtain ⟨hf, hi, rest, hrest⟩ := h
  have hx : s.files.inodes[i]? = some (text ++ rest) := by
    rw [← hrest, ← hf.content, Files.content, hi, Option.bind_some]
  obtain rfl : rest = [] := by simpa [hx] using hend
  rw [hrest, List.append_nil]

theorem creating_alone {seen : Option ℕ} (hf : s.files.Untouched before)
    (hdoc : ∃ doc, Edits codec call before doc ∧ codec.print doc = .ok text) :
    (Stage.writing seen (s.files.create false).1 [] text).Alone codec call before
      (s.files.create false).2 := by
  have hempty := Files.create_empty (b := false) hf.tmp
  refine ⟨hf.mono Files.keeps_create Files.create_config ?_, Files.create_tmp, hempty, hdoc⟩
  intro i hi
  obtain rfl : (s.files.create false).1 = i := Option.some.inj (Files.create_tmp.symm.trans hi)
  exact (List.getElem?_eq_some_iff.mp hempty).1

theorem writing_alone {seen : Option ℕ} {i n : ℕ} {written rest : Bytes}
    (h : (Stage.writing seen i written rest).Alone codec call before s.files) :
    (Stage.writing seen i (written ++ rest.take n) (rest.drop n)).Alone codec call before
      (s.files.write i written.length (rest.take n)) := by
  obtain ⟨hf, htmp, hcontent, hdoc⟩ := h
  have hkeeps : s.files.Keeps (s.files.write i written.length (rest.take n)) :=
    Files.keeps_write htmp
  refine ⟨hf.mono hkeeps rfl ?_, htmp, ?_, ?_⟩
  · intro j hj
    simpa [Files.write] using hf.tmp j hj
  · simp [Files.write, hcontent]
  · rwa [List.append_assoc, List.take_append_drop]

theorem Stage.Alone.untouched (h : stage.Alone codec call before f)
    (hstage : ∀ result, stage ≠ .returned result) : f.Untouched before := by
  cases stage with
  | checking => exact h
  | returned result => exact absurd rfl (hstage result)
  | _ => exact h.1

theorem step_alone (h : (s.stage false).Alone codec call before s.files) (hsees : Sees s e)
    (hstep : step codec (fun _ => call) s e = some t) :
    (t.stage false).Alone codec call before t.files := by
  obtain ⟨b, ok, n⟩ := e
  obtain ⟨rfl, hsees⟩ := hsees
  have hat {stage : Stage V} (hstage : s.stage false = stage) :
      stage.Alone codec call before s.files := hstage ▸ h
  cases advances_of_step hstep with
  | found hstage hthere =>
    rw [State.go_stage]
    exact ⟨hat hstage, hthere⟩
  | missing hstage hthere =>
    rw [hstage] at hsees
    have hnone := hthere hsees
    rw [State.go_stage]
    exact edit_alone (hat hstage) (by rw [(hat hstage).absent hnone, document])
  | opened hstage hi =>
    obtain ⟨hf, -⟩ := hat hstage
    obtain ⟨x, hx⟩ := hf.present hi
    rw [State.go_stage]
    exact ⟨hf, hi, x, hx⟩
  | read hstage =>
    rw [State.go_stage]
    exact reading_alone _ (hat hstage)
  | parsed hstage hend hparse =>
    have hbefore := before_of_read (hat hstage) hend
    rw [State.go_stage]
    exact edit_alone (hat hstage).1 (by rw [hbefore, document, hparse, Except.toOption])
  | unreadable hstage hend hparse =>
    have hbefore := before_of_read (hat hstage) hend
    rw [State.fail, State.go_stage]
    exact (hat hstage).1.outcome (.unreadable hbefore hparse)
  | madeDir hstage =>
    rw [State.go_stage]
    exact serialize_alone (hat hstage).1 (hat hstage).2
  | created hstage =>
    rw [State.go_stage]
    exact creating_alone (hat hstage).1 (hat hstage).2
  | wrote hstage hrest hok =>
    rw [State.go_stage]
    exact writing_alone (hat hstage)
  | written hstage =>
    obtain ⟨hf, htmp, hcontent, hdoc⟩ := hat hstage
    rw [List.append_nil] at hdoc
    rw [State.go_stage]
    exact ⟨hf, ⟨_, htmp, hcontent⟩, hdoc⟩
  | @published seen text i hstage htmp hok =>
    obtain ⟨hf, ⟨j, hj, hcontent⟩, doc, hdoc, hprint⟩ := hat hstage
    obtain rfl : i = j := Option.some.inj (htmp.symm.trans hj)
    rw [State.go_stage]
    show Outcome codec call before (.ok ()) (s.files.inodes[i]?)
    rw [hcontent]
    exact .written hdoc hprint
  | @failed file hstage =>
    rw [State.fail, State.go_stage]
    exact (h.untouched hstage).outcome (.disk file)

theorem start_untouched (before leftover : Option Bytes) :
    (start before leftover : State V).files.Untouched before := by
  constructor <;> cases before <;> cases leftover <;>
    simp [start, Files.Settled, Files.content]

/-- What a call that runs by itself returns says what the file then holds. -/
theorem Writes.outcome (h : Writes codec call before result after) :
    Outcome codec call before result after := by
  obtain ⟨leftover, es, s, hsees, hrun, hstage, rfl⟩ := h
  have hstep : Preserves (step codec fun _ => call) Sees fun s =>
      (s.stage false).Alone codec call before s.files := fun _ _ _ => step_alone
  have hstart : (Stage.checking : Stage V).Alone codec call before
      (start before leftover : State V).files := start_untouched before leftover
  have halone := hstep.run hstart hsees hrun
  rwa [hstage] at halone

/-- The call goes on to return `Ok`. -/
def Succeeds (codec : Codec V) (call : Call) (s : State V) : Prop :=
  ∃ es t, Guarded (step codec fun _ => call) Sees s es ∧
    run (step codec fun _ => call) s es = some t ∧ t.stage false = .returned (.ok ())

theorem Succeeds.step (h : Succeeds codec call t) (hsees : Sees s e)
    (hstep : step codec (fun _ => call) s e = some t) : Succeeds codec call s := by
  obtain ⟨es, u, hguard, hrun, hu⟩ := h
  exact ⟨e :: es, u, hguard.cons hsees hstep, run_cons_eq_some.mpr ⟨t, hstep, hrun⟩, hu⟩

/-- A file operation of the call that succeeds and moves all the bytes there are, up to `n`. -/
abbrev operation (n : ℕ) : Event := ⟨false, true, n⟩

theorem sees_operation (s : State V) (n : ℕ) : Sees s (operation n) := by
  refine ⟨rfl, ?_⟩
  split <;> trivial

theorem succeeds_publishing {seen : Option ℕ} {i : ℕ}
    (hstage : s.stage false = .publishing seen text) (htmp : s.files.tmp = some i) :
    Succeeds codec call s := by
  refine Succeeds.step (?_ : Succeeds codec call ({ s with files :=
    { s.files with config := some i, tmp := none } }.go false (.returned (.ok ()))))
    (sees_operation s 0) ?_
  · exact ⟨[], _, guarded_nil, rfl, State.go_stage false⟩
  · simp only [ConfigWriter.step, hstage, htmp, if_true]

theorem succeeds_written {seen : Option ℕ} {i : ℕ} {written : Bytes}
    (hstage : s.stage false = .writing seen i written []) (htmp : s.files.tmp = some i) :
    Succeeds codec call s := by
  refine Succeeds.step (t := s.go false (.publishing seen written)) ?_ (sees_operation s 0) ?_
  · exact succeeds_publishing (State.go_stage false) htmp
  · simp only [ConfigWriter.step, hstage, if_true]

theorem succeeds_writing {seen : Option ℕ} {i : ℕ} {written rest : Bytes}
    (hstage : s.stage false = .writing seen i written rest) (htmp : s.files.tmp = some i) :
    Succeeds codec call s := by
  by_cases hrest : rest = []
  · subst hrest
    exact succeeds_written hstage htmp
  · have hdrop : rest.drop (rest.length + 1) = [] := List.drop_of_length_le (by omega)
    have htake : rest.take (rest.length + 1) = rest := List.take_of_length_le (by omega)
    refine Succeeds.step (?_ : Succeeds codec call
      ({ s with files := s.files.write i written.length rest }.go false
        (.writing seen i (written ++ rest) []))) (sees_operation s rest.length) ?_
    · exact succeeds_written (State.go_stage false) htmp
    · simp only [ConfigWriter.step, hstage, if_neg hrest, if_true, htake, hdrop]

theorem succeeds_creating {seen : Option ℕ} (hstage : s.stage false = .creatingTmp seen text) :
    Succeeds codec call s := by
  refine Succeeds.step (?_ : Succeeds codec call ({ s with files := (s.files.create false).2 }.go
    false (.writing seen (s.files.create false).1 [] text))) (sees_operation s 0) ?_
  · exact succeeds_writing (State.go_stage false) Files.create_tmp
  · simp only [ConfigWriter.step, hstage, if_true]

theorem succeeds_edit (seen : Option ℕ) {cur : Document V}
    (hset : setDotted cur call.parts (.string call.value) = some doc)
    (hprint : codec.print doc = .ok text) :
    Succeeds codec call (s.go false (edit call seen cur)) := by
  have hedit : edit call seen cur = .makingDir seen doc := by rw [edit, hset]
  rw [hedit]
  refine Succeeds.step (?_ : Succeeds codec call ((s.go false (.makingDir seen doc)).go false
    (.creatingTmp seen text))) (sees_operation _ 0) ?_
  · exact succeeds_creating (State.go_stage false)
  · simp only [ConfigWriter.step, State.go_stage, if_true, serialize, hprint]

theorem succeeds_reading {i : ℕ} {cur : Document V} (hstage : s.stage false = .reading i text)
    (hi : s.files.inodes[i]? = some text) (hparse : codec.parse text = .ok cur)
    (hset : setDotted cur call.parts (.string call.value) = some doc) {serialized : Bytes}
    (hprint : codec.print doc = .ok serialized) : Succeeds codec call s := by
  refine Succeeds.step (succeeds_edit (s := s) (some i) hset hprint) (sees_operation s 0) ?_
  simp [ConfigWriter.step, hstage, hi, hparse]

theorem succeeds_opened {i : ℕ} {cur : Document V} (hstage : s.stage false = .reading i [])
    (hi : s.files.inodes[i]? = some text) (hparse : codec.parse text = .ok cur)
    (hset : setDotted cur call.parts (.string call.value) = some doc) {serialized : Bytes}
    (hprint : codec.print doc = .ok serialized) : Succeeds codec call s := by
  by_cases htext : text = []
  · subst htext
    exact succeeds_reading hstage hi hparse hset hprint
  · refine Succeeds.step (?_ : Succeeds codec call (s.go false (.reading i text)))
      (sees_operation s text.length) ?_
    · exact succeeds_reading (State.go_stage false) hi hparse hset hprint
    · have htake : text.take (text.length + 1) = text := List.take_of_length_le (by omega)
      simp [ConfigWriter.step, hstage, hi, htext, htake]

/-- Where the edit is possible and prints, nothing but the disk keeps the call from succeeding. -/
theorem exists_writes (hdoc : Edits codec call before doc) (hprint : codec.print doc = .ok text) :
    ∃ after, Writes codec call before (.ok ()) after := by
  obtain ⟨cur, hcur, hset⟩ := hdoc
  suffices hsucceeds : Succeeds codec call (start before none) by
    obtain ⟨es, s, hsees, hrun, hstage⟩ := hsucceeds
    exact ⟨_, none, es, s, hsees, hrun, hstage, rfl⟩
  cases before with
  | none =>
    obtain rfl : [] = cur := Option.some.inj hcur
    refine Succeeds.step (succeeds_edit (s := start none none) none hset hprint)
      (sees_operation _ 0) ?_
    simp [ConfigWriter.step, start]
  | some x =>
    obtain ⟨read, hparse, rfl⟩ : ∃ read, codec.parse x = .ok read ∧ read = cur := by
      cases hparse : codec.parse x with
      | error e => simp [document, hparse, Except.toOption] at hcur
      | ok read => exact ⟨read, rfl, by simpa [document, hparse, Except.toOption] using hcur⟩
    refine Succeeds.step (?_ : Succeeds codec call ((start (some x) none).go false .opening))
      (sees_operation _ 0) rfl
    refine Succeeds.step (?_ : Succeeds codec call
      (((start (some x) none).go false .opening).go false (.reading 0 [])))
      (sees_operation _ 0) ?_
    · exact succeeds_opened (State.go_stage false) rfl hparse hset hprint
    · simp [ConfigWriter.step, start]

end Run

/-- The crate prints a document by what it says: it keeps the keys of a table in order. -/
def Codec.Canonical (codec : Codec V) : Prop :=
  ∀ doc other, Agree doc other → codec.print doc = codec.print other

/-- A result for which neither the disk nor the serializer is to blame. -/
def Decided : Except BridgeError Unit → Prop
  | .error (.fs _) => False
  | .error (.serialize _) => False
  | _ => True

/-- The calls are made one after the other. -/
def WritesAll (codec : Codec V) : List Call → Option Bytes → Option Bytes → Prop
  | [], before, after => after = before
  | call :: calls, before, after => ∃ result mid, Writes codec call before result mid ∧
      Decided result ∧ WritesAll codec calls mid after

/-- Setting the key changes only that key. -/
structure SetsOnly (codec : Codec V) (call : Call) (before : Option Bytes) : Prop where
  written : ∀ after, Writes codec call before (.ok ()) after →
    ∃ cur now, document codec before = some cur ∧ document codec after = some now ∧
      leafAt now call.parts = some (.string call.value) ∧
      ∀ p, p ≠ call.parts → leafAt now p = leafAt cur p
  refused : ∀ e after, Writes codec call before (.error e) after → after = before
  again : ∀ after result later, Writes codec call before (.ok ()) after →
    Writes codec call after result later → later = after
  commutes : ∀ other, ¬ call.parts <+: other.parts → ¬ other.parts <+: call.parts →
    ∀ after after', WritesAll codec [call, other] before after →
      WritesAll codec [other, call] before after' → after = after'

/-- The text of a document that says `kind`. -/
def Prints (codec : Codec V) (kind : List String → Option (Kind (Scalar V))) (text : Bytes) :
    Prop :=
  ∃ doc, kindAt doc = kind ∧ codec.print doc = .ok text

section Settings

variable {codec : Codec V} {call other : Call} {before after mid : Option Bytes}
  {result : Except BridgeError Unit} {cur doc : Document V} {text x y : Bytes}
  {kind : List String → Option (Kind (Scalar V))}

theorem Prints.document (h : Prints codec kind text) :
    ∃ now, document codec (some text) = some now ∧ kindAt now = kind := by
  obtain ⟨doc, rfl, hprint⟩ := h
  obtain ⟨now, hparse, hnow⟩ := codec.parse_print doc text hprint
  exact ⟨now, by simp [ConfigWriter.document, hparse, Except.toOption], funext hnow⟩

theorem Prints.unique (hcanon : codec.Canonical) (hx : Prints codec kind x)
    (hy : Prints codec kind y) : x = y := by
  obtain ⟨doc, rfl, hdoc⟩ := hx
  obtain ⟨doc', hkind, hdoc'⟩ := hy
  rw [hcanon doc' doc (congrFun hkind), hdoc] at hdoc'
  exact Except.ok.inj hdoc'

theorem Edits.kindAt (h : Edits codec call before doc) (hcur : document codec before = some cur) :
    NestedTable.Open (NestedTable.kindAt cur) call.parts ∧
      NestedTable.kindAt doc =
        kindAfter (NestedTable.kindAt cur) call.parts (.string call.value) := by
  obtain ⟨cur', hcur', hset⟩ := h
  obtain rfl : cur = cur' := Option.some.inj (hcur.symm.trans hcur')
  have hne : call.parts ≠ [] := parts_ne_nil call.key
  have hsome : (setDotted cur call.parts (.string call.value)).isSome := by
    rw [hset, Option.isSome_some]
  exact ⟨(setDotted_isSome_iff hne).mp hsome, kindAt_setDotted hne hset⟩

theorem exists_edits (hcur : document codec before = some cur)
    (hopen : NestedTable.Open (kindAt cur) call.parts) : ∃ doc, Edits codec call before doc := by
  have hsome : (setDotted cur call.parts (.string call.value)).isSome :=
    (setDotted_isSome_iff (parts_ne_nil call.key)).mpr hopen
  obtain ⟨doc, hset⟩ := Option.isSome_iff_exists.mp hsome
  exact ⟨doc, cur, hcur, hset⟩

theorem Writes.prints (h : Writes codec call before (.ok ()) after) :
    ∃ cur text, document codec before = some cur ∧ after = some text ∧
      NestedTable.Open (kindAt cur) call.parts ∧
      Prints codec (kindAfter (kindAt cur) call.parts (.string call.value)) text := by
  obtain ⟨doc, text, hdoc, hprint, rfl⟩ : ∃ doc text, Edits codec call before doc ∧
      codec.print doc = .ok text ∧ after = some text := by
    cases h.outcome with
    | written hdoc hprint => exact ⟨_, _, hdoc, hprint, rfl⟩
  have hedits := hdoc
  obtain ⟨cur, hcur, -⟩ := hedits
  obtain ⟨hopen, hkind⟩ := hdoc.kindAt hcur
  exact ⟨cur, text, hcur, rfl, hopen, doc, hkind, hprint⟩

theorem Writes.refused {e : BridgeError} (h : Writes codec call before (.error e) after) :
    after = before := by
  cases h.outcome <;> rfl

theorem Writes.unreadable (h : Writes codec call before result after)
    (hbefore : document codec before = none) : after = before := by
  cases result with
  | error e => exact h.refused
  | ok u =>
    obtain ⟨cur, -, hcur, -⟩ := h.prints
    rw [hbefore] at hcur
    cases hcur

theorem Writes.shut (h : Writes codec call before result after)
    (hcur : document codec before = some cur)
    (hshut : ¬ NestedTable.Open (kindAt cur) call.parts) : after = before := by
  cases result with
  | error e => exact h.refused
  | ok u =>
    obtain ⟨cur', -, hcur', -, hopen, -⟩ := h.prints
    obtain rfl : cur = cur' := Option.some.inj (hcur.symm.trans hcur')
    exact absurd hopen hshut

theorem Writes.opened (h : Writes codec call before result after) (hdecided : Decided result)
    (hcur : document codec before = some cur)
    (hopen : NestedTable.Open (kindAt cur) call.parts) :
    ∃ text, after = some text ∧
      Prints codec (kindAfter (kindAt cur) call.parts (.string call.value)) text := by
  have hset : ∃ doc, setDotted cur call.parts (.string call.value) = some doc :=
    Option.isSome_iff_exists.mp ((setDotted_isSome_iff (parts_ne_nil call.key)).mpr hopen)
  cases hout : h.outcome with
  | written hdoc hprint => exact ⟨_, rfl, _, (hdoc.kindAt hcur).2, hprint⟩
  | unreadable hbefore hparse =>
    simp [hbefore, document, hparse, Except.toOption] at hcur
  | crosses hcur' hnone =>
    obtain rfl := Option.some.inj (hcur.symm.trans hcur')
    simp [hnone] at hset
  | unserialized => exact hdecided.elim
  | disk => exact hdecided.elim

/-- The second of two calls finds its key open after the first exactly when it was open before. -/
theorem open_of_prints (hprints : Prints codec
      (kindAfter (kindAt cur) call.parts (.string call.value)) text)
    (hcall : NestedTable.Open (kindAt cur) call.parts)
    (hkeys : ¬ call.parts <+: other.parts) :
    ∃ now, document codec (some text) = some now ∧
      kindAt now = kindAfter (kindAt cur) call.parts (.string call.value) ∧
      (NestedTable.Open (kindAt now) other.parts ↔ NestedTable.Open (kindAt cur) other.parts) := by
  obtain ⟨now, hnow, hkind⟩ := hprints.document
  refine ⟨now, hnow, hkind, ?_⟩
  rw [hkind]
  exact open_kindAfter hcall hkeys

theorem writesAll_both (h : WritesAll codec [call, other] before after)
    (hkeys : ¬ call.parts <+: other.parts) (hcur : document codec before = some cur)
    (hcall : NestedTable.Open (kindAt cur) call.parts)
    (hother : NestedTable.Open (kindAt cur) other.parts) :
    ∃ text, after = some text ∧ Prints codec
      (kindAfter (kindAfter (kindAt cur) call.parts (.string call.value)) other.parts
        (.string other.value)) text := by
  obtain ⟨r₁, _, hfirst, hd₁, r₂, _, hsecond, hd₂, rfl⟩ := h
  obtain ⟨x, rfl, hx⟩ := hfirst.opened hd₁ hcur hcall
  obtain ⟨now, hnow, hkind, hopen⟩ := open_of_prints hx hcall hkeys
  rw [← hkind]
  exact hsecond.opened hd₂ hnow (hopen.mpr hother)

theorem writesAll_first (h : WritesAll codec [call, other] before after)
    (hkeys : ¬ call.parts <+: other.parts) (hcur : document codec before = some cur)
    (hcall : NestedTable.Open (kindAt cur) call.parts)
    (hother : ¬ NestedTable.Open (kindAt cur) other.parts) :
    ∃ text, after = some text ∧
      Prints codec (kindAfter (kindAt cur) call.parts (.string call.value)) text := by
  obtain ⟨r₁, _, hfirst, hd₁, r₂, _, hsecond, -, rfl⟩ := h
  obtain ⟨x, rfl, hx⟩ := hfirst.opened hd₁ hcur hcall
  obtain ⟨now, hnow, -, hopen⟩ := open_of_prints hx hcall hkeys
  exact ⟨x, hsecond.shut hnow (mt hopen.mp hother), hx⟩

theorem writesAll_second (h : WritesAll codec [call, other] before after)
    (hcur : document codec before = some cur)
    (hcall : ¬ NestedTable.Open (kindAt cur) call.parts)
    (hother : NestedTable.Open (kindAt cur) other.parts) :
    ∃ text, after = some text ∧
      Prints codec (kindAfter (kindAt cur) other.parts (.string other.value)) text := by
  obtain ⟨r₁, mid, hfirst, -, r₂, _, hsecond, hd₂, rfl⟩ := h
  obtain rfl : mid = before := hfirst.shut hcur hcall
  exact hsecond.opened hd₂ hcur hother

theorem writesAll_neither (h : WritesAll codec [call, other] before after)
    (hcur : document codec before = some cur)
    (hcall : ¬ NestedTable.Open (kindAt cur) call.parts)
    (hother : ¬ NestedTable.Open (kindAt cur) other.parts) : after = before := by
  obtain ⟨r₁, mid, hfirst, -, r₂, _, hsecond, -, rfl⟩ := h
  obtain rfl : mid = before := hfirst.shut hcur hcall
  exact hsecond.shut hcur hother

theorem writesAll_unreadable (h : WritesAll codec [call, other] before after)
    (hbefore : document codec before = none) : after = before := by
  obtain ⟨r₁, mid, hfirst, -, r₂, _, hsecond, -, rfl⟩ := h
  obtain rfl : mid = before := hfirst.unreadable hbefore
  exact hsecond.unreadable hbefore

/-- Two calls leave the same file in either order when neither key leads to the other. -/
theorem writesAll_comm {after' : Option Bytes} (hcanon : codec.Canonical)
    (hkl : ¬ call.parts <+: other.parts) (hlk : ¬ other.parts <+: call.parts)
    (h : WritesAll codec [call, other] before after)
    (h' : WritesAll codec [other, call] before after') : after = after' := by
  cases hcur : document codec before with
  | none => rw [writesAll_unreadable h hcur, writesAll_unreadable h' hcur]
  | some cur =>
    by_cases hcall : NestedTable.Open (kindAt cur) call.parts <;>
      by_cases hother : NestedTable.Open (kindAt cur) other.parts
    · obtain ⟨x, rfl, hx⟩ := writesAll_both h hkl hcur hcall hother
      obtain ⟨y, rfl, hy⟩ := writesAll_both h' hlk hcur hother hcall
      rw [kindAfter_comm hkl hlk] at hx
      rw [hx.unique hcanon hy]
    · obtain ⟨x, rfl, hx⟩ := writesAll_first h hkl hcur hcall hother
      obtain ⟨y, rfl, hy⟩ := writesAll_second h' hcur hother hcall
      rw [hx.unique hcanon hy]
    · obtain ⟨x, rfl, hx⟩ := writesAll_second h hcur hcall hother
      obtain ⟨y, rfl, hy⟩ := writesAll_first h' hlk hcur hother hcall
      rw [hx.unique hcanon hy]
    · rw [writesAll_neither h hcur hcall hother, writesAll_neither h' hcur hother hcall]

theorem Writes.again {later : Option Bytes} (hcanon : codec.Canonical)
    (h : Writes codec call before (.ok ()) after) (h' : Writes codec call after result later) :
    later = after := by
  cases result with
  | error e => exact h'.refused
  | ok u =>
    obtain ⟨cur, x, -, rfl, -, hx⟩ := h.prints
    obtain ⟨now, y, hnow, rfl, -, hy⟩ := h'.prints
    obtain ⟨now', hnow', hkind⟩ := hx.document
    obtain rfl : now = now' := Option.some.inj (hnow.symm.trans hnow')
    rw [hkind, kindAfter_idem] at hy
    rw [hy.unique hcanon hx]

/-- Where nothing stands below the key, the other leaves stay as they are. -/
theorem leafAt_kindAfter {now : Document V} {key p : List String} {value : Scalar V}
    (hkind : kindAt now = kindAfter (kindAt cur) key value)
    (hopen : NestedTable.Open (kindAt cur) key)
    (hbelow : ∀ p, key <+: p → p ≠ key → leafAt cur p = none) (hp : p ≠ key) :
    leafAt now p = leafAt cur p := by
  by_cases hkp : key <+: p
  · rw [hbelow p hkp hp, leafAt, hkind, kindAfter_below hp hkp]
  by_cases hpk : p <+: key
  · have hnone : leafAt cur p = none :=
      Option.eq_none_iff_forall_ne_some.mpr fun a ha =>
        hopen p hpk hp a (leafAt_eq_some_iff.mp ha)
    rw [hnone, leafAt, hkind, kindAfter_above hp hpk]
  · exact leafAt_congr (by rw [hkind, kindAfter_beside hkp hpk])

theorem open_of_leaf_below {key p : List String} {a : Scalar V} (hleaf : leafAt cur p = some a)
    (hkp : key <+: p) : NestedTable.Open (kindAt cur) key := by
  intro q hqk hne b hb
  have hqp : p ≠ q := by
    rintro rfl
    exact hne (hqk.eq_of_length_le hkp.length_le)
  have hnone := kindAt_below_leaf hb (hqk.trans hkp) hqp
  rw [leafAt_eq_some_iff, hnone] at hleaf
  cases hleaf

/-- Setting a key changes only that key exactly when no leaf of the file stands below it. -/
theorem setsOnly_iff (codec : Codec V) (call : Call) (before : Option Bytes)
    (hcanon : codec.Canonical)
    (hprint : ∀ doc, Edits codec call before doc → ∃ text, codec.print doc = .ok text) :
    SetsOnly codec call before ↔ ∀ cur, document codec before = some cur →
      ∀ p, call.parts <+: p → p ≠ call.parts → leafAt cur p = none := by
  constructor
  · intro h cur hcur p hkp hne
    by_contra hsome
    obtain ⟨a, ha⟩ := Option.ne_none_iff_exists'.mp hsome
    obtain ⟨doc, hdoc⟩ := exists_edits hcur (open_of_leaf_below ha hkp)
    obtain ⟨text, htext⟩ := hprint doc hdoc
    obtain ⟨after, hafter⟩ := exists_writes hdoc htext
    obtain ⟨cur', now, hcur', hnow, -, hrest⟩ := h.written after hafter
    obtain ⟨cur'', x, hcur'', rfl, -, hx⟩ := hafter.prints
    obtain rfl : cur = cur' := Option.some.inj (hcur.symm.trans hcur')
    obtain rfl : cur = cur'' := Option.some.inj (hcur.symm.trans hcur'')
    obtain ⟨now', hnow', hkind⟩ := hx.document
    obtain rfl : now = now' := Option.some.inj (hnow.symm.trans hnow')
    have hgone : leafAt now p = none := by rw [leafAt, hkind, kindAfter_below hne hkp]
    rw [← hrest p hne, hgone] at ha
    cases ha
  · intro hbelow
    constructor
    · intro after hafter
      obtain ⟨cur, x, hcur, rfl, hopen, hx⟩ := hafter.prints
      obtain ⟨now, hnow, hkind⟩ := hx.document
      refine ⟨cur, now, hcur, hnow, ?_, ?_⟩
      · rw [leafAt_eq_some_iff, hkind, kindAfter_self]
      · exact fun p hp => leafAt_kindAfter hkind hopen (hbelow cur hcur) hp
    · exact fun e after h => h.refused
    · exact fun after result later h h' => h.again hcanon h'
    · exact fun other hkl hlk after after' h h' => writesAll_comm hcanon hkl hlk h h'

end Settings

section Example

/-- A crate that knows a few documents and their texts. -/
def Codec.ofTexts (texts : List (Document Unit × Bytes)) (hnodup : (texts.map Prod.snd).Nodup) :
    Codec Unit where
  parse x := (texts.find? fun e => e.2 = x).elim (.error (.notToml "expected a value"))
    fun e => .ok e.1
  print doc := (texts.find? fun e => Agree doc e.1).elim (.error "unsupported")
    fun e => .ok e.2
  parse_print := by
    intro doc x h
    cases hfind : texts.find? fun e => Agree doc e.1 with
    | none => simp [hfind] at h
    | some e =>
      obtain rfl : e.2 = x := by simpa [hfind] using h
      have hmem := List.mem_of_find?_eq_some hfind
      have hagree : Agree doc e.1 := by simpa using List.find?_some hfind
      obtain ⟨e', hfind'⟩ : ∃ e', texts.find? (fun e' => e'.2 = e.2) = some e' := by
        rw [← Option.isSome_iff_exists, List.find?_isSome]
        exact ⟨e, hmem, by simp⟩
      have hsnd : e'.2 = e.2 := by simpa using List.find?_some hfind'
      obtain rfl : e' = e :=
        List.inj_on_of_nodup_map hnodup (List.mem_of_find?_eq_some hfind') hmem hsnd
      exact ⟨e'.1, by simp [hfind'], fun p => (hagree p).symm⟩

theorem Codec.canonical_ofTexts (texts : List (Document Unit × Bytes))
    (hnodup : (texts.map Prod.snd).Nodup) : (Codec.ofTexts texts hnodup).Canonical := by
  intro doc other hagree
  have hiff : ∀ e : Document Unit × Bytes, Agree doc e.1 ↔ Agree other e.1 := by
    intro e
    exact forall_congr' fun p => by rw [hagree p]
  simp only [Codec.ofTexts, hiff]

def jsonText : Bytes := Lib.Utf8.ascii "[log]\nformat = \"json\"\n".toList

def prettyText : Bytes := Lib.Utf8.ascii "[log]\nformat = \"pretty\"\n".toList

def scalarText : Bytes := Lib.Utf8.ascii "log = \"pretty\"\n".toList

def prettyFormat : Document Unit := [("log", .table [("format", .leaf (.string "pretty"))])]

def scalarLog : Document Unit := [("log", .leaf (.string "pretty"))]

def logCodec : Codec Unit :=
  .ofTexts [([logFormat], jsonText), (prettyFormat, prettyText), (scalarLog, scalarText)]
    (by decide +kernel)

theorem document_jsonText : document logCodec (some jsonText) = some [logFormat] := by
  simp [document, logCodec, Codec.ofTexts, Except.toOption]

theorem prints_edits {call : Call} {edited : Document Unit} {text : Bytes}
    (hset : setDotted [logFormat] call.parts (.string call.value) = some edited)
    (hprint : logCodec.print edited = .ok text) (doc : Document Unit)
    (hdoc : Edits logCodec call (some jsonText) doc) : ∃ text, logCodec.print doc = .ok text := by
  obtain ⟨cur, hcur, hdoc⟩ := hdoc
  obtain rfl := Option.some.inj (document_jsonText.symm.trans hcur)
  obtain rfl := Option.some.inj (hset.symm.trans hdoc)
  exact ⟨text, hprint⟩

theorem format_setsOnly : SetsOnly logCodec ⟨"log.format", "pretty"⟩ (some jsonText) := by
  have hparts : parts "log.format" = ["log", "format"] := by decide +kernel
  have hset : setDotted [logFormat] (parts "log.format") (.string "pretty") =
      some prettyFormat := by
    rw [hparts]
    rfl
  have hpretty : ¬ Agree prettyFormat [logFormat] := by decide +kernel
  have hsame : Agree prettyFormat prettyFormat := fun _ => rfl
  have hprint : logCodec.print prettyFormat = .ok prettyText := by
    simp [logCodec, Codec.ofTexts, hpretty, hsame]
  refine (setsOnly_iff logCodec ⟨"log.format", "pretty"⟩ (some jsonText)
    (Codec.canonical_ofTexts _ _) (prints_edits hset hprint)).mpr ?_
  intro cur hcur p hprefix hne
  obtain rfl := Option.some.inj (document_jsonText.symm.trans hcur)
  have hleaf : kindAt [logFormat] (parts "log.format") = some (.leaf (.string "json")) := by
    rw [hparts]
    decide +kernel
  rw [leafAt, kindAt_below_leaf hleaf hprefix hne]

/-- The key `log` names a table of the file. The call reports success, and the table is gone. -/
theorem table_replaced :
    ¬ ∀ (codec : Codec Unit) (call : Call) (before : Option Bytes), codec.Canonical →
      (∀ doc, Edits codec call before doc → ∃ text, codec.print doc = .ok text) →
      SetsOnly codec call before := by
  intro h
  have hparts : parts "log" = ["log"] := by decide +kernel
  have hset : setDotted [logFormat] (parts "log") (.string "pretty") = some scalarLog := by
    rw [hparts]
    rfl
  have hjson : ¬ Agree scalarLog [logFormat] := by decide +kernel
  have hpretty : ¬ Agree scalarLog prettyFormat := by decide +kernel
  have hsame : Agree scalarLog scalarLog := fun _ => rfl
  have hprint : logCodec.print scalarLog = .ok scalarText := by
    simp [logCodec, Codec.ofTexts, hjson, hpretty, hsame]
  have hsets := h logCodec ⟨"log", "pretty"⟩ (some jsonText) (Codec.canonical_ofTexts _ _)
    (prints_edits hset hprint)
  have hedits : Edits logCodec ⟨"log", "pretty"⟩ (some jsonText) scalarLog :=
    ⟨[logFormat], document_jsonText, hset⟩
  obtain ⟨after, hafter⟩ := exists_writes hedits hprint
  obtain ⟨cur, now, hcur, hnow, hvalue, hrest⟩ := hsets.written after hafter
  obtain rfl := Option.some.inj (document_jsonText.symm.trans hcur)
  have hformat := hrest ["log", "format"] (by rw [Call.parts, hparts]; decide)
  have hold : leafAt [logFormat] ["log", "format"] = some (Scalar.string "json") := by
    decide +kernel
  have hgone : leafAt now ["log", "format"] = none := by
    rw [Call.parts, hparts, leafAt_eq_some_iff] at hvalue
    rw [leafAt, kindAt_below_leaf hvalue (by simp) (by simp)]
  rw [hgone, hold] at hformat
  cases hformat

end Example

end ValyriaApp.ConfigWriter
