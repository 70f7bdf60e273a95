import Mathlib.Logic.Function.Basic
import ValyriaApp.Lib.Machine
import ValyriaApp.Lib.NestedTable
import ValyriaApp.Lib.Utf8
import ValyriaApp.Rpc.Message

/-! # Writing a setting

Two hosts write a setting each into the same `config.toml`. A call looks at the
file, edits the document it found, writes it under a temporary name that both
calls share and renames that file over the configuration. The file operations of
the two calls interleave; each may fail, and a read or a write may move any part
of the bytes it was asked for.
-/

namespace ValyriaApp.ConfigWriter

open NestedTable OrderedMap Machine
open Rpc (Bytes)

/-- A value that is not a table. Only strings are ever written. -/
inductive Scalar (V : Type) where
  | string (s : String)
  | other (v : V)
deriving DecidableEq

abbrev Toml (V : Type) := Node String (Scalar V)

abbrev Document (V : Type) := Table String (Scalar V)

/-- The files a call names. -/
inductive File where
  | config
  | parent
  | tmp
deriving DecidableEq

inductive BridgeError where
  | fs (path : File)
  /-- `<path> is not valid TOML: <e>` -/
  | notToml (e : String)
  /-- `config key <key> crosses a non-table value` -/
  | crosses (key : String)
  /-- `serialize: <e>` -/
  | serialize (e : String)
deriving DecidableEq

variable {V : Type}

/-- `key.split('.')` -/
def parts (key : String) : List String := (key.toList.splitOn '.').map String.ofList

theorem parts_ne_nil (key : String) : parts key ≠ [] := by
  simp [parts, List.splitOn_ne_nil]

/-- Walk or insert dotted tables and set the leaf; `none` when the path crosses a value that is
not a table. -/
def setDotted (cur : Document V) : List String → Scalar V → Option (Document V)
  | [], _ => some cur
  | [part], value => some (setEntry part (.leaf value) cur)
  | part :: rest, value =>
    match get? cur part with
    | none => (setDotted [] rest value).map fun t => setEntry part (.table t) cur
    | some (.table entry) =>
      (setDotted entry rest value).map fun t => setEntry part (.table t) cur
    | some (.leaf _) => none

/-- The leaves of a document after the leaf at `key` is set: those below the key are gone, every
other is as it was. -/
def leafAfter (leaf : List String → Option (Scalar V)) (key : List String) (value : Scalar V)
    (p : List String) : Option (Scalar V) :=
  if p = key then some value else if key <+: p then none else leaf p

theorem leafAt_set_leaf (cur : Document V) (part : String) (value : Scalar V) (p : List String) :
    leafAt (setEntry part (.leaf value) cur) p = leafAfter (leafAt cur) [part] value p := by
  cases p with
  | nil => simp [leafAfter]
  | cons j p =>
    by_cases hj : j = part
    · subst hj
      rw [leafAt_cons_of_leaf (a := value) (by simp)]
      simp [leafAfter]
    · have hcur : leafAt (setEntry part (.leaf value) cur) (j :: p) = leafAt cur (j :: p) :=
        leafAt_cons_congr (by simp [hj])
      rw [hcur]
      simp [leafAfter, hj, Ne.symm hj]

/-- Editing the table under `part` edits the document below `part`. -/
theorem leafAt_set_table {cur inner t : Document V} {part : String} {rest : List String}
    {value : Scalar V} (hinner : ∀ p, leafAt cur (part :: p) = leafAt inner p)
    (ht : ∀ p, leafAt t p = leafAfter (leafAt inner) rest value p) (p : List String) :
    leafAt (setEntry part (.table t) cur) p = leafAfter (leafAt cur) (part :: rest) value p := by
  cases p with
  | nil => simp [leafAfter]
  | cons j p =>
    by_cases hj : j = part
    · subst hj
      rw [leafAt_cons_of_table (u := t) (by simp), ht]
      simp [leafAfter, hinner]
    · have hcur : leafAt (setEntry part (.table t) cur) (j :: p) = leafAt cur (j :: p) :=
        leafAt_cons_congr (by simp [hj])
      rw [hcur]
      simp [leafAfter, hj, Ne.symm hj]

theorem leafAt_setDotted {key : List String} (hne : key ≠ []) {cur doc : Document V}
    {value : Scalar V} (h : setDotted cur key value = some doc) (p : List String) :
    leafAt doc p = leafAfter (leafAt cur) key value p := by
  induction cur, key, value using setDotted.induct generalizing doc p with
  | case1 => exact absurd rfl hne
  | case2 cur part value =>
    obtain rfl := Option.some.inj h
    exact leafAt_set_leaf cur part value p
  | case3 cur part rest value hrest hget ih =>
    simp only [setDotted, hget, Option.map_eq_some_iff] at h
    obtain ⟨t, ht, rfl⟩ := h
    refine leafAt_set_table (fun q => ?_) (ih hrest ht) p
    simp [leafAt_cons_of_none hget]
  | case4 cur part rest value hrest entry hget ih =>
    simp only [setDotted, hget, Option.map_eq_some_iff] at h
    obtain ⟨t, ht, rfl⟩ := h
    exact leafAt_set_table (fun q => leafAt_cons_of_table hget) (ih hrest ht) p
  | case5 cur part rest value hrest v hget => simp [setDotted, hget] at h

/-- The `toml` crate. What it prints reads back as the same document. -/
structure Codec (V : Type) where
  parse : Bytes → Except BridgeError (Document V)
  print : Document V → Except String Bytes
  parse_print : ∀ doc x, print doc = .ok x →
    ∃ read, parse x = .ok read ∧ ∀ p, kindAt read p = kindAt doc p

/-- The arguments of a `write_key` call. -/
structure Call where
  key : String
  value : String

def Call.parts (call : Call) : List String := ConfigWriter.parts call.key

/-- The directory: the two names refer to files by number. `opener` is the call that opened the
temporary file last; the file system does not keep it. -/
structure Files where
  inodes : List Bytes
  config : Option ℕ
  tmp : Option ℕ
  opener : Option Bool

/-- How far a call has come. `seen` is the file it found as `config.toml`, which the code does not
keep either. -/
inductive Stage (V : Type) where
  | checking
  | opening
  | reading (seen : ℕ) (text : Bytes)
  | makingDir (seen : Option ℕ) (doc : Document V)
  | creatingTmp (seen : Option ℕ) (serialized : Bytes)
  | writing (seen : Option ℕ) (inode : ℕ) (written rest : Bytes)
  | publishing (seen : Option ℕ) (serialized : Bytes)
  | returned (result : Except BridgeError Unit)

structure State (V : Type) where
  files : Files
  stage : Bool → Stage V

/-- The next file operation of a call: whether it succeeds, and how many bytes beyond the first it
moves when it reads or writes. -/
structure Event where
  call : Bool
  succeeds : Bool
  more : ℕ

def State.go (s : State V) (b : Bool) (stage : Stage V) : State V :=
  { s with stage := Function.update s.stage b stage }

def State.fail (s : State V) (b : Bool) (e : BridgeError) : State V := s.go b (.returned (.error e))

/-- `set_dotted` on the document found. -/
def edit (call : Call) (seen : Option ℕ) (doc : Document V) : Stage V :=
  match setDotted doc call.parts (.string call.value) with
  | some doc => .makingDir seen doc
  | none => .returned (.error (.crosses call.key))

/-- `to_string_pretty` -/
def serialize (codec : Codec V) (seen : Option ℕ) (doc : Document V) : Stage V :=
  match codec.print doc with
  | .ok text => .creatingTmp seen text
  | .error e => .returned (.error (.serialize e))

/-- Bytes written at an offset; a gap after the end of the file is filled with zeros. -/
def overwrite (x : Bytes) (offset : ℕ) (data : Bytes) : Bytes :=
  x.take offset ++ List.replicate (offset - x.length) 0 ++ data ++ x.drop (offset + data.length)

/-- Open the temporary file, created or truncated. -/
def Files.create (f : Files) (b : Bool) : ℕ × Files :=
  match f.tmp with
  | some i => (i, { f with inodes := f.inodes.set i [], opener := some b })
  | none => (f.inodes.length,
      { f with inodes := f.inodes ++ [[]], tmp := some f.inodes.length, opener := some b })

def Files.write (f : Files) (i offset : ℕ) (data : Bytes) : Files :=
  { f with inodes := f.inodes.modify i (overwrite · offset data) }

/-- One file operation of `write_key` with what the call computes before its next one. -/
def step (codec : Codec V) (calls : Bool → Call) (s : State V) (e : Event) : Option (State V) :=
  let b := e.call
  match s.stage b with
  | .checking =>
    if e.succeeds && s.files.config.isSome then some (s.go b .opening)
    else some (s.go b (edit (calls b) none []))
  | .opening =>
    match s.files.config with
    | some i => some (if e.succeeds then s.go b (.reading i []) else s.fail b (.fs .config))
    | none => some (s.fail b (.fs .config))
  | .reading i text =>
    let chunk := (((s.files.inodes[i]?).getD []).drop text.length).take (e.more + 1)
    if !e.succeeds then some (s.fail b (.fs .config))
    else if chunk ≠ [] then some (s.go b (.reading i (text ++ chunk)))
    else
      match codec.parse text with
      | .error err => some (s.fail b err)
      | .ok doc => some (s.go b (edit (calls b) (some i) doc))
  | .makingDir seen doc =>
    some (if e.succeeds then s.go b (serialize codec seen doc) else s.fail b (.fs .parent))
  | .creatingTmp seen serialized =>
    if e.succeeds then
      let (i, files) := s.files.create b
      some ({ s with files }.go b (.writing seen i [] serialized))
    else some (s.fail b (.fs .tmp))
  | .writing seen i written rest =>
    if rest = [] then some (s.go b (.publishing seen written))
    else if e.succeeds then
      let data := rest.take (e.more + 1)
      some ({ s with files := s.files.write i written.length data }.go b
        (.writing seen i (written ++ data) (rest.drop (e.more + 1))))
    else some (s.fail b (.fs .tmp))
  | .publishing _ _ =>
    match s.files.tmp with
    | some i =>
      if e.succeeds then
        some ({ s with files := { s.files with config := some i, tmp := none } }.go b
          (.returned (.ok ())))
      else some (s.fail b (.fs .config))
    | none => some (s.fail b (.fs .config))
  | .returned _ => none

/-- Both calls are about to begin, beside what `config.toml` and a left-over temporary file hold. -/
def start (content leftover : Option Bytes) : State V :=
  { files :=
      { inodes := content.toList ++ leftover.toList
        config := content.map fun _ => 0
        tmp := leftover.map fun _ => content.toList.length
        opener := none }
    stage := fun _ => .checking }

/-- What a call that finds this file starts from: a missing file is an empty document. -/
def Files.document (codec : Codec V) (f : Files) : Option ℕ → Option (Document V)
  | none => some []
  | some i => f.inodes[i]?.bind fun x => (codec.parse x).toOption

def Stage.Published (stage : Stage V) : Prop := stage = .returned (.ok ())

/-- The configuration is a document that holds the value of every call that has returned `Ok`, and
elsewhere the leaves of `before`. -/
def Kept (codec : Codec V) (calls : Bool → Call) (before : Document V) (s : State V) : Prop :=
  ∃ now, s.files.document codec s.files.config = some now ∧
    (∀ b, (s.stage b).Published →
      leafAt now (calls b).parts = some (.string (calls b).value)) ∧
    ∀ p, (∀ b, (s.stage b).Published → p ≠ (calls b).parts) → leafAt now p = leafAt before p

/-- A call writes and renames the temporary file only while no other has opened it since, and
renames it only over the file it found, when its key stands above no leaf of that file. -/
def Unshared (codec : Codec V) (calls : Bool → Call) (s : State V) (e : Event) : Prop :=
  match s.stage e.call with
  | .writing _ _ _ rest => rest ≠ [] → e.succeeds → s.files.opener = some e.call
  | .publishing seen _ => e.succeeds →
    s.files.opener = some e.call ∧ s.files.config = seen ∧
      ∀ now, s.files.document codec seen = some now →
        ∀ p, (calls e.call).parts <+: p → p ≠ (calls e.call).parts → leafAt now p = none
  | _ => True

/-- A file that is in place: it is there, and no longer under the temporary name. -/
def Files.Settled (f : Files) (i : ℕ) : Prop := i < f.inodes.length ∧ f.tmp ≠ some i

/-- The files in place stay as they are. -/
def Files.Keeps (f g : Files) : Prop :=
  ∀ i, f.Settled i → g.Settled i ∧ g.inodes[i]? = f.inodes[i]?

/-- The document a call is about to write is its edit of the one it found. -/
structure Edited (codec : Codec V) (call : Call) (f : Files) (seen : Option ℕ)
    (doc : Document V) : Prop where
  settled : ∀ i ∈ seen, f.Settled i
  edited : ∃ cur, f.document codec seen = some cur ∧
    setDotted cur call.parts (.string call.value) = some doc

def Drafted (codec : Codec V) (call : Call) (f : Files) (seen : Option ℕ) (text : Bytes) : Prop :=
  ∃ doc, Edited codec call f seen doc ∧ codec.print doc = .ok text

/-- The temporary file of the call that opened it last holds what that call has written. -/
def Stage.Sound (codec : Codec V) (call : Call) (b : Bool) (f : Files) : Stage V → Prop
  | .reading i text => f.Settled i ∧ ∃ x, f.inodes[i]? = some x ∧ text <+: x
  | .makingDir seen doc => Edited codec call f seen doc
  | .creatingTmp seen text => Drafted codec call f seen text
  | .writing seen i written rest => Drafted codec call f seen (written ++ rest) ∧
    (f.opener = some b → f.tmp = some i ∧ f.inodes[i]? = some written)
  | .publishing seen text => Drafted codec call f seen text ∧
    (f.opener = some b → ∃ i, f.tmp = some i ∧ f.inodes[i]? = some text)
  | _ => True

/-- The invariant of the runs in which the calls do not get in each other's way. -/
structure Inv (codec : Codec V) (calls : Bool → Call) (before : Document V) (s : State V) :
    Prop where
  tmp : ∀ i ∈ s.files.tmp, i < s.files.inodes.length
  config : ∀ i ∈ s.files.config, s.files.Settled i
  sound : ∀ b, (s.stage b).Sound codec (calls b) b s.files
  kept : Kept codec calls before s

section Files

variable {codec : Codec V} {call : Call} {b c : Bool} {f g : Files} {seen : Option ℕ}
  {doc : Document V} {text : Bytes}

theorem Files.Keeps.refl (f : Files) : f.Keeps f := fun _ hi => ⟨hi, rfl⟩

theorem Files.Keeps.document (h : f.Keeps g) (hs : ∀ i ∈ seen, f.Settled i) :
    g.document codec seen = f.document codec seen := by
  cases seen with
  | none => rfl
  | some i => rw [Files.document, Files.document, (h i (hs i rfl)).2]

theorem Edited.mono (h : Edited codec call f seen doc) (hfg : f.Keeps g) :
    Edited codec call g seen doc := by
  constructor
  · exact fun i hi => (hfg i (h.settled i hi)).1
  · rw [hfg.document h.settled]
    exact h.edited

theorem Drafted.mono (h : Drafted codec call f seen text) (hfg : f.Keeps g) :
    Drafted codec call g seen text := by
  obtain ⟨doc, hdoc, hprint⟩ := h
  exact ⟨doc, hdoc.mono hfg, hprint⟩

/-- What the other call knows survives a change to the files by the call that opened the temporary
file last. -/
theorem Stage.Sound.mono {stage : Stage V} (h : stage.Sound codec call c f) (hfg : f.Keeps g)
    (hopener : g.opener ≠ some c) : stage.Sound codec call c g := by
  cases stage with
  | reading i text =>
    obtain ⟨hi, x, hx, ht⟩ := h
    exact ⟨(hfg i hi).1, x, by rw [(hfg i hi).2, hx], ht⟩
  | makingDir seen doc => exact Edited.mono h hfg
  | creatingTmp seen text => exact Drafted.mono h hfg
  | writing seen i written rest => exact ⟨h.1.mono hfg, fun ho => absurd ho hopener⟩
  | publishing seen text => exact ⟨h.1.mono hfg, fun ho => absurd ho hopener⟩
  | checking => trivial
  | opening => trivial
  | returned r => trivial

@[simp] theorem Files.create_config : (f.create b).2.config = f.config := by
  unfold Files.create; split <;> rfl

@[simp] theorem Files.create_opener : (f.create b).2.opener = some b := by
  unfold Files.create; split <;> rfl

theorem Files.create_tmp : (f.create b).2.tmp = some (f.create b).1 := by
  unfold Files.create
  split
  · rename_i h; exact h
  · rfl

theorem Files.create_empty (h : ∀ i ∈ f.tmp, i < f.inodes.length) :
    (f.create b).2.inodes[(f.create b).1]? = some [] := by
  unfold Files.create
  split
  · rename_i i hi
    simp [h i hi]
  · simp

theorem Files.keeps_create : f.Keeps (f.create b).2 := by
  intro i hi
  unfold Files.create
  split
  · rename_i j hj
    have hne : j ≠ i := fun h => hi.2 (h ▸ hj)
    exact ⟨⟨by simpa using hi.1, hi.2⟩, by simp [hne]⟩
  · have hlt : i < f.inodes.length := hi.1
    refine ⟨⟨by simp; omega, by simp; omega⟩, ?_⟩
    simp [List.getElem?_append_left hlt]

theorem Files.keeps_write {i offset : ℕ} {data : Bytes} (h : f.tmp = some i) :
    f.Keeps (f.write i offset data) := by
  intro j hj
  have hne : i ≠ j := fun hij => hj.2 (hij ▸ h)
  exact ⟨⟨by simpa [Files.write] using hj.1, hj.2⟩, by simp [Files.write, hne]⟩

@[simp] theorem overwrite_length (x data : Bytes) : overwrite x x.length data = x ++ data := by
  simp [overwrite]

end Files

section Run

variable {codec : Codec V} {calls : Bool → Call} {before : Document V} {s t : State V} {b : Bool}
  {e : Event}

theorem Kept.of_settled {files : Files} {stage : Stage V} (h : Kept codec calls before s)
    (hdoc : files.document codec files.config = s.files.document codec s.files.config)
    (hold : ¬ (s.stage b).Published) (hnew : ¬ stage.Published) :
    Kept codec calls before ({ s with files }.go b stage) := by
  have hpub : ∀ c, (Function.update s.stage b stage c).Published ↔ (s.stage c).Published := by
    intro c
    by_cases hc : c = b
    · subst hc; simp [hold, hnew]
    · rw [Function.update_of_ne hc]
  obtain ⟨now, hnow, hvalues, hrest⟩ := h
  refine ⟨now, hdoc.trans hnow, ?_, ?_⟩
  · intro c hc
    exact hvalues c ((hpub c).mp hc)
  · intro p hp
    exact hrest p fun c hc => hp c ((hpub c).mpr hc)

/-- A call goes on without publishing. Files change only at the hands of the call that opened the
temporary file last. -/
theorem Inv.advance {files : Files} {stage : Stage V} (h : Inv codec calls before s)
    (hkeeps : s.files.Keeps files) (hconfig : files.config = s.files.config)
    (htmp : ∀ i ∈ files.tmp, i < files.inodes.length)
    (hby : files = s.files ∨ files.opener = some b)
    (hsound : stage.Sound codec (calls b) b files)
    (hold : ¬ (s.stage b).Published) (hnew : ¬ stage.Published) :
    Inv codec calls before ({ s with files }.go b stage) where
  tmp := htmp
  config i hi := (hkeeps i (h.config i (hconfig ▸ hi))).1
  sound c := by
    show Stage.Sound codec (calls c) c files (Function.update s.stage b stage c)
    by_cases hc : c = b
    · subst hc; simpa using hsound
    · rw [Function.update_of_ne hc]
      rcases hby with rfl | hby
      · exact h.sound c
      · exact (h.sound c).mono hkeeps (by simp [hby, Ne.symm hc])
  kept := by
    refine h.kept.of_settled ?_ hold hnew
    rw [hconfig]
    exact hkeeps.document h.config

theorem Inv.sound_of {stage : Stage V} (h : Inv codec calls before s) (hstage : s.stage b = stage) :
    stage.Sound codec (calls b) b s.files :=
  hstage ▸ h.sound b

theorem Inv.go {stage : Stage V} (h : Inv codec calls before s)
    (hsound : stage.Sound codec (calls b) b s.files)
    (hold : ¬ (s.stage b).Published) (hnew : ¬ stage.Published) :
    Inv codec calls before (s.go b stage) :=
  h.advance (.refl _) rfl h.tmp (.inl rfl) hsound hold hnew

theorem Inv.fail {err : BridgeError} (h : Inv codec calls before s)
    (hold : ¬ (s.stage b).Published) : Inv codec calls before (s.fail b err) :=
  h.go trivial hold (by simp [Stage.Published])

theorem Inv.edit {seen : Option ℕ} {doc : Document V} (h : Inv codec calls before s)
    (hseen : ∀ i ∈ seen, s.files.Settled i) (hdoc : s.files.document codec seen = some doc)
    (hold : ¬ (s.stage b).Published) :
    Inv codec calls before (s.go b (ConfigWriter.edit (calls b) seen doc)) := by
  unfold ConfigWriter.edit
  split
  · rename_i doc' hset
    exact h.go ⟨hseen, doc, hdoc, hset⟩ hold (by simp [Stage.Published])
  · exact h.fail hold

theorem Inv.serialize {seen : Option ℕ} {doc : Document V} (h : Inv codec calls before s)
    (hdoc : Edited codec (calls b) s.files seen doc) (hold : ¬ (s.stage b).Published) :
    Inv codec calls before (s.go b (ConfigWriter.serialize codec seen doc)) := by
  unfold ConfigWriter.serialize
  split
  · rename_i text hprint
    exact h.go ⟨doc, hdoc, hprint⟩ hold (by simp [Stage.Published])
  · exact h.fail hold

theorem Files.keeps_rename {f : Files} {i : ℕ} :
    f.Keeps { f with config := some i, tmp := none } :=
  fun _ hj => ⟨⟨hj.1, nofun⟩, rfl⟩

/-- The written document, read back, has the leaves of the one found with the key's leaf set. -/
theorem Drafted.read_back {call : Call} {files : Files} {seen : Option ℕ} {text : Bytes}
    (h : Drafted codec call files seen text) :
    ∃ cur read, files.document codec seen = some cur ∧ codec.parse text = .ok read ∧
      ∀ p, leafAt read p = leafAfter (leafAt cur) call.parts (.string call.value) p := by
  obtain ⟨doc, ⟨-, cur, hcur, hset⟩, hprint⟩ := h
  obtain ⟨read, hread, hkind⟩ := codec.parse_print doc text hprint
  refine ⟨cur, read, hcur, hread, fun p => ?_⟩
  rw [leafAt_congr (hkind p)]
  exact leafAt_setDotted (parts_ne_nil call.key) hset p

theorem Kept.publish {files : Files} {read : Document V} (hkept : Kept codec calls before s)
    (hkeys : ∀ c, c ≠ b → (calls c).parts ≠ (calls b).parts)
    (hdoc : files.document codec files.config = some read)
    (hread : ∀ now, s.files.document codec s.files.config = some now →
      (∀ p, (calls b).parts <+: p → p ≠ (calls b).parts → leafAt now p = none) ∧
      ∀ p, leafAt read p =
        leafAfter (leafAt now) (calls b).parts (.string (calls b).value) p) :
    Kept codec calls before ({ s with files }.go b (.returned (.ok ()))) := by
  obtain ⟨now, hnow, hvalues, hrest⟩ := hkept
  obtain ⟨hbelow, hread⟩ := hread now hnow
  have hother : ∀ p, p ≠ (calls b).parts → leafAt read p = leafAt now p := by
    intro p hp
    rw [hread, leafAfter, if_neg hp]
    split
    · rename_i hprefix
      exact (hbelow p hprefix hp).symm
    · rfl
  refine ⟨read, hdoc, ?_, ?_⟩
  · intro c hc
    by_cases hcb : c = b
    · subst hcb
      rw [hread, leafAfter, if_pos rfl]
    · rw [hother _ (hkeys c hcb)]
      refine hvalues c ?_
      simpa [State.go, Function.update_of_ne hcb] using hc
  · intro p hp
    have hpb : p ≠ (calls b).parts := hp b (by simp [State.go, Stage.Published])
    rw [hother p hpb]
    refine hrest p fun c hc => ?_
    by_cases hcb : c = b
    · subst hcb; exact hpb
    · exact hp c (by simpa [State.go, Function.update_of_ne hcb] using hc)

theorem Inv.publish {seen : Option ℕ} {text : Bytes} {i : ℕ} (h : Inv codec calls before s)
    (hkeys : ∀ c, c ≠ b → (calls c).parts ≠ (calls b).parts)
    (hstage : s.stage b = .publishing seen text) (htmp : s.files.tmp = some i)
    (hopener : s.files.opener = some b) (hseen : s.files.config = seen)
    (hbelow : ∀ now, s.files.document codec seen = some now →
      ∀ p, (calls b).parts <+: p → p ≠ (calls b).parts → leafAt now p = none) :
    Inv codec calls before
      ({ s with files := { s.files with config := some i, tmp := none } }.go b
        (.returned (.ok ()))) := by
  obtain ⟨hdraft, howned⟩ := h.sound_of hstage
  obtain ⟨j, hj, htext⟩ := howned hopener
  obtain rfl : i = j := Option.some.inj (htmp.symm.trans hj)
  obtain ⟨cur, read, hcur, hread, hleaf⟩ := hdraft.read_back
  constructor
  · exact fun _ hi => nomatch hi
  · rintro j hj
    obtain rfl : i = j := Option.some.inj hj
    exact ⟨h.tmp i htmp, nofun⟩
  · intro c
    show Stage.Sound codec (calls c) c _ (Function.update s.stage b _ c)
    by_cases hc : c = b
    · subst hc
      rw [Function.update_self]
      trivial
    · rw [Function.update_of_ne hc]
      exact (h.sound c).mono Files.keeps_rename
        fun hc' => hc (Option.some.inj (hc'.symm.trans hopener))
  · have hdoc : s.files.document codec (some i) = some read := by
      simp [Files.document, htext, hread, Except.toOption]
    refine h.kept.publish hkeys hdoc fun now hnow => ?_
    rw [hseen] at hnow
    obtain rfl : cur = now := Option.some.inj (hcur.symm.trans hnow)
    exact ⟨hbelow cur hcur, hleaf⟩

theorem Inv.read {i : ℕ} {text : Bytes} (n : ℕ) (h : Inv codec calls before s)
    (hstage : s.stage b = .reading i text) :
    Inv codec calls before (s.go b (.reading i
      (text ++ (((s.files.inodes[i]?).getD []).drop text.length).take n))) := by
  obtain ⟨hi, x, hx, rest, rfl⟩ := h.sound_of hstage
  have hchunk : (((s.files.inodes[i]?).getD []).drop text.length).take n = rest.take n := by
    simp [hx]
  refine h.go ⟨hi, _, hx, rest.drop n, ?_⟩ (by simp [hstage, Stage.Published])
    (by simp [Stage.Published])
  rw [hchunk, List.append_assoc, List.take_append_drop]

/-- What was read up to the end of the file is the file. -/
theorem Inv.parse {i n : ℕ} {text : Bytes} {doc : Document V} (h : Inv codec calls before s)
    (hstage : s.stage b = .reading i text)
    (hend : (((s.files.inodes[i]?).getD []).drop text.length).take (n + 1) = [])
    (hparse : codec.parse text = .ok doc) :
    Inv codec calls before (s.go b (ConfigWriter.edit (calls b) (some i) doc)) := by
  obtain ⟨hi, x, hx, rest, rfl⟩ := h.sound_of hstage
  obtain rfl : rest = [] := by simpa [hx] using hend
  refine h.edit ?_ ?_ (by simp [hstage, Stage.Published])
  · rintro j hj
    obtain rfl : i = j := Option.some.inj hj
    exact hi
  · simp only [List.append_nil] at hx
    simp [Files.document, hx, hparse, Except.toOption]

theorem Inv.create {seen : Option ℕ} {text : Bytes} (h : Inv codec calls before s)
    (hstage : s.stage b = .creatingTmp seen text) :
    Inv codec calls before ({ s with files := (s.files.create b).2 }.go b
      (.writing seen (s.files.create b).1 [] text)) := by
  have hdraft : Drafted codec (calls b) s.files seen text := h.sound_of hstage
  have hempty := Files.create_empty (b := b) h.tmp
  refine h.advance Files.keeps_create Files.create_config ?_ (.inr Files.create_opener)
    ⟨hdraft.mono Files.keeps_create, fun _ => ⟨Files.create_tmp, hempty⟩⟩
    (by simp [hstage, Stage.Published]) (by simp [Stage.Published])
  intro i hi
  obtain rfl : (s.files.create b).1 = i := Option.some.inj (Files.create_tmp.symm.trans hi)
  exact (List.getElem?_eq_some_iff.mp hempty).1

theorem Inv.write {seen : Option ℕ} {i n : ℕ} {written rest : Bytes}
    (h : Inv codec calls before s) (hstage : s.stage b = .writing seen i written rest)
    (hopener : s.files.opener = some b) :
    Inv codec calls before ({ s with files := s.files.write i written.length (rest.take n) }.go b
      (.writing seen i (written ++ rest.take n) (rest.drop n))) := by
  obtain ⟨hdraft, howned⟩ := h.sound_of hstage
  obtain ⟨htmp, hcontent⟩ := howned hopener
  have hkeeps : s.files.Keeps (s.files.write i written.length (rest.take n)) :=
    Files.keeps_write htmp
  refine h.advance hkeeps rfl ?_ (.inr hopener) ⟨?_, fun _ => ⟨htmp, ?_⟩⟩
    (by simp [hstage, Stage.Published]) (by simp [Stage.Published])
  · intro j hj
    simpa [Files.write] using h.tmp j hj
  · rw [List.append_assoc, List.take_append_drop]
    exact hdraft.mono hkeeps
  · simp [Files.write, hcontent]

/-- What a file operation of the call `b` does, by the stage it starts from. -/
inductive Advances (codec : Codec V) (call : Call) (s : State V) (b ok : Bool) (n : ℕ) :
    State V → Prop where
  | found (hstage : s.stage b = .checking) (hthere : s.files.config.isSome = true) :
      Advances codec call s b ok n (s.go b .opening)
  | missing (hstage : s.stage b = .checking) (hthere : ok = true → s.files.config = none) :
      Advances codec call s b ok n (s.go b (edit call none []))
  | opened {i : ℕ} (hstage : s.stage b = .opening) (hi : s.files.config = some i) :
      Advances codec call s b ok n (s.go b (.reading i []))
  | read {i : ℕ} {text : Bytes} (hstage : s.stage b = .reading i text) :
      Advances codec call s b ok n (s.go b (.reading i
        (text ++ (((s.files.inodes[i]?).getD []).drop text.length).take (n + 1))))
  | parsed {i : ℕ} {text : Bytes} {doc : Document V} (hstage : s.stage b = .reading i text)
      (hend : (((s.files.inodes[i]?).getD []).drop text.length).take (n + 1) = [])
      (hparse : codec.parse text = .ok doc) :
      Advances codec call s b ok n (s.go b (edit call (some i) doc))
  | unreadable {i : ℕ} {text : Bytes} {err : BridgeError} (hstage : s.stage b = .reading i text)
      (hend : (((s.files.inodes[i]?).getD []).drop text.length).take (n + 1) = [])
      (hparse : codec.parse text = .error err) : Advances codec call s b ok n (s.fail b err)
  | madeDir {seen : Option ℕ} {doc : Document V} (hstage : s.stage b = .makingDir seen doc) :
      Advances codec call s b ok n (s.go b (serialize codec seen doc))
  | created {seen : Option ℕ} {text : Bytes} (hstage : s.stage b = .creatingTmp seen text) :
      Advances codec call s b ok n ({ s with files := (s.files.create b).2 }.go b
        (.writing seen (s.files.create b).1 [] text))
  | wrote {seen : Option ℕ} {i : ℕ} {written rest : Bytes}
      (hstage : s.stage b = .writing seen i written rest) (hrest : rest ≠ []) (hok : ok = true) :
      Advances codec call s b ok n
        ({ s with files := s.files.write i written.length (rest.take (n + 1)) }.go b
          (.writing seen i (written ++ rest.take (n + 1)) (rest.drop (n + 1))))
  | written {seen : Option ℕ} {i : ℕ} {written : Bytes}
      (hstage : s.stage b = .writing seen i written []) :
      Advances codec call s b ok n (s.go b (.publishing seen written))
  | published {seen : Option ℕ} {text : Bytes} {i : ℕ} (hstage : s.stage b = .publishing seen text)
      (htmp : s.files.tmp = some i) (hok : ok = true) :
      Advances codec call s b ok n
        ({ s with files := { s.files with config := some i, tmp := none } }.go b
          (.returned (.ok ())))
  | failed {file : File} (hstage : ∀ result, s.stage b ≠ .returned result) :
      Advances codec call s b ok n (s.fail b (.fs file))

theorem advances_of_step (hstep : step codec calls s e = some t) :
    Advances codec (calls e.call) s e.call e.succeeds e.more t := by
  simp only [step] at hstep
  split at hstep
  case h_1 hstage =>
    split at hstep <;> obtain rfl := Option.some.inj hstep
    · rename_i hthere
      exact .found hstage (Bool.and_eq_true_iff.mp hthere).2
    · rename_i hthere
      exact .missing hstage fun hok => by simpa [hok] using hthere
  case h_2 hstage =>
    split at hstep <;> obtain rfl := Option.some.inj hstep
    · rename_i i hi
      split
      · exact .opened hstage hi
      · exact .failed (by simp [hstage])
    · exact .failed (by simp [hstage])
  case h_3 i text hstage =>
    split at hstep
    · obtain rfl := Option.some.inj hstep
      exact .failed (by simp [hstage])
    split at hstep
    · obtain rfl := Option.some.inj hstep
      exact .read hstage
    rename_i hchunk
    split at hstep <;> obtain rfl := Option.some.inj hstep
    · rename_i err hparse
      exact .unreadable hstage (not_not.mp hchunk) hparse
    · rename_i doc hparse
      exact .parsed hstage (not_not.mp hchunk) hparse
  case h_4 seen doc hstage =>
    obtain rfl := Option.some.inj hstep
    split
    · exact .madeDir hstage
    · exact .failed (by simp [hstage])
  case h_5 seen text hstage =>
    split at hstep <;> obtain rfl := Option.some.inj hstep
    · exact .created hstage
    · exact .failed (by simp [hstage])
  case h_6 seen i written rest hstage =>
    split at hstep
    · rename_i hrest
      subst hrest
      obtain rfl := Option.some.inj hstep
      exact .written hstage
    rename_i hrest
    split at hstep <;> obtain rfl := Option.some.inj hstep
    · rename_i hok
      exact .wrote hstage hrest hok
    · exact .failed (by simp [hstage])
  case h_7 seen text hstage =>
    split at hstep
    · rename_i i htmp
      split at hstep <;> obtain rfl := Option.some.inj hstep
      · rename_i hok
        exact .published hstage htmp hok
      · exact .failed (by simp [hstage])
    · obtain rfl := Option.some.inj hstep
      exact .failed (by simp [hstage])
  case h_8 => exact nomatch hstep

theorem step_inv (hkeys : ∀ b, (calls (!b)).parts ≠ (calls b).parts)
    (h : Inv codec calls before s) (hclean : Unshared codec calls s e)
    (hstep : step codec calls s e = some t) : Inv codec calls before t := by
  have hother : ∀ c, c ≠ e.call → (calls c).parts ≠ (calls e.call).parts := by
    intro c hc
    obtain rfl : c = !e.call := Bool.eq_not_of_ne hc
    exact hkeys e.call
  have hold {stage : Stage V} (hstage : s.stage e.call = stage) (hs : ¬ stage.Published) :
      ¬ (s.stage e.call).Published := hstage ▸ hs
  unfold Unshared at hclean
  cases advances_of_step hstep with
  | found hstage hthere => exact h.go trivial (hold hstage nofun) nofun
  | missing hstage hthere => exact h.edit (by simp) rfl (hold hstage nofun)
  | opened hstage hi =>
    have hsettled := h.config _ hi
    exact h.go ⟨hsettled, _, List.getElem?_eq_getElem hsettled.1, List.nil_prefix⟩
      (hold hstage nofun) nofun
  | read hstage => exact h.read _ hstage
  | parsed hstage hend hparse => exact h.parse hstage hend hparse
  | unreadable hstage hend hparse => exact h.fail (hold hstage nofun)
  | madeDir hstage => exact h.serialize (h.sound_of hstage) (hold hstage nofun)
  | created hstage => exact h.create hstage
  | wrote hstage hrest hok =>
    simp only [hstage] at hclean
    exact h.write hstage (hclean hrest hok)
  | written hstage =>
    obtain ⟨hdraft, howned⟩ := h.sound_of hstage
    rw [List.append_nil] at hdraft
    exact h.go ⟨hdraft, fun ho => ⟨_, howned ho⟩⟩ (hold hstage nofun) nofun
  | published hstage htmp hok =>
    simp only [hstage] at hclean
    obtain ⟨hopener, hseen, hbelow⟩ := hclean hok
    exact h.publish hother hstage htmp hopener hseen hbelow
  | failed hstage => exact h.fail (hstage _)

theorem start_inv (codec : Codec V) (calls : Bool → Call) (content leftover : Option Bytes)
    (hbefore : (start content leftover : State V).files.document codec
      (content.map fun _ => 0) = some before) :
    Inv codec calls before (start content leftover) where
  tmp := by cases content <;> cases leftover <;> simp [start]
  config := by cases content <;> cases leftover <;> simp [start, Files.Settled]
  sound _ := trivial
  kept := ⟨before, hbefore, (fun _ h => nomatch h), fun _ _ => rfl⟩

/-- Whatever the order of the file operations, as long as the calls do not share the temporary
file and do not rename over each other's edit, no value written is lost and no other leaf moves. -/
theorem written_values_kept (codec : Codec V) (calls : Bool → Call)
    (content leftover : Option Bytes) (before : Document V) (es : List Event) (s : State V)
    (hbefore : (start content leftover : State V).files.document codec
      (content.map fun _ => 0) = some before)
    (hkeys : ∀ b, ¬ (calls b).parts <+: (calls (!b)).parts)
    (hunshared : Guarded (step codec calls) (Unshared codec calls) (start content leftover) es)
    (hrun : run (step codec calls) (start content leftover) es = some s) :
    Kept codec calls before s := by
  have hne : ∀ b, (calls (!b)).parts ≠ (calls b).parts := fun b h => hkeys b (h ▸ List.prefix_rfl)
  have hinv : Preserves (step codec calls) (Unshared codec calls) (Inv codec calls before) :=
    fun _ _ _ h hclean hstep => step_inv hne h hclean hstep
  exact (hinv.run (start_inv codec calls content leftover hbefore) hunshared hrun).kept

end Run

section Example

def Stage.isOk : Stage V → Bool
  | .returned (.ok ()) => true
  | _ => false

theorem Stage.isOk_iff {stage : Stage V} : stage.isOk = true ↔ stage.Published := by
  cases stage with
  | returned r => cases r <;> simp [isOk, Published]
  | _ => simp [isOk, Published]

/-- The steps of `Unshared` for a key whose first part the file does not hold. -/
def Fresh (codec : Codec V) (calls : Bool → Call) (s : State V) (e : Event) : Prop :=
  match s.stage e.call with
  | .writing .. => s.files.opener = some e.call
  | .publishing seen _ => s.files.opener = some e.call ∧ s.files.config = seen ∧
      match s.files.document codec seen, (calls e.call).parts with
      | some now, part :: _ => (get? now part).isNone
      | _, _ => False
  | _ => True

instance (codec : Codec V) (calls : Bool → Call) (s : State V) (e : Event) :
    Decidable (Fresh codec calls s e) := by
  unfold Fresh
  split
  · infer_instance
  · split <;> infer_instance
  · infer_instance

theorem Fresh.unshared {codec : Codec V} {calls : Bool → Call} (s : State V) (e : Event)
    (h : Fresh codec calls s e) : Unshared codec calls s e := by
  unfold Fresh at h
  unfold Unshared
  cases hstage : s.stage e.call with
  | writing seen i written rest =>
    simp only [hstage] at h
    exact fun _ _ => h
  | publishing seen text =>
    simp only [hstage] at h
    obtain ⟨hopener, hseen, h⟩ := h
    refine fun _ => ⟨hopener, hseen, fun now hnow p hp _ => ?_⟩
    split at h
    · rename_i doc part rest hdoc hparts
      obtain rfl : doc = now := Option.some.inj (hdoc.symm.trans hnow)
      exact leafAt_of_absent (Option.isNone_iff_eq_none.mp h) (hparts ▸ hp)
    · exact h.elim
  | _ => trivial

abbrev network : String × Toml Unit := ("network", .leaf (.string "denied"))

abbrev logFormat : String × Toml Unit := ("log", .table [("format", .leaf (.string "json"))])

abbrev permissionMode : String × Toml Unit :=
  ("permission", .table [("mode", .leaf (.string "manual"))])

def networkText : Bytes := Lib.Utf8.ascii "network = \"denied\"\n".toList

def logText : Bytes := networkText ++ Lib.Utf8.ascii "\n[log]\nformat = \"json\"\n".toList

def permissionText : Bytes :=
  networkText ++ Lib.Utf8.ascii "\n[permission]\nmode = \"manual\"\n".toList

def bothText : Bytes := logText ++ Lib.Utf8.ascii "\n[permission]\nmode = \"manual\"\n".toList

def tomlPrint : Document Unit → Except String Bytes
  | [("network", .leaf (.string "denied"))] => .ok networkText
  | [("network", .leaf (.string "denied")), ("log", .table [("format", .leaf (.string "json"))])] =>
    .ok logText
  | [("network", .leaf (.string "denied")),
      ("permission", .table [("mode", .leaf (.string "manual"))])] => .ok permissionText
  | [("network", .leaf (.string "denied")), ("log", .table [("format", .leaf (.string "json"))]),
      ("permission", .table [("mode", .leaf (.string "manual"))])] => .ok bothText
  | _ => .error "unsupported"

def tomlParse (x : Bytes) : Except BridgeError (Document Unit) :=
  if x = networkText then .ok [network]
  else if x = logText then .ok [network, logFormat]
  else if x = permissionText then .ok [network, permissionMode]
  else if x = bothText then .ok [network, logFormat, permissionMode]
  else .error (.notToml "unexpected character")

/-- The `toml` crate on the documents below. -/
def toml : Codec Unit where
  parse := tomlParse
  print := tomlPrint
  parse_print := by
    intro doc x h
    unfold tomlPrint at h
    split at h
    · obtain rfl := Except.ok.inj h
      exact ⟨_, if_pos rfl, fun _ => rfl⟩
    · obtain rfl := Except.ok.inj h
      have h₁ : logText ≠ networkText := by decide +kernel
      exact ⟨_, by rw [tomlParse, if_neg h₁, if_pos rfl], fun _ => rfl⟩
    · obtain rfl := Except.ok.inj h
      have h₁ : permissionText ≠ networkText := by decide +kernel
      have h₂ : permissionText ≠ logText := by decide +kernel
      exact ⟨_, by rw [tomlParse, if_neg h₁, if_neg h₂, if_pos rfl], fun _ => rfl⟩
    · obtain rfl := Except.ok.inj h
      have h₁ : bothText ≠ networkText := by decide +kernel
      have h₂ : bothText ≠ logText := by decide +kernel
      have h₃ : bothText ≠ permissionText := by decide +kernel
      exact ⟨_, by rw [tomlParse, if_neg h₁, if_neg h₂, if_neg h₃, if_pos rfl], fun _ => rfl⟩
    · exact nomatch h

def twoWindows : Bool → Call
  | false => ⟨"log.format", "json"⟩
  | true => ⟨"permission.mode", "manual"⟩

def operations (b : Bool) (n : ℕ) : List Event := List.replicate n ⟨b, true, 99⟩

theorem one_after_the_other :
    ∃ s, run (step toml twoWindows) (start (some networkText) none)
        (operations false 9 ++ operations true 9) = some s ∧
      Kept toml twoWindows [network] s ∧ ∀ b, (s.stage b).Published := by
  have hrun : ((run (step toml twoWindows) (start (some networkText) none)
      (operations false 9 ++ operations true 9)).map fun s => ((s.stage false).isOk,
        (s.stage true).isOk)) = some (true, true) := by decide +kernel
  obtain ⟨s, hs, hok⟩ := Option.map_eq_some_iff.mp hrun
  refine ⟨s, hs, ?_, ?_⟩
  · refine written_values_kept toml twoWindows (some networkText) none [network] _ s ?_ ?_ ?_ hs
    · show (tomlParse networkText).toOption = some [network]
      rw [tomlParse, if_pos rfl, Except.toOption]
    · decide +kernel
    · exact Guarded.mono Fresh.unshared (by decide +kernel)
  · simp only [Prod.mk.injEq, Stage.isOk_iff] at hok
    rintro (_ | _)
    · exact hok.1
    · exact hok.2

/-- Both hosts read the file before either renames, both report success, and the first value is
gone. -/
theorem written_value_lost :
    ¬ ∀ (codec : Codec Unit) (calls : Bool → Call) (content leftover : Option Bytes)
      (before : Document Unit) (es : List Event) (s : State Unit),
      (start content leftover : State Unit).files.document codec
        (content.map fun _ => 0) = some before →
      (∀ b, ¬ (calls b).parts <+: (calls (!b)).parts) →
      run (step codec calls) (start content leftover) es = some s →
      (∀ b, (s.stage b).Published) → Kept codec calls before s := by
  intro h
  have hrun : ((run (step toml twoWindows) (start (some networkText) none)
      (operations false 4 ++ operations true 4 ++ operations false 5 ++ operations true 5)).map
        fun s => ((s.stage false).isOk, (s.stage true).isOk,
          (s.files.document toml s.files.config).bind (leafAt · ["log", "format"]))) =
      some (true, true, none) := by decide +kernel
  obtain ⟨s, hs, hok⟩ := Option.map_eq_some_iff.mp hrun
  simp only [Prod.mk.injEq, Stage.isOk_iff] at hok
  obtain ⟨hfalse, htrue, hlost⟩ := hok
  have hpub : ∀ b, (s.stage b).Published := by
    rintro (_ | _)
    · exact hfalse
    · exact htrue
  obtain ⟨now, hnow, hvalues, -⟩ := h toml twoWindows (some networkText) none [network] _ s
    (by show (tomlParse networkText).toOption = some [network]
        rw [tomlParse, if_pos rfl, Except.toOption])
    (by decide +kernel) hs hpub
  have hformat := hvalues false hfalse
  rw [hnow, Option.bind_some] at hlost
  rw [show (twoWindows false).parts = ["log", "format"] by decide +kernel, hlost] at hformat
  exact nomatch hformat

end Example

end ValyriaApp.ConfigWriter
