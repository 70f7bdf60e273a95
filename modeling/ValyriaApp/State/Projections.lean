import ValyriaApp.Lib.Keyed
import ValyriaApp.State.Prototype

/-! # What the projections mean

The changed files and the test runs of a task, and the installs and servers of
the workspace, are folds of the events one after the other. Each says something
about the whole history: what was named first, what was said last, and what was
last said of the fields that an event may leave out. Which events say what is a
relation of its own; the folds are then shown to read the same.
-/

namespace ValyriaApp

open Keyed

/-! ## Files -/

/-- A path an event names. -/
structure Naming where
  path : String
  change : Option String
  seq : Num

/-- A changed file names its path, and so does the input of a tool that writes. -/
inductive Names (ev : DecodedEvent) : Naming → Prop
  | changed {payload : Option Json} {path : String} : ev.body = .ok .fileChanged payload →
      strField payload "path" = some path → path ≠ "" →
      Names ev ⟨path, strField payload "change", ev.seq⟩
  | written {payload : Option Json} {tool word path : String} :
      ev.body = .ok .toolStarted payload → strField payload "tool" = some tool →
      word ∈ ["write", "edit", "patch"] → word.toList <:+: tool.toList →
      strField (field payload "input") "path" = some path → path ≠ "" →
      Names ev ⟨path, none, ev.seq⟩

/-- The entry of a path, from its namings. -/
def fileAfter (namings : List Naming) : Option FileChangeProjection :=
  namings.head?.bind fun first => namings.getLast?.map fun last =>
    { path := last.path
      change := (namings.filterMap (·.change)).getLast?
      firstSeq := first.seq
      lastSeq := last.seq }

/-- One entry for each path, in order of first naming. -/
def filesAfter (namings : List Naming) : List FileChangeProjection :=
  (namings.map (·.path)).eraseDups.filterMap fun path => fileAfter (namings.filter (·.path = path))

/-! ## Tests -/

def testKinds : List (EventKind × TestOutcome) :=
  [(.testStarted, .started), (.testPassed, .passed), (.testFailed, .failed)]

/-- A test event reports a run, of the unnamed command when it gives none. -/
inductive Reports (ev : DecodedEvent) : TestRunProjection → Prop
  | run {kind : EventKind} {payload : Option Json} {outcome : TestOutcome} :
      ev.body = .ok kind payload → (kind, outcome) ∈ testKinds →
      Reports ev
        { command := (strField payload "command").getD "(unnamed run)"
          outcome
          runId := strField payload "run_id"
          failureCount := numField payload "failure_count"
          summary := (strField payload "summary").or (strField payload "outcome")
          failures := parseFailures (field payload "failures")
          seq := ev.seq }

/-- The last run of each command, in the order of their first ones. -/
def runsAfter (runs : List TestRunProjection) : List TestRunProjection :=
  (runs.map (·.command)).eraseDups.filterMap fun command =>
    (runs.filter (·.command = command)).getLast?

/-! ## Installs and servers -/

/-- An event of an install. -/
structure InstallEvent where
  id : String
  step : InstallStep
  payload : Option Json
  seq : Num

def modelInstallKinds : List (EventKind × InstallStep) :=
  [(.modelInstallProgress, .progress), (.modelInstallCompleted, .completed),
    (.modelInstallFailed, .failed)]

def engineInstallKinds : List (EventKind × InstallStep) :=
  [(.engineInstallProgress, .progress), (.engineInstallCompleted, .completed),
    (.engineInstallFailed, .failed)]

/-- An event of one of the kinds tells of the install that its key names. -/
inductive Tells (kinds : List (EventKind × InstallStep)) (idKey : String) (ev : DecodedEvent) :
    InstallEvent → Prop
  | step {kind : EventKind} {payload : Option Json} {step : InstallStep} {id : String} :
      ev.body = .ok kind payload → (kind, step) ∈ kinds → strField payload idKey = some id →
      id ≠ "" → Tells kinds idKey ev ⟨id, step, payload, ev.seq⟩

def finiteField (payload : Option Json) (key : String) : Option Num :=
  (numField payload key).filter (·.isFinite)

/-- Only progress names a phase. -/
def InstallEvent.phase (ev : InstallEvent) : Option String :=
  match ev.step with
  | .progress => strField ev.payload "phase"
  | _ => none

/-- Progress gives byte counts under their own keys, and a completed install its size. -/
def InstallEvent.bytes (key : String) (sizeKey : Option String) (ev : InstallEvent) : Option Num :=
  match ev.step with
  | .progress => finiteField ev.payload key
  | .completed => sizeKey.bind (finiteField ev.payload)
  | .failed => none

def InstallEvent.status (ev : InstallEvent) : InstallStatus :=
  match ev.step with
  | .progress => .running
  | .completed => .completed
  | .failed => .failed

/-- A text of a failure. -/
def InstallEvent.text (key : String) (ev : InstallEvent) : Option String :=
  match ev.step with
  | .failed => strField ev.payload key
  | _ => none

/-- The entry of an install, from its events. -/
def installAfter (sizeKey : Option String) (evs : List InstallEvent) :
    Option ModelInstallProjection :=
  evs.getLast?.map fun last =>
    { id := last.id
      phase := (evs.filterMap (·.phase)).getLast?
      downloadedBytes := (evs.filterMap (·.bytes "downloaded_bytes" sizeKey)).getLast?.getD 0
      totalBytes := (evs.filterMap (·.bytes "total_bytes" sizeKey)).getLast?.getD 0
      status := last.status
      code := last.text "code"
      message := last.text "message"
      lastSeq := last.seq }

/-- An event of a server. -/
structure ServerEvent where
  role : String
  state : ServerState
  payload : Option Json
  seq : Num

def serverKinds : List (EventKind × ServerState) :=
  [(.modelServerStarting, .starting), (.modelServerReady, .ready), (.modelServerFailed, .failed),
    (.modelServerStopped, .stopped)]

/-- A server event tells of the role it names. -/
inductive TellsServer (ev : DecodedEvent) : ServerEvent → Prop
  | state {kind : EventKind} {payload : Option Json} {state : ServerState} {role : String} :
      ev.body = .ok kind payload → (kind, state) ∈ serverKinds →
      strField payload "role" = some role → role ≠ "" →
      TellsServer ev ⟨role, state, payload, ev.seq⟩

def ServerEvent.message (ev : ServerEvent) : Option String :=
  match ev.state with
  | .failed => strField ev.payload "message"
  | .stopped => strField ev.payload "reason"
  | _ => none

/-- The entry of a role, from its events. -/
def serverAfter (evs : List ServerEvent) : Option ModelServerProjection :=
  evs.getLast?.map fun last =>
    { role := last.role
      modelId := (evs.filterMap fun ev => strField ev.payload "id").getLast?.getD ""
      state := last.state
      port := if last.state = .ready then numField last.payload "port" else none
      code := if last.state = .failed then strField last.payload "code" else none
      message := last.message
      lastSeq := last.seq }

/-- The projections of a store are what the events say. -/
structure Means (evs : List DecodedEvent) (s : StoreState) : Prop where
  files : ∀ t, ∃ namings, Records Names (evs.filter (owningTask · = some t)) namings ∧
    (s.files.get? t).getD [] = filesAfter namings
  tests : ∀ t, ∃ runs, Records Reports (evs.filter (owningTask · = some t)) runs ∧
    ((s.tests.get? t).map (·.runs)).getD [] = runsAfter runs
  modelInstalls : ∃ said, Records (Tells modelInstallKinds "id") evs said ∧
    ∀ id, s.modelInstalls.get? id = installAfter (some "size_bytes") (said.filter (·.id = id))
  engineInstalls : ∃ said, Records (Tells engineInstallKinds "component") evs said ∧
    ∀ id, s.engineInstalls.get? id = installAfter none (said.filter (·.id = id))
  modelServers : ∃ said, Records TellsServer evs said ∧
    ∀ role, s.modelServers.get? role = serverAfter (said.filter (·.role = role))

/-! ## What the folds read -/

theorem nameField_eq_some {payload : Option Json} {key name : String} :
    nameField payload key = some name ↔ strField payload key = some name ∧ name ≠ "" := by
  rw [nameField, Option.filter_eq_some_iff, decide_eq_true_iff]

theorem namesWriteTool_eq_true {tool : String} :
    namesWriteTool tool = true ↔
      ∃ word ∈ ["write", "edit", "patch"], word.toList <:+: tool.toList := by
  rw [namesWriteTool, List.any_eq_true]
  simp only [decide_eq_true_iff]

/-- The naming that `foldFileChange` reads. -/
def namingOf (ev : DecodedEvent) : Option Naming :=
  match ev.body with
  | .ok kind payload => (changedPath kind payload).map fun p =>
      { path := p.1, change := p.2, seq := ev.seq }
  | .failed .. => none

theorem namingOf_eq_some (ev : DecodedEvent) (n : Naming) : namingOf ev = some n ↔ Names ev n := by
  constructor
  · intro h
    unfold namingOf at h
    split at h
    · rename_i kind payload hbody
      obtain ⟨p, hp, rfl⟩ := Option.map_eq_some_iff.mp h
      unfold changedPath at hp
      split at hp
      · obtain ⟨path, hpath, rfl⟩ := Option.map_eq_some_iff.mp hp
        obtain ⟨hpath, hne⟩ := nameField_eq_some.mp hpath
        exact .changed hbody hpath hne
      · split at hp
        · rename_i htool
          obtain ⟨path, hpath, rfl⟩ := Option.map_eq_some_iff.mp hp
          obtain ⟨hpath, hne⟩ := nameField_eq_some.mp hpath
          obtain ⟨word, hword, hin⟩ := namesWriteTool_eq_true.mp htool
          cases htext : strField payload "tool" with
          | none =>
            rw [htext] at hin
            have hnil : word.toList = [] := List.infix_nil.mp hin
            simp only [List.mem_cons, List.not_mem_nil, or_false] at hword
            rcases hword with rfl | rfl | rfl <;> exact absurd hnil (by decide)
          | some tool =>
            rw [htext] at hin
            exact .written hbody htext hword hin hpath hne
        · exact nomatch hp
      · exact nomatch hp
    · exact nomatch h
  · intro h
    cases h with
    | changed hbody hpath hne =>
      simp [namingOf, hbody, changedPath, nameField_eq_some.mpr ⟨hpath, hne⟩]
    | written hbody htool hword hin hpath hne =>
      have htool' := namesWriteTool_eq_true.mpr ⟨_, hword, hin⟩
      simp [namingOf, hbody, changedPath, htool, htool', nameField_eq_some.mpr ⟨hpath, hne⟩]

/-- The run that `foldTestRun` reads. -/
def runOf (ev : DecodedEvent) : Option TestRunProjection :=
  match ev.body with
  | .ok kind payload => (testOutcome kind).map fun outcome =>
      { command := (strField payload "command").getD "(unnamed run)"
        outcome
        runId := strField payload "run_id"
        failureCount := numField payload "failure_count"
        summary := (strField payload "summary").or (strField payload "outcome")
        failures := parseFailures (field payload "failures")
        seq := ev.seq }
  | .failed .. => none

theorem testOutcome_eq_some {kind : EventKind} {outcome : TestOutcome} :
    testOutcome kind = some outcome ↔ (kind, outcome) ∈ testKinds := by
  cases kind <;> simp [testOutcome, testKinds, eq_comm]

theorem runOf_eq_some (ev : DecodedEvent) (run : TestRunProjection) :
    runOf ev = some run ↔ Reports ev run := by
  constructor
  · intro h
    unfold runOf at h
    split at h
    · rename_i hbody
      obtain ⟨outcome, houtcome, rfl⟩ := Option.map_eq_some_iff.mp h
      exact .run hbody (testOutcome_eq_some.mp houtcome)
    · exact nomatch h
  · rintro ⟨hbody, hkind⟩
    simp [runOf, hbody, testOutcome_eq_some.mpr hkind]

/-- The event that `foldInstall` reads. -/
def installEvent (idKey : String) (step : EventKind → Option InstallStep) (ev : DecodedEvent) :
    Option InstallEvent :=
  match ev.body with
  | .ok kind payload => (step kind).bind fun step => (nameField payload idKey).map fun id =>
      { id, step, payload, seq := ev.seq }
  | .failed .. => none

theorem installEvent_eq_some {kinds : List (EventKind × InstallStep)}
    {step : EventKind → Option InstallStep}
    (hkinds : ∀ kind st, step kind = some st ↔ (kind, st) ∈ kinds) (idKey : String)
    (ev : DecodedEvent) (said : InstallEvent) :
    installEvent idKey step ev = some said ↔ Tells kinds idKey ev said := by
  constructor
  · intro h
    unfold installEvent at h
    split at h
    · rename_i hbody
      obtain ⟨st, hst, h⟩ := Option.bind_eq_some_iff.mp h
      obtain ⟨id, hid, rfl⟩ := Option.map_eq_some_iff.mp h
      obtain ⟨hid, hne⟩ := nameField_eq_some.mp hid
      exact .step hbody ((hkinds _ _).mp hst) hid hne
    · exact nomatch h
  · rintro ⟨hbody, hkind, hid, hne⟩
    simp [installEvent, hbody, (hkinds _ _).mpr hkind, nameField_eq_some.mpr ⟨hid, hne⟩]

theorem modelInstallStep_eq_some (kind : EventKind) (step : InstallStep) :
    modelInstallStep kind = some step ↔ (kind, step) ∈ modelInstallKinds := by
  cases kind <;> simp [modelInstallStep, modelInstallKinds, eq_comm]

theorem engineInstallStep_eq_some (kind : EventKind) (step : InstallStep) :
    engineInstallStep kind = some step ↔ (kind, step) ∈ engineInstallKinds := by
  cases kind <;> simp [engineInstallStep, engineInstallKinds, eq_comm]

/-- The event that `foldModelServer` reads. -/
def serverEvent (ev : DecodedEvent) : Option ServerEvent :=
  match ev.body with
  | .ok kind payload => (serverState kind).bind fun state =>
      (nameField payload "role").map fun role => { role, state, payload, seq := ev.seq }
  | .failed .. => none

theorem serverState_eq_some {kind : EventKind} {state : ServerState} :
    serverState kind = some state ↔ (kind, state) ∈ serverKinds := by
  cases kind <;> simp [serverState, serverKinds, eq_comm]

theorem serverEvent_eq_some (ev : DecodedEvent) (said : ServerEvent) :
    serverEvent ev = some said ↔ TellsServer ev said := by
  constructor
  · intro h
    unfold serverEvent at h
    split at h
    · rename_i hbody
      obtain ⟨state, hstate, h⟩ := Option.bind_eq_some_iff.mp h
      obtain ⟨role, hrole, rfl⟩ := Option.map_eq_some_iff.mp h
      obtain ⟨hrole, hne⟩ := nameField_eq_some.mp hrole
      exact .state hbody (serverState_eq_some.mp hstate) hrole hne
    · exact nomatch h
  · rintro ⟨hbody, hkind, hrole, hne⟩
    simp [serverEvent, hbody, serverState_eq_some.mpr hkind, nameField_eq_some.mpr ⟨hrole, hne⟩]

section Files

/-- The entry of a path after one more naming. -/
def Naming.entry (n : Naming) (prev : Option FileChangeProjection) : FileChangeProjection where
  path := n.path
  change := n.change.or (prev.bind (·.change))
  firstSeq := (prev.map (·.firstSeq)).getD n.seq
  lastSeq := n.seq

theorem touchFile_eq (n : Naming) (files : List FileChangeProjection) :
    touchFile n.path n.change n.seq files = upsert (·.path) n.path n.entry files := by
  induction files with
  | nil => simp [touchFile, upsert, Naming.entry]
  | cons f files ih =>
    rw [touchFile, upsert, ih]
    split
    · rename_i hpath
      simp [Naming.entry, hpath]
    · rfl

theorem latest_entry (namings : List Naming) :
    latest Naming.entry namings = fileAfter namings := by
  have hpath : (latest Naming.entry namings).map (·.path) = namings.getLast?.map (·.path) :=
    map_latest_of_last fun _ _ => rfl
  have hseq : (latest Naming.entry namings).map (·.lastSeq) = namings.getLast?.map (·.seq) :=
    map_latest_of_last fun _ _ => rfl
  have hfirst : (latest Naming.entry namings).map (·.firstSeq) = namings.head?.map (·.seq) :=
    map_latest_of_first fun _ _ => rfl
  have hchange : (latest Naming.entry namings).bind (·.change) =
      (namings.filterMap (·.change)).getLast? :=
    bind_latest_of_carried fun _ _ => rfl
  cases hlatest : latest Naming.entry namings with
  | none =>
    rw [hlatest, Option.map_none, eq_comm, Option.map_eq_none_iff] at hfirst
    rw [fileAfter, hfirst, Option.bind_none]
  | some f =>
    rw [hlatest, Option.map_some, eq_comm, Option.map_eq_some_iff] at hpath hfirst
    obtain ⟨last, hlast, hpath⟩ := hpath
    obtain ⟨first, hhead, hfirst⟩ := hfirst
    rw [hlatest, hlast, Option.map_some, Option.map_some, Option.some.injEq] at hseq
    rw [hlatest, Option.bind_some] at hchange
    rw [fileAfter, hhead, Option.bind_some, hlast, Option.map_some, ← hchange, hpath, hfirst,
      ← hseq]

theorem foldl_touchFile (namings : List Naming) :
    namings.foldl (fun files n => touchFile n.path n.change n.seq files) [] =
      filesAfter namings := by
  have hkey (n : Naming) (prev : Option FileChangeProjection) : (n.entry prev).path = n.path := rfl
  have hfold : namings.foldl (fun files n => upsert (·.path) n.path n.entry files) [] =
      (namings.map (·.path)).eraseDups.filterMap fun path =>
        latest Naming.entry (namings.filter (·.path = path)) :=
    foldl_upsert hkey namings
  simp only [touchFile_eq, hfold, latest_entry, filesAfter]

theorem files_fold (t : String) (d : TaskSlice) (ev : DecodedEvent) :
    (d.fold t ev).files.getD [] = ((namingOf ev).map fun n =>
      touchFile n.path n.change n.seq (d.files.getD [])).getD (d.files.getD []) := by
  unfold TaskSlice.fold namingOf
  cases ev.body with
  | failed reason kind raw => rfl
  | ok kind payload => cases hpath : changedPath kind payload <;> simp [foldFileChange, hpath]

end Files

section Tests

/-- A run replaces the earlier one of its command. -/
def replaced (run : TestRunProjection) (_ : Option TestRunProjection) : TestRunProjection := run

theorem recordRun_eq (run : TestRunProjection) (runs : List TestRunProjection) :
    recordRun run runs = upsert (·.command) run.command (replaced run) runs := by
  induction runs with
  | nil => rfl
  | cons r runs ih => rw [recordRun, upsert, ih, replaced]

theorem latest_replaced (runs : List TestRunProjection) :
    latest replaced runs = runs.getLast? := by
  obtain rfl | ⟨init, last, rfl⟩ := List.eq_nil_or_concat runs
  · rfl
  · simp [replaced]

theorem foldl_recordRun (runs : List TestRunProjection) :
    runs.foldl (fun rs run => recordRun run rs) [] = runsAfter runs := by
  have hkey (run : TestRunProjection) (prev : Option TestRunProjection) :
      (replaced run prev).command = run.command := rfl
  have hfold : runs.foldl (fun rs run => upsert (·.command) run.command (replaced run) rs) [] =
      (runs.map (·.command)).eraseDups.filterMap fun command =>
        latest replaced (runs.filter (·.command = command)) :=
    foldl_upsert hkey runs
  simp only [recordRun_eq, hfold, latest_replaced, runsAfter]

theorem foldTestRun_eq (prev : Option TestProjection) (t : String) {kind : EventKind}
    {payload : Option Json} {ev : DecodedEvent} (hbody : ev.body = .ok kind payload) :
    foldTestRun prev t ev.seq kind payload =
      ((runOf ev).map fun run =>
        { taskId := t, runs := recordRun run ((prev.map (·.runs)).getD []) }).or prev := by
  rw [foldTestRun]
  simp only [runOf, hbody]
  cases testOutcome kind <;> rfl

theorem tests_fold (t : String) (d : TaskSlice) (ev : DecodedEvent) :
    ((d.fold t ev).tests.map (·.runs)).getD [] = ((runOf ev).map fun run =>
      recordRun run ((d.tests.map (·.runs)).getD [])).getD ((d.tests.map (·.runs)).getD []) := by
  unfold TaskSlice.fold
  cases hbody : ev.body with
  | failed reason kind raw => simp [runOf, hbody]
  | ok kind payload =>
    simp only [foldTestRun_eq d.tests t hbody]
    cases runOf ev <;> simp

end Tests

section Installs

variable {sizeKey : Option String} {evs : List DecodedEvent}

theorem numOr_eq (payload : Option Json) (key : String) (fallback : Num) :
    numOr payload key fallback = (finiteField payload key).getD fallback := by
  unfold numOr finiteField
  cases numField payload key with
  | none => rfl
  | some n => cases hn : n.isFinite <;> simp [Option.filter_some, hn]

/-- The entry of an install after one more event. -/
def InstallEvent.entry (sizeKey : Option String) (ev : InstallEvent)
    (prev : Option ModelInstallProjection) : ModelInstallProjection where
  id := ev.id
  phase := ev.phase.or (prev.bind (·.phase))
  downloadedBytes := (ev.bytes "downloaded_bytes" sizeKey).getD
    ((prev.map (·.downloadedBytes)).getD 0)
  totalBytes := (ev.bytes "total_bytes" sizeKey).getD ((prev.map (·.totalBytes)).getD 0)
  status := ev.status
  code := ev.text "code"
  message := ev.text "message"
  lastSeq := ev.seq

def InstallEvent.put (sizeKey : Option String) (m : Record ModelInstallProjection)
    (ev : InstallEvent) : Record ModelInstallProjection :=
  m.set ev.id (ev.entry sizeKey (m.get? ev.id))

theorem latest_installEvent (sizeKey : Option String) (es : List InstallEvent) :
    latest (InstallEvent.entry sizeKey) es = installAfter sizeKey es := by
  have hphase : (latest (InstallEvent.entry sizeKey) es).bind (·.phase) =
      (es.filterMap (·.phase)).getLast? :=
    bind_latest_of_carried fun _ _ => rfl
  have hdownloaded : ((latest (InstallEvent.entry sizeKey) es).map (·.downloadedBytes)).getD 0 =
      (es.filterMap (·.bytes "downloaded_bytes" sizeKey)).getLast?.getD 0 :=
    map_latest_of_carried fun _ _ => rfl
  have htotal : ((latest (InstallEvent.entry sizeKey) es).map (·.totalBytes)).getD 0 =
      (es.filterMap (·.bytes "total_bytes" sizeKey)).getLast?.getD 0 :=
    map_latest_of_carried fun _ _ => rfl
  rw [installAfter, ← hphase, ← hdownloaded, ← htotal]
  obtain rfl | ⟨init, last, rfl⟩ := List.eq_nil_or_concat es
  · rfl
  · simp [InstallEvent.entry]

theorem foldInstall_eq (idKey : String) (sizeKey : Option String)
    (step : EventKind → Option InstallStep) (prev : Record ModelInstallProjection)
    {kind : EventKind} {payload : Option Json} {ev : DecodedEvent}
    (hbody : ev.body = .ok kind payload) :
    foldInstall idKey sizeKey step prev ev.seq kind payload =
      ((installEvent idKey step ev).map (InstallEvent.put sizeKey prev)).getD prev := by
  simp only [foldInstall, installEvent, hbody]
  cases hstep : step kind with
  | none => rfl
  | some st =>
    cases hid : nameField payload idKey with
    | none => rfl
    | some id =>
      cases st <;> cases sizeKey <;>
        simp [InstallEvent.put, InstallEvent.entry, InstallEvent.phase, InstallEvent.bytes,
          InstallEvent.status, InstallEvent.text, numOr_eq]

end Installs

section Servers

/-- The entry of a role after one more event. -/
def ServerEvent.entry (ev : ServerEvent) (prev : Option ModelServerProjection) :
    ModelServerProjection where
  role := ev.role
  modelId := (strField ev.payload "id").getD ((prev.map (·.modelId)).getD "")
  state := ev.state
  port := if ev.state = .ready then numField ev.payload "port" else none
  code := if ev.state = .failed then strField ev.payload "code" else none
  message := ev.message
  lastSeq := ev.seq

def ServerEvent.put (m : Record ModelServerProjection) (ev : ServerEvent) :
    Record ModelServerProjection :=
  m.set ev.role (ev.entry (m.get? ev.role))

theorem latest_serverEvent (es : List ServerEvent) :
    latest ServerEvent.entry es = serverAfter es := by
  have hmodel : ((latest ServerEvent.entry es).map (·.modelId)).getD "" =
      (es.filterMap fun ev => strField ev.payload "id").getLast?.getD "" :=
    map_latest_of_carried fun _ _ => rfl
  rw [serverAfter, ← hmodel]
  obtain rfl | ⟨init, last, rfl⟩ := List.eq_nil_or_concat es
  · rfl
  · simp [ServerEvent.entry]

theorem foldModelServer_eq (prev : Record ModelServerProjection) {kind : EventKind}
    {payload : Option Json} {ev : DecodedEvent} (hbody : ev.body = .ok kind payload) :
    foldModelServer prev ev.seq kind payload =
      ((serverEvent ev).map (ServerEvent.put prev)).getD prev := by
  simp only [foldModelServer, serverEvent, hbody]
  cases hstate : serverState kind with
  | none => rfl
  | some state =>
    cases hrole : nameField payload "role" with
    | none => rfl
    | some role =>
      cases hid : strField payload "id" <;> cases state <;>
        simp [ServerEvent.put, ServerEvent.entry, ServerEvent.message, hid]

end Servers

/-! ## The whole history -/

section History

variable {raw : Json} {journal : List Json} {evs : List DecodedEvent}

theorem globalsOf_foldl (evs : List DecodedEvent) (s : StoreState) :
    globalsOf (evs.foldl next s) = evs.foldl Globals.fold (globalsOf s) := by
  induction evs generalizing s with
  | nil => rfl
  | cons ev evs ih =>
    have hnext : globalsOf (next s ev) = (globalsOf s).fold ev := globalsOf_advance s ev
    rw [List.foldl_cons, ih, hnext, List.foldl_cons]

theorem installEvent_of_failed {idKey : String} {step : EventKind → Option InstallStep}
    {ev : DecodedEvent} (h : ∀ kind payload, ev.body ≠ .ok kind payload) :
    installEvent idKey step ev = none := by
  unfold installEvent
  split
  · rename_i hbody
    exact absurd hbody (h _ _)
  · rfl

theorem modelInstalls_fold (g : Globals) (ev : DecodedEvent) :
    (g.fold ev).modelInstalls = ((installEvent "id" modelInstallStep ev).map
      (InstallEvent.put (some "size_bytes") g.modelInstalls)).getD g.modelInstalls := by
  unfold Globals.fold
  cases hbody : ev.body with
  | failed => rw [installEvent_of_failed (by simp [hbody]), Option.map_none, Option.getD_none]
  | ok kind payload => exact foldInstall_eq _ _ _ _ hbody

theorem engineInstalls_fold (g : Globals) (ev : DecodedEvent) :
    (g.fold ev).engineInstalls = ((installEvent "component" engineInstallStep ev).map
      (InstallEvent.put none g.engineInstalls)).getD g.engineInstalls := by
  unfold Globals.fold
  cases hbody : ev.body with
  | failed => rw [installEvent_of_failed (by simp [hbody]), Option.map_none, Option.getD_none]
  | ok kind payload => exact foldInstall_eq _ _ _ _ hbody

theorem modelServers_fold (g : Globals) (ev : DecodedEvent) :
    (g.fold ev).modelServers =
      ((serverEvent ev).map (ServerEvent.put g.modelServers)).getD g.modelServers := by
  unfold Globals.fold
  cases hbody : ev.body with
  | failed => simp [serverEvent, hbody]
  | ok kind payload => exact foldModelServer_eq _ hbody

/-- Folding events into the empty store gives what the events say. -/
theorem means_foldl_next (evs : List DecodedEvent) : Means evs (evs.foldl next emptyStore) where
  files t := by
    refine ⟨_, records_filterMap namingOf_eq_some _, ?_⟩
    change (sliceFor (evs.foldl next emptyStore) t).files.getD [] = _
    have hfold := foldl_records (fun d : TaskSlice => d.files.getD [])
      (fun files (n : Naming) => touchFile n.path n.change n.seq files) (files_fold t)
      (evs.filter (owningTask · = some t)) (sliceFor emptyStore t)
    rw [← foldl_touchFile, sliceFor_foldl_next]
    exact hfold
  tests t := by
    refine ⟨_, records_filterMap runOf_eq_some _, ?_⟩
    change ((sliceFor (evs.foldl next emptyStore) t).tests.map (·.runs)).getD [] = _
    have hfold := foldl_records (fun d : TaskSlice => (d.tests.map (·.runs)).getD [])
      (fun runs run => recordRun run runs) (tests_fold t) (evs.filter (owningTask · = some t))
      (sliceFor emptyStore t)
    rw [← foldl_recordRun, sliceFor_foldl_next]
    exact hfold
  modelInstalls := by
    refine ⟨_, records_filterMap (installEvent_eq_some modelInstallStep_eq_some "id") evs,
      fun id => ?_⟩
    change (globalsOf (evs.foldl next emptyStore)).modelInstalls.get? id = _
    have hfold := foldl_records Globals.modelInstalls _ modelInstalls_fold evs
      (globalsOf emptyStore)
    rw [globalsOf_foldl, hfold, ← latest_installEvent]
    exact get?_foldl_set _ id
  engineInstalls := by
    refine ⟨_, records_filterMap (installEvent_eq_some engineInstallStep_eq_some "component") evs,
      fun id => ?_⟩
    change (globalsOf (evs.foldl next emptyStore)).engineInstalls.get? id = _
    have hfold := foldl_records Globals.engineInstalls _ engineInstalls_fold evs
      (globalsOf emptyStore)
    rw [globalsOf_foldl, hfold, ← latest_installEvent]
    exact get?_foldl_set _ id
  modelServers := by
    refine ⟨_, records_filterMap serverEvent_eq_some evs, fun role => ?_⟩
    change (globalsOf (evs.foldl next emptyStore)).modelServers.get? role = _
    have hfold := foldl_records Globals.modelServers _ modelServers_fold evs (globalsOf emptyStore)
    rw [globalsOf_foldl, hfold, ← latest_serverEvent]
    exact get?_foldl_set _ role

theorem applyBatch?_of_envelopes (henvelopes : ∀ raw ∈ journal, (wireEventEnvelope raw).isSome)
    (hown : ∀ raw ∈ journal, OwnNamed raw) :
    ObjectStore.begin.applyBatch? journal = some ⟨replay journal, .empty⟩ := by
  have hquiet : ¬ journal.any decodeThrows = true := by
    rw [List.any_eq_true]
    rintro ⟨raw, hraw, hthrow⟩
    simp [decodeThrows, wellFormed, henvelopes raw hraw] at hthrow
  rw [ObjectStore.applyBatch?_own fun raw hraw => hown raw (mem_of_mem_takenUp hraw),
    applyBatch?_eq, if_neg hquiet]
  rfl

/-- In the store replayed from well-formed events with increasing numbers, of tasks with names no
object inherits, the projections are what the events say, one numbered zero apart. -/
theorem replay_means (journal : List Json)
    (henvelopes : ∀ raw ∈ journal, (wireEventEnvelope raw).isSome)
    (hincreasing : journal.Pairwise fun a b => (decodeEvent a).seq < (decodeEvent b).seq)
    (hown : ∀ raw ∈ journal, OwnNamed raw) :
    ∃ o, ObjectStore.begin.applyBatch? journal = some o ∧ Means (counted journal) o.store := by
  refine ⟨_, applyBatch?_of_envelopes henvelopes hown, ?_⟩
  rw [replay_counted henvelopes hincreasing]
  exact means_foldl_next _

def fileChanged (seq : ℕ) (taskId path : String) : Json :=
  coreEvent seq taskId 10 "file_changed" (.obj [("path", .str path)])

theorem two_files_mean :
    ∃ o, ObjectStore.begin.applyBatch? [fileChanged 1 "t" "a", fileChanged 2 "t" "b"] = some o ∧
      Means (counted [fileChanged 1 "t" "a", fileChanged 2 "t" "b"]) o.store :=
  replay_means _ (by decide +kernel) (by decide +kernel) (by decide +kernel)

/-- An event numbered zero is not taken up, and one of a task named `constructor` throws. -/
theorem files_missing :
    (¬ ∀ journal : List Json, (∀ raw ∈ journal, (wireEventEnvelope raw).isSome) →
      (journal.Pairwise fun a b => (decodeEvent a).seq < (decodeEvent b).seq) →
      (∀ raw ∈ journal, OwnNamed raw) →
      ∃ o, ObjectStore.begin.applyBatch? journal = some o ∧
        Means (journal.map decodeEvent) o.store) ∧
    ¬ ∀ journal : List Json, (∀ raw ∈ journal, (wireEventEnvelope raw).isSome) →
      (journal.Pairwise fun a b => (decodeEvent a).seq < (decodeEvent b).seq) →
      ∃ o, ObjectStore.begin.applyBatch? journal = some o ∧ Means (counted journal) o.store := by
  constructor
  · intro h
    obtain ⟨o, ho, hmeans⟩ :=
      h [fileChanged 0 "t" "a"] (by decide +kernel) (by decide +kernel) (by decide +kernel)
    obtain ⟨namings, hnamings, hfiles⟩ := hmeans.files "t"
    have hstored : (ObjectStore.begin.applyBatch? [fileChanged 0 "t" "a"]).map
        (fun o => ((o.store.files.get? "t").getD []).length) = some 0 := by decide +kernel
    rw [ho, Option.map_some, hfiles, hnamings.eq_filterMap namingOf_eq_some] at hstored
    exact absurd hstored (by decide +kernel)
  · intro h
    obtain ⟨o, ho, -⟩ :=
      h [fileChanged 1 "constructor" "a"] (by decide +kernel) (by decide +kernel)
    have hthrow : (ObjectStore.begin.applyBatch? [fileChanged 1 "constructor" "a"]).isNone := by
      decide +kernel
    rw [ho] at hthrow
    exact nomatch hthrow

end History

end ValyriaApp
