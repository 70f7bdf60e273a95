import ValyriaApp.Extension.ModelList
import ValyriaApp.Extension.ModelRows
import ValyriaApp.Lib.Causal
import ValyriaApp.Lib.Mirror
import ValyriaApp.Lib.Pool

/-! # The model manager

The manager lists the catalog and forwards what the user does with it to Core.
Installing asks for the license first and removing asks for a confirmation; a
request that may boot a server is not made again for a model while one is under
way. Several of these can be under way at a time, with refreshes of the list.
-/

namespace ValyriaApp
open Mirror

structure InspectResult where
  displayName : String
  licenseName : String
  licenseUrl : Option String
  licenseText : Option String
  deriving DecidableEq

/-- The document that shows the license. -/
def licenseDocument (r : InspectResult) : String :=
  let body :=
    match (r.licenseText.map fun text => String.ofList (Num.trim text.toList)).filter (· ≠ "") with
    | some text => text
    | none =>
      match r.licenseUrl.filter (· ≠ "") with
      | some url => "Full text: " ++ url
      | none => "No license text is available offline."
  r.displayName ++ " — " ++ r.licenseName ++ "\n" ++ String.ofList (List.replicate 60 '=') ++
    "\n\n" ++ body ++ "\n"

/-- A request to Core. An install says that the license is accepted. -/
inductive ModelRequest where
  | list | recommend
  | inspect (id : String)
  | install (id : String)
  | cancelInstall (id : String)
  | activate (id : String)
  | restartServer (id : String)
  | remove (id : String)
  deriving DecidableEq

/-- What can be seen of the manager from outside. -/
inductive ManagerEvent where
  | sent (request : ModelRequest)
  /-- Core answers a `model/inspect`. -/
  | inspected (id : String) (result : InspectResult)
  /-- A document is open. -/
  | opened (content : String)
  /-- The user accepts the license and the install. -/
  | accepted (id : String) (result : InspectResult)
  /-- The user confirms that a model is removed. -/
  | confirmed (id : String)

/-- Where a call of the manager waits. -/
inductive ManagerCall where
  /-- `refresh`, for the list. -/
  | listing
  /-- `refresh`, for the recommendation. -/
  | recommending
  | inspecting (id : String)
  | opening (id : String) (result : InspectResult)
  | asking (id : String) (result : InspectResult)
  | installing (id : String)
  | cancelling (id : String)
  | activating (id : String)
  | restarting (id : String)
  | confirming (id : String)
  | removing (id : String)
  deriving DecidableEq

/-- The model that a call may boot a server for. -/
def ManagerCall.boots : ManagerCall → Option String
  | .activating id | .restarting id => some id
  | _ => none

/-- What a call waits for. -/
inductive ManagerAnswer where
  | models (models : Option (List CatalogModel))
  | recommend (recommend : Option Recommendation)
  | inspect (result : Option InspectResult)
  | choice (accepts : Bool)
  | settled (succeeds : Bool)

/-- The commands of the page; an empty id counts as none. -/
inductive ManagerCommand where
  | refreshModels
  | installModel (id : String)
  | cancelModelInstall (id : String)
  | activateModel (id : String)
  | restartServer (id : String)
  | removeModel (id : String)

structure ModelManager where
  store : Store
  supervisor : Supervisor
  models : Option (List CatalogModel)
  recommend : Option Recommendation
  pendingAction : Finset String
  calls : List ManagerCall
  lastTerminalSeq : Num
  view : Option (Page ModelsModel)
  /-- A listener called before that of the view threw, and nothing was posted since. -/
  missed : Bool
  log : List ManagerEvent

inductive ManagerAction where
  /-- The listener of the view is `called` unless one before it throws. -/
  | store (change : Store.Change) (called : Bool)
  | supervisor (change : Supervisor.Change) (called : Bool)
  | resolve
  | dispose
  | visible
  | page (a : Page.Action)
  /-- The greeting of the page arrives. -/
  | ready
  | command (c : ManagerCommand)
  | answer (i : ℕ) (a : ManagerAnswer)

namespace ModelManager

variable (locale : Locale)

def start : ModelManager where
  store := .new
  supervisor := .new
  models := none
  recommend := none
  pendingAction := ∅
  calls := []
  lastTerminalSeq := 0
  view := none
  missed := false
  log := []

def input (w : ModelManager) : ModelsInput where
  models := w.models
  recommend := w.recommend
  installs := modelInstalls w.store.state
  servers := modelServers w.store.state
  engineInstall := (engineInstalls w.store.state).head?
  manageCapable := w.supervisor.has "model_manage"
  hardwareCapable := w.supervisor.has "hardware"
  inferenceCapable := w.supervisor.has "model_inference"
  pendingActionIds := w.pendingAction

def buildModel (w : ModelManager) : ModelsModel := modelsModel locale w.input

def push (w : ModelManager) : ModelManager :=
  { w with view := w.view.map (·.post (w.buildModel locale)), missed := false }

/-- A call begins, with its first request if it makes one. -/
def begin (w : ModelManager) (c : ManagerCall) (events : List ManagerEvent) : ModelManager :=
  { w with calls := w.calls ++ [c], log := w.log ++ events }

/-- A call goes on. -/
def proceed (w : ModelManager) (i : ℕ) (c : ManagerCall) (events : List ManagerEvent) :
    ModelManager :=
  { w with calls := w.calls.set i c, log := w.log ++ events }

def finish (w : ModelManager) (i : ℕ) : ModelManager := { w with calls := w.calls.eraseIdx i }

def refresh (w : ModelManager) : ModelManager :=
  if w.supervisor.state = .ready then w.begin .listing [.sent .list] else w

def onStoreChange (w : ModelManager) : ModelManager :=
  let latest := latestTerminal .models w.store.state
  if w.lastTerminalSeq < latest then { w with lastTerminalSeq := latest }.refresh
  else w.push locale

/-- `activate` or `restartServer`, up to its request. -/
def boot (w : ModelManager) (id : String) (c : ManagerCall) (request : ModelRequest) :
    ModelManager :=
  if id ≠ "" ∧ id ∉ w.pendingAction then
    ({ w with pendingAction := insert id w.pendingAction }.begin c [.sent request]).push locale
  else w

def onCommand (w : ModelManager) : ManagerCommand → ModelManager
  | .refreshModels => w.refresh
  | .installModel id => if id ≠ "" then w.begin (.inspecting id) [.sent (.inspect id)] else w
  | .cancelModelInstall id =>
    if id ≠ "" then w.begin (.cancelling id) [.sent (.cancelInstall id)] else w
  | .activateModel id => w.boot locale id (.activating id) (.activate id)
  | .restartServer id => w.boot locale id (.restarting id) (.restartServer id)
  | .removeModel id => if id ≠ "" then w.begin (.confirming id) [] else w

/-- The answer to `model/list`. -/
def listed (w : ModelManager) (i : ℕ) (models : Option (List CatalogModel)) : ModelManager :=
  let w := { w with models }
  if w.supervisor.has "hardware" then w.proceed i .recommending [.sent .recommend]
  else ({ w with recommend := none }.finish i).push locale

/-- The end of `activate` or `restartServer`. -/
def booted (w : ModelManager) (i : ℕ) (id : String) : ModelManager :=
  ({ w with pendingAction := w.pendingAction.erase id }.finish i).push locale

/-- A call goes on with what it has waited for. -/
def «continue» (w : ModelManager) (i : ℕ) : ManagerCall → ManagerAnswer → Option ModelManager
  | .listing, .models models => some (w.listed locale i models)
  | .recommending, .recommend recommend =>
    some (({ w with recommend }.finish i).push locale)
  | .inspecting id, .inspect (some r) => some (w.proceed i (.opening id r) [.inspected id r])
  | .inspecting _, .inspect none => some (w.finish i)
  | .opening id r, .settled true =>
    some (w.proceed i (.asking id r) [.opened (licenseDocument r)])
  | .opening _ _, .settled false => some (w.finish i)
  | .asking id r, .choice true =>
    some (w.proceed i (.installing id) [.accepted id r, .sent (.install id)])
  | .asking _ _, .choice false => some (w.finish i)
  | .installing _, .settled _ => some (w.finish i)
  | .cancelling _, .settled _ => some (w.finish i)
  | .activating id, .settled _ => some (w.booted locale i id)
  | .restarting id, .settled _ => some (w.booted locale i id)
  | .confirming id, .choice true =>
    some (w.proceed i (.removing id) [.confirmed id, .sent (.remove id)])
  | .confirming _, .choice false => some (w.finish i)
  | .removing _, .settled true => some (w.finish i).refresh
  | .removing _, .settled false => some (w.finish i)
  | _, _ => none

/-- Something the view reads has changed; a view that is resolved is told, if the listeners get
that far. -/
def changed (w : ModelManager) (called : Bool) (listen : ModelManager → ModelManager) :
    ModelManager :=
  if called then if w.view.isSome then listen w else w
  else { w with missed := true }

def step (w : ModelManager) : ManagerAction → Option ModelManager
  | .store change called =>
    some ((w.store.changed change).elim w fun store =>
      { w with store }.changed called (onStoreChange locale))
  | .supervisor change called =>
    some ((w.supervisor.changed change).elim w fun supervisor =>
      { w with supervisor }.changed called (push locale))
  | .resolve => some { w with view := some .blank }.refresh
  | .dispose => some { w with view := none }
  | .visible => some (w.push locale)
  | .page a => do
    let page ← (← w.view).act a
    return { w with view := some page }
  | .ready => do
    let page ← (← w.view).answer (w.buildModel locale)
    return { w with view := some page, missed := false }
  | .command c => w.view.map fun _ => w.onCommand locale c
  | .answer i a => w.calls[i]?.bind fun c => w.continue locale i c a

/-! ## What a call can do -/

/-- A call goes on to the next thing it waits for. -/
inductive GoesOn : ManagerCall → ManagerCall → List ManagerEvent → Prop where
  | inspected (id : String) (r : InspectResult) :
    GoesOn (.inspecting id) (.opening id r) [.inspected id r]
  | opened (id : String) (r : InspectResult) :
    GoesOn (.opening id r) (.asking id r) [.opened (licenseDocument r)]
  | accepted (id : String) (r : InspectResult) :
    GoesOn (.asking id r) (.installing id) [.accepted id r, .sent (.install id)]
  | confirmed (id : String) :
    GoesOn (.confirming id) (.removing id) [.confirmed id, .sent (.remove id)]

/-- A call that is no refresh and boots nothing. -/
structure Plain (c : ManagerCall) : Prop where
  boots : c.boots = none
  listing : c ≠ .listing
  recommending : c ≠ .recommending

variable (locale : Locale) in
/-- What a call does with an answer. -/
inductive Continues (w : ModelManager) (i : ℕ) (c : ManagerCall) : ModelManager → Prop where
  | proceeds {d : ManagerCall} {events : List ManagerEvent} (h : GoesOn c d events) :
    Continues w i c (w.proceed i d events)
  | finishes (h : Plain c) : Continues w i c (w.finish i)
  | removed (h : Plain c) : Continues w i c (w.finish i).refresh
  | listed (h : c = .listing) (models : Option (List CatalogModel)) :
    Continues w i c (w.listed locale i models)
  | recommended (h : c = .recommending) (recommend : Option Recommendation) :
    Continues w i c (({ w with recommend }.finish i).push locale)
  | booted {id : String} (h : c.boots = some id) : Continues w i c (w.booted locale i id)

variable {locale : Locale} {w w' : ModelManager} {i : ℕ} {c d : ManagerCall}
  {a : ManagerAnswer} {events : List ManagerEvent}

theorem GoesOn.plain (h : GoesOn c d events) : Plain c ∧ Plain d := by
  cases h
  all_goals exact ⟨⟨rfl, nofun, nofun⟩, rfl, nofun, nofun⟩

theorem continues_of_continue (h : w.continue locale i c a = some w') :
    Continues locale w i c w' := by
  rw [ModelManager.continue.eq_def] at h
  split at h
  all_goals cases h
  all_goals first
    | exact .listed rfl _
    | exact .recommended rfl _
    | exact .booted rfl
    | exact .proceeds (.inspected ..)
    | exact .proceeds (.opened ..)
    | exact .proceeds (.accepted ..)
    | exact .proceeds (.confirmed ..)
    | exact .finishes ⟨rfl, nofun, nofun⟩
    | exact .removed ⟨rfl, nofun, nofun⟩

end ModelManager

/-! ## Requests -/

/-- What justifies an event: an install follows upon the acceptance of a license that was shown as
Core told it for the model, and a removal follows upon its confirmation. -/
def ManagerEvent.Backed (past : List ManagerEvent) : ManagerEvent → Prop
  | .sent (.install id) => ∃ r, past.getLast? = some (.accepted id r)
  | .sent (.remove id) => past.getLast? = some (.confirmed id)
  | .accepted id r => .inspected id r ∈ past ∧ .opened (licenseDocument r) ∈ past
  | .opened content => ∃ id r, .inspected id r ∈ past ∧ content = licenseDocument r
  | .inspected id _ => .sent (.inspect id) ∈ past
  | _ => True

/-- What a call knows of the past. -/
def ManagerCall.Knows (log : List ManagerEvent) : ManagerCall → Prop
  | .inspecting id => .sent (.inspect id) ∈ log
  | .opening id r => .inspected id r ∈ log
  | .asking id r => .inspected id r ∈ log ∧ .opened (licenseDocument r) ∈ log
  | _ => True

theorem ManagerCall.Knows.mono {c : ManagerCall} {log : List ManagerEvent} (h : c.Knows log)
    (events : List ManagerEvent) : c.Knows (log ++ events) := by
  cases c with
  | inspecting id => exact List.mem_append_left _ h
  | opening id r => exact List.mem_append_left _ h
  | asking id r => exact ⟨List.mem_append_left _ h.1, List.mem_append_left _ h.2⟩
  | _ => trivial

namespace ModelManager

variable {locale : Locale} {w w' : ModelManager} {i : ℕ} {c d : ManagerCall}
  {events : List ManagerEvent} {p : Page ModelsModel}

/-- Every event is justified, and the pending actions are the models that a call boots a server for,
one call each. -/
structure Orderly (w : ModelManager) : Prop where
  log : Causal.Justified ManagerEvent.Backed w.log
  calls : ∀ c ∈ w.calls, c.Knows w.log
  boots : (w.calls.filterMap ManagerCall.boots).Nodup
  pending : ∀ id, id ∈ w.pendingAction ↔ id ∈ w.calls.filterMap ManagerCall.boots

theorem orderly_start : Orderly start where
  log := Causal.justified_nil
  calls := by
    rintro c ⟨⟩
  boots := List.nodup_nil
  pending id := by simp [start]

theorem Orderly.push (h : Orderly w) : Orderly (w.push locale) :=
  ⟨h.log, h.calls, h.boots, h.pending⟩

theorem Orderly.begin (h : Orderly w) (hc : c.boots = none) (hknows : c.Knows (w.log ++ events))
    (hlog : Causal.Justified ManagerEvent.Backed (w.log ++ events)) :
    Orderly (w.begin c events) where
  log := hlog
  calls c' hc' := by
    rcases List.mem_append.mp hc' with hc' | hc'
    · exact (h.calls c' hc').mono events
    · obtain rfl := List.mem_singleton.mp hc'
      exact hknows
  boots := by simpa [ModelManager.begin, hc] using h.boots
  pending id := by simpa [ModelManager.begin, hc] using h.pending id

/-- The boots after a call that boots nothing went on or ended. -/
theorem boots_perm_set (hi : w.calls[i]? = some c) (hc : c.boots = none) (hd : d.boots = none) :
    ((w.calls.set i d).filterMap ManagerCall.boots).Perm
      (w.calls.filterMap ManagerCall.boots) := by
  have hcalls : (w.calls.set i d).Perm (d :: w.calls.eraseIdx i) := Pool.perm_set hi
  have hset := hcalls.filterMap ManagerCall.boots
  have herase := (Pool.perm_eraseIdx hi).filterMap ManagerCall.boots
  rw [List.filterMap_cons_none hd] at hset
  rw [List.filterMap_cons_none hc] at herase
  exact hset.trans herase.symm

theorem boots_perm_eraseIdx (hi : w.calls[i]? = some c) (hc : c.boots = none) :
    ((w.calls.eraseIdx i).filterMap ManagerCall.boots).Perm
      (w.calls.filterMap ManagerCall.boots) := by
  have herase := (Pool.perm_eraseIdx hi).filterMap ManagerCall.boots
  rw [List.filterMap_cons_none hc] at herase
  exact herase.symm

theorem Orderly.proceed (h : Orderly w) (hi : w.calls[i]? = some c) (hc : c.boots = none)
    (hd : d.boots = none) (hknows : d.Knows (w.log ++ events))
    (hlog : Causal.Justified ManagerEvent.Backed (w.log ++ events)) :
    Orderly (w.proceed i d events) where
  log := hlog
  calls := Pool.forall_mem_set (fun c' hc' => (h.calls c' hc').mono events) hknows
  boots := (boots_perm_set hi hc hd).nodup_iff.mpr h.boots
  pending id := (h.pending id).trans (boots_perm_set hi hc hd).mem_iff.symm

theorem Orderly.finish (h : Orderly w) (hi : w.calls[i]? = some c) (hc : c.boots = none) :
    Orderly (w.finish i) where
  log := h.log
  calls c' hc' := h.calls c' (List.mem_of_mem_eraseIdx hc')
  boots := (boots_perm_eraseIdx hi hc).nodup_iff.mpr h.boots
  pending id := (h.pending id).trans (boots_perm_eraseIdx hi hc).mem_iff.symm

theorem Orderly.refresh (h : Orderly w) : Orderly w.refresh := by
  rw [ModelManager.refresh]
  split
  · exact h.begin rfl trivial (h.log.concat trivial)
  · exact h

theorem Orderly.boot (h : Orderly w) {id : String} {request : ModelRequest}
    (hc : c.boots = some id) (hknows : c.Knows (w.log ++ [.sent request]))
    (hrequest : ManagerEvent.Backed w.log (.sent request)) :
    Orderly (w.boot locale id c request) := by
  rw [ModelManager.boot]
  split
  · next hidle =>
    have hfresh : id ∉ w.calls.filterMap ManagerCall.boots := (h.pending id).not.mp hidle.2
    refine Orderly.push ⟨h.log.concat hrequest, ?_, ?_, ?_⟩
    · intro c' hc'
      rcases List.mem_append.mp hc' with hc' | hc'
      · exact (h.calls c' hc').mono _
      · obtain rfl := List.mem_singleton.mp hc'
        exact hknows
    · rw [ModelManager.begin, List.filterMap_append, List.filterMap_cons_some hc,
        List.filterMap_nil]
      exact List.nodup_append.mpr ⟨h.boots, List.nodup_singleton id, by
        rintro x hx y hy rfl
        exact hfresh (List.mem_singleton.mp hy ▸ hx)⟩
    · intro id'
      simp [ModelManager.begin, hc, h.pending id', or_comm]
  · exact h

theorem Orderly.booted (h : Orderly w) {id : String} (hi : w.calls[i]? = some c)
    (hc : c.boots = some id) : Orderly (w.booted locale i id) := by
  have hperm := (Pool.perm_eraseIdx hi).filterMap ManagerCall.boots
  rw [List.filterMap_cons_some hc] at hperm
  obtain ⟨hgone, hnodup⟩ := List.nodup_cons.mp (hperm.nodup_iff.mp h.boots)
  refine Orderly.push ⟨h.log, fun c' hc' => h.calls c' (List.mem_of_mem_eraseIdx hc'), hnodup, ?_⟩
  intro id'
  change id' ∈ w.pendingAction.erase id ↔ _
  rw [Finset.mem_erase, h.pending id', hperm.mem_iff, List.mem_cons]
  constructor
  · rintro ⟨hne, rfl | hmem⟩
    · exact absurd rfl hne
    · exact hmem
  · intro hmem
    refine ⟨?_, Or.inr hmem⟩
    rintro rfl
    exact hgone hmem

theorem GoesOn.backed (h : GoesOn c d events) (horderly : Orderly w) (hc : c.Knows w.log) :
    d.Knows (w.log ++ events) ∧ Causal.Justified ManagerEvent.Backed (w.log ++ events) := by
  cases h with
  | inspected id r =>
    exact ⟨by simp [ManagerCall.Knows], horderly.log.concat hc⟩
  | opened id r =>
    exact ⟨⟨List.mem_append_left _ hc, by simp⟩, horderly.log.concat ⟨id, r, hc, rfl⟩⟩
  | accepted id r => exact ⟨trivial, horderly.log.concat₂ hc ⟨r, by simp⟩⟩
  | confirmed id => exact ⟨trivial, horderly.log.concat₂ trivial (by simp [ManagerEvent.Backed])⟩

theorem Orderly.continues (h : Orderly w) (hi : w.calls[i]? = some c)
    (hstep : Continues locale w i c w') : Orderly w' := by
  cases hstep with
  | proceeds hgoes =>
    obtain ⟨hknows, hlog⟩ := hgoes.backed h (h.calls c (List.mem_of_getElem? hi))
    exact h.proceed hi hgoes.plain.1.boots hgoes.plain.2.boots hknows hlog
  | finishes hplain => exact h.finish hi hplain.boots
  | removed hplain => exact (h.finish hi hplain.boots).refresh
  | listed hc models =>
    subst hc
    have hnow : Orderly { w with models } := ⟨h.log, h.calls, h.boots, h.pending⟩
    rw [ModelManager.listed]
    split
    · exact hnow.proceed hi rfl rfl trivial (h.log.concat trivial)
    · have hnone : Orderly { w with models, recommend := none } :=
        ⟨h.log, h.calls, h.boots, h.pending⟩
      exact (hnone.finish hi rfl).push
  | recommended hc recommend =>
    subst hc
    have hnow : Orderly { w with recommend } := ⟨h.log, h.calls, h.boots, h.pending⟩
    exact (hnow.finish hi rfl).push
  | booted hc => exact h.booted hi hc

theorem Orderly.onCommand (h : Orderly w) (c : ManagerCommand) :
    Orderly (w.onCommand locale c) := by
  cases c with
  | refreshModels => exact h.refresh
  | installModel id =>
    rw [ModelManager.onCommand]
    split
    · exact h.begin rfl (by simp [ManagerCall.Knows]) (h.log.concat trivial)
    · exact h
  | cancelModelInstall id =>
    rw [ModelManager.onCommand]
    split
    · exact h.begin rfl trivial (h.log.concat trivial)
    · exact h
  | activateModel id => exact h.boot rfl trivial trivial
  | restartServer id => exact h.boot rfl trivial trivial
  | removeModel id =>
    rw [ModelManager.onCommand]
    split
    · exact h.begin rfl trivial (by simpa using h.log)
    · exact h

theorem Orderly.changed (h : Orderly w) (called : Bool) {listen : ModelManager → ModelManager}
    (hlisten : Orderly (listen w)) : Orderly (w.changed called listen) := by
  rw [ModelManager.changed]
  split
  · split
    · exact hlisten
    · exact h
  · exact ⟨h.log, h.calls, h.boots, h.pending⟩

theorem Orderly.onStoreChange (h : Orderly w) : Orderly (w.onStoreChange locale) := by
  rw [ModelManager.onStoreChange]
  split
  · exact Orderly.refresh ⟨h.log, h.calls, h.boots, h.pending⟩
  · exact h.push

theorem Orderly.step {a : ManagerAction} (h : Orderly w) (hstep : w.step locale a = some w') :
    Orderly w' := by
  cases a with
  | store change called =>
    rcases Machine.elim_cases hstep with ⟨-, rfl⟩ | ⟨store, -, rfl⟩
    · exact h
    · have hnow : Orderly { w with store } := ⟨h.log, h.calls, h.boots, h.pending⟩
      exact hnow.changed called hnow.onStoreChange
  | supervisor change called =>
    rcases Machine.elim_cases hstep with ⟨-, rfl⟩ | ⟨supervisor, -, rfl⟩
    · exact h
    · have hnow : Orderly { w with supervisor } := ⟨h.log, h.calls, h.boots, h.pending⟩
      exact hnow.changed called hnow.push
  | resolve =>
    cases hstep
    exact Orderly.refresh ⟨h.log, h.calls, h.boots, h.pending⟩
  | dispose =>
    cases hstep
    exact ⟨h.log, h.calls, h.boots, h.pending⟩
  | visible =>
    cases hstep
    exact h.push
  | page a =>
    obtain ⟨old, -, hstep⟩ := Option.bind_eq_some_iff.mp hstep
    obtain ⟨page, -, hstep⟩ := Option.bind_eq_some_iff.mp hstep
    cases hstep
    exact ⟨h.log, h.calls, h.boots, h.pending⟩
  | ready =>
    obtain ⟨old, -, hstep⟩ := Option.bind_eq_some_iff.mp hstep
    obtain ⟨page, -, hstep⟩ := Option.bind_eq_some_iff.mp hstep
    cases hstep
    exact ⟨h.log, h.calls, h.boots, h.pending⟩
  | command c =>
    obtain ⟨page, -, rfl⟩ := Option.map_eq_some_iff.mp hstep
    exact h.onCommand c
  | answer i a =>
    obtain ⟨c, hi, hstep⟩ := Option.bind_eq_some_iff.mp hstep
    exact h.continues hi (continues_of_continue hstep)

/-- In every run the history is justified, and there is at most one call for each model that may
boot a server: the pending actions are those models. -/
theorem requests_backed {as : List ManagerAction}
    (hrun : Machine.run (step locale) start as = some w) :
    Causal.Justified ManagerEvent.Backed w.log ∧
      (w.calls.filterMap ManagerCall.boots).Nodup ∧
      ∀ id, id ∈ w.pendingAction ↔ id ∈ w.calls.filterMap ManagerCall.boots := by
  have horderly : Orderly w :=
    Machine.run_invariant (fun _ _ _ h hstep => Orderly.step h hstep) orderly_start hrun
  exact ⟨horderly.log, horderly.boots, horderly.pending⟩

/-- Comparing code points, which ignores the language of the user. -/
def codePoints : Locale := ⟨compare, inferInstance⟩

def bigModel : CatalogModel :=
  { id := "big", family := "qwen", displayName := some "Big", installed := true
    activeRoles := none, quantization := "Q4", parametersB := some 30, contextLength := none
    sizeBytes := 20, license := "mit" }

def smallModel : CatalogModel := { bigModel with id := "small", displayName := none }

/-- Two models are listed; one is activated, with a second click, while the license of the other is
shown and accepted. -/
def installWhileBooting : List ManagerAction :=
  [.supervisor (.settle (.ok (sessionWith []))) true, .resolve, .page .load, .ready,
    .answer 0 (.models (some [smallModel, bigModel])), .command (.installModel "small"),
    .command (.activateModel "big"), .command (.activateModel "big"),
    .answer 0 (.inspect (some ⟨"Small", "MIT", none, some "text "⟩)), .answer 0 (.settled true),
    .answer 0 (.choice true), .page .deliver, .page .deliver, .page .deliver]

def booting : ModelManager :=
  (Machine.run (step codePoints) start installWhileBooting).get (by decide +kernel)

theorem run_booting :
    Machine.run (step codePoints) start installWhileBooting = some booting :=
  (Option.some_get _).symm

theorem requests_backed_booting :
    Causal.Justified ManagerEvent.Backed booting.log ∧
      (booting.calls.filterMap ManagerCall.boots).Nodup :=
  ⟨(requests_backed run_booting).1, (requests_backed run_booting).2.1⟩

/-! ## The page -/

/-- The session is ready, no refresh is under way and no change was missed. -/
structure Quiet (w : ModelManager) : Prop where
  ready : w.supervisor.state = .ready
  listing : .listing ∉ w.calls
  recommending : .recommending ∉ w.calls
  missed : w.missed = false

variable (locale) in
/-- The page mirrors the model, or something is under way that will post it. -/
def Shows (w : ModelManager) : Prop :=
  ∀ p, w.view = some p → w.Quiet → p.Mirrors (w.buildModel locale)

theorem shows_push (w : ModelManager) : Shows locale (w.push locale) := by
  rintro p hview -
  obtain ⟨old, -, rfl⟩ := Option.map_eq_some_iff.mp hview
  exact Page.mirrors_post old _

theorem shows_of_not_quiet (h : ¬ w.Quiet) : Shows locale w := by
  rintro p - hquiet
  exact absurd hquiet h

theorem Shows.keep (h : Shows locale w) (hview : w'.view = w.view)
    (hmodel : w'.buildModel locale = w.buildModel locale) (hquiet : w'.Quiet → w.Quiet) :
    Shows locale w' := by
  rintro p hp hw'
  rw [hmodel]
  exact h p (hview ▸ hp) (hquiet hw')

theorem not_quiet_refresh (w : ModelManager) : ¬ w.refresh.Quiet := by
  rw [refresh]
  split
  · rintro ⟨-, hlisting, -, -⟩
    exact hlisting (List.mem_append_right _ List.mem_cons_self)
  · next hstate =>
    rintro ⟨hready, -, -, -⟩
    exact hstate hready

theorem Shows.begin (h : Shows locale w) : Shows locale (w.begin c events) :=
  h.keep rfl rfl fun hquiet =>
    ⟨hquiet.ready, fun hmem => hquiet.listing (List.mem_append_left _ hmem),
      fun hmem => hquiet.recommending (List.mem_append_left _ hmem), hquiet.missed⟩

theorem Shows.proceed (h : Shows locale w) (hi : w.calls[i]? = some c) (hc : Plain c) :
    Shows locale (w.proceed i d events) :=
  h.keep rfl rfl fun hquiet =>
    ⟨hquiet.ready, fun hmem => hquiet.listing (Pool.mem_set_of_ne hi hmem hc.listing.symm),
      fun hmem => hquiet.recommending (Pool.mem_set_of_ne hi hmem hc.recommending.symm),
      hquiet.missed⟩

theorem Shows.finish (h : Shows locale w) (hi : w.calls[i]? = some c) (hc : Plain c) :
    Shows locale (w.finish i) :=
  h.keep rfl rfl fun hquiet =>
    ⟨hquiet.ready, fun hmem => hquiet.listing (Pool.mem_eraseIdx_of_ne hi hmem hc.listing.symm),
      fun hmem => hquiet.recommending (Pool.mem_eraseIdx_of_ne hi hmem hc.recommending.symm),
      hquiet.missed⟩

theorem Shows.continues (h : Shows locale w) (hi : w.calls[i]? = some c)
    (hstep : Continues locale w i c w') : Shows locale w' := by
  cases hstep with
  | proceeds hgoes => exact h.proceed hi hgoes.plain.1
  | finishes hplain => exact h.finish hi hplain
  | removed hplain => exact shows_of_not_quiet (not_quiet_refresh _)
  | listed hc models =>
    rw [ModelManager.listed]
    split
    · apply shows_of_not_quiet
      rintro ⟨-, -, hrecommending, -⟩
      exact hrecommending (List.mem_of_getElem? (Pool.getElem?_set_self hi))
    · exact shows_push _
  | recommended hc recommend => exact shows_push _
  | booted hc => exact shows_push _

theorem Shows.onCommand (h : Shows locale w) (c : ManagerCommand) :
    Shows locale (w.onCommand locale c) := by
  cases c with
  | refreshModels => exact shows_of_not_quiet (not_quiet_refresh w)
  | installModel id | cancelModelInstall id | removeModel id =>
    rw [ModelManager.onCommand]
    split
    · exact h.begin
    · exact h
  | activateModel id | restartServer id =>
    rw [ModelManager.onCommand, boot]
    split
    · exact shows_push _
    · exact h

/-- A listener that posts the model or asks for the list restores the mirror. -/
theorem shows_changed (called : Bool) {listen : ModelManager → ModelManager}
    (hlisten : Shows locale (listen w)) : Shows locale (w.changed called listen) := by
  rw [ModelManager.changed]
  split
  · split
    · exact hlisten
    · next hview =>
      rintro p hp
      exact absurd (Option.isSome_iff_exists.mpr ⟨p, hp⟩) hview
  · apply shows_of_not_quiet
    rintro ⟨-, -, -, ⟨⟩⟩

theorem shows_onStoreChange (w : ModelManager) : Shows locale (w.onStoreChange locale) := by
  rw [ModelManager.onStoreChange]
  split
  · exact shows_of_not_quiet (not_quiet_refresh _)
  · exact shows_push w

theorem Shows.step {a : ManagerAction} (h : Shows locale w) (hstep : w.step locale a = some w') :
    Shows locale w' := by
  cases a with
  | store change called =>
    rcases Machine.elim_cases hstep with ⟨-, rfl⟩ | ⟨store, -, rfl⟩
    · exact h
    · exact shows_changed called (shows_onStoreChange _)
  | supervisor change called =>
    rcases Machine.elim_cases hstep with ⟨-, rfl⟩ | ⟨supervisor, -, rfl⟩
    · exact h
    · exact shows_changed called (shows_push _)
  | resolve =>
    cases hstep
    exact shows_of_not_quiet (not_quiet_refresh _)
  | dispose =>
    cases hstep
    rintro p ⟨⟩
  | visible =>
    cases hstep
    exact shows_push w
  | page a =>
    obtain ⟨old, hold, hstep⟩ := Option.bind_eq_some_iff.mp hstep
    obtain ⟨page, hpage, hstep⟩ := Option.bind_eq_some_iff.mp hstep
    cases hstep
    rintro p hp hquiet
    obtain rfl := Option.some.inj hp
    exact (h old hold ⟨hquiet.ready, hquiet.listing, hquiet.recommending, hquiet.missed⟩).act hpage
  | ready =>
    obtain ⟨old, -, hstep⟩ := Option.bind_eq_some_iff.mp hstep
    obtain ⟨page, hpage, hstep⟩ := Option.bind_eq_some_iff.mp hstep
    cases hstep
    rintro p hp -
    obtain rfl := Option.some.inj hp
    exact Page.mirrors_answer hpage
  | command c =>
    obtain ⟨page, -, rfl⟩ := Option.map_eq_some_iff.mp hstep
    exact h.onCommand c
  | answer i a =>
    obtain ⟨c, hi, hstep⟩ := Option.bind_eq_some_iff.mp hstep
    exact h.continues hi (continues_of_continue hstep)

/-- In every run, when nothing is on its way the page shows one row for each model of the list, in
order; a row's action is pending exactly when a call for its model is under way, and an install
that is shown as completed belongs to a model the list says is installed. -/
theorem manager_shows_current {as : List ManagerAction} {p : Page ModelsModel}
    (hrun : Machine.run (step locale) start as = some w) (hview : w.view = some p)
    (hsettled : p.Settled) (hquiet : w.Quiet) :
    ∃ m, p.shown = some m ∧ m = w.buildModel locale ∧
      m.models.Perm ((w.models.getD []).map w.input.row) ∧
      m.models.Pairwise (fun a b => ModelRow.compareRows locale a b ≠ .gt) ∧
      ∀ r ∈ m.models,
        (r.actionPending = true ↔ r.id ∈ w.calls.filterMap ManagerCall.boots) ∧
        ∀ i, r.install = some i → i.status = .completed → r.installed = true := by
  have hinv : Orderly w ∧ Shows locale w := by
    refine Machine.run_invariant (I := fun w => Orderly w ∧ Shows locale w)
      (fun _ _ _ h hstep => ⟨h.1.step hstep, h.2.step hstep⟩) ⟨orderly_start, ?_⟩ hrun
    rintro p ⟨⟩
  obtain ⟨horderly, hshows⟩ := hinv
  refine ⟨_, (hshows p hview hquiet).shown hsettled, rfl, rows_perm, rows_sorted, ?_⟩
  intro r hr
  obtain ⟨m, -, rfl⟩ := exists_of_mem_rows hr
  constructor
  · rw [← horderly.pending]
    exact decide_eq_true_iff
  · intro i
    exact installed_of_completed

def bootingPage : Page ModelsModel := booting.view.get (by decide +kernel)

theorem manager_shows_current_booting :
    ∃ m, bootingPage.shown = some m ∧ m = booting.buildModel codePoints ∧
      m.models.Perm ((booting.models.getD []).map booting.input.row) ∧
      m.models.Pairwise (fun a b => ModelRow.compareRows codePoints a b ≠ .gt) ∧
      ∀ r ∈ m.models, (r.actionPending = true ↔ r.id = "big") ∧
        ∀ i, r.install = some i → i.status = .completed → r.installed = true := by
  have hsettled : bootingPage.Settled :=
    ⟨by decide +kernel, by decide +kernel, List.isEmpty_iff.mp (by decide +kernel)⟩
  have hquiet : booting.Quiet :=
    ⟨by decide +kernel, by decide +kernel, by decide +kernel, by decide +kernel⟩
  have hboots : booting.calls.filterMap ManagerCall.boots = ["big"] := by decide +kernel
  obtain ⟨m, hshown, hmodel, hperm, hsorted, hrows⟩ :=
    manager_shows_current run_booting (Option.some_get _).symm hsettled hquiet
  refine ⟨m, hshown, hmodel, hperm, hsorted, fun r hr => ⟨?_, (hrows r hr).2⟩⟩
  rw [(hrows r hr).1, hboots, List.mem_singleton]

end ModelManager

end ValyriaApp
