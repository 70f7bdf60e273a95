import ValyriaApp.Extension.Views
import ValyriaApp.Lib.Machine

/-! # The editor panels

Home, the workspace and the review are pushed to their panels on every change.
The evidence of a task is fetched by two requests and kept in one slot, while a
model is built from whatever task is in focus at the push. A push shows the
evidence of its own task when the slot is that task's or holds none.
-/

namespace ValyriaApp.EditorPanels

open Machine

inductive Surface where
  | home | workspace | review
  deriving DecidableEq

/-- The slot: what the two requests of the last fetch have brought. -/
structure TaskData where
  taskId : Option String
  report : Option Report
  ownership : Record String

def TaskData.without (taskId : Option String) : TaskData :=
  { taskId, report := none, ownership := .empty }

/-- A fetch under way, by the request it waits for. -/
inductive Fetch where
  | report (taskId : String)
  | ledger (taskId : String) (report : Option Report)

inductive Pushed where
  | home (model : HomeModel)
  | workspace (model : WorkspaceModel)
  | review (model : ReviewModel)

/-- The responses received, by the task they were requested for. -/
structure Received where
  reports : List (String × Report)
  ledgers : List (String × Record String)

def Received.addReport (got : Received) (id : String) (report : Option Report) : Received :=
  { got with reports := got.reports ++ (report.map (id, ·)).toList }

def Received.addLedger (got : Received) (id : String) (ownership : Option (Record String)) :
    Received :=
  { got with ledgers := got.ledgers ++ (ownership.map (id, ·)).toList }

/-- The manager with what it reads. The responses are kept beside it. -/
structure State where
  store : StoreState
  pinned : Option String
  session : ConnectionState
  hasLedger : Bool
  rollbackCapable : Bool
  /-- The host has a client; without one a request throws before it is sent. -/
  client : Bool
  home : HomeInput
  panels : List Surface
  data : TaskData
  fetching : Option Fetch
  pushed : List Pushed
  received : Received

inductive Event where
  /-- A change of what the manager reads; the listeners run later. -/
  | setStore (store : StoreState)
  | setPinned (pinned : Option String)
  | setSession (session : ConnectionState) (hasLedger rollbackCapable : Bool)
  | setClient (client : Bool)
  /-- The manager's listener for the store, the session and the focus. -/
  | changed
  /-- The layout or the runtime marker changes. -/
  | homeChanged (home : HomeInput)
  | «open» (surface : Surface)
  | ready (surface : Surface)
  | visible (surface : Surface)
  | close (surface : Surface)
  | refresh
  /-- A request of the fetch answers, or fails. -/
  | reportAnswered (report : Option Report)
  | ledgerAnswered (changes : Option (List (String × String)))

namespace State

def currentTaskId (w : State) : Option String := resolveFocus w.store w.pinned

def buildModel (w : State) : Surface → Option Pushed
  | .home => (homeModel w.store { w.home with connection := w.session }).map .home
  | .workspace => (workspaceModel w.store w.pinned
      { connection := w.session, ownership := w.data.ownership, report := w.data.report
        rollbackCapable := w.rollbackCapable }).map .workspace
  | .review => some (.review (reviewModel w.store w.pinned
      { connection := w.session, ledgerAvailable := w.hasLedger, ownership := w.data.ownership
        report := w.data.report }))

/-- The models posted in turn; a builder that throws ends the loop. -/
def models (w : State) : List Surface → List Pushed
  | [] => []
  | surface :: surfaces =>
    match w.buildModel surface with
    | some model => model :: w.models surfaces
    | none => []

def post (w : State) (surfaces : List Surface) : State :=
  { w with pushed := w.pushed ++ w.models surfaces }

def push (w : State) (surface : Surface) : State :=
  if surface ∈ w.panels then w.post [surface] else w

def pushAll (w : State) : State := w.post w.panels

/-- `maybeRefreshData`, up to its first `await`. -/
def maybeRefreshData (w : State) (force : Bool) : State :=
  let taskId := w.currentTaskId
  if w.panels = [] then w
  else if w.fetching.isSome then w
  else if !force ∧ taskId = w.data.taskId then w
  else
    match taskId.filter (· ≠ "") with
    | some id =>
      if w.session ≠ .ready then { w with data := .without taskId }.pushAll
      else if w.client then { w with fetching := some (.report id) }
      else { w with data := .without taskId }.pushAll
    | none => { w with data := .without taskId }.pushAll

/-- The end of a fetch. -/
def finish (w : State) (data : TaskData) : State :=
  { w with fetching := none, data }.pushAll

def ownershipOf (changes : List (String × String)) : Record String :=
  changes.foldl (fun ownership c => ownership.set c.1 c.2) .empty

def step (w : State) : Event → Option State
  | .setStore store => some { w with store }
  | .setPinned pinned => some { w with pinned }
  | .setSession session hasLedger rollbackCapable =>
    some { w with session, hasLedger, rollbackCapable }
  | .setClient client => some { w with client }
  | .changed => some (w.maybeRefreshData false).pushAll
  | .homeChanged home => some { w with home }.pushAll
  | .open surface =>
    if surface ∈ w.panels then some (w.push surface)
    else some ({ w with panels := w.panels ++ [surface] }.maybeRefreshData true)
  | .ready surface => some (w.push surface)
  | .visible surface => some ((w.maybeRefreshData true).push surface)
  | .close surface => some { w with panels := w.panels.erase surface }
  | .refresh => some (w.maybeRefreshData true)
  | .reportAnswered report =>
    match w.fetching with
    | some (.report id) =>
      let w := { w with received := w.received.addReport id report }
      if w.hasLedger ∧ w.client then some { w with fetching := some (.ledger id report) }
      else some (w.finish { taskId := some id, report, ownership := .empty })
    | _ => none
  | .ledgerAnswered changes =>
    match w.fetching with
    | some (.ledger id report) =>
      let ownership := changes.map ownershipOf
      let w := { w with received := w.received.addLedger id ownership }
      some (w.finish { taskId := some id, report, ownership := ownership.getD .empty })
    | _ => none

end State

def begin (store : StoreState) (pinned : Option String) (session : ConnectionState)
    (hasLedger rollbackCapable client : Bool) (home : HomeInput) : State where
  store := store
  pinned := pinned
  session := session
  hasLedger := hasLedger
  rollbackCapable := rollbackCapable
  client := client
  home := home
  panels := []
  data := .without none
  fetching := none
  pushed := []
  received := ⟨[], []⟩

/-! ## Evidence -/

/-- The claims a model shows, and the report's status where it shows it, come from a report
fetched for the task it displays, or it shows none. -/
def ReportBacked (got : Received) (taskId : Option String) (verified : List VerifiedClaim)
    (unverified : List String) (status : Option String) : Prop :=
  verified = [] ∧ unverified = [] ∧ status = none ∨
    ∃ id report, taskId = some id ∧ (id, report) ∈ got.reports ∧
      verified = verifiedOf (some report) ∧ unverified = unverifiedOf (some report) ∧
      ∀ s ∈ status, report.status = some s

def OwnershipBacked (got : Received) (taskId : Option String) (files : List OwnedFileRow) : Prop :=
  ∀ f ∈ files, ∀ classification ∈ f.ownership, ∃ id ownership, taskId = some id ∧
    (id, ownership) ∈ got.ledgers ∧ ownership.get? f.path = some classification

/-- The evidence a model shows belongs to the task it shows. -/
def Backed (got : Received) : Pushed → Prop
  | .home _ => True
  | .workspace m => ReportBacked got m.chat.taskId m.verified m.unverified none ∧
      OwnershipBacked got m.chat.taskId m.files
  | .review m => ReportBacked got m.taskId m.verified m.unverified m.reportStatus ∧
      OwnershipBacked got m.taskId m.files

/-- A report with something to show. -/
def Report.hasContent (report : Report) : Bool :=
  report.status.isSome || !(verifiedOf (some report)).isEmpty ||
    !(unverifiedOf (some report)).isEmpty

def TaskData.hasEvidence (d : TaskData) : Bool :=
  d.report.any Report.hasContent || !d.ownership.entries.isEmpty

/-- The slot holds no evidence, or it was fetched for the task in focus. -/
def Current (w : State) : Prop := w.data.hasEvidence = true → w.data.taskId = w.currentTaskId

/-- The refresh empties the slot at once: nothing is being fetched and nothing can be. -/
def Drops (w : State) : Prop :=
  w.fetching = none ∧ (w.session ≠ .ready ∨ w.client = false ∨
    w.currentTaskId.filter (· ≠ "") = none)

/-- A panel that shows evidence is open. -/
def Showing (w : State) : Prop := .workspace ∈ w.panels ∨ .review ∈ w.panels

/-- A push meets a slot that is current: after the refresh where the handler makes one, and after
the fetch where one ends. -/
def InFocus (w : State) : Event → Prop
  | .changed => Showing w → Current w ∨ Drops w
  | .homeChanged _ => Showing w → Current w
  | .visible surface => surface ≠ .home → surface ∈ w.panels → Current w ∨ Drops w
  | .open surface | .ready surface => surface ≠ .home → surface ∈ w.panels → Current w
  | .reportAnswered report =>
    match w.fetching with
    | some (.report id) => Showing w → ¬ (w.hasLedger ∧ w.client) →
        report.any Report.hasContent → some id = w.currentTaskId
    | _ => True
  | .ledgerAnswered changes =>
    match w.fetching with
    | some (.ledger id report) => Showing w →
        (report.any Report.hasContent ∨ changes.any (· ≠ [])) → some id = w.currentTaskId
    | _ => True
  | _ => True

/-- What the slot holds was received for its task. -/
structure DataFrom (got : Received) (d : TaskData) : Prop where
  report : ∀ r ∈ d.report, ∃ id, d.taskId = some id ∧ (id, r) ∈ got.reports
  ownership : ∀ path c, d.ownership.get? path = some c → ∃ id ownership, d.taskId = some id ∧
    (id, ownership) ∈ got.ledgers ∧ ownership.get? path = some c

structure Inv (w : State) : Prop where
  pushed : ∀ m ∈ w.pushed, Backed w.received m
  data : DataFrom w.received w.data
  fetching : ∀ id r, w.fetching = some (.ledger id (some r)) → (id, r) ∈ w.received.reports

section Evidence

variable {w : State} {got got' : Received} {m : Pushed} {d : TaskData} {taskId : Option String}

theorem verifiedOf_of_not_hasContent {r : Report} (h : Report.hasContent r = false) :
    verifiedOf (some r) = [] ∧ unverifiedOf (some r) = [] ∧ r.status = none := by
  simp only [Report.hasContent, Bool.or_eq_false_iff, Option.isSome_eq_false_iff,
    Option.isNone_iff_eq_none, Bool.not_eq_false', List.isEmpty_iff] at h
  exact ⟨h.1.2, h.2, h.1.1⟩

/-- What a model shows of the slot, when the slot is that of the task it shows. -/
theorem reportBacked (hd : DataFrom got d) (hcurrent : d.hasEvidence = true → d.taskId = taskId)
    {status : Option String} (hstatus : ∀ s ∈ status, ∃ r ∈ d.report, r.status = some s) :
    ReportBacked got taskId (verifiedOf d.report) (unverifiedOf d.report) status := by
  cases hreport : d.report with
  | none =>
    refine .inl ⟨rfl, rfl, ?_⟩
    cases status with
    | none => rfl
    | some s =>
      obtain ⟨r, hr, -⟩ := hstatus s rfl
      rw [hreport] at hr
      exact nomatch hr
  | some r =>
    have hshown : ∀ s ∈ status, r.status = some s := by
      intro s hs
      obtain ⟨r', hr', hs'⟩ := hstatus s hs
      obtain rfl : r = r' := Option.some.inj (hreport.symm.trans hr')
      exact hs'
    cases hcontent : Report.hasContent r with
    | false =>
      obtain ⟨hverified, hunverified, hnone⟩ := verifiedOf_of_not_hasContent hcontent
      refine .inl ⟨hverified, hunverified, ?_⟩
      cases status with
      | none => rfl
      | some s => exact nomatch hnone.symm.trans (hshown s rfl)
    | true =>
      obtain ⟨id, hid, hmem⟩ := hd.report r hreport
      have htask := hcurrent (by simp [TaskData.hasEvidence, hreport, hcontent])
      exact .inr ⟨id, r, htask ▸ hid, hmem, rfl, rfl, hshown⟩

theorem ownershipBacked (hd : DataFrom got d) (hcurrent : d.hasEvidence = true → d.taskId = taskId)
    {files : List OwnedFileRow} (hfiles : ∀ f ∈ files, f.ownership = d.ownership.get? f.path) :
    OwnershipBacked got taskId files := by
  intro f hf c hc
  have hget : d.ownership.get? f.path = some c := by rw [← hfiles f hf]; exact hc
  obtain ⟨id, ownership, hid, hmem, hown⟩ := hd.ownership f.path c hget
  have hevidence : d.hasEvidence = true := by
    have hne : d.ownership.entries ≠ [] := by
      intro hnil
      simp [OrderedMap.get?, hnil] at hget
    simp [TaskData.hasEvidence, hne]
  exact ⟨id, ownership, hcurrent hevidence ▸ hid, hmem, hown⟩

theorem backed_of_current {surface : Surface} (hd : DataFrom w.received w.data)
    (hcurrent : surface ≠ .home → Current w) (h : w.buildModel surface = some m) :
    Backed w.received m := by
  cases surface with
  | home =>
    obtain ⟨model, -, rfl⟩ := Option.map_eq_some_iff.mp h
    trivial
  | workspace =>
    obtain ⟨model, hmodel, rfl⟩ := Option.map_eq_some_iff.mp h
    simp only [workspaceModel, bind, Option.bind_eq_some_iff] at hmodel
    obtain ⟨task, -, hmodel⟩ := hmodel
    obtain rfl := Option.some.inj hmodel
    have hfocus : w.data.hasEvidence = true → w.data.taskId = w.currentTaskId :=
      hcurrent (by decide)
    refine ⟨reportBacked hd hfocus (fun _ hs => by cases hs), ownershipBacked hd hfocus ?_⟩
    intro f hf
    obtain ⟨row, -, rfl⟩ := List.mem_map.mp hf
    rfl
  | review =>
    obtain rfl := Option.some.inj h
    have hfocus : w.data.hasEvidence = true → w.data.taskId = w.currentTaskId :=
      hcurrent (by decide)
    refine ⟨reportBacked hd hfocus ?_, ownershipBacked hd hfocus ?_⟩
    · intro s hs
      exact Option.bind_eq_some_iff.mp hs
    · intro f hf
      obtain ⟨row, -, rfl⟩ := List.mem_map.mp hf
      rfl

theorem Backed.mono (hreports : got.reports ⊆ got'.reports)
    (hledgers : got.ledgers ⊆ got'.ledgers) (h : Backed got m) : Backed got' m := by
  have hreport {taskId verified unverified status}
      (h : ReportBacked got taskId verified unverified status) :
      ReportBacked got' taskId verified unverified status := by
    rcases h with h | ⟨id, r, hid, hmem, h⟩
    · exact .inl h
    · exact .inr ⟨id, r, hid, hreports hmem, h⟩
  have hownership {taskId files} (h : OwnershipBacked got taskId files) :
      OwnershipBacked got' taskId files := by
    intro f hf c hc
    obtain ⟨id, o, hid, hmem, ho⟩ := h f hf c hc
    exact ⟨id, o, hid, hledgers hmem, ho⟩
  cases m with
  | home => trivial
  | workspace => exact ⟨hreport h.1, hownership h.2⟩
  | review => exact ⟨hreport h.1, hownership h.2⟩

theorem DataFrom.mono (hreports : got.reports ⊆ got'.reports)
    (hledgers : got.ledgers ⊆ got'.ledgers) (h : DataFrom got d) : DataFrom got' d where
  report r hr := by
    obtain ⟨id, hid, hmem⟩ := h.report r hr
    exact ⟨id, hid, hreports hmem⟩
  ownership path c hc := by
    obtain ⟨id, o, hid, hmem, ho⟩ := h.ownership path c hc
    exact ⟨id, o, hid, hledgers hmem, ho⟩

theorem dataFrom_without : DataFrom got (.without taskId) where
  report _ hr := nomatch hr
  ownership _ _ hc := nomatch hc

end Evidence

/-! ## Runs -/

section Run

variable {w w' : State} {e : Event} {d : TaskData} {taskId : Option String} {force : Bool}

open State

theorem mem_models {surfaces : List Surface} {m : Pushed} (h : m ∈ w.models surfaces) :
    ∃ surface ∈ surfaces, w.buildModel surface = some m := by
  induction surfaces with
  | nil => exact nomatch h
  | cons surface surfaces ih =>
    rw [models] at h
    split at h
    · rename_i model hmodel
      rcases List.mem_cons.mp h with rfl | h
      · exact ⟨surface, List.mem_cons_self, hmodel⟩
      · obtain ⟨s, hs, hm⟩ := ih h
        exact ⟨s, List.mem_cons_of_mem _ hs, hm⟩
    · exact nomatch h

theorem Inv.post (h : Inv w) {surfaces : List Surface}
    (hcurrent : (∃ surface ∈ surfaces, surface ≠ .home) → Current w) :
    Inv (w.post surfaces) where
  pushed m hm := by
    rcases List.mem_append.mp hm with hm | hm
    · exact h.pushed m hm
    · obtain ⟨surface, hmem, hmodel⟩ := mem_models hm
      exact backed_of_current h.data (fun hne => hcurrent ⟨surface, hmem, hne⟩) hmodel
  data := h.data
  fetching := h.fetching

theorem showing_of_mem {surface : Surface} (hmem : surface ∈ w.panels) (hne : surface ≠ .home) :
    Showing w := by
  cases surface with
  | home => exact absurd rfl hne
  | workspace => exact .inl hmem
  | review => exact .inr hmem

theorem Inv.pushAll (h : Inv w) (hcurrent : Showing w → Current w) : Inv w.pushAll := by
  refine h.post ?_
  rintro ⟨surface, hmem, hne⟩
  exact hcurrent (showing_of_mem hmem hne)

theorem Inv.push (h : Inv w) {surface : Surface}
    (hcurrent : surface ≠ .home → surface ∈ w.panels → Current w) : Inv (w.push surface) := by
  unfold State.push
  split
  · rename_i hmem
    refine h.post ?_
    rintro ⟨s, hs, hne⟩
    obtain rfl := List.mem_singleton.mp hs
    exact hcurrent hne hmem
  · exact h

theorem Inv.drop (h : Inv w) : Inv { w with data := .without taskId }.pushAll := by
  have hdropped : Inv { w with data := .without taskId } :=
    ⟨h.pushed, dataFrom_without, h.fetching⟩
  exact hdropped.pushAll fun _ hevidence => nomatch hevidence

/-- What a refresh does at once: nothing, empty the slot, or send the first request. -/
theorem maybeRefreshData_cases (w : State) (force : Bool) :
    (w.maybeRefreshData force = w ∧
      (w.panels = [] ∨ w.fetching.isSome = true ∨ w.currentTaskId = w.data.taskId)) ∨
    w.maybeRefreshData force = { w with data := .without w.currentTaskId }.pushAll ∨
    ∃ id, w.currentTaskId.filter (· ≠ "") = some id ∧ w.session = .ready ∧ w.client = true ∧
      w.maybeRefreshData force = { w with fetching := some (.report id) } := by
  unfold State.maybeRefreshData
  simp only
  split
  · rename_i hpanels
    exact .inl ⟨rfl, .inl hpanels⟩
  split
  · rename_i hfetching
    exact .inl ⟨rfl, .inr (.inl hfetching)⟩
  split
  · rename_i hsame
    exact .inl ⟨rfl, .inr (.inr hsame.2)⟩
  split
  · rename_i id hid
    split
    · exact .inr (.inl rfl)
    rename_i hsession
    split
    · rename_i hclient
      exact .inr (.inr ⟨id, hid, not_not.mp hsession, hclient, rfl⟩)
    · exact .inr (.inl rfl)
  · exact .inr (.inl rfl)

theorem Inv.maybeRefreshData (h : Inv w) (force : Bool) : Inv (w.maybeRefreshData force) := by
  obtain ⟨heq, -⟩ | heq | ⟨id, -, -, -, heq⟩ := maybeRefreshData_cases w force <;> rw [heq]
  · exact h
  · exact h.drop
  · exact ⟨h.pushed, h.data, fun _ _ hf => nomatch hf⟩

/-- After the refresh the slot is current when it was, or when the refresh drops it. -/
theorem current_maybeRefreshData (hpanels : w.panels ≠ []) (h : Current w ∨ Drops w) :
    Current (w.maybeRefreshData force) := by
  obtain ⟨heq, hwhy⟩ | heq | ⟨id, hid, hsession, hclient, heq⟩ :=
    maybeRefreshData_cases w force <;> rw [heq]
  · rcases h with h | ⟨hfetching, -⟩
    · exact h
    · rcases hwhy with hwhy | hwhy | hwhy
      · exact absurd hwhy hpanels
      · rw [hfetching] at hwhy
        exact nomatch hwhy
      · exact fun _ => hwhy.symm
  · exact fun hevidence => nomatch hevidence
  · rcases h with h | ⟨-, hdrops | hdrops | hdrops⟩
    · exact h
    · exact absurd hsession hdrops
    · exact nomatch hdrops.symm.trans hclient
    · exact nomatch hdrops.symm.trans hid

theorem Inv.finish (h : Inv w) (hd : DataFrom w.received d)
    (hcurrent : Showing w → d.hasEvidence = true → d.taskId = w.currentTaskId) :
    Inv (w.finish d) := by
  have hended : Inv { w with fetching := none, data := d } :=
    ⟨h.pushed, hd, fun _ _ hf => nomatch hf⟩
  exact hended.pushAll hcurrent

@[simp] theorem maybeRefreshData_panels : (w.maybeRefreshData force).panels = w.panels := by
  obtain ⟨heq, -⟩ | heq | ⟨id, -, -, -, heq⟩ := maybeRefreshData_cases w force
  · rw [heq]
  · rw [heq]; rfl
  · rw [heq]

theorem Showing.nonempty (h : Showing w) : w.panels ≠ [] := by
  rcases h with h | h <;> exact List.ne_nil_of_mem h

theorem Inv.receive {got : Received} (h : Inv w) (hreports : w.received.reports ⊆ got.reports)
    (hledgers : w.received.ledgers ⊆ got.ledgers) : Inv { w with received := got } where
  pushed m hm := (h.pushed m hm).mono hreports hledgers
  data := h.data.mono hreports hledgers
  fetching id r hf := hreports (h.fetching id r hf)

theorem Inv.reportAnswered {id : String} {report : Option Report} (h : Inv w)
    (hfetching : w.fetching = some (.report id)) (hfocus : InFocus w (.reportAnswered report))
    (hstep : step w (.reportAnswered report) = some w') : Inv w' := by
  simp only [InFocus, hfetching] at hfocus
  simp only [step, hfetching] at hstep
  have hgot : Inv { w with received := w.received.addReport id report } :=
    h.receive (List.subset_append_left _ _) (List.Subset.refl _)
  have hmem : ∀ r, report = some r → (id, r) ∈ (w.received.addReport id report).reports := by
    rintro r rfl
    exact List.mem_append_right _ List.mem_cons_self
  split at hstep <;> obtain rfl := Option.some.inj hstep
  · refine ⟨hgot.pushed, hgot.data, fun i r hf => ?_⟩
    simp only [Option.some.injEq, Fetch.ledger.injEq] at hf
    obtain ⟨rfl, hr⟩ := hf
    exact hmem r hr
  · rename_i hledger
    refine hgot.finish ⟨fun r hr => ⟨id, rfl, hmem r hr⟩, fun _ _ hc => nomatch hc⟩ ?_
    intro hshowing hevidence
    refine hfocus hshowing hledger ?_
    simpa [TaskData.hasEvidence, OrderedMap.empty] using hevidence

theorem Inv.ledgerAnswered {id : String} {report : Option Report}
    {changes : Option (List (String × String))} (h : Inv w)
    (hfetching : w.fetching = some (.ledger id report))
    (hfocus : InFocus w (.ledgerAnswered changes))
    (hstep : step w (.ledgerAnswered changes) = some w') : Inv w' := by
  simp only [InFocus, hfetching] at hfocus
  simp only [step, hfetching] at hstep
  have hgot : Inv { w with received := w.received.addLedger id (changes.map ownershipOf) } :=
    h.receive (List.Subset.refl _) (List.subset_append_left _ _)
  obtain rfl := Option.some.inj hstep
  refine hgot.finish ⟨?_, ?_⟩ ?_
  · rintro r hr
    obtain rfl : report = some r := hr
    exact ⟨id, rfl, h.fetching id r hfetching⟩
  · intro path c hc
    cases changes with
    | none => cases hc
    | some cs => exact ⟨id, ownershipOf cs, rfl, List.mem_append_right _ List.mem_cons_self, hc⟩
  · intro hshowing hevidence
    refine hfocus hshowing ?_
    rcases Bool.or_eq_true_iff.mp hevidence with hreport | hownership
    · exact .inl hreport
    · right
      cases changes with
      | none => simp [OrderedMap.empty] at hownership
      | some cs =>
        refine decide_eq_true fun hnil => ?_
        subst hnil
        cases hownership

theorem step_inv (h : Inv w) (hfocus : InFocus w e) (hstep : step w e = some w') : Inv w' := by
  cases e with
  | setStore | setPinned | setSession | setClient =>
    obtain rfl := Option.some.inj hstep
    exact ⟨h.pushed, h.data, h.fetching⟩
  | changed =>
    obtain rfl := Option.some.inj hstep
    refine (h.maybeRefreshData false).pushAll fun hshowing => ?_
    have hshowing' : Showing w := by simpa [Showing] using hshowing
    exact current_maybeRefreshData hshowing'.nonempty (hfocus hshowing')
  | homeChanged home =>
    obtain rfl := Option.some.inj hstep
    have hset : Inv { w with home } := ⟨h.pushed, h.data, h.fetching⟩
    exact hset.pushAll hfocus
  | «open» surface =>
    simp only [step] at hstep
    split at hstep <;> obtain rfl := Option.some.inj hstep
    · exact h.push hfocus
    · have hset : Inv { w with panels := w.panels ++ [surface] } :=
        ⟨h.pushed, h.data, h.fetching⟩
      exact hset.maybeRefreshData true
  | ready surface =>
    obtain rfl := Option.some.inj hstep
    exact h.push hfocus
  | visible surface =>
    obtain rfl := Option.some.inj hstep
    refine (h.maybeRefreshData true).push fun hne hmem => ?_
    rw [maybeRefreshData_panels] at hmem
    exact current_maybeRefreshData (List.ne_nil_of_mem hmem) (hfocus hne hmem)
  | close surface =>
    obtain rfl := Option.some.inj hstep
    exact ⟨h.pushed, h.data, h.fetching⟩
  | refresh =>
    obtain rfl := Option.some.inj hstep
    exact h.maybeRefreshData true
  | reportAnswered report =>
    have hstep' := hstep
    simp only [step] at hstep'
    split at hstep'
    · rename_i id hfetching
      exact h.reportAnswered hfetching hfocus hstep
    · exact nomatch hstep'
  | ledgerAnswered changes =>
    have hstep' := hstep
    simp only [step] at hstep'
    split at hstep'
    · rename_i id report hfetching
      exact h.ledgerAnswered hfetching hfocus hstep
    · exact nomatch hstep'

/-- While every push meets a current slot, the evidence pushed belongs to the task shown. -/
theorem evidence_of_task_shown (store : StoreState) (pinned : Option String)
    (session : ConnectionState) (hasLedger rollbackCapable client : Bool) (home : HomeInput)
    (es : List Event) (w : State)
    (hfocus : Guarded step InFocus
      (begin store pinned session hasLedger rollbackCapable client home) es)
    (hrun : run step (begin store pinned session hasLedger rollbackCapable client home) es =
      some w) :
    ∀ m ∈ w.pushed, Backed w.received m := by
  have hstart : Inv (begin store pinned session hasLedger rollbackCapable client home) :=
    ⟨(fun _ hm => nomatch hm), dataFrom_without, fun _ _ hf => nomatch hf⟩
  have hpreserves : Preserves step InFocus Inv :=
    fun _ _ _ h hfocus hstep => step_inv h hfocus hstep
  exact (hpreserves.run hstart hfocus hrun).pushed

end Run

section Example

open State

instance (w : State) : Decidable (Current w) :=
  inferInstanceAs (Decidable (w.data.hasEvidence = true → _))

instance (w : State) : Decidable (Showing w) :=
  inferInstanceAs (Decidable (_ ∨ _))

instance (w : State) : Decidable (Drops w) := by
  unfold Drops
  cases h : w.fetching with
  | none => exact decidable_of_iff (w.session ≠ .ready ∨ w.client = false ∨
      w.currentTaskId.filter (· ≠ "") = none) (by simp)
  | some f => exact isFalse (by simp)

instance (w : State) : (e : Event) → Decidable (InFocus w e)
  | .changed => inferInstanceAs (Decidable (Showing w → Current w ∨ Drops w))
  | .homeChanged _ => inferInstanceAs (Decidable (Showing w → Current w))
  | .visible surface =>
    inferInstanceAs (Decidable (surface ≠ .home → surface ∈ w.panels → Current w ∨ Drops w))
  | .open surface | .ready surface =>
    inferInstanceAs (Decidable (surface ≠ .home → surface ∈ w.panels → Current w))
  | .reportAnswered report =>
    match h : w.fetching with
    | some (.report id) => decidable_of_iff (Showing w → ¬ (w.hasLedger ∧ w.client) →
        report.any Report.hasContent → some id = w.currentTaskId) (by simp [InFocus, h])
    | some (.ledger _ _) | none => isTrue (by simp [InFocus, h])
  | .ledgerAnswered changes =>
    match h : w.fetching with
    | some (.ledger id report) => decidable_of_iff (Showing w →
        (report.any Report.hasContent ∨ changes.any (· ≠ [])) → some id = w.currentTaskId)
        (by simp [InFocus, h])
    | some (.report _) | none => isTrue (by simp [InFocus, h])
  | .setStore _ | .setPinned _ | .setSession _ _ _ | .setClient _ | .close _ | .refresh =>
    isTrue trivial

def aAndB : StoreState := replay
  [coreEvent 1 (some "a") 5 "task_started" (.obj [("objective", .str "fix the build")]),
    coreEvent 2 (some "b") 6 "task_started" (.obj [("objective", .str "add a test")])]

def nothingKnown : HomeInput where
  connection := .ready
  hasRepo := true
  repoName := none
  activeModel := none
  networkRuntime := false
  autonomy := none
  layoutMode := .agent

/-- A workspace panel pinned to a task with one passing test. -/
def verifiedA : List Event :=
  [.open .workspace, .ready .workspace, .reportAnswered (some
    { status := some "completed", unverified := none
      verified := some [{ kind := "test", command := "cargo test", outcome := "passed" }] })]

theorem evidence_of_a_shown :
    ∃ w, run step (begin aAndB (some "a") .ready false false true nothingKnown)
        (verifiedA ++ [.changed]) = some w ∧ w.pushed.length = 3 ∧
      ∀ m ∈ w.pushed, Backed w.received m := by
  have hrun : ((run step (begin aAndB (some "a") .ready false false true nothingKnown)
      (verifiedA ++ [.changed])).map (·.pushed.length)) = some 3 := by decide +kernel
  obtain ⟨w, hw, hlength⟩ := Option.map_eq_some_iff.mp hrun
  exact ⟨w, hw, hlength, evidence_of_task_shown aAndB (some "a") .ready false false true
    nothingKnown _ w (by decide +kernel) hw⟩

def shownClaims : Pushed → Option (Option String × ℕ)
  | .workspace m => some (m.chat.taskId, m.verified.length)
  | _ => none

/-- The pin moves to another task, and the push at that change shows it with the passing test of
the first. -/
theorem evidence_of_another_task_shown :
    ¬ ∀ (store : StoreState) (pinned : Option String) (session : ConnectionState)
        (hasLedger rollbackCapable client : Bool) (home : HomeInput) (es : List Event) (w : State),
      run step (begin store pinned session hasLedger rollbackCapable client home) es = some w →
        ∀ m ∈ w.pushed, Backed w.received m := by
  intro h
  have hrun : ((run step (begin aAndB (some "a") .ready false false true nothingKnown)
      (verifiedA ++ [.setPinned (some "b"), .changed])).map fun w =>
        (w.pushed.getLast?.bind shownClaims, w.received.reports.map Prod.fst)) =
      some (some (some "b", 1), ["a"]) := by decide +kernel
  obtain ⟨w, hw, hshown⟩ := Option.map_eq_some_iff.mp hrun
  obtain ⟨hlast, hreports⟩ := Prod.mk.inj hshown
  obtain ⟨m, hm, hclaims⟩ := Option.bind_eq_some_iff.mp hlast
  have hbacked := h _ _ _ _ _ _ _ _ w hw m (List.mem_of_getLast? hm)
  cases m with
  | home => exact nomatch hclaims
  | review => exact nomatch hclaims
  | workspace m =>
    obtain ⟨htask, hlength⟩ := Prod.mk.inj (Option.some.inj hclaims)
    rcases hbacked.1 with ⟨hnone, -⟩ | ⟨id, r, hid, hmem, -⟩
    · rw [hnone] at hlength
      exact nomatch hlength
    · obtain rfl : "b" = id := Option.some.inj (htask.symm.trans hid)
      have hfetched : "b" ∈ w.received.reports.map Prod.fst := List.mem_map.mpr ⟨_, hmem, rfl⟩
      rw [hreports] at hfetched
      exact absurd hfetched (by decide)

end Example

end ValyriaApp.EditorPanels
