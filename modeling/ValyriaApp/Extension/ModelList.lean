import ValyriaApp.Extension.Connection
import ValyriaApp.State.Delivery
import ValyriaApp.State.Projections

/-! # The model list

Two views show the list of models that `model/list` returns, and ask for it
again when an install or a server comes to an end. Each tells this from the
highest number of such an event in the store and remembers the number, whether
or not it could ask, and across resets that start the numbers again.
-/

namespace ValyriaApp

/-! ## Terminal events -/

inductive ModelsPanel where
  | models | modelChat
  deriving DecidableEq

/-- The numbers of the terminal installs and servers that a view reacts to. -/
def terminalSeqs (view : ModelsPanel) (s : StoreState) : List Num :=
  let installs := (s.modelInstalls.values.filter (·.status ≠ .running)).map (·.lastSeq)
  let servers := (s.modelServers.values.filter fun m =>
    m.state = .ready ∨ m.state = .failed ∨ m.state = .stopped).map (·.lastSeq)
  match view with
  | .models => installs ++ servers
  | .modelChat => servers

/-- Their maximum. The order in which the selectors list them does not matter to it. -/
def latestTerminal (view : ModelsPanel) (s : StoreState) : Num :=
  (terminalSeqs view s).foldl Num.max 0

/-- An install that is completed or failed, or a server that is ready, failed or stopped. -/
def terminalEvent (view : ModelsPanel) (ev : DecodedEvent) : Bool :=
  (view = .models ∧ (installEvent "id" modelInstallStep ev).any (·.status ≠ .running)) ∨
    (serverEvent ev).any (·.state ≠ .starting)

/-- The store takes up a terminal event from the batch. -/
def lands (view : ModelsPanel) (store : Store) (batch : EventBatch) : Bool :=
  ((takenUp store.state.lastSeq batch.events).map decodeEvent).any (terminalEvent view)

/-! ## The views -/

/-- Where a refresh waits for an answer. -/
inductive RefreshPc where
  | listing | recommending
  deriving DecidableEq

/-- A refresh, with the moment its `model/list` was sent. -/
structure ModelRefresh where
  sentAt : ℕ
  pc : RefreshPc

structure ModelList where
  store : Store
  supervisor : Supervisor
  /-- The view is resolved: it is wired to its listeners. -/
  resolved : Bool
  lastTerminalSeq : Num
  /-- The moment the list that is shown was asked for; `none` when the last request failed. -/
  models : Option ℕ
  refreshes : List ModelRefresh
  clock : ℕ
  /-- The moment the last terminal event was taken up by the store, since its last reset. -/
  landedAt : Option ℕ

inductive ModelListAction where
  | store (change : Store.Change)
  | supervisor (change : Supervisor.Change)
  | resolve
  | dispose
  /-- A refresh from the view itself, as at the end of a request. -/
  | refresh
  | listed (i : ℕ) (succeeds : Bool)
  | recommended (i : ℕ)

namespace ModelList

def start : ModelList where
  store := .new
  supervisor := .new
  resolved := false
  lastTerminalSeq := 0
  models := none
  refreshes := []
  clock := 0
  landedAt := none

variable (view : ModelsPanel)

/-- A refresh up to its first request; without a session it ends there. -/
def refresh (w : ModelList) : ModelList :=
  if w.supervisor.state = .ready then
    { w with refreshes := w.refreshes ++ [{ sentAt := w.clock, pc := .listing }] }
  else w

def onStoreChange (w : ModelList) : ModelList :=
  let latest := latestTerminal view w.store.state
  if w.lastTerminalSeq < latest then { w with lastTerminalSeq := latest }.refresh else w

/-- What a change of the store brings it. -/
def landing (w : ModelList) : Store.Change → Option ℕ
  | .ingestBatch batch => if lands view w.store batch then some w.clock else w.landedAt
  | .reset => none
  | .setConnection _ => w.landedAt

/-- The store has changed; a view that is resolved looks at it. -/
def storeChanged (w : ModelList) (change : Store.Change) (store : Store) : ModelList :=
  let w := { w with store, landedAt := w.landing view change }
  if w.resolved then w.onStoreChange view else w

/-- The answer to the `model/list` of a refresh. -/
def listed (w : ModelList) (i : ℕ) (succeeds : Bool) (r : ModelRefresh) : ModelList :=
  let w := { w with models := if succeeds then some r.sentAt else none }
  if w.supervisor.has "hardware" then
    { w with refreshes := w.refreshes.set i { r with pc := .recommending } }
  else { w with refreshes := w.refreshes.eraseIdx i }

def tick (w : ModelList) : ModelList := { w with clock := w.clock + 1 }

/-- The step, at the moment the clock shows. -/
def act (w : ModelList) : ModelListAction → Option ModelList
  | .store change => some ((w.store.changed change).elim w (w.storeChanged view change))
  | .supervisor change =>
    some ((w.supervisor.changed change).elim w fun supervisor => { w with supervisor })
  | .resolve => some { w with resolved := true }.refresh
  | .dispose => some { w with resolved := false }
  | .refresh => some w.refresh
  | .listed i succeeds =>
    (w.refreshes[i]?.filter (·.pc = .listing)).map (w.listed i succeeds)
  | .recommended i => (w.refreshes[i]?.filter (·.pc = .recommending)).map fun _ =>
    { w with refreshes := w.refreshes.eraseIdx i }

def step (w : ModelList) (a : ModelListAction) : Option ModelList := w.tick.act view a

/-- The view is up, the session is ready and no refresh is in flight. -/
def Rests (w : ModelList) : Prop :=
  w.resolved = true ∧ w.supervisor.state = .ready ∧ w.refreshes = []

/-- The list that is shown is not older than the last terminal event. -/
def Current (w : ModelList) : Prop :=
  ∀ sent at', w.models = some sent → w.landedAt = some at' → at' ≤ sent

def CatchesUp (w : ModelList) : Prop := w.Rests → w.Current

/-- A terminal event that comes while a list is shown at rest has a number above the highest one
remembered; when the session becomes ready, or the last recommendation is answered, no terminal
event has come since the request for the list was sent; and the last list that arrives belongs to a
request that was sent after the last terminal event. -/
def Heeded (w : ModelList) : ModelListAction → Prop
  | .store (.ingestBatch batch) => w.Rests → w.models.isSome → lands view w.store batch = true →
      w.lastTerminalSeq < latestTerminal view (w.store.ingestBatch batch).state
  | .supervisor change => ∀ supervisor, w.supervisor.changed change = some supervisor →
      w.resolved = true → w.refreshes = [] → w.supervisor.state ≠ .ready →
      supervisor.state = .ready →
      ∀ sent at', w.models = some sent → w.landedAt = some at' → at' ≤ sent
  | .listed i succeeds => ∀ r, w.refreshes[i]? = some r → r.pc = .listing → succeeds = true →
      w.supervisor.has "hardware" = false → w.resolved = true → w.supervisor.state = .ready →
      w.refreshes.eraseIdx i = [] → ∀ at', w.landedAt = some at' → at' ≤ r.sentAt
  | .recommended i => ∀ r, w.refreshes[i]? = some r → r.pc = .recommending →
      w.resolved = true → w.supervisor.state = .ready → w.refreshes.eraseIdx i = [] →
      ∀ sent at', w.models = some sent → w.landedAt = some at' → at' ≤ sent
  | _ => True

/-- Every list was asked for before the moment the clock shows. -/
structure Past (w : ModelList) (now : ℕ) : Prop where
  models : ∀ sent, w.models = some sent → sent < now
  refreshes : ∀ r ∈ w.refreshes, r.sentAt < now

end ModelList

open ModelList

section Steps

variable {view : ModelsPanel} {w w' : ModelList} {a : ModelListAction} {change : Store.Change}
  {store : Store}

theorem not_rests_refresh (w : ModelList) : ¬ w.refresh.Rests := by
  rintro ⟨-, hready, hrefreshes⟩
  unfold ModelList.refresh at hready hrefreshes
  split at hrefreshes
  · exact absurd hrefreshes (List.append_ne_nil_of_right_ne_nil _ (List.cons_ne_nil _ _))
  · rename_i hstate
    rw [if_neg hstate] at hready
    exact hstate hready

theorem onStoreChange_of_lt (h : w.lastTerminalSeq < latestTerminal view w.store.state) :
    w.onStoreChange view =
      { w with lastTerminalSeq := latestTerminal view w.store.state }.refresh := if_pos h

theorem onStoreChange_of_not_lt (h : ¬ w.lastTerminalSeq < latestTerminal view w.store.state) :
    w.onStoreChange view = w := if_neg h

theorem storeChanged_of_resolved (h : w.resolved = true) :
    w.storeChanged view change store =
      { w with store, landedAt := w.landing view change }.onStoreChange view := if_pos h

theorem storeChanged_of_not_resolved (h : ¬ w.resolved = true) :
    w.storeChanged view change store = { w with store, landedAt := w.landing view change } :=
  if_neg h

/-- A change that has no refresh follow leaves the list current exactly when it brings no terminal
event, or no list is shown. -/
theorem catchesUp_landing (hpast : w.Past w.clock) (hcatches : w.CatchesUp) :
    { w with store, landedAt := w.landing view change }.CatchesUp ↔
      ∀ batch, change = .ingestBatch batch → w.Rests → w.models.isSome →
        lands view w.store batch = false := by
  cases change with
  | ingestBatch batch =>
    simp only [Store.Change.ingestBatch.injEq, forall_eq']
    cases hlands : lands view w.store batch with
    | true =>
      constructor
      · intro hnext hrests hshown
        obtain ⟨sent, hsent⟩ := Option.isSome_iff_exists.mp hshown
        have hlanding : w.landing view (.ingestBatch batch) = some w.clock := if_pos hlands
        exact absurd (hpast.models sent hsent) (Nat.not_lt.mpr (hnext hrests sent _ hsent hlanding))
      · intro hguard hrests sent at' hsent _
        change w.models = some sent at hsent
        cases hguard hrests (by rw [hsent, Option.isSome_some])
    | false =>
      refine iff_of_true (fun hrests => ?_) fun _ _ => rfl
      have hlanding : w.landing view (.ingestBatch batch) = w.landedAt :=
        if_neg (by rw [hlands]; exact Bool.false_ne_true)
      rw [hlanding]
      exact hcatches hrests
  | reset =>
    refine iff_of_true ?_ ?_
    · rintro - sent at' - ⟨⟩
    · rintro batch ⟨⟩
  | setConnection state =>
    refine iff_of_true hcatches ?_
    rintro batch ⟨⟩

theorem catchesUp_storeChanged (hpast : w.Past w.clock) (hcatches : w.CatchesUp)
    (hchanged : w.store.changed change = some store) :
    (w.storeChanged view change store).CatchesUp ↔ w.Heeded view (.store change) := by
  have hheeded : w.Heeded view (.store change) ↔ ∀ batch, change = .ingestBatch batch → w.Rests →
      w.models.isSome → lands view w.store batch = true →
        w.lastTerminalSeq < latestTerminal view store.state := by
    cases change with
    | ingestBatch batch =>
      obtain ⟨-, ⟨⟩⟩ := Option.ite_none_left_eq_some.mp hchanged
      simp [Heeded]
    | reset => simp [Heeded]
    | setConnection state => simp [Heeded]
  rw [hheeded]
  by_cases hresolved : w.resolved = true
  · rw [storeChanged_of_resolved hresolved]
    by_cases hlatest : w.lastTerminalSeq < latestTerminal view store.state
    · rw [onStoreChange_of_lt hlatest]
      exact iff_of_true (fun hrests => absurd hrests (not_rests_refresh _))
        fun _ _ _ _ _ => hlatest
    · rw [onStoreChange_of_not_lt hlatest]
      refine (catchesUp_landing hpast hcatches).trans ?_
      simp only [hlatest, imp_false, Bool.not_eq_true]
  · rw [storeChanged_of_not_resolved hresolved]
    exact iff_of_true (fun hrests => absurd hrests.1 hresolved)
      fun _ _ hrests => absurd hrests.1 hresolved

/-- The answer to `model/list` leaves the list current unless it is the last one and came too
early. -/
theorem catchesUp_listed {i : ℕ} {succeeds : Bool} {r : ModelRefresh}
    (hr : w.refreshes[i]? = some r) (hpc : r.pc = .listing) :
    (w.listed i succeeds r).CatchesUp ↔ w.Heeded view (.listed i succeeds) := by
  have hset : w.refreshes.set i { r with pc := .recommending } ≠ [] := by
    intro hnil
    have hlength := congrArg List.length hnil
    rw [List.length_set] at hlength
    exact absurd (List.getElem?_eq_some_iff.mp hr).1 (by simp [hlength])
  rw [ModelList.listed]
  by_cases hhardware : w.supervisor.has "hardware" = true
  · rw [if_pos hhardware]
    refine iff_of_true (fun hrests => absurd hrests.2.2 hset) ?_
    intro r' _ _ _ hlacks
    rw [hhardware] at hlacks
    cases hlacks
  · rw [if_neg hhardware]
    constructor
    · intro hnext r' hr' _ hsucceeds _ hresolved hready hlast at' hat
      obtain rfl : r = r' := Option.some.inj (hr.symm.trans hr')
      exact hnext ⟨hresolved, hready, hlast⟩ r.sentAt at' (if_pos hsucceeds) hat
    · rintro hguard ⟨hresolved, hready, hlast⟩ sent at' hsent hat
      obtain ⟨hsucceeds, ⟨⟩⟩ := Option.ite_none_right_eq_some.mp hsent
      exact hguard r hr hpc hsucceeds (Bool.not_eq_true _ ▸ hhardware) hresolved hready hlast
        at' hat

theorem catchesUp_act (hpast : w.Past w.clock) (hcatches : w.CatchesUp)
    (hact : w.act view a = some w') : w'.CatchesUp ↔ w.Heeded view a := by
  cases a with
  | store change =>
    rcases Machine.elim_cases hact with ⟨hchanged, rfl⟩ | ⟨store, hchanged, rfl⟩
    · cases change with
      | ingestBatch batch =>
        refine iff_of_true hcatches fun _ _ hlands => ?_
        have hempty : batch.events = [] := by simpa [Store.changed] using hchanged
        simp [lands, hempty, takenUp] at hlands
      | reset => exact iff_of_true hcatches trivial
      | setConnection state => exact iff_of_true hcatches trivial
    · exact catchesUp_storeChanged hpast hcatches hchanged
  | supervisor change =>
    rcases Machine.elim_cases hact with ⟨hchanged, rfl⟩ | ⟨supervisor, hchanged, rfl⟩
    · refine iff_of_true hcatches fun supervisor hsupervisor => ?_
      cases hchanged.symm.trans hsupervisor
    · constructor
      · intro hnext supervisor' hsupervisor hresolved hrest _ hready
        obtain rfl : supervisor = supervisor' := Option.some.inj (hchanged.symm.trans hsupervisor)
        exact hnext ⟨hresolved, hready, hrest⟩
      · rintro hguard ⟨hresolved, hready, hrest⟩
        by_cases hbefore : w.supervisor.state = .ready
        · exact hcatches ⟨hresolved, hbefore, hrest⟩
        · exact hguard supervisor hchanged hresolved hrest hbefore hready
  | resolve =>
    cases hact
    exact iff_of_true (fun hrests => absurd hrests (not_rests_refresh _)) trivial
  | dispose =>
    cases hact
    refine iff_of_true ?_ trivial
    rintro ⟨⟨⟩, -⟩
  | refresh =>
    cases hact
    exact iff_of_true (fun hrests => absurd hrests (not_rests_refresh _)) trivial
  | listed i succeeds =>
    obtain ⟨r, hr, rfl⟩ := Option.map_eq_some_iff.mp hact
    obtain ⟨hr, hpc⟩ := Option.filter_eq_some_iff.mp hr
    exact catchesUp_listed hr (of_decide_eq_true hpc)
  | recommended i =>
    obtain ⟨r, hr, rfl⟩ := Option.map_eq_some_iff.mp hact
    obtain ⟨hr, hpc⟩ := Option.filter_eq_some_iff.mp hr
    constructor
    · intro hnext r' _ _ hresolved hready hlast
      exact hnext ⟨hresolved, hready, hlast⟩
    · rintro hguard ⟨hresolved, hready, hlast⟩
      exact hguard r hr (of_decide_eq_true hpc) hresolved hready hlast

theorem past_refresh (h : w.Past (w.clock + 1)) : w.refresh.Past (w.refresh.clock + 1) := by
  unfold ModelList.refresh
  split
  · refine ⟨h.models, fun r hr => ?_⟩
    rcases List.mem_append.mp hr with hr | hr
    · exact h.refreshes r hr
    · obtain rfl := List.mem_singleton.mp hr
      exact Nat.lt_succ_self _
  · exact h

theorem past_storeChanged (h : w.Past (w.clock + 1)) :
    (w.storeChanged view change store).Past ((w.storeChanged view change store).clock + 1) := by
  have hstored : { w with store, landedAt := w.landing view change }.Past (w.clock + 1) :=
    ⟨h.models, h.refreshes⟩
  by_cases hresolved : w.resolved = true
  · rw [storeChanged_of_resolved hresolved]
    unfold onStoreChange
    dsimp only
    split
    · exact past_refresh ⟨h.models, h.refreshes⟩
    · exact hstored
  · rw [storeChanged_of_not_resolved hresolved]
    exact hstored

theorem past_listed {i : ℕ} {succeeds : Bool} {r : ModelRefresh} (h : w.Past (w.clock + 1))
    (hr : w.refreshes[i]? = some r) :
    (w.listed i succeeds r).Past ((w.listed i succeeds r).clock + 1) := by
  have hsent : r.sentAt < w.clock + 1 := h.refreshes r (List.mem_of_getElem? hr)
  have hmodels : ∀ sent, (if succeeds then some r.sentAt else none) = some sent →
      sent < w.clock + 1 := by
    intro sent hsome
    obtain ⟨-, ⟨⟩⟩ := Option.ite_none_right_eq_some.mp hsome
    exact hsent
  rw [ModelList.listed]
  dsimp only
  split
  · refine ⟨hmodels, fun r' hr' => ?_⟩
    rcases List.mem_or_eq_of_mem_set hr' with hr' | rfl
    · exact h.refreshes r' hr'
    · exact hsent
  · exact ⟨hmodels, fun r' hr' => h.refreshes r' (List.mem_of_mem_eraseIdx hr')⟩

theorem past_act (h : w.Past (w.clock + 1)) (hact : w.act view a = some w') :
    w'.Past (w'.clock + 1) := by
  cases a with
  | store change =>
    rcases Machine.elim_cases hact with ⟨-, rfl⟩ | ⟨store, -, rfl⟩
    · exact h
    · exact past_storeChanged h
  | supervisor change =>
    rcases Machine.elim_cases hact with ⟨-, rfl⟩ | ⟨supervisor, -, rfl⟩
    · exact h
    · exact ⟨h.models, h.refreshes⟩
  | resolve =>
    cases hact
    exact past_refresh ⟨h.models, h.refreshes⟩
  | dispose =>
    cases hact
    exact ⟨h.models, h.refreshes⟩
  | refresh =>
    cases hact
    exact past_refresh h
  | listed i succeeds =>
    obtain ⟨r, hr, rfl⟩ := Option.map_eq_some_iff.mp hact
    exact past_listed h (Option.filter_eq_some_iff.mp hr).1
  | recommended i =>
    obtain ⟨r, hr, rfl⟩ := Option.map_eq_some_iff.mp hact
    exact ⟨h.models, fun r' hr' => h.refreshes r' (List.mem_of_mem_eraseIdx hr')⟩

theorem past_step (h : w.Past (w.clock + 1)) (hstep : w.step view a = some w') :
    w'.Past (w'.clock + 1) := by
  refine past_act (w := w.tick) ⟨fun sent hsent => ?_, fun r hr => ?_⟩ hstep
  · exact (h.models sent hsent).trans (Nat.lt_succ_self _)
  · exact (h.refreshes r hr).trans (Nat.lt_succ_self _)

theorem heeded_tick : w.tick.Heeded view a ↔ w.Heeded view a := by
  cases a with
  | store change => cases change <;> exact Iff.rfl
  | _ => exact Iff.rfl

theorem catchesUp_step (h : w.Past (w.clock + 1)) (hcatches : w.CatchesUp)
    (hstep : w.step view a = some w') : w'.CatchesUp ↔ w.Heeded view a := by
  have hpast : w.tick.Past w.tick.clock := ⟨h.models, h.refreshes⟩
  have htick : w.tick.CatchesUp := hcatches
  rw [← heeded_tick]
  exact catchesUp_act hpast htick hstep

theorem heeded_of_step_none (h : w.step view a = none) : w.Heeded view a := by
  cases a with
  | store change => cases h
  | supervisor change => cases h
  | resolve => cases h
  | dispose => cases h
  | refresh => cases h
  | listed i succeeds =>
    have hnone : w.refreshes[i]?.filter (·.pc = .listing) = none := Option.map_eq_none_iff.mp h
    intro r hr hpc
    rw [hr, Option.filter_some, if_pos (decide_eq_true hpc)] at hnone
    cases hnone
  | recommended i =>
    have hnone : w.refreshes[i]?.filter (·.pc = .recommending) = none := Option.map_eq_none_iff.mp h
    intro r hr hpc
    rw [hr, Option.filter_some, if_pos (decide_eq_true hpc)] at hnone
    cases hnone

end Steps

/-- In a run from the start the list catches up throughout, exactly when every terminal event is
heeded: by a refresh that is sent, and answered last. -/
theorem list_catches_up_iff (view : ModelsPanel) (as : List ModelListAction) :
    (∀ bs cs, as = bs ++ cs → ∀ w, Machine.run (step view) start bs = some w → w.CatchesUp) ↔
      Machine.Guarded (step view) (Heeded view) start as := by
  have hpast : start.Past (start.clock + 1) := by
    constructor
    · rintro sent ⟨⟩
    · rintro r ⟨⟩
  have hcatches : start.CatchesUp := by
    rintro ⟨⟨⟩, -⟩
  exact (Machine.guarded_iff (fun _ _ _ => past_step) (fun _ _ => heeded_of_step_none)
    (fun _ _ _ => catchesUp_step) hpast hcatches).symm

def serverReady : EventBatch :=
  batchOf [coreEvent 1 none 10 "model_server_ready"
    (.obj [("role", .str "primary_coder"), ("id", .str "m")])] 0 1

/-- A server gets ready in one session and, after a reset, in the next. -/
def readyTwice : List ModelListAction :=
  [.supervisor .connecting, .supervisor (.settle (.ok (sessionWith []))), .resolve, .listed 0 true,
    .store (.ingestBatch serverReady), .listed 0 true, .store .reset,
    .store (.ingestBatch serverReady)]

/-- The first event of the next session does not exceed the number remembered. -/
theorem next_session_unheeded :
    ¬ ∀ (view : ModelsPanel) (as : List ModelListAction) (w : ModelList),
      Machine.run (step view) start as = some w → w.CatchesUp := by
  intro h
  have hends : (Machine.run (step .models) start readyTwice).map
      (fun w => (w.resolved, decide (w.supervisor.state = .ready), w.refreshes.length, w.models,
        w.landedAt)) = some (true, true, 0, some 5, some 8) := by decide +kernel
  obtain ⟨w, hrun, hends⟩ := Option.map_eq_some_iff.mp hends
  obtain ⟨hresolved, hready, hlength, hmodels, hlanded⟩ : w.resolved = true ∧
      w.supervisor.state = .ready ∧ w.refreshes.length = 0 ∧ w.models = some 5 ∧
      w.landedAt = some 8 := by simpa using hends
  have hrests : w.Rests := ⟨hresolved, hready, List.eq_nil_of_length_eq_zero hlength⟩
  have hcurrent := h .models readyTwice w hrun hrests
  exact absurd (hcurrent 5 8 hmodels hlanded) (by decide)

end ValyriaApp
