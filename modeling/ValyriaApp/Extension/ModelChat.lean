import ValyriaApp.Extension.Badges
import ValyriaApp.Extension.ModelList
import ValyriaApp.Extension.Views
import ValyriaApp.Lib.Mirror

/-! # The model chat

The chat is the surface the window opens with. Its page is sent a new model when
the store, the session or the focus changes, when it starts and when it becomes
visible. A change that brings the end of a server has the list of models asked
for instead, and the page is sent a model when the answer is there.
-/

namespace ValyriaApp
open Mirror

/-- The view with what it reads and the page it posts to. -/
structure ModelChat where
  scene : Scene
  models : Option (List ModelSummary)
  recommend : Option RecommendResult
  activating : Bool
  lastTerminalSeq : Num
  /-- Where the refreshes under way wait. -/
  refreshes : List RefreshPc
  /-- The view, when it is resolved. -/
  view : Option (Page ModelChatModel)
  /-- A listener called before that of the view threw, and nothing was posted since. -/
  missed : Bool

inductive ModelChatAction where
  /-- The listener of the view is `called` unless one before it throws. -/
  | scene (change : Scene.Change) (called : Bool)
  | resolve
  | dispose
  | visible
  | page (a : Page.Action)
  /-- The greeting of the page arrives. -/
  | ready
  | listed (i : ℕ) (models : Option (List ModelSummary))
  | recommended (i : ℕ) (recommend : Option RecommendResult)
  | activateModel (id : String)
  /-- The request to activate a model is settled. -/
  | activated

namespace ModelChat

def start : ModelChat where
  scene := { store := .new, pinned := none, supervisor := .new }
  models := none
  recommend := none
  activating := false
  lastTerminalSeq := 0
  refreshes := []
  view := none
  missed := false

/-- The model, for a state of the store. -/
def modelOf (w : ModelChat) (s : StoreState) : ModelChatModel :=
  modelChatModel s w.scene.pinned w.scene.supervisor.state
    { inferenceCapable := w.scene.supervisor.has "model_inference"
      models := w.models
      allowForTaskSupported := w.scene.supervisor.has "approval_scope"
      activating := some w.activating
      recommend := w.recommend }

def buildModel (w : ModelChat) : ModelChatModel := w.modelOf w.scene.store.state

def push (w : ModelChat) : ModelChat :=
  { w with view := w.view.map (·.post w.buildModel), missed := false }

/-- `refreshModels`, up to its first request. -/
def refreshModels (w : ModelChat) : ModelChat :=
  if w.scene.supervisor.state = .ready then { w with refreshes := w.refreshes ++ [.listing] }
  else w

def onStoreChange (w : ModelChat) : ModelChat :=
  let latest := latestTerminal .modelChat w.scene.store.state
  if w.lastTerminalSeq < latest then { w with lastTerminalSeq := latest }.refreshModels
  else w.push

/-- The listeners of the view. -/
def listen (w : ModelChat) : Scene.Change → ModelChat
  | .store _ => w.onStoreChange
  | .supervisor _ => w.push
  | .focus _ => w.push

/-- The scene has changed; a view that is resolved is told, if the listeners get that far. -/
def sceneChanged (w : ModelChat) (change : Scene.Change) (called : Bool) (scene : Scene) :
    ModelChat :=
  let w := { w with scene }
  if called then if w.view.isSome then w.listen change else w
  else { w with missed := true }

/-- The answer to `model/list`. -/
def listed (w : ModelChat) (i : ℕ) (models : Option (List ModelSummary)) : ModelChat :=
  let w := { w with models }
  if w.scene.supervisor.has "hardware" then
    { w with refreshes := w.refreshes.set i .recommending }
  else { w with recommend := none, refreshes := w.refreshes.eraseIdx i }.push

def step (w : ModelChat) : ModelChatAction → Option ModelChat
  | .scene change called =>
    some ((w.scene.changed change).elim w (w.sceneChanged change called))
  | .resolve => some { w with view := some .blank }.refreshModels
  | .dispose => some { w with view := none }
  | .visible => some w.push
  | .page a => do
    let page ← (← w.view).act a
    return { w with view := some page }
  | .ready => do
    let page ← (← w.view).answer w.buildModel
    return { w with view := some page, missed := false }
  | .listed i models =>
    if w.refreshes[i]? = some .listing then some (w.listed i models) else none
  | .recommended i recommend =>
    if w.refreshes[i]? = some .recommending then
      some { w with recommend, refreshes := w.refreshes.eraseIdx i }.push
    else none
  | .activateModel id =>
    if id ≠ "" ∧ w.activating = false then some { w with activating := true }.push else some w
  | .activated =>
    if w.activating then some { w with activating := false }.refreshModels else none

/-- Nothing is under way and the session is ready. -/
structure AtRest (w : ModelChat) (p : Page ModelChatModel) : Prop where
  view : w.view = some p
  settled : p.Settled
  refreshes : w.refreshes = []
  ready : w.scene.supervisor.state = .ready
  missed : w.missed = false

/-- The page mirrors the model, or something is under way that will post it. -/
def Inv (w : ModelChat) : Prop :=
  ∀ p, w.view = some p → w.refreshes = [] → w.scene.supervisor.state = .ready →
    w.missed = false → p.Mirrors w.buildModel

variable {w w' : ModelChat} {a : ModelChatAction} {p : Page ModelChatModel}

theorem inv_start : Inv start := by
  rintro p ⟨⟩

theorem inv_push (w : ModelChat) : Inv w.push := by
  rintro p hview - - -
  obtain ⟨old, -, rfl⟩ := Option.map_eq_some_iff.mp hview
  exact Page.mirrors_post old w.buildModel

/-- A refresh is under way, or there is no session to ask. -/
theorem inv_refreshModels (w : ModelChat) : Inv w.refreshModels := by
  rw [refreshModels]
  split
  · rintro p - hrefreshes
    exact absurd hrefreshes (List.append_ne_nil_of_right_ne_nil _ (List.cons_ne_nil _ _))
  · next hstate =>
    rintro p - - hready
    exact absurd hready hstate

theorem inv_listen (w : ModelChat) (change : Scene.Change) : Inv (w.listen change) := by
  cases change with
  | store change =>
    rw [listen, onStoreChange]
    split
    · exact inv_refreshModels _
    · exact inv_push w
  | focus pinned => exact inv_push w
  | supervisor change => exact inv_push w

theorem inv_sceneChanged (w : ModelChat) (change : Scene.Change) (called : Bool) (scene : Scene) :
    Inv (w.sceneChanged change called scene) := by
  cases called with
  | false =>
    rintro p - - - ⟨⟩
  | true =>
    by_cases hview : w.view.isSome
    · have hlisten : w.sceneChanged change true scene = { w with scene }.listen change :=
        if_pos hview
      rw [hlisten]
      exact inv_listen _ change
    · have hscene : w.sceneChanged change true scene = { w with scene } := if_neg hview
      rw [hscene]
      rintro p hp
      exact absurd (Option.isSome_iff_exists.mpr ⟨p, hp⟩) hview

theorem inv_listed {i : ℕ} (h : w.refreshes[i]? = some .listing)
    (models : Option (List ModelSummary)) : Inv (w.listed i models) := by
  rw [listed]
  split
  · rintro p - hrefreshes
    have hlength : w.refreshes.length = 0 := by
      simpa using congrArg List.length hrefreshes
    exact absurd (List.getElem?_eq_some_iff.mp h).1 (by simp [hlength])
  · exact inv_push _

theorem step_inv (h : Inv w) (hstep : w.step a = some w') : Inv w' := by
  cases a with
  | scene change called =>
    rcases Machine.elim_cases hstep with ⟨-, rfl⟩ | ⟨scene, -, rfl⟩
    · exact h
    · exact inv_sceneChanged w change called scene
  | resolve =>
    cases hstep
    exact inv_refreshModels _
  | dispose =>
    cases hstep
    rintro p ⟨⟩
  | visible =>
    cases hstep
    exact inv_push w
  | page a =>
    obtain ⟨old, hold, hstep⟩ := Option.bind_eq_some_iff.mp hstep
    obtain ⟨page, hpage, hstep⟩ := Option.bind_eq_some_iff.mp hstep
    cases hstep
    rintro p hp hrefreshes hready hmissed
    obtain rfl := Option.some.inj hp
    exact (h old hold hrefreshes hready hmissed).act hpage
  | ready =>
    obtain ⟨old, -, hstep⟩ := Option.bind_eq_some_iff.mp hstep
    obtain ⟨page, hpage, hstep⟩ := Option.bind_eq_some_iff.mp hstep
    cases hstep
    rintro p hp - - -
    obtain rfl := Option.some.inj hp
    exact Page.mirrors_answer hpage
  | listed i models =>
    obtain ⟨hlisting, hstep⟩ := Option.ite_none_right_eq_some.mp hstep
    cases hstep
    exact inv_listed hlisting models
  | recommended i recommend =>
    obtain ⟨-, hstep⟩ := Option.ite_none_right_eq_some.mp hstep
    cases hstep
    exact inv_push _
  | activateModel id =>
    simp only [step] at hstep
    split at hstep
    · cases hstep
      exact inv_push _
    · cases hstep
      exact h
  | activated =>
    obtain ⟨-, hstep⟩ := Option.ite_none_right_eq_some.mp hstep
    cases hstep
    exact inv_refreshModels _

/-- In every run the chat shows the model of the current scene once nothing is under way. -/
theorem chat_shows_current {as : List ModelChatAction} (hrun : Machine.run step start as = some w)
    (h : w.AtRest p) : p.shown = some w.buildModel := by
  have hinv : Inv w := Machine.run_invariant (fun _ _ _ => step_inv) inv_start hrun
  exact (hinv p h.view h.refreshes h.ready h.missed).shown h.settled

/-- A server gets ready while the first list is asked for, and the page is sent both answers. -/
def answeredTwice : List ModelChatAction :=
  [.scene (.supervisor (.settle (.ok (sessionWith [])))) true, .resolve, .page .load, .ready,
    .scene (.store (.ingestBatch serverReady)) true, .listed 0 (some []), .listed 0 none,
    .page .deliver, .page .deliver, .page .deliver]

def answeredChat : ModelChat := (Machine.run step start answeredTwice).get (by decide +kernel)

def answeredPage : Page ModelChatModel := answeredChat.view.get (by decide +kernel)

theorem chat_shows_current_answered : answeredPage.shown = some answeredChat.buildModel := by
  have hrun : Machine.run step start answeredTwice = some answeredChat := (Option.some_get _).symm
  have hsettled : answeredPage.Settled :=
    ⟨by decide +kernel, by decide +kernel, List.isEmpty_iff.mp (by decide +kernel)⟩
  have hrest : answeredChat.AtRest answeredPage :=
    ⟨(Option.some_get _).symm, hsettled, by decide +kernel, by decide +kernel, by decide +kernel⟩
  exact chat_shows_current hrun hrest

/-! ## The store of the view -/

@[simp] theorem scene_push (w : ModelChat) : w.push.scene = w.scene := rfl

@[simp] theorem scene_refreshModels (w : ModelChat) : w.refreshModels.scene = w.scene := by
  rw [refreshModels]
  split <;> rfl

@[simp] theorem scene_listen (w : ModelChat) (change : Scene.Change) :
    (w.listen change).scene = w.scene := by
  cases change with
  | store change =>
    rw [listen, onStoreChange]
    split
    · simp
    · rfl
  | focus pinned => rfl
  | supervisor change => rfl

@[simp] theorem scene_sceneChanged (w : ModelChat) (change : Scene.Change) (called : Bool)
    (scene : Scene) : (w.sceneChanged change called scene).scene = scene := by
  rw [sceneChanged]
  split
  · split
    · rw [scene_listen]
    · rfl
  · rfl

theorem scene_of_step (hstep : w.step a = some w') :
    w'.scene = w.scene ∨
      ∃ change called, a = .scene change called ∧ w.scene.changed change = some w'.scene := by
  cases a with
  | scene change called =>
    rcases Machine.elim_cases hstep with ⟨-, rfl⟩ | ⟨scene, hchanged, rfl⟩
    · exact Or.inl rfl
    · exact Or.inr ⟨change, called, rfl, by rw [hchanged, scene_sceneChanged]⟩
  | page a =>
    obtain ⟨old, -, hstep⟩ := Option.bind_eq_some_iff.mp hstep
    obtain ⟨page, -, hstep⟩ := Option.bind_eq_some_iff.mp hstep
    cases hstep
    exact Or.inl rfl
  | ready =>
    obtain ⟨old, -, hstep⟩ := Option.bind_eq_some_iff.mp hstep
    obtain ⟨page, -, hstep⟩ := Option.bind_eq_some_iff.mp hstep
    cases hstep
    exact Or.inl rfl
  | listed i models =>
    obtain ⟨-, hstep⟩ := Option.ite_none_right_eq_some.mp hstep
    cases hstep
    rw [listed]
    split <;> exact Or.inl rfl
  | recommended i recommend =>
    obtain ⟨-, hstep⟩ := Option.ite_none_right_eq_some.mp hstep
    cases hstep
    exact Or.inl rfl
  | activateModel id =>
    simp only [step] at hstep
    split at hstep <;> cases hstep <;> exact Or.inl rfl
  | activated =>
    obtain ⟨-, hstep⟩ := Option.ite_none_right_eq_some.mp hstep
    cases hstep
    exact Or.inl (scene_refreshModels _)
  | resolve =>
    cases hstep
    exact Or.inl (scene_refreshModels _)
  | dispose =>
    cases hstep
    exact Or.inl rfl
  | visible =>
    cases hstep
    exact Or.inl rfl

end ModelChat

end ValyriaApp
