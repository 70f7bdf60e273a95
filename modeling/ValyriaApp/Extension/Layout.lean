import ValyriaApp.Extension.Views
import ValyriaApp.Lib.Machine
import ValyriaApp.Lib.Pool

/-! # The layout modes

A mode is a bundle of workbench settings. A choice is remembered first, then the
context is set, then the settings are written one at a time; a window that starts
writes the settings of the remembered choice again. So a choice that was cut off
by the end of a window is carried through by the next one.
-/

namespace ValyriaApp

deriving instance DecidableEq for LayoutMode

/-! ## The bundles -/

namespace Layout

/-- The values a bundle gives. -/
inductive Scalar where
  | bool (b : Bool)
  | str (s : String)
  deriving DecidableEq

def Scalar.json : Scalar → Json
  | .bool b => .bool b
  | .str s => .str s

/-- The operator `===`, between a value of a target and a value of a bundle. -/
def same : Option Json → Option Scalar → Bool
  | none, none => true
  | some (.bool a), some (.bool b) => a = b
  | some (.str a), some (.str b) => a = b
  | _, _ => false

def bundle : LayoutMode → List (String × Scalar)
  | .agent =>
    [("workbench.activityBar.location", .str "hidden"),
      ("workbench.editor.showTabs", .str "single"),
      ("workbench.editor.editorActionsLocation", .str "hidden"),
      ("workbench.panel.defaultLocation", .str "bottom"),
      ("window.density.editorTabHeight", .str "compact"),
      ("breadcrumbs.enabled", .bool false)]
  | .editor =>
    [("workbench.activityBar.location", .str "top"),
      ("workbench.editor.showTabs", .str "multiple"),
      ("workbench.editor.editorActionsLocation", .str "default"),
      ("window.density.editorTabHeight", .str "default"),
      ("breadcrumbs.enabled", .bool true)]

/-- The keys of either bundle, each once. -/
def managedKeys : List String :=
  ((bundle .agent).map Prod.fst ++ (bundle .editor).map Prod.fst).eraseDups

/-- Every managed key undefined, then the bundle of the mode over it. -/
def resolveLayoutSettings (mode : LayoutMode) : Record (Option Scalar) :=
  (bundle mode).foldl (fun out e => out.set e.1 (some e.2))
    (managedKeys.foldl (fun out k => out.set k none) .empty)

def modeName : LayoutMode → String
  | .agent => "agent"
  | .editor => "editor"

/-- The remembered text, when it is a mode. -/
def modeOf (remembered : Option String) : Option LayoutMode :=
  if remembered = some "agent" then some .agent
  else if remembered = some "editor" then some .editor
  else none

/-! ## The controller -/

inductive Target where
  | workspace | «global»
  deriving DecidableEq

abbrev Settings := Target → String → Option Json

def Settings.set (s : Settings) (t : Target) (k : String) (v : Option Json) : Settings :=
  fun t' k' => if t' = t ∧ k' = k then v else s t' k'

/-- Where a call of the controller waits. -/
inductive CallPc where
  /-- `applyOnActivate`, for the context. -/
  | activating
  /-- `setMode`, for the remembered choice. -/
  | remembering (mode : LayoutMode)
  /-- `setMode`, for the context. -/
  | syncing (mode : LayoutMode)
  /-- For a setting, with the settings of `mode` that are left. -/
  | writing (mode : LayoutMode) (rest : List (String × Option Scalar))
  deriving DecidableEq

end Layout

open Layout

/-- The controller of a window with the workbench around it. -/
structure LayoutController where
  mode : LayoutMode
  hasRememberedChoice : Bool
  calls : List CallPc
  /-- The choice the workspace remembers. -/
  remembered : Option String
  /-- The context of the `when` clauses. -/
  context : Option LayoutMode
  settings : Settings
  /-- The settings as the user alone has made them. -/
  own : Settings
  /-- A folder is open. -/
  folder : Bool
  defaultMode : Option String
  applyWorkbenchDefaults : Bool

inductive LayoutAction where
  /-- A choice of the user; the code makes no other call of `setMode`. -/
  | setMode (mode : LayoutMode)
  | toggle
  /-- A call goes on; what it writes next is written or fails. -/
  | resume (i : ℕ) (succeeds : Bool)
  /-- The window ends and the next one starts. -/
  | reload
  | edit (target : Target) (key : String) (value : Option Json)
  | setDefaultMode (value : Option String)
  | setApplyWorkbenchDefaults (value : Bool)

namespace LayoutController

variable {l l' : LayoutController}

def target (l : LayoutController) : Target := if l.folder then .workspace else .global

def configuredDefault (l : LayoutController) : LayoutMode :=
  if l.defaultMode.getD "editor" = "agent" then .agent else .editor

def syncContext (l : LayoutController) : LayoutController := { l with context := some l.mode }

/-- The controller of a new window, with `applyOnActivate` up to its first `await`. -/
def activate (l : LayoutController) : LayoutController :=
  { l with
    mode := (modeOf l.remembered).getD l.configuredDefault
    hasRememberedChoice := (modeOf l.remembered).isSome
    calls := [.activating] }.syncContext

/-- `setMode` with an explicit choice, up to its first `await`. -/
def setMode (l : LayoutController) (mode : LayoutMode) : LayoutController :=
  { l with mode, remembered := some (modeName mode), calls := l.calls ++ [.remembering mode] }

/-- The loop of `writeSettings`, up to the next setting that has to be written. -/
def write (l : LayoutController) (i : ℕ) (mode : LayoutMode) (succeeds : Bool) :
    List (String × Option Scalar) → LayoutController
  | [] => { l with calls := l.calls.eraseIdx i }
  | (key, value) :: rest =>
    if same (l.settings l.target key) value then l.write i mode succeeds rest
    else { l with
      calls := l.calls.set i (.writing mode rest)
      settings :=
        if succeeds then l.settings.set l.target key (value.map Scalar.json) else l.settings }

/-- What follows the context. -/
def writeSettings (l : LayoutController) (i : ℕ) (mode : LayoutMode) (succeeds : Bool) :
    LayoutController :=
  l.write i mode succeeds (resolveLayoutSettings mode).entries

def «continue» (l : LayoutController) (i : ℕ) (succeeds : Bool) : CallPc → LayoutController
  | .activating =>
    if l.hasRememberedChoice ∧ l.applyWorkbenchDefaults then l.writeSettings i l.mode succeeds
    else { l with calls := l.calls.eraseIdx i }
  | .remembering mode => { l with calls := l.calls.set i (.syncing mode) }.syncContext
  | .syncing mode =>
    if l.applyWorkbenchDefaults then l.writeSettings i mode succeeds
    else { l with calls := l.calls.eraseIdx i }
  | .writing mode rest => l.write i mode succeeds rest

def step (l : LayoutController) : LayoutAction → Option LayoutController
  | .setMode mode => some (l.setMode mode)
  | .toggle => some (l.setMode (if l.mode = .agent then .editor else .agent))
  | .resume i succeeds => l.calls[i]?.map (l.continue i succeeds)
  | .reload => some l.activate
  | .edit t k v => some { l with settings := l.settings.set t k v, own := l.own.set t k v }
  | .setDefaultMode value => some { l with defaultMode := value }
  | .setApplyWorkbenchDefaults value => some { l with applyWorkbenchDefaults := value }

/-- A new window over what the last one left. -/
def launch (settings : Settings) (remembered : Option String) (folder : Bool)
    (defaultMode : Option String) (applyWorkbenchDefaults : Bool) : LayoutController :=
  let left : LayoutController :=
    { mode := .editor, hasRememberedChoice := false, calls := [], remembered, context := none
      settings, own := settings, folder, defaultMode, applyWorkbenchDefaults }
  left.activate

/-! ## What every run keeps -/

/-- The layout touches the managed keys of its target only, and nothing unless a mode was chosen;
the context is that of the mode unless a call is about to set it. -/
structure Inv (l : LayoutController) : Prop where
  context : l.context = some l.mode ∨ ∃ mode, CallPc.remembering mode ∈ l.calls
  chosen : ∀ mode, modeOf l.remembered = some mode → l.mode = mode
  frame : ∀ t k, t ≠ l.target ∨ k ∉ managedKeys → l.settings t k = l.own t k
  unasked : modeOf l.remembered = none →
    l.settings = l.own ∧ l.hasRememberedChoice = false ∧ ∀ c ∈ l.calls, c = .activating
  rest : ∀ mode rest, CallPc.writing mode rest ∈ l.calls → ∀ e ∈ rest, e.1 ∈ managedKeys

@[simp] theorem modeOf_modeName (mode : LayoutMode) :
    modeOf (some (modeName mode)) = some mode := by
  cases mode <;> rfl

theorem mem_managedKeys {mode : LayoutMode} {e : String × Option Scalar}
    (h : e ∈ (resolveLayoutSettings mode).entries) : e.1 ∈ managedKeys := by
  have hkeys : (resolveLayoutSettings mode).keys = managedKeys := by
    cases mode <;> decide +kernel
  rw [← hkeys]
  exact List.mem_map_of_mem h

theorem same_iff {v : Option Json} {value : Option Scalar} :
    same v value = true ↔ v = value.map Scalar.json := by
  cases v with
  | none => cases value <;> simp [same]
  | some v =>
    cases value with
    | none => simp [same]
    | some value => cases v <;> cases value <;> simp [same, Scalar.json]

/-- The loop ends with every setting in place, or it stops at one that is not and writes it. -/
theorem write_cases (l : LayoutController) (i : ℕ) (mode : LayoutMode) (succeeds : Bool)
    (rest : List (String × Option Scalar)) :
    (l.write i mode succeeds rest = { l with calls := l.calls.eraseIdx i } ∧
      ∀ e ∈ rest, l.settings l.target e.1 = e.2.map Scalar.json) ∨
    ∃ e ∈ rest, ∃ left, left ⊆ rest ∧
      (∀ x ∈ rest, x = e ∨ x ∈ left ∨ l.settings l.target x.1 = x.2.map Scalar.json) ∧
      l.write i mode succeeds rest = { l with
        calls := l.calls.set i (.writing mode left)
        settings :=
          if succeeds then l.settings.set l.target e.1 (e.2.map Scalar.json) else l.settings } := by
  induction rest with
  | nil => exact Or.inl ⟨rfl, by simp⟩
  | cons e rest ih =>
    rw [write]
    split
    · next hsame =>
      have hdone : l.settings l.target e.1 = e.2.map Scalar.json := same_iff.mp hsame
      rcases ih with ⟨heq, hall⟩ | ⟨x, hx, left, hleft, hall, heq⟩
      · exact Or.inl ⟨heq, List.forall_mem_cons.mpr ⟨hdone, hall⟩⟩
      · exact Or.inr ⟨x, List.mem_cons_of_mem _ hx, left, List.subset_cons_of_subset _ hleft,
          List.forall_mem_cons.mpr ⟨Or.inr (Or.inr hdone), hall⟩, heq⟩
    · exact Or.inr ⟨e, List.mem_cons_self, rest, List.subset_cons_self _ _,
        List.forall_mem_cons.mpr ⟨Or.inl rfl, fun x hx => Or.inr (Or.inl hx)⟩, rfl⟩

theorem Inv.finish {i : ℕ} {c : CallPc} (h : Inv l) (hi : l.calls[i]? = some c)
    (hc : ∀ mode, c ≠ .remembering mode) : Inv { l with calls := l.calls.eraseIdx i } where
  context := h.context.imp_right fun ⟨mode, hmem⟩ =>
    ⟨mode, Pool.mem_eraseIdx_of_ne hi hmem (hc mode).symm⟩
  chosen := h.chosen
  frame := h.frame
  unasked hnone :=
    have ⟨hsettings, hhas, hcalls⟩ := h.unasked hnone
    ⟨hsettings, hhas, fun c hc => hcalls c (List.mem_of_mem_eraseIdx hc)⟩
  rest mode rest hmem := h.rest mode rest (List.mem_of_mem_eraseIdx hmem)

theorem Inv.write {i : ℕ} {c : CallPc} {mode : LayoutMode} {succeeds : Bool}
    {rest : List (String × Option Scalar)} (h : Inv l) (hi : l.calls[i]? = some c)
    (hc : ∀ mode, c ≠ .remembering mode) (hasked : modeOf l.remembered ≠ none)
    (hrest : ∀ e ∈ rest, e.1 ∈ managedKeys) : Inv (l.write i mode succeeds rest) := by
  rcases write_cases l i mode succeeds rest with ⟨heq, -⟩ | ⟨e, he, left, hleft, -, heq⟩
  · rw [heq]
    exact h.finish hi hc
  · rw [heq]
    refine ⟨?_, h.chosen, ?_, fun hnone => absurd hnone hasked, ?_⟩
    · exact h.context.imp_right fun ⟨mode, hmem⟩ =>
        ⟨mode, Pool.mem_set_of_ne hi hmem (hc mode).symm⟩
    · intro t k htk
      have hne : ¬ (t = l.target ∧ k = e.1) := by
        rintro ⟨rfl, rfl⟩
        exact htk.elim (fun h => h rfl) fun h => h (hrest e he)
      cases succeeds with
      | true => exact (if_neg hne).trans (h.frame t k htk)
      | false => exact h.frame t k htk
    · intro mode' rest' hmem e' he'
      rcases List.mem_or_eq_of_mem_set hmem with hmem | hmem
      · exact h.rest mode' rest' hmem e' he'
      · obtain ⟨rfl, rfl⟩ := CallPc.writing.inj hmem
        exact hrest e' (hleft he')

theorem Inv.activate (h : ∀ t k, t ≠ l.target ∨ k ∉ managedKeys → l.settings t k = l.own t k)
    (hunasked : modeOf l.remembered = none → l.settings = l.own) : Inv l.activate where
  context := Or.inl rfl
  chosen mode hmode := by
    change (modeOf l.remembered).getD l.configuredDefault = mode
    rw [show modeOf l.remembered = some mode from hmode, Option.getD_some]
  frame := h
  unasked hnone := by
    refine ⟨hunasked hnone, ?_, fun c hc => List.mem_singleton.mp hc⟩
    change (modeOf l.remembered).isSome = false
    rw [show modeOf l.remembered = none from hnone, Option.isSome_none]
  rest mode rest hmem := by
    cases List.mem_singleton.mp hmem

theorem Inv.setMode (h : Inv l) (mode : LayoutMode) : Inv (l.setMode mode) where
  context := Or.inr ⟨mode, List.mem_append_right _ List.mem_cons_self⟩
  chosen mode' hmode := by
    rw [LayoutController.setMode, modeOf_modeName] at hmode
    exact Option.some.inj hmode
  frame := h.frame
  unasked hnone := by
    rw [LayoutController.setMode, modeOf_modeName] at hnone
    cases hnone
  rest mode' rest hmem := by
    rcases List.mem_append.mp hmem with hmem | hmem
    · exact h.rest mode' rest hmem
    · cases List.mem_singleton.mp hmem

theorem Inv.continue {i : ℕ} {c : CallPc} (h : Inv l) (hi : l.calls[i]? = some c)
    (succeeds : Bool) : Inv (l.continue i succeeds c) := by
  have hentries (mode : LayoutMode) :
      ∀ e ∈ (resolveLayoutSettings mode).entries, e.1 ∈ managedKeys := fun e => mem_managedKeys
  have hmem : c ∈ l.calls := List.mem_of_getElem? hi
  cases c with
  | activating =>
    rw [LayoutController.continue]
    split
    · next hremembered =>
      refine h.write hi (by simp) (fun hnone => ?_) (hentries _)
      rw [(h.unasked hnone).2.1] at hremembered
      exact Bool.false_ne_true hremembered.1
    · exact h.finish hi (by simp)
  | remembering mode =>
    refine ⟨Or.inl rfl, h.chosen, h.frame, fun hnone => ?_, fun mode' rest hmem' => ?_⟩
    · cases (h.unasked hnone).2.2 _ hmem
    · rcases List.mem_or_eq_of_mem_set hmem' with hmem' | hmem'
      · exact h.rest mode' rest hmem'
      · cases hmem'
  | syncing mode =>
    have hasked : modeOf l.remembered ≠ none := by
      intro hnone
      cases (h.unasked hnone).2.2 _ hmem
    rw [LayoutController.continue]
    split
    · exact h.write hi (by simp) hasked (hentries mode)
    · exact h.finish hi (by simp)
  | writing mode rest =>
    refine h.write hi (by simp) (fun hnone => ?_) (h.rest mode rest hmem)
    cases (h.unasked hnone).2.2 _ hmem

theorem step_inv {a : LayoutAction} (h : Inv l) (hstep : l.step a = some l') : Inv l' := by
  cases a with
  | setMode mode =>
    cases hstep
    exact h.setMode mode
  | toggle =>
    cases hstep
    exact h.setMode _
  | resume i succeeds =>
    obtain ⟨c, hi, rfl⟩ := Option.map_eq_some_iff.mp hstep
    exact h.continue hi succeeds
  | reload =>
    cases hstep
    exact Inv.activate h.frame fun hnone => (h.unasked hnone).1
  | edit t k v =>
    cases hstep
    refine ⟨h.context, h.chosen, fun t' k' htk => ?_, fun hnone => ?_, h.rest⟩
    · simp only [Settings.set, h.frame t' k' htk]
    · have ⟨hsettings, hrest⟩ := h.unasked hnone
      exact ⟨by rw [hsettings], hrest⟩
  | setDefaultMode value =>
    cases hstep
    exact ⟨h.context, h.chosen, h.frame, h.unasked, h.rest⟩
  | setApplyWorkbenchDefaults value =>
    cases hstep
    exact ⟨h.context, h.chosen, h.frame, h.unasked, h.rest⟩

theorem inv_launch (settings : Settings) (remembered : Option String) (folder : Bool)
    (defaultMode : Option String) (applyWorkbenchDefaults : Bool) :
    Inv (launch settings remembered folder defaultMode applyWorkbenchDefaults) :=
  Inv.activate (fun _ _ _ => rfl) fun _ => rfl

/-- Whatever the user chooses, however the calls overlap, whichever writes fail and whenever a
window ends: outside the managed keys of its target the layout changes no setting, and none at all
before a mode was chosen; the mode is the one remembered, and the context is that of the mode when
no call is under way. -/
theorem layout_frame {settings : Settings} {remembered : Option String} {folder : Bool}
    {defaultMode : Option String} {applyWorkbenchDefaults : Bool} {as : List LayoutAction}
    (hrun : Machine.run step (launch settings remembered folder defaultMode applyWorkbenchDefaults)
      as = some l) :
    (∀ t k, t ≠ l.target ∨ k ∉ managedKeys → l.settings t k = l.own t k) ∧
      (modeOf l.remembered = none → l.settings = l.own) ∧
      (∀ mode, modeOf l.remembered = some mode → l.mode = mode) ∧
      (l.calls = [] → l.context = some l.mode) := by
  have hinv : Inv l := Machine.run_invariant (fun _ _ _ => step_inv) (inv_launch ..) hrun
  refine ⟨hinv.frame, fun hnone => (hinv.unasked hnone).1, hinv.chosen, fun hrest => ?_⟩
  refine hinv.context.resolve_right ?_
  rintro ⟨mode, hmem⟩
  rw [hrest] at hmem
  exact List.not_mem_nil hmem

/-- The first choice is made alone. The next two overlap, and the later one ends first: it finds
most of its settings in place. -/
def overlappingChoices : List LayoutAction :=
  [.resume 0 true, .setMode .editor] ++ List.replicate 7 (.resume 0 true) ++
    [.setMode .agent, .setMode .editor, .resume 0 true, .resume 0 true, .resume 1 true,
      .resume 1 true, .resume 1 true] ++ List.replicate 6 (.resume 0 true)

/-- Where they end, in a workspace without settings. -/
def overlapped : LayoutController :=
  (Machine.run step (launch (fun _ _ => none) none true none true) overlappingChoices).get
    (by decide +kernel)

theorem layout_frame_overlapped :
    overlapped.settings .global "breadcrumbs.enabled" =
        overlapped.own .global "breadcrumbs.enabled" ∧
      overlapped.context = some overlapped.mode := by
  have hrun : Machine.run step (launch (fun _ _ => none) none true none true) overlappingChoices =
      some overlapped := (Option.some_get _).symm
  obtain ⟨hframe, -, -, hcontext⟩ := layout_frame hrun
  exact ⟨hframe .global _ (Or.inl (by decide +kernel)), hcontext (by decide +kernel)⟩

/-! ## Carrying a choice through -/

/-- A choice is made when no call is under way, every write succeeds, and the user leaves the
managed keys of the target alone. -/
def Undisturbed (l : LayoutController) : LayoutAction → Prop
  | .setMode _ | .toggle => l.calls = []
  | .resume _ succeeds => succeeds = true
  | .edit t k _ => t ≠ l.target ∨ k ∉ managedKeys
  | .setApplyWorkbenchDefaults value => value = true
  | _ => True

instance (l : LayoutController) : DecidablePred l.Undisturbed
  | .setMode _ | .toggle => inferInstanceAs (Decidable (l.calls = []))
  | .resume _ succeeds => inferInstanceAs (Decidable (succeeds = true))
  | .edit t k _ => inferInstanceAs (Decidable (t ≠ l.target ∨ k ∉ managedKeys))
  | .setApplyWorkbenchDefaults value => inferInstanceAs (Decidable (value = true))
  | .reload | .setDefaultMode _ => isTrue trivial

def Done (l : LayoutController) (e : String × Option Scalar) : Prop :=
  l.settings l.target e.1 = e.2.map Scalar.json

def Applied (l : LayoutController) (mode : LayoutMode) : Prop :=
  ∀ e ∈ (resolveLayoutSettings mode).entries, l.Done e

/-- What a call under way still does for the mode. -/
def Owes (l : LayoutController) (mode : LayoutMode) : CallPc → Prop
  | .activating => l.hasRememberedChoice = true
  | .remembering m | .syncing m => m = mode
  | .writing m rest => m = mode ∧ rest ⊆ (resolveLayoutSettings mode).entries ∧
      ∀ e ∈ (resolveLayoutSettings mode).entries, e ∈ rest ∨ l.Done e

/-- The remembered choice is applied, or the one call under way will apply it. -/
structure Carries (l : LayoutController) : Prop where
  applies : l.applyWorkbenchDefaults = true
  chosen : ∀ mode, modeOf l.remembered = some mode →
    (l.calls = [] ∧ l.Applied mode) ∨ ∃ c, l.calls = [c] ∧ l.Owes mode c

section Carry

variable {c : CallPc} {i : ℕ} {mode : LayoutMode} {rest : List (String × Option Scalar)}

/-- What the user may edit is none of the settings of a mode. -/
theorem done_edit {t : Target} {k : String} {v : Option Json} (h : t ≠ l.target ∨ k ∉ managedKeys)
    {e : String × Option Scalar} (he : e ∈ (resolveLayoutSettings mode).entries) :
    Done { l with settings := l.settings.set t k v, own := l.own.set t k v } e ↔ l.Done e := by
  have hne : ¬ (l.target = t ∧ e.1 = k) := by
    rintro ⟨rfl, rfl⟩
    exact h.elim (fun h => h rfl) fun h => h (mem_managedKeys he)
  exact Eq.congr_left (if_neg hne)

theorem done_write {e x : String × Option Scalar} {calls : List CallPc}
    (he : e ∈ (resolveLayoutSettings mode).entries)
    (hx : x ∈ (resolveLayoutSettings mode).entries) (h : x = e ∨ l.Done x) :
    Done { l with calls, settings := l.settings.set l.target e.1 (e.2.map Scalar.json) } x := by
  by_cases hkey : x.1 = e.1
  · obtain rfl : x = e := List.inj_on_of_nodup_map (resolveLayoutSettings mode).nodup hx he hkey
    exact if_pos ⟨rfl, rfl⟩
  · have hdone : l.Done x := h.resolve_left fun heq => hkey (congrArg Prod.fst heq)
    exact (if_neg fun h => hkey h.2).trans hdone

theorem Carries.write (happlies : l.applyWorkbenchDefaults = true) (hcalls : l.calls = [c])
    (hi : l.calls[i]? = some c) (hmode : modeOf l.remembered = some mode)
    (hrest : rest ⊆ (resolveLayoutSettings mode).entries)
    (hall : ∀ e ∈ (resolveLayoutSettings mode).entries, e ∈ rest ∨ l.Done e) :
    Carries (l.write i mode true rest) := by
  obtain rfl : i = 0 := by
    have hlt := (List.getElem?_eq_some_iff.mp hi).1
    simpa [hcalls] using hlt
  rcases write_cases l 0 mode true rest with ⟨heq, hdone⟩ | ⟨e, he, left, hleft, hover, heq⟩
  · rw [heq]
    refine ⟨happlies, fun mode' hmode' => Or.inl ⟨by simp [hcalls], ?_⟩⟩
    obtain rfl : mode = mode' := Option.some.inj (hmode.symm.trans hmode')
    exact fun e he => (hall e he).elim (hdone e) id
  · rw [heq, if_pos rfl]
    refine ⟨happlies, fun mode' hmode' => Or.inr ⟨.writing mode left, by simp [hcalls], ?_⟩⟩
    obtain rfl : mode = mode' := Option.some.inj (hmode.symm.trans hmode')
    refine ⟨rfl, List.Subset.trans hleft hrest, fun x hx => ?_⟩
    rcases hall x hx with hmem | hdone
    · rcases hover x hmem with rfl | hmem | hdone
      · exact Or.inr (done_write (hrest he) hx (Or.inl rfl))
      · exact Or.inl hmem
      · exact Or.inr (done_write (hrest he) hx (Or.inr hdone))
    · exact Or.inr (done_write (hrest he) hx (Or.inr hdone))

theorem Carries.writeSettings (happlies : l.applyWorkbenchDefaults = true) (hcalls : l.calls = [c])
    (hi : l.calls[i]? = some c) (hmode : modeOf l.remembered = some mode) :
    Carries (l.writeSettings i mode true) :=
  Carries.write happlies hcalls hi hmode (List.Subset.refl _) fun _ he => Or.inl he

theorem Carries.continue (hinv : Inv l) (h : Carries l) (hi : l.calls[i]? = some c) :
    Carries (l.continue i true c) := by
  have hmem : c ∈ l.calls := List.mem_of_getElem? hi
  cases hmode : modeOf l.remembered with
  | none =>
    -- nothing is remembered, so the call is that of the start and ends here
    obtain ⟨-, hhas, hcalls⟩ := hinv.unasked hmode
    obtain rfl := hcalls c hmem
    rw [LayoutController.continue, if_neg fun h => Bool.false_ne_true (hhas.symm.trans h.1)]
    exact ⟨h.applies, fun mode hmode' => by cases hmode.symm.trans hmode'⟩
  | some mode =>
    obtain ⟨hnil, -⟩ | ⟨c', hcalls, howes⟩ := h.chosen mode hmode
    · rw [hnil] at hmem
      cases hmem
    · obtain rfl : c = c' := by simpa [hcalls] using hmem
      cases c with
      | activating =>
        rw [LayoutController.continue, if_pos ⟨howes, h.applies⟩, hinv.chosen mode hmode]
        exact Carries.writeSettings h.applies hcalls hi hmode
      | remembering m =>
        obtain rfl : m = mode := howes
        obtain rfl : i = 0 := by
          have hlt := (List.getElem?_eq_some_iff.mp hi).1
          simpa [hcalls] using hlt
        refine ⟨h.applies, fun mode' hmode' => Or.inr ⟨.syncing m, ?_, ?_⟩⟩
        · simp [LayoutController.continue, syncContext, hcalls]
        · exact Option.some.inj (hmode.symm.trans hmode')
      | syncing m =>
        obtain rfl : m = mode := howes
        rw [LayoutController.continue, if_pos h.applies]
        exact Carries.writeSettings h.applies hcalls hi hmode
      | writing m rest =>
        obtain ⟨rfl, hrest, hall⟩ := howes
        exact Carries.write h.applies hcalls hi hmode hrest hall

theorem Carries.setMode (h : Carries l) (hcalls : l.calls = []) (mode : LayoutMode) :
    Carries (l.setMode mode) := by
  refine ⟨h.applies, fun mode' hmode' => Or.inr ⟨.remembering mode, ?_, ?_⟩⟩
  · simp [LayoutController.setMode, hcalls]
  · rw [LayoutController.setMode, modeOf_modeName] at hmode'
    exact Option.some.inj hmode'

theorem Carries.activate (happlies : l.applyWorkbenchDefaults = true) : Carries l.activate := by
  refine ⟨happlies, fun mode hmode => Or.inr ⟨.activating, rfl, ?_⟩⟩
  change (modeOf l.remembered).isSome = true
  rw [show modeOf l.remembered = some mode from hmode, Option.isSome_some]

theorem Carries.edit (h : Carries l) {t : Target} {k : String} {v : Option Json}
    (hedit : t ≠ l.target ∨ k ∉ managedKeys) :
    Carries { l with settings := l.settings.set t k v, own := l.own.set t k v } := by
  refine ⟨h.applies, fun mode hmode => ?_⟩
  refine (h.chosen mode hmode).imp (fun ⟨hcalls, happlied⟩ => ⟨hcalls, fun e he => ?_⟩)
    fun ⟨c, hcalls, howes⟩ => ⟨c, hcalls, ?_⟩
  · exact (done_edit hedit he).mpr (happlied e he)
  · cases c with
    | writing m rest =>
      obtain ⟨rfl, hrest, hall⟩ := howes
      exact ⟨rfl, hrest, fun e he => (hall e he).imp_right (done_edit hedit he).mpr⟩
    | _ => exact howes

theorem carries_step :
    Machine.Preserves step Undisturbed fun l => Inv l ∧ Carries l := by
  rintro l a l' ⟨hinv, h⟩ hg hstep
  refine ⟨step_inv hinv hstep, ?_⟩
  cases a with
  | setMode mode =>
    cases hstep
    exact h.setMode hg mode
  | toggle =>
    cases hstep
    exact h.setMode hg _
  | resume i succeeds =>
    obtain rfl : succeeds = true := hg
    obtain ⟨c, hi, rfl⟩ := Option.map_eq_some_iff.mp hstep
    exact h.continue hinv hi
  | reload =>
    cases hstep
    exact Carries.activate h.applies
  | edit t k v =>
    cases hstep
    exact h.edit hg
  | setDefaultMode value =>
    cases hstep
    exact ⟨h.applies, h.chosen⟩
  | setApplyWorkbenchDefaults value =>
    cases hstep
    exact ⟨hg, h.chosen⟩

end Carry

/-- A choice is carried through: also when windows end in the middle of it, the settings of the
remembered mode are in place whenever no call is under way. -/
theorem choice_carried_through {settings : Settings} {remembered : Option String} {folder : Bool}
    {defaultMode : Option String} {as : List LayoutAction} {mode : LayoutMode}
    (hrun : Machine.run step (launch settings remembered folder defaultMode true) as = some l)
    (hguard : Machine.Guarded step Undisturbed
      (launch settings remembered folder defaultMode true) as)
    (hrest : l.calls = []) (hmode : modeOf l.remembered = some mode) :
    l.context = some mode ∧
      ∀ e ∈ (resolveLayoutSettings mode).entries,
        l.settings l.target e.1 = e.2.map Scalar.json := by
  have hstart : Inv (launch settings remembered folder defaultMode true) ∧
      Carries (launch settings remembered folder defaultMode true) :=
    ⟨inv_launch .., Carries.activate rfl⟩
  obtain ⟨hinv, hcarries⟩ := carries_step.run hstart hguard hrun
  constructor
  · rw [← hinv.chosen mode hmode]
    refine hinv.context.resolve_right ?_
    rintro ⟨mode, hmem⟩
    rw [hrest] at hmem
    exact List.not_mem_nil hmem
  · rcases hcarries.chosen mode hmode with ⟨-, happlied⟩ | ⟨c, hcalls, -⟩
    · exact happlied
    · rw [hrest] at hcalls
      cases hcalls

/-- The window ends before a setting of the choice is written. -/
def cutOff : List LayoutAction :=
  [.resume 0 true, .setMode .agent, .resume 0 true, .reload] ++ List.replicate 7 (.resume 0 true)

def carried : LayoutController :=
  (Machine.run step (launch (fun _ _ => none) none true none true) cutOff).get (by decide +kernel)

theorem choice_carried_through_cutOff :
    carried.context = some .agent ∧
      ∀ e ∈ (resolveLayoutSettings .agent).entries,
        carried.settings carried.target e.1 = e.2.map Scalar.json := by
  have hrun : Machine.run step (launch (fun _ _ => none) none true none true) cutOff =
      some carried := (Option.some_get _).symm
  have hguard : Machine.Guarded step Undisturbed
      (launch (fun _ _ => none) none true none true) cutOff := by decide +kernel
  have hmode : modeOf carried.remembered = some .agent := by decide +kernel
  exact choice_carried_through hrun hguard (by decide +kernel) hmode

/-- Without the guard the settings of one mode may stay under the other. -/
theorem overlapping_choices_mix :
    ¬ ∀ (as : List LayoutAction) (l : LayoutController) (mode : LayoutMode),
      Machine.run step (launch (fun _ _ => none) none true none true) as = some l →
        l.calls = [] → modeOf l.remembered = some mode → l.Applied mode := by
  intro h
  have hrun : Machine.run step (launch (fun _ _ => none) none true none true) overlappingChoices =
      some overlapped := (Option.some_get _).symm
  have happlied := h overlappingChoices overlapped .editor hrun (by decide +kernel)
    (by decide +kernel)
  have hdone := happlied ("breadcrumbs.enabled", some (.bool true)) (by decide +kernel)
  have hkept : same (overlapped.settings overlapped.target "breadcrumbs.enabled")
      (some (.bool false)) = true := by decide +kernel
  have hboth := (same_iff.mp hkept).symm.trans hdone
  cases hboth

end LayoutController

end ValyriaApp
