import Mathlib.Data.Finset.Insert
import Mathlib.Data.List.Sort
import ValyriaApp.Extension.Views

/-! # The rows of the model manager

The catalog as `model/list` returns it, joined with the recommendation, the
installs and servers of the event stream and the requests in flight. The rows are
sorted by a comparison that may look at the language of the user last.
-/

namespace ValyriaApp

namespace Num

/-- The operator `/`, without the sign of a zero. -/
def div : Num → Num → Num
  | fin a, fin b =>
    if b = 0 then if a = 0 then nan else inf (decide (a < 0)) else ofRat (a / b)
  | fin _, inf _ => 0
  | inf n, fin b => inf (n != decide (b < 0))
  | _, _ => nan

/-- The operator `-`, of which only the sign is read; rounding keeps it. -/
def sub : Num → Num → Num
  | fin a, fin b => fin (a - b)
  | fin _, inf n => inf (!n)
  | inf n, fin _ => inf n
  | inf n, inf m => if n = m then nan else inf n
  | _, _ => nan

/-- `Math.min` of two numbers. -/
def min (a b : Num) : Num :=
  if a = nan ∨ b = nan then nan else if b < a then b else a

end Num

/-! ## What is joined -/

/-- `modelInstalls` and `engineInstalls`: most recently touched first. -/
def installsByRecency (installs : Record ModelInstallProjection) : List ModelInstallProjection :=
  (objectValues installs).insertionSort fun a b => ¬ a.lastSeq < b.lastSeq

def modelInstalls (s : StoreState) : List ModelInstallProjection :=
  installsByRecency s.modelInstalls

def engineInstalls (s : StoreState) : List ModelInstallProjection :=
  installsByRecency s.engineInstalls

def modelServers (s : StoreState) : List ModelServerProjection :=
  (objectValues s.modelServers).insertionSort fun a b => ¬ a.lastSeq < b.lastSeq

/-- A model as the manager sees it. -/
structure CatalogModel extends ModelSummary where
  quantization : String
  parametersB : Option Num
  contextLength : Option Num
  sizeBytes : Num
  license : String

/-- A recommendation as the manager sees it. -/
structure Recommendation extends RecommendResult where
  recommended : Json

inductive FitKind where
  | comfortable | tight | willNotFit
  deriving DecidableEq

def FitKind.ofName : String → Option FitKind
  | "comfortable" => some .comfortable
  | "tight" => some .tight
  | "will_not_fit" => some .willNotFit
  | _ => none

/-- What JSON text can spell: it has no `NaN`. -/
abbrev JsonNumber := { n : Num // n ≠ .nan }

def jsonNumber? : Json → Option JsonNumber
  | .num n => if h : n ≠ .nan then some ⟨n, h⟩ else none
  | _ => none

/-- `String.prototype.localeCompare`, in the language of the user: a consistent comparison. -/
structure Locale where
  compare : String → String → Ordering
  consistent : Std.TransCmp compare

/-! ## The rows -/

structure ModelInstallRow where
  id : String
  phase : Option String
  downloadedBytes : Num
  totalBytes : Num
  status : InstallStatus
  code : Option String
  message : Option String
  fraction : Option Num

structure ModelServerRow where
  state : ServerState
  port : Option Num
  code : Option String
  message : Option String

structure ModelRow where
  id : String
  displayName : String
  family : String
  quantization : String
  parametersB : Num
  contextLength : Num
  sizeBytes : Num
  installed : Bool
  license : String
  active : Bool
  chatCapable : Bool
  fit : Option FitKind
  fitDetail : Json
  suitability : Option JsonNumber
  recommended : Bool
  install : Option ModelInstallRow
  servers : List ModelServerRow
  actionPending : Bool

structure ModelsInput where
  models : Option (List CatalogModel)
  recommend : Option Recommendation
  installs : List ModelInstallProjection
  servers : List ModelServerProjection
  engineInstall : Option ModelInstallProjection
  manageCapable : Bool
  hardwareCapable : Bool
  inferenceCapable : Bool
  pendingActionIds : Finset String

structure ModelsModel where
  manageCapable : Bool
  hardwareCapable : Bool
  inferenceCapable : Bool
  hasList : Bool
  recommendedId : Option String
  models : List ModelRow
  engineInstall : Option ModelInstallRow

def installRow (m : ModelInstallProjection) : ModelInstallRow where
  id := m.id
  phase := m.phase
  downloadedBytes := m.downloadedBytes
  totalBytes := m.totalBytes
  status := m.status
  code := m.code
  message := m.message
  fraction :=
    if m.status = .completed then some 1
    else if 0 < m.totalBytes then some (Num.max 0 (Num.min 1 (m.downloadedBytes.div m.totalBytes)))
    else none

namespace ModelsInput

/-- A recommendation for another role counts as none. -/
def rec? (input : ModelsInput) : Option Recommendation :=
  input.recommend.filter (·.role = defaultModelRole)

/-- What the recommendation says of a model; the last of several candidates counts. -/
def candidate (input : ModelsInput) (id : String) : Option Json :=
  (((input.rec?.map (·.candidates)).getD []).filter fun c =>
    strField (some c) "id" = some id).getLast?

def recommendedId (input : ModelsInput) : Option String :=
  input.rec?.bind fun r => strField (some r.recommended) "id"

/-- The install of a model. A completed one does not contradict a list that says the model is not
installed. -/
def install (input : ModelsInput) (m : CatalogModel) : Option ModelInstallProjection :=
  ((input.installs.filter (·.id = m.id)).getLast?).filter fun i =>
    ¬ (i.status = .completed ∧ m.installed = false)

def row (input : ModelsInput) (m : CatalogModel) : ModelRow :=
  let c := input.candidate m.id
  { id := m.id
    displayName := m.displayName.getD m.id
    family := m.family
    quantization := m.quantization
    parametersB := m.parametersB.getD 0
    contextLength := m.contextLength.getD 0
    sizeBytes := m.sizeBytes
    installed := m.installed
    license := m.license
    active := decide (defaultModelRole ∈ m.activeRoles.getD [])
    chatCapable := isChatCapable m.family
    fit := (strField c "fit_kind").bind FitKind.ofName
    fitDetail := nullish .null (c.bind (·.get? "fit_detail"))
    suitability := (c.bind (·.get? "suitability")).bind jsonNumber?
    recommended := some m.id = input.recommendedId
    install := (input.install m).map installRow
    servers := (input.servers.filter fun s =>
      s.modelId = m.id ∧ s.role = defaultModelRole).map fun s =>
        { state := s.state, port := s.port, code := s.code, message := s.message }
    actionPending := decide (m.id ∈ input.pendingActionIds) }

end ModelsInput

namespace ModelRow

/-- Recommended first, then those that fit, then the unknown, then those that do not. -/
def rank (r : ModelRow) : ℕ :=
  if r.recommended then 0
  else match r.fit with
    | some .comfortable => 1
    | some .tight => 2
    | some .willNotFit => 4
    | none => 3

/-- The suitability that the rows are compared by. -/
def score (r : ModelRow) : Num := (r.suitability.map (·.val)).getD (.fin (-1))

/-- The comparison of the sort; a difference that is `NaN` counts as none. -/
def compareRows (locale : Locale) (a b : ModelRow) : Ordering :=
  if a.rank ≠ b.rank then if a.rank < b.rank then .lt else .gt
  else
    let s := b.score.sub a.score
    if s.strictEq 0 then locale.compare a.displayName b.displayName
    else if s < 0 then .lt
    else if 0 < s then .gt
    else .eq

end ModelRow

/-! ## The order of the rows -/

namespace Num

variable {a b : Num}

theorem lt_trichotomy (ha : a ≠ nan) (hb : b ≠ nan) : a < b ∨ a = b ∨ b < a := by
  simp only [lt_def]
  cases a with
  | nan => exact absurd rfl ha
  | inf n =>
    cases b with
    | nan => exact absurd rfl hb
    | inf m => cases n <;> cases m <;> simp [blt]
    | fin q => cases n <;> simp [blt]
  | fin p =>
    cases b with
    | nan => exact absurd rfl hb
    | inf m => cases m <;> simp [blt]
    | fin q => simpa [blt] using lt_trichotomy p q

/-- The sign of a difference tells the order, and two equal infinities have none. -/
theorem sign_sub (ha : a ≠ nan) (hb : b ≠ nan) :
    ((b.sub a).strictEq 0 = true ↔ a = b ∧ a.isFinite = true) ∧
      (b.sub a < 0 ↔ b < a) ∧ (0 < b.sub a ↔ a < b) := by
  simp only [lt_def, strictEq_eq_true, show (0 : Num) = fin 0 from rfl]
  cases a with
  | nan => exact absurd rfl ha
  | inf n =>
    cases b with
    | nan => exact absurd rfl hb
    | inf m => cases n <;> cases m <;> simp [sub, blt, isFinite]
    | fin q => cases n <;> simp [sub, blt, isFinite]
  | fin p =>
    cases b with
    | nan => exact absurd rfl hb
    | inf m => cases m <;> simp [sub, blt, isFinite]
    | fin q => simp [sub, blt, isFinite, sub_eq_zero, eq_comm]

end Num

namespace ModelRow

variable {locale : Locale} {a b c : ModelRow}

theorem score_ne_nan (r : ModelRow) : r.score ≠ .nan := by
  rw [score]
  cases r.suitability with
  | none => simp
  | some s => exact s.property

/-- The rows compare by rank, then by suitability, then by name. -/
theorem compareRows_ne_gt_iff :
    compareRows locale a b ≠ .gt ↔ a.rank < b.rank ∨ a.rank = b.rank ∧
      (b.score < a.score ∨ a.score = b.score ∧
        (a.score.isFinite = true → (locale.compare a.displayName b.displayName).isLE = true)) := by
  obtain ⟨hzero, hneg, hpos⟩ := Num.sign_sub a.score_ne_nan b.score_ne_nan
  rw [compareRows]
  by_cases hrank : a.rank = b.rank
  · simp only [hrank, ne_eq, not_true_eq_false, if_false, Nat.lt_irrefl, false_or, true_and, hzero,
      hneg, hpos]
    rcases Num.lt_trichotomy a.score_ne_nan b.score_ne_nan with hlt | heq | hlt
    · have hne : a.score ≠ b.score := fun h => Num.lt_irrefl _ (h ▸ hlt)
      simp [hne, hlt, Num.lt_asymm hlt]
    · rw [heq]
      by_cases hfinite : b.score.isFinite = true
      · simp only [hfinite, true_and, if_true, Num.lt_irrefl, false_or, forall_const]
        cases locale.compare a.displayName b.displayName <;> simp
      · simp [hfinite, Num.lt_irrefl]
    · have hne : a.score ≠ b.score := fun h => Num.lt_irrefl _ (h ▸ hlt)
      simp [hne, hlt]
  · by_cases hlt : a.rank < b.rank
    · simp [hrank, hlt]
    · simp [hrank, hlt]

theorem compareRows_total (locale : Locale) (a b : ModelRow) :
    compareRows locale a b ≠ .gt ∨ compareRows locale b a ≠ .gt := by
  have := locale.consistent
  simp only [compareRows_ne_gt_iff]
  rcases Nat.lt_trichotomy a.rank b.rank with hlt | heq | hlt
  · exact Or.inl (Or.inl hlt)
  · rcases Num.lt_trichotomy a.score_ne_nan b.score_ne_nan with hscore | hscore | hscore
    · exact Or.inr (Or.inr ⟨heq.symm, Or.inl hscore⟩)
    · rcases hname : locale.compare a.displayName b.displayName with _ | _ | _
      · exact Or.inl (Or.inr ⟨heq, Or.inr ⟨hscore, fun _ => rfl⟩⟩)
      · exact Or.inl (Or.inr ⟨heq, Or.inr ⟨hscore, fun _ => rfl⟩⟩)
      · refine Or.inr (Or.inr ⟨heq.symm, Or.inr ⟨hscore.symm, fun _ => ?_⟩⟩)
        rw [Std.OrientedCmp.gt_iff_lt.mp hname]
        rfl
    · exact Or.inl (Or.inr ⟨heq, Or.inl hscore⟩)
  · exact Or.inr (Or.inl hlt)

theorem compareRows_trans (hab : compareRows locale a b ≠ .gt)
    (hbc : compareRows locale b c ≠ .gt) : compareRows locale a c ≠ .gt := by
  have := locale.consistent
  rw [compareRows_ne_gt_iff] at hab hbc ⊢
  rcases hab with hab | ⟨hrank, hab⟩
  · rcases hbc with hbc | ⟨hrank, -⟩
    · exact Or.inl (hab.trans hbc)
    · exact Or.inl (hrank ▸ hab)
  · rcases hbc with hbc | ⟨hrank', hbc⟩
    · exact Or.inl (hrank ▸ hbc)
    · refine Or.inr ⟨hrank.trans hrank', ?_⟩
      rcases hab with hab | ⟨hscore, hab⟩
      · rcases hbc with hbc | ⟨hscore, -⟩
        · exact Or.inl (Num.lt_trans hbc hab)
        · exact Or.inl (hscore ▸ hab)
      · rcases hbc with hbc | ⟨hscore', hbc⟩
        · exact Or.inl (hscore ▸ hbc)
        · refine Or.inr ⟨hscore.trans hscore', fun hfinite => ?_⟩
          exact Std.TransCmp.isLE_trans (hab hfinite) (hbc (hscore ▸ hfinite))

instance (locale : Locale) : Std.Total fun a b => compareRows locale a b ≠ .gt :=
  ⟨compareRows_total locale⟩

instance (locale : Locale) : IsTrans ModelRow fun a b => compareRows locale a b ≠ .gt :=
  ⟨fun _ _ _ => compareRows_trans⟩

end ModelRow

open ModelRow

def modelsModel (locale : Locale) (input : ModelsInput) : ModelsModel where
  manageCapable := input.manageCapable
  hardwareCapable := input.hardwareCapable
  inferenceCapable := input.inferenceCapable
  hasList := input.models.isSome
  recommendedId := input.recommendedId
  models := ((input.models.getD []).map input.row).insertionSort fun a b =>
    compareRows locale a b ≠ .gt
  engineInstall := input.engineInstall.map installRow

section Rows

variable {locale : Locale} {input : ModelsInput}

theorem rows_perm :
    (modelsModel locale input).models.Perm ((input.models.getD []).map input.row) :=
  List.perm_insertionSort ..

theorem rows_sorted :
    (modelsModel locale input).models.Pairwise fun a b => compareRows locale a b ≠ .gt :=
  List.pairwise_insertionSort ..

/-- A row says what the list says of its model. -/
theorem exists_of_mem_rows {r : ModelRow} (h : r ∈ (modelsModel locale input).models) :
    ∃ m ∈ input.models.getD [], r = input.row m := by
  obtain ⟨m, hm, rfl⟩ := List.mem_map.mp (rows_perm.mem_iff.mp h)
  exact ⟨m, hm, rfl⟩

theorem installed_of_completed {m : CatalogModel} {i : ModelInstallRow}
    (h : (input.row m).install = some i) (hcompleted : i.status = .completed) :
    m.installed = true := by
  obtain ⟨p, hp, rfl⟩ := Option.map_eq_some_iff.mp h
  obtain ⟨-, hkept⟩ := Option.filter_eq_some_iff.mp hp
  by_contra hinstalled
  simp only [decide_eq_true_eq] at hkept
  exact hkept ⟨hcompleted, Bool.not_eq_true _ ▸ hinstalled⟩

end Rows

end ValyriaApp
