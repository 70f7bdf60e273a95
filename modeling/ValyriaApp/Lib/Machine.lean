import Mathlib.Logic.Function.Basic
import Mathlib.Tactic.TypeStar

/-! # Partial-step machines

A machine is a partial step function on states and actions; the environment's
choices are part of the action. Runs are lists of actions. A guard is a
condition on a state and the action about to be taken, and an invariant that
every guarded step preserves holds in every state a guarded run reaches.
-/

namespace Machine

variable {σ α : Type*} (step : σ → α → Option σ)

/-- Take the actions in order; `none` when one of them is not enabled. -/
def run : σ → List α → Option σ
  | s, [] => some s
  | s, a :: as => (step s a).bind (run · as)

/-- Every action taken along the run meets the guard in the state it is taken in. -/
def Guarded (G : σ → α → Prop) : σ → List α → Prop
  | _, [] => True
  | s, a :: as => G s a ∧ ∀ t ∈ step s a, Guarded G t as

/-- Some action along the run is taken in a state in which it is such an event. -/
def Happens (E : σ → α → Prop) : σ → List α → Prop
  | _, [] => False
  | s, a :: as => E s a ∨ ∃ t ∈ step s a, Happens E t as

variable {step} {G : σ → α → Prop} {s t : σ} {a : α} {as bs : List α}

@[simp] theorem run_nil : run step s [] = some s := rfl

theorem run_cons : run step s (a :: as) = (step s a).bind (run step · as) := rfl

theorem run_cons_eq_some :
    run step s (a :: as) = some t ↔ ∃ u, step s a = some u ∧ run step u as = some t :=
  Option.bind_eq_some_iff

theorem run_append : run step s (as ++ bs) = (run step s as).bind (run step · bs) := by
  induction as generalizing s with
  | nil => rfl
  | cons a as ih =>
    rw [List.cons_append, run_cons, run_cons]
    cases step s a with
    | none => rfl
    | some u => exact ih

theorem run_concat_eq_some :
    run step s (as ++ [a]) = some t ↔ ∃ u, run step s as = some u ∧ step u a = some t := by
  rw [run_append, Option.bind_eq_some_iff]
  simp [run_cons]

@[simp] theorem guarded_nil : Guarded step G s [] := trivial

theorem Guarded.cons (hg : G s a) (hstep : step s a = some t) (h : Guarded step G t as) :
    Guarded step G s (a :: as) := by
  refine ⟨hg, fun u hu => ?_⟩
  obtain rfl : t = u := Option.some.inj (hstep.symm.trans hu)
  exact h

theorem guarded_append :
    Guarded step G s (as ++ bs) ↔
      Guarded step G s as ∧ ∀ t ∈ run step s as, Guarded step G t bs := by
  induction as generalizing s with
  | nil => simp [run]
  | cons a as ih =>
    simp only [List.cons_append, Guarded, ih, run_cons, Option.mem_def, Option.bind_eq_some_iff]
    constructor
    · rintro ⟨hg, h⟩
      refine ⟨⟨hg, fun u hu => (h u hu).1⟩, ?_⟩
      rintro t ⟨u, hu, ht⟩
      exact (h u hu).2 t ht
    · rintro ⟨⟨hg, h⟩, ht⟩
      exact ⟨hg, fun u hu => ⟨h u hu, fun t hr => ht t ⟨u, hu, hr⟩⟩⟩

instance decidableGuarded [∀ s a, Decidable (G s a)] :
    ∀ (as : List α) (s : σ), Decidable (Guarded step G s as)
  | [], _ => isTrue trivial
  | a :: as, s =>
    have : Decidable (∀ t ∈ step s a, Guarded step G t as) :=
      match h : step s a with
      | none => isTrue (by simp)
      | some t =>
        have := decidableGuarded as t
        decidable_of_iff (Guarded step G t as) (by simp)
    inferInstanceAs (Decidable (G s a ∧ _))

/-- Guarded steps keep `I`. -/
def Preserves (step : σ → α → Option σ) (G : σ → α → Prop) (I : σ → Prop) : Prop :=
  ∀ ⦃s a t⦄, I s → G s a → step s a = some t → I t

theorem Preserves.run {I : σ → Prop} (h : Preserves step G I) (hI : I s)
    (hg : Guarded step G s as) (hr : Machine.run step s as = some t) : I t := by
  induction as generalizing s with
  | nil => exact Option.some.inj hr ▸ hI
  | cons a as ih =>
    obtain ⟨u, hu, hr⟩ := run_cons_eq_some.mp hr
    exact ih (h hI hg.1 hu) (hg.2 u hu) hr

theorem Guarded.mono {H : σ → α → Prop} (hGH : ∀ s a, G s a → H s a) (h : Guarded step G s as) :
    Guarded step H s as := by
  induction as generalizing s with
  | nil => trivial
  | cons a as ih => exact ⟨hGH s a h.1, fun t ht => ih (h.2 t ht)⟩

theorem guarded_of_forall (h : ∀ a ∈ as, ∀ s, G s a) : Guarded step G s as := by
  induction as generalizing s with
  | nil => trivial
  | cons a as ih =>
    exact ⟨h a List.mem_cons_self s, fun t _ => ih fun b hb => h b (List.mem_cons_of_mem _ hb)⟩

/-- A machine that contains another one is guarded when the steps of the other one are. -/
theorem Guarded.lift {τ β : Type*} {step' : τ → β → Option τ} {G' : τ → β → Prop} (part : τ → σ)
    (pick : β → Option α)
    (hstep : ∀ ⦃x b y⦄, step' x b = some y →
      (pick b = none ∧ part y = part x) ∨ ∃ a, pick b = some a ∧ step (part x) a = some (part y))
    (hother : ∀ x b, pick b = none → G' x b)
    (hpart : ∀ x b a, pick b = some a → G (part x) a → G' x b) {x : τ} {bs : List β}
    (h : Guarded step G (part x) (bs.filterMap pick)) : Guarded step' G' x bs := by
  induction bs generalizing x with
  | nil => trivial
  | cons b bs ih =>
    cases hpick : pick b with
    | none =>
      rw [List.filterMap_cons_none hpick] at h
      refine ⟨hother x b hpick, fun y hy => ih ?_⟩
      rcases hstep hy with ⟨-, heq⟩ | ⟨a, hsome, -⟩
      · rwa [heq]
      · cases hpick.symm.trans hsome
    | some a =>
      rw [List.filterMap_cons_some hpick] at h
      refine ⟨hpart x b a hpick h.1, fun y hy => ih ?_⟩
      rcases hstep hy with ⟨hnone, -⟩ | ⟨a', hsome, hnext⟩
      · cases hpick.symm.trans hnone
      · obtain rfl : a = a' := Option.some.inj (hpick.symm.trans hsome)
        exact h.2 _ hnext

/-- An invariant of every step holds in every state a run reaches. -/
theorem run_invariant {I : σ → Prop} (h : ∀ ⦃s a t⦄, I s → step s a = some t → I t) (hI : I s)
    (hr : run step s as = some t) : I t :=
  Preserves.run (G := fun _ _ => True) (fun _ _ _ hs _ ht => h hs ht) hI
    (guarded_of_forall fun _ _ _ => trivial) hr

instance decidableHappens {E : σ → α → Prop} [∀ s a, Decidable (E s a)] :
    ∀ (as : List α) (s : σ), Decidable (Happens step E s as)
  | [], _ => isFalse id
  | a :: as, s =>
    have : Decidable (∃ t ∈ step s a, Happens step E t as) :=
      match h : step s a with
      | none => isFalse (by simp)
      | some t =>
        have := decidableHappens (E := E) as t
        decidable_of_iff (Happens step E t as) (by simp)
    inferInstanceAs (Decidable (E s a ∨ _))

/-- What an event brings about and every later step keeps holds at the end. -/
theorem Happens.run {E : σ → α → Prop} {P : σ → Prop} (h : Happens step E s as)
    (hevent : ∀ ⦃s a t⦄, E s a → step s a = some t → P t)
    (hkeep : ∀ ⦃s a t⦄, P s → step s a = some t → P t) (hr : run step s as = some t) : P t := by
  induction as generalizing s with
  | nil => exact h.elim
  | cons a as ih =>
    obtain ⟨u, hu, hr⟩ := run_cons_eq_some.mp hr
    rcases h with he | ⟨u', hu', h⟩
    · exact run_invariant hkeep (hevent he hu) hr
    · obtain rfl : u = u' := Option.some.inj (hu.symm.trans hu')
      exact ih h hr

/-- What holds at the end and did not hold at the start has been brought about by an event. -/
theorem happens_of_run {E : σ → α → Prop} {I P : σ → Prop}
    (hI : ∀ ⦃s a t⦄, I s → step s a = some t → I t)
    (hcases : ∀ ⦃s a t⦄, I s → step s a = some t → P t → P s ∨ E s a) (hs : I s) (hnot : ¬ P s)
    (hr : run step s as = some t) (hP : P t) : Happens step E s as := by
  induction as generalizing s with
  | nil => exact absurd (Option.some.inj hr ▸ hP) hnot
  | cons a as ih =>
    obtain ⟨u, hu, hr⟩ := run_cons_eq_some.mp hr
    by_cases hPu : P u
    · exact .inl ((hcases hs hu hPu).resolve_left hnot)
    · exact .inr ⟨u, hu, ih (hI hs hu) hPu hr⟩

/-- A step that follows a change does nothing without one. -/
theorem elim_cases {β : Type*} {changed : Option β} {f : β → σ}
    (h : some (changed.elim s f) = some t) :
    (changed = none ∧ t = s) ∨ ∃ b, changed = some b ∧ t = f b := by
  cases changed with
  | none => exact Or.inl ⟨rfl, (Option.some.inj h).symm⟩
  | some b => exact Or.inr ⟨b, rfl, (Option.some.inj h).symm⟩

/-- Where a step of a good state leads to a good state exactly when it meets the guard, a run stays
good exactly when it is guarded. -/
theorem guarded_iff {I P : σ → Prop} (hI : ∀ ⦃s a t⦄, I s → step s a = some t → I t)
    (hnone : ∀ ⦃s a⦄, step s a = none → G s a)
    (hP : ∀ ⦃s a t⦄, I s → P s → step s a = some t → (P t ↔ G s a)) (hs : I s) (hPs : P s) :
    Guarded step G s as ↔ ∀ bs cs, as = bs ++ cs → ∀ t, run step s bs = some t → P t := by
  induction as generalizing s with
  | nil =>
    constructor
    · rintro - bs cs h t ht
      obtain ⟨rfl, rfl⟩ := List.append_eq_nil_iff.mp h.symm
      exact Option.some.inj ht ▸ hPs
    · intro _
      trivial
  | cons a as ih =>
    constructor
    · rintro ⟨hg, hguard⟩ bs cs h t ht
      cases bs with
      | nil => exact Option.some.inj ht ▸ hPs
      | cons b bs =>
        obtain ⟨rfl, htail⟩ := List.cons.inj h
        obtain ⟨u, hu, ht⟩ := run_cons_eq_some.mp ht
        exact (ih (hI hs hu) ((hP hs hPs hu).mpr hg)).mp (hguard u hu) bs cs htail t ht
    · intro h
      cases hstep : step s a with
      | none => exact ⟨hnone hstep, fun u hu => by rw [hstep] at hu; cases hu⟩
      | some u =>
        have hPu : P u := h [a] as rfl u (run_cons_eq_some.mpr ⟨u, hstep, rfl⟩)
        refine Guarded.cons ((hP hs hPs hstep).mp hPu) hstep ((ih (hI hs hstep) hPu).mpr ?_)
        rintro bs cs rfl t ht
        exact h (a :: bs) cs rfl t (run_cons_eq_some.mpr ⟨u, hstep, ht⟩)

end Machine
