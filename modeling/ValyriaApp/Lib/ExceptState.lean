import Mathlib.Data.List.Basic

/-! # Programs with a state that outlives their errors

A program runs to a value or an error, and to a state in either case. A
precondition that a program breaks off at is found by the first of its checks
that fails; what a program adds to a log is found step by step.
-/

namespace ExceptState

variable {ε σ α β γ : Type} {m : ExceptT ε (StateM σ) α} {k : α → ExceptT ε (StateM σ) β}
  {s s' : σ}

/-- How a program ends, and the state it leaves. -/
def exec (m : ExceptT ε (StateM σ) α) (s : σ) : Except ε α × σ := m.run.run s

@[simp] theorem exec_pure (a : α) : exec (pure a : ExceptT ε (StateM σ) α) s = (.ok a, s) := rfl

@[simp] theorem exec_throw (e : ε) :
    exec (throw e : ExceptT ε (StateM σ) α) s = (.error e, s) := rfl

@[simp] theorem exec_get : exec (get : ExceptT ε (StateM σ) σ) s = (.ok s, s) := rfl

@[simp] theorem exec_modify (f : σ → σ) :
    exec (modify f : ExceptT ε (StateM σ) PUnit) s = (.ok ⟨⟩, f s) := rfl

theorem exec_bind : exec (m >>= k) s =
    match exec m s with
    | (.ok a, s') => exec (k a) s'
    | (.error e, s') => (.error e, s') := by
  change StateT.run (m.run >>= ExceptT.bindCont k) s = _
  rw [StateT.run_bind, exec]
  rcases m.run.run s with ⟨r, s'⟩
  cases r with
  | ok a => rfl
  | error e => rfl

theorem exec_bind_of_ok {a : α} (h : exec m s = (.ok a, s')) :
    exec (m >>= k) s = exec (k a) s' := by
  rw [exec_bind, h]

theorem exec_bind_of_error {e : ε} (h : exec m s = (.error e, s')) :
    exec (m >>= k) s = (.error e, s') := by
  rw [exec_bind, h]

theorem exec_bind_eq_ok {b : β} {t : σ} : exec (m >>= k) s = (.ok b, t) ↔
    ∃ a s', exec m s = (.ok a, s') ∧ exec (k a) s' = (.ok b, t) := by
  rw [exec_bind]
  rcases exec m s with ⟨r, s'⟩
  cases r with
  | ok a =>
    constructor
    · intro h
      exact ⟨a, s', rfl, h⟩
    · rintro ⟨a', t', heq, h⟩
      cases heq
      exact h
  | error e =>
    constructor
    · intro h
      cases h
    · rintro ⟨a, t', heq, -⟩
      cases heq

/-! ## What a program adds to a log -/

section Log

variable {ι : Type} {log : σ → List ι} {P : ι → Prop}

/-- From `s` the program only adds entries to the log, and only such that meet `P`. -/
def Adds (log : σ → List ι) (P : ι → Prop) (m : ExceptT ε (StateM σ) α) (s : σ) : Prop :=
  ∃ new, log (exec m s).2 = log s ++ new ∧ ∀ e ∈ new, P e

theorem Adds.of_same (h : log (exec m s).2 = log s) : Adds log P m s :=
  ⟨[], by rw [h, List.append_nil], List.forall_mem_nil _⟩

/-- What a program adds is what its parts add one after the other. -/
theorem Adds.bind (hm : Adds log P m s)
    (hk : ∀ a s', exec m s = (.ok a, s') → Adds log P (k a) s') : Adds log P (m >>= k) s := by
  obtain ⟨new, hnew, hP⟩ := hm
  rcases hrun : exec m s with ⟨r, s'⟩
  rw [hrun] at hnew
  cases r with
  | error e =>
    rw [Adds, exec_bind_of_error hrun]
    exact ⟨new, hnew, hP⟩
  | ok a =>
    obtain ⟨new', hnew', hP'⟩ := hk a s' hrun
    rw [Adds, exec_bind_of_ok hrun]
    refine ⟨new ++ new', ?_, List.forall_mem_append.mpr ⟨hP, hP'⟩⟩
    rw [hnew', hnew, List.append_assoc]

end Log

end ExceptState
