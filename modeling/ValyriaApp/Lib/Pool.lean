import Mathlib.Data.List.Perm.Basic

/-! # Pools of processes

A pool lists the states of its processes, and a step of process `i` replaces the
state at position `i`. What holds of some process after the step is what holds
of the new state or of one of the others.
-/

namespace Pool

variable {α : Type*} {l : List α} {i j : ℕ} {x x' y : α} {P : α → Prop}

/-- Process `i` is there and satisfies `P`. -/
def At (l : List α) (i : ℕ) (P : α → Prop) : Prop := ∃ x, l[i]? = some x ∧ P x

/-- Some process other than `i` satisfies `P`. -/
def Others (l : List α) (i : ℕ) (P : α → Prop) : Prop := ∃ j, j ≠ i ∧ At l j P

theorem exists_mem_iff (h : l[i]? = some x) : (∃ y ∈ l, P y) ↔ P x ∨ Others l i P := by
  constructor
  · rintro ⟨y, hy, hp⟩
    obtain ⟨j, hj⟩ := List.mem_iff_getElem?.mp hy
    by_cases hji : j = i
    · subst hji
      rw [h] at hj
      exact Or.inl (Option.some.inj hj ▸ hp)
    · exact Or.inr ⟨j, hji, y, hj, hp⟩
  · rintro (hp | ⟨j, -, y, hj, hp⟩)
    · exact ⟨x, List.mem_of_getElem? h, hp⟩
    · exact ⟨y, List.mem_of_getElem? hj, hp⟩

theorem getElem?_set_self (h : l[i]? = some x) : (l.set i x')[i]? = some x' := by
  obtain ⟨hi, -⟩ := List.getElem?_eq_some_iff.mp h
  rw [List.getElem?_set_self hi]

theorem at_set_self (h : l[i]? = some x) : At (l.set i x') i P ↔ P x' := by
  constructor
  · rintro ⟨y, hy, hp⟩
    rw [getElem?_set_self h] at hy
    exact Option.some.inj hy ▸ hp
  · intro hp
    exact ⟨x', getElem?_set_self h, hp⟩

theorem at_set_of_ne (hji : j ≠ i) : At (l.set i x') j P ↔ At l j P := by
  rw [At, List.getElem?_set_ne (Ne.symm hji), At]

theorem others_set : Others (l.set i x') i P ↔ Others l i P := by
  constructor
  · rintro ⟨j, hji, hj⟩
    exact ⟨j, hji, (at_set_of_ne hji).mp hj⟩
  · rintro ⟨j, hji, hj⟩
    exact ⟨j, hji, (at_set_of_ne hji).mpr hj⟩

theorem at_of_at_set (h : l[i]? = some x) (hp : P x' → P x) (hj : At (l.set i x') j P) :
    At l j P := by
  by_cases hji : j = i
  · subst hji
    exact ⟨x, h, hp ((at_set_self h).mp hj)⟩
  · exact (at_set_of_ne hji).mp hj

/-- A process of a grown pool is an old one or the new one. -/
theorem getElem?_concat_cases (h : (l ++ [x])[j]? = some y) :
    l[j]? = some y ∨ j = l.length ∧ y = x := by
  rcases Nat.lt_trichotomy j l.length with hlt | rfl | hgt
  · exact Or.inl (by rwa [List.getElem?_append_left hlt] at h)
  · rw [List.getElem?_concat_length] at h
    exact Or.inr ⟨rfl, (Option.some.inj h).symm⟩
  · rw [List.getElem?_eq_none (by rw [List.length_append]; exact hgt)] at h
    cases h

theorem at_of_at_append (hp : ¬ P x) (hj : At (l ++ [x]) j P) : At l j P := by
  obtain ⟨y, hy, hpy⟩ := hj
  rcases getElem?_concat_cases hy with hy | ⟨-, rfl⟩
  · exact ⟨y, hy, hpy⟩
  · exact absurd hpy hp

theorem exists_mem_set_iff (h : l[i]? = some x) :
    (∃ y ∈ l.set i x', P y) ↔ P x' ∨ Others l i P := by
  rw [exists_mem_iff (getElem?_set_self h), others_set]

/-- A step that does not change whether `P` holds of the process changes nothing for the pool. -/
theorem exists_mem_set_of_iff (h : l[i]? = some x) (hp : P x' ↔ P x) :
    (∃ y ∈ l.set i x', P y) ↔ ∃ y ∈ l, P y := by
  rw [exists_mem_set_iff h, exists_mem_iff h, hp]

theorem forall_mem_set (hall : ∀ y ∈ l, P y) (hx : P x') : ∀ y ∈ l.set i x', P y := by
  intro y hy
  rcases List.mem_or_eq_of_mem_set hy with hy | rfl
  · exact hall y hy
  · exact hx

theorem mem_set_of_ne (h : l[i]? = some x) (hy : y ∈ l) (hne : y ≠ x) : y ∈ l.set i x' := by
  obtain ⟨j, hj⟩ := List.mem_iff_getElem?.mp hy
  have hij : i ≠ j := by
    rintro rfl
    exact hne (Option.some.inj (hj.symm.trans h))
  exact List.mem_iff_getElem?.mpr ⟨j, by rw [List.getElem?_set_ne hij, hj]⟩

theorem mem_eraseIdx_of_ne (h : l[i]? = some x) (hy : y ∈ l) (hne : y ≠ x) :
    y ∈ l.eraseIdx i := by
  obtain ⟨j, hj⟩ := List.mem_iff_getElem?.mp hy
  refine List.mem_eraseIdx_iff_getElem?.mpr ⟨j, ?_, hj⟩
  rintro rfl
  exact hne (Option.some.inj (hj.symm.trans h))

theorem perm_eraseIdx (h : l[i]? = some x) : l.Perm (x :: l.eraseIdx i) := by
  obtain ⟨hi, rfl⟩ := List.getElem?_eq_some_iff.mp h
  exact (List.getElem_cons_eraseIdx_perm hi).symm

theorem perm_set (h : l[i]? = some x) : (l.set i x').Perm (x' :: l.eraseIdx i) :=
  List.set_perm_cons_eraseIdx (List.getElem?_eq_some_iff.mp h).1 x'

end Pool
