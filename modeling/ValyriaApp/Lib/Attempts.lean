import Mathlib.Data.List.Forall2

/-! # Passes that may fail

A pass over a list that fails at the first element it cannot handle succeeds
exactly when it can handle every element, and its results then match the
elements one by one.
-/

namespace Attempts

variable {α β : Type*}

theorem mapM_eq_some {f : α → Option β} {xs : List α} {ys : List β} :
    xs.mapM f = some ys ↔ List.Forall₂ (fun x y => f x = some y) xs ys := by
  induction xs generalizing ys with
  | nil =>
    constructor
    · intro h
      obtain rfl : [] = ys := Option.some.inj h
      exact .nil
    · rintro ⟨⟩
      rfl
  | cons x xs ih =>
    simp only [List.mapM_cons, bind, Option.bind_eq_some_iff, pure, Option.some.injEq]
    constructor
    · rintro ⟨y, hy, zs, hzs, rfl⟩
      exact .cons hy (ih.mp hzs)
    · rintro (_ | ⟨hy, hrest⟩)
      exact ⟨_, hy, _, ih.mpr hrest, rfl⟩

theorem mapM_isSome {f : α → Option β} {xs : List α} :
    (xs.mapM f).isSome = true ↔ ∀ x ∈ xs, (f x).isSome = true := by
  induction xs with
  | nil => simp
  | cons x xs ih =>
    rw [List.forall_mem_cons, ← ih, List.mapM_cons]
    cases f x with
    | none => simp
    | some y => cases xs.mapM f <;> simp

/-- A fold whose steps fail on account of the element alone. -/
theorem foldlM_isSome {f : β → α → Option β} {ok : α → Prop}
    (hf : ∀ b x, (f b x).isSome = true ↔ ok x) {xs : List α} (b : β) :
    (xs.foldlM f b).isSome = true ↔ ∀ x ∈ xs, ok x := by
  induction xs generalizing b with
  | nil => simp
  | cons x xs ih =>
    rw [List.forall_mem_cons, List.foldlM_cons, ← hf b x]
    cases f b x with
    | none => simp
    | some c => simpa using ih c

end Attempts
