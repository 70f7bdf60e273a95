import Mathlib.Data.List.Forall2
import Mathlib.Data.List.Sort

/-! # Lists related element by element

A function that cannot tell related elements apart gives the same result on
lists related element by element, and sorting, filtering and searching keep
such lists related.
-/

namespace Related

variable {α β γ : Type*} {R : α → α → Prop} {l l' : List α}

theorem map_eq {f : α → β} (hf : ∀ a b, R a b → f b = f a) (h : List.Forall₂ R l l') :
    l'.map f = l.map f := by
  induction h with
  | nil => rfl
  | cons hab _ ih => rw [List.map_cons, List.map_cons, hf _ _ hab, ih]

theorem findSome?_eq {f : α → Option β} (hf : ∀ a b, R a b → f b = f a)
    (h : List.Forall₂ R l l') : l'.findSome? f = l.findSome? f := by
  induction h with
  | nil => rfl
  | cons hab _ ih => rw [List.findSome?_cons, List.findSome?_cons, hf _ _ hab, ih]

theorem foldl_eq {f : β → α → β} (hf : ∀ c a b, R a b → f c b = f c a)
    (h : List.Forall₂ R l l') (c : β) : l'.foldl f c = l.foldl f c := by
  induction h generalizing c with
  | nil => rfl
  | cons hab _ ih => rw [List.foldl_cons, List.foldl_cons, hf _ _ _ hab, ih]

theorem filter {p : α → Bool} (hp : ∀ a b, R a b → p b = p a) (h : List.Forall₂ R l l') :
    List.Forall₂ R (l.filter p) (l'.filter p) :=
  List.rel_filter (fun a b hab => show p a = true ↔ p b = true by rw [hp a b hab]) h

theorem find? {p : α → Bool} (hp : ∀ a b, R a b → p b = p a) (h : List.Forall₂ R l l') :
    Option.Rel R (l.find? p) (l'.find? p) := by
  induction h with
  | nil => exact .none
  | @cons a b _ _ hab _ ih =>
    rw [List.find?_cons, List.find?_cons, hp a b hab]
    cases p a with
    | true => exact .some hab
    | false => exact ih

theorem optionFilter {p : α → Bool} (hp : ∀ a b, R a b → p b = p a) {o o' : Option α}
    (h : Option.Rel R o o') : Option.Rel R (o.filter p) (o'.filter p) := by
  cases h with
  | none => exact .none
  | @some a b hab =>
    rw [Option.filter_some, Option.filter_some, hp a b hab]
    split
    · exact .some hab
    · exact .none

variable {r : α → α → Prop} [DecidableRel r]

theorem orderedInsert (hr : ∀ a a' b b', R a a' → R b b' → (r a' b' ↔ r a b)) {x x' : α}
    (hx : R x x') (h : List.Forall₂ R l l') :
    List.Forall₂ R (l.orderedInsert r x) (l'.orderedInsert r x') := by
  induction h with
  | nil => exact .cons hx .nil
  | cons hab hrest ih =>
    have hiff := hr _ _ _ _ hx hab
    rw [List.orderedInsert_cons, List.orderedInsert_cons]
    split_ifs with h₁ h₂ h₂
    · exact .cons hx (.cons hab hrest)
    · exact absurd (hiff.mpr h₁) h₂
    · exact absurd (hiff.mp h₂) h₁
    · exact .cons hab ih

theorem insertionSort (hr : ∀ a a' b b', R a a' → R b b' → (r a' b' ↔ r a b))
    (h : List.Forall₂ R l l') :
    List.Forall₂ R (l.insertionSort r) (l'.insertionSort r) := by
  induction h with
  | nil => exact .nil
  | cons hab _ ih =>
    rw [List.insertionSort_cons, List.insertionSort_cons]
    exact orderedInsert hr hab ih

end Related
