import Mathlib.Data.List.DropRight
import Mathlib.Data.Nat.Notation

/-! # Cutting and trimming lists

The segments of a list between the occurrences of a separator hold everything
but the separators. Trimming an end of a list stops at the first element that is
kept.
-/

namespace ValyriaApp.Lib

variable {α : Type}

/-! ## Cutting -/

section Split

variable [DecidableEq α] {a x : α} {xs s : List α}

theorem not_mem_of_mem_splitOn (h : s ∈ xs.splitOn a) : a ∉ s := by
  induction xs generalizing s with
  | nil =>
    obtain rfl := List.mem_singleton.mp h
    exact List.not_mem_nil
  | cons y xs ih =>
    rw [List.splitOn_cons_eq_if_modifyHead] at h
    split at h
    · rcases List.mem_cons.mp h with rfl | h
      · exact List.not_mem_nil
      · exact ih h
    · next hne =>
      obtain ⟨first, segs, hsplit⟩ := List.exists_cons_of_ne_nil (List.splitOn_ne_nil a xs)
      rw [hsplit] at ih h
      rcases List.mem_cons.mp h with rfl | h
      · rw [List.mem_cons, not_or]
        exact ⟨fun h => hne (by simp [h]), ih List.mem_cons_self⟩
      · exact ih (List.mem_cons_of_mem _ h)

/-- The segments hold what the list holds but for the separators. -/
theorem exists_mem_splitOn_iff (hxa : x ≠ a) : (∃ s ∈ xs.splitOn a, x ∈ s) ↔ x ∈ xs := by
  induction xs with
  | nil => simp
  | cons y xs ih =>
    rw [List.splitOn_cons_eq_if_modifyHead, List.mem_cons, ← ih]
    split
    · next hy =>
      have hxy : x ≠ y := fun h => hxa (h.trans (eq_of_beq hy))
      simp [hxy]
    · obtain ⟨first, segs, hsplit⟩ := List.exists_cons_of_ne_nil (List.splitOn_ne_nil a xs)
      rw [hsplit]
      simp [or_assoc]

theorem splitOn_append_replicate (k : ℕ) :
    (xs ++ List.replicate k a).splitOn a = xs.splitOn a ++ List.replicate k [] := by
  have hreplicate : ∀ k, (List.replicate k a).splitOn a = List.replicate (k + 1) [] := by
    intro k
    induction k with
    | zero => rfl
    | succ k ih => rw [List.replicate_succ, List.splitOn_cons_eq_if_modifyHead, ih]; simp; rfl
  cases k with
  | zero => simp
  | succ k => rw [List.replicate_succ, List.splitOn_append_cons_self, hreplicate]

end Split

/-- What follows the last separator. -/
theorem suffix_inj {α : Type} {a : α} {xs ys s t : List α} (hs : a ∉ s) (ht : a ∉ t)
    (h : xs ++ a :: s = ys ++ a :: t) : s = t := by
  rcases List.append_eq_append_iff.mp h with ⟨zs, -, hzs⟩ | ⟨zs, -, hzs⟩
  · cases zs with
    | nil => exact (List.cons.inj hzs).2
    | cons z zs => exact absurd (by simp [(List.cons.inj hzs).2]) hs
  · cases zs with
    | nil => exact (List.cons.inj hzs).2.symm
    | cons z zs => exact absurd (by simp [(List.cons.inj hzs).2]) ht

/-! ## Trimming -/

section Trim

variable {p : α → Bool} {x : α} {xs : List α}

theorem dropWhile_eq_self (h : ∀ x ∈ xs.head?, p x = false) : xs.dropWhile p = xs := by
  cases xs with
  | nil => rfl
  | cons x xs => exact List.dropWhile_cons_of_neg (by simpa using h x rfl)

theorem rdropWhile_append_cons (hx : p x = false) (xs ys : List α) :
    (xs ++ x :: ys).rdropWhile p = xs ++ x :: ys.rdropWhile p := by
  induction ys using List.reverseRecOn with
  | nil => rw [List.rdropWhile_concat_neg _ _ _ (by simp [hx]), List.rdropWhile_nil]
  | append_singleton ys y ih =>
    have hassoc : xs ++ x :: (ys ++ [y]) = (xs ++ x :: ys) ++ [y] := by simp
    by_cases hy : p y
    · rw [hassoc, List.rdropWhile_concat_pos _ _ _ hy, List.rdropWhile_concat_pos _ _ _ hy, ih]
    · rw [hassoc, List.rdropWhile_concat_neg _ _ _ hy, List.rdropWhile_concat_neg _ _ _ hy, hassoc]

end Trim

end ValyriaApp.Lib
