import Mathlib.Data.List.Basic
import Mathlib.Order.Lattice.Nat

/-! # Consumers of a numbered log

The items of a log are numbered by their position. A resumable consumer ignores
an item it has already passed and moves to the item's number otherwise, so it
may be fed the log in overlapping pieces. As long as no piece starts past the
consumer's position, the state is the one reached by a single pass over the
longest prefix delivered; a flag raised by every jump is low exactly then.
-/

namespace NumberedLog

variable {σ ι : Type*}

/-- `At s c` says that the consumer in state `s` has passed the first `c` items. -/
structure Resumable (feed : σ → ι → σ) (At : σ → ℕ → Prop) (log : List ι) : Prop where
  old : ∀ {s c i} (hi : i < log.length), At s c → i < c → feed s log[i] = s
  next : ∀ {s c i} (hi : i < log.length), At s c → c ≤ i → At (feed s log[i]) (i + 1)

/-- The state after one pass over the first `c` items. -/
def prefixState (feed : σ → ι → σ) (log : List ι) (s₀ : σ) (c : ℕ) : σ :=
  (log.take c).foldl feed s₀

/-- The position after feeding the items at the given indices, jumps included. -/
def reach (c : ℕ) (is : List ℕ) : ℕ := is.foldl (fun c i => max c (i + 1)) c

/-- No index lies past the position reached by the indices before it. -/
def NoSkip : ℕ → List ℕ → Prop
  | _, [] => True
  | c, i :: is => i ≤ c ∧ NoSkip (max c (i + 1)) is

instance decidableNoSkip : ∀ (is : List ℕ) (c : ℕ), Decidable (NoSkip c is)
  | [], _ => isTrue trivial
  | i :: is, c =>
    have := decidableNoSkip is (max c (i + 1))
    inferInstanceAs (Decidable (i ≤ c ∧ _))

@[simp] theorem reach_nil (c : ℕ) : reach c [] = c := rfl

@[simp] theorem reach_cons (c i : ℕ) (is : List ℕ) :
    reach c (i :: is) = reach (max c (i + 1)) is := rfl

theorem le_reach (c : ℕ) (is : List ℕ) : c ≤ reach c is := by
  induction is generalizing c with
  | nil => exact le_rfl
  | cons i is ih => exact (le_max_left _ _).trans (ih _)

theorem lt_reach {c i : ℕ} {is : List ℕ} (h : i ∈ is) : i < reach c is := by
  induction is generalizing c with
  | nil => simp at h
  | cons j is ih =>
    rcases List.mem_cons.mp h with rfl | h
    · exact lt_of_lt_of_le (Nat.lt_succ_self i) ((le_max_right _ _).trans (le_reach _ is))
    · exact ih h

namespace Resumable

variable {feed : σ → ι → σ} {At : σ → ℕ → Prop} {log : List ι} {s s₀ : σ} {a b c : ℕ}

theorem at_prefix (R : Resumable feed At log) (h₀ : At s₀ 0) :
    ∀ {c}, c ≤ log.length → At (prefixState feed log s₀ c) c
  | 0, _ => h₀
  | c + 1, hc => by
    rw [prefixState, List.take_succ_eq_append_getElem hc, List.foldl_append]
    exact R.next hc (R.at_prefix h₀ (Nat.le_of_succ_le hc)) le_rfl

/-- Feeding an item that is not past the position extends the prefix to that item. -/
theorem feed_prefix (R : Resumable feed At log) (h₀ : At s₀ 0) {i : ℕ} (hi : i < log.length)
    (hc : c ≤ log.length) (hic : i ≤ c) :
    feed (prefixState feed log s₀ c) log[i] = prefixState feed log s₀ (max c (i + 1)) := by
  rcases Nat.lt_or_ge i c with hlt | hge
  · rw [R.old hi (R.at_prefix h₀ hc) hlt, max_eq_left hlt]
  · obtain rfl : i = c := le_antisymm hic hge
    rw [max_eq_right (Nat.le_succ i), prefixState, prefixState,
      List.take_succ_eq_append_getElem hi, List.foldl_append]
    rfl

theorem foldl_noSkip (R : Resumable feed At log) (h₀ : At s₀ 0) (is : List (Fin log.length))
    (hc : c ≤ log.length) (h : NoSkip c (is.map Fin.val)) :
    (is.map log.get).foldl feed (prefixState feed log s₀ c) =
      prefixState feed log s₀ (reach c (is.map Fin.val)) := by
  induction is generalizing c with
  | nil => rfl
  | cons i is ih =>
    rw [List.map_cons, List.map_cons, List.foldl_cons, List.get_eq_getElem,
      R.feed_prefix h₀ i.isLt hc h.1]
    exact ih (max_le hc i.isLt) h.2

theorem foldl_old (R : Resumable feed At log) (hs : At s c) (hb : b ≤ c) :
    ((log.take b).drop a).foldl feed s = s := by
  have h : ∀ x ∈ (log.take b).drop a, feed s x = s := by
    intro x hx
    obtain ⟨i, hi, rfl⟩ := List.mem_iff_getElem.mp (List.mem_of_mem_drop hx)
    rw [List.length_take] at hi
    rw [List.getElem_take]
    exact R.old (by omega) hs (by omega)
  generalize (log.take b).drop a = l at h
  induction l with
  | nil => rfl
  | cons x l ih =>
    rw [List.foldl_cons, h x List.mem_cons_self]
    exact ih fun y hy => h y (List.mem_cons_of_mem _ hy)

/-- A slice that starts at or before the position only adds what lies past it. -/
theorem foldl_slice (R : Resumable feed At log) (h₀ : At s₀ 0) (hc : c ≤ log.length)
    (hac : a ≤ c) :
    ((log.take b).drop a).foldl feed (prefixState feed log s₀ c) =
      prefixState feed log s₀ (max c b) := by
  rcases Nat.le_total b c with hbc | hcb
  · rw [R.foldl_old (R.at_prefix h₀ hc) hbc, max_eq_left hbc]
  · have hsplit : (log.take b).drop a = (log.take c).drop a ++ (log.take b).drop c := by
      rw [← List.take_append_drop c (log.take b), List.take_take, min_eq_left hcb,
        List.drop_append_of_le_length (by rw [List.length_take]; omega), List.drop_append]
      simp [List.length_take, hc]
    have hwhole : prefixState feed log s₀ b =
        ((log.take b).drop c).foldl feed (prefixState feed log s₀ c) := by
      rw [prefixState, prefixState, ← List.foldl_append]
      congr 1
      rw [← List.take_append_drop c (log.take b), List.take_take, min_eq_left hcb]
      simp [List.length_take, hc]
    rw [hsplit, List.foldl_append, R.foldl_old (R.at_prefix h₀ hc) le_rfl, max_eq_right hcb, hwhole]

/-- A flag raised exactly by the items past the position is low exactly when none was skipped. -/
theorem flag_foldl (R : Resumable feed At log) {flag : σ → Bool}
    (hflag : ∀ {s c i} (hi : i < log.length), At s c → c ≤ i →
      flag (feed s log[i]) = (flag s || decide (c < i)))
    (is : List (Fin log.length)) (hs : At s c) :
    flag ((is.map log.get).foldl feed s) = false ↔
      flag s = false ∧ NoSkip c (is.map Fin.val) := by
  induction is generalizing s c with
  | nil => simp [NoSkip]
  | cons i is ih =>
    rcases Nat.lt_or_ge i.val c with hlt | hge
    · have hmax : max c (i.val + 1) = c := max_eq_left hlt
      have hold : feed s log[i.val] = s := R.old i.isLt hs hlt
      simp [NoSkip, hold, ih hs, hmax, hlt.le]
    · have hmax : max c (i.val + 1) = i.val + 1 := max_eq_right (by omega)
      have h := ih (R.next i.isLt hs hge)
      have hraise := hflag i.isLt hs hge
      simp only [List.map_cons, List.foldl_cons, List.get_eq_getElem, NoSkip, hmax]
      rw [h, hraise, Bool.or_eq_false_iff, decide_eq_false_iff_not, Nat.not_lt]
      tauto

end Resumable

end NumberedLog
