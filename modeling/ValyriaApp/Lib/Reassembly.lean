import Mathlib.Data.List.Destutter
import Mathlib.Data.List.MinMax
import Mathlib.Data.List.Sort

/-! # Reassembling a numbered log

The items of a log carry their positions, counted from one, as keys. A chunk
received past a position may be out of order and may repeat items. When it never
holds an item without all items between the position and that item, sorting it
and dropping repeated keys gives back a slice of the log.
-/

namespace Reassembly

variable {α : Type*} {key : α → ℕ} {log l : List α} {d : ℕ} {x y : α}

/-- The items carry their positions, counted from one. -/
def Numbered (key : α → ℕ) (log : List α) : Prop :=
  ∀ i (h : i < log.length), key log[i] = i + 1

instance : Decidable (Numbered key log) :=
  inferInstanceAs (Decidable (∀ i (h : i < log.length), key log[i] = i + 1))

/-- Stable sort by key. -/
def sortByKey (key : α → ℕ) (l : List α) : List α :=
  l.insertionSort fun x y => key x ≤ key y

/-- Drop every item whose key is that of the item kept before it. -/
def dedupByKey (key : α → ℕ) (l : List α) : List α :=
  l.destutter fun x y => key x ≠ key y

/-- The items lie past `d` in the log, and none is there without those between. -/
structure Chunk (key : α → ℕ) (log : List α) (d : ℕ) (l : List α) : Prop where
  past : ∀ x ∈ l, d < key x
  mem_log : ∀ x ∈ l, x ∈ log
  down : ∀ x ∈ l, ∀ y ∈ log, d < key y → key y < key x → y ∈ l

theorem mem_sortByKey : x ∈ sortByKey key l ↔ x ∈ l := by
  exact List.mem_insertionSort _

theorem pairwise_sortByKey (key : α → ℕ) (l : List α) :
    (sortByKey key l).Pairwise fun x y => key x ≤ key y := by
  have total : Std.Total fun x y : α => key x ≤ key y := ⟨fun x y => Nat.le_total _ _⟩
  have trans : IsTrans α fun x y => key x ≤ key y := ⟨fun x y z => Nat.le_trans⟩
  exact List.pairwise_insertionSort _ l

theorem dedupByKey_sublist (key : α → ℕ) (l : List α) : (dedupByKey key l).Sublist l :=
  List.destutter_sublist _ l

theorem exists_mem_destutter' (l : List α) (a : α) (hx : x ∈ a :: l) :
    ∃ y ∈ l.destutter' (fun x y => key x ≠ key y) a, key y = key x := by
  induction l generalizing a x with
  | nil =>
    obtain rfl := List.mem_singleton.mp hx
    exact ⟨x, List.mem_singleton_self x, rfl⟩
  | cons b l ih =>
    by_cases hab : key a ≠ key b
    · rw [List.destutter'_cons, if_pos hab]
      rcases List.mem_cons.mp hx with rfl | hx
      · exact ⟨x, List.mem_cons_self, rfl⟩
      · obtain ⟨y, hy, hkey⟩ := ih b hx
        exact ⟨y, List.mem_cons_of_mem _ hy, hkey⟩
    · rw [List.destutter'_cons, if_neg hab]
      rcases List.mem_cons.mp hx with rfl | hx
      · exact ih x List.mem_cons_self
      rcases List.mem_cons.mp hx with rfl | hx
      · obtain ⟨y, hy, hkey⟩ := ih a List.mem_cons_self
        exact ⟨y, hy, hkey.trans (not_not.mp hab)⟩
      · exact ih a (List.mem_cons_of_mem _ hx)

theorem length_dedupByKey_sortByKey_le (key : α → ℕ) (l : List α) :
    (dedupByKey key (sortByKey key l)).length ≤ l.length :=
  (dedupByKey_sublist _ _).length_le.trans_eq (List.length_insertionSort _ _)

theorem exists_mem_dedupByKey (hx : x ∈ l) : ∃ y ∈ dedupByKey key l, key y = key x := by
  cases l with
  | nil => exact absurd hx List.not_mem_nil
  | cons a l => exact exists_mem_destutter' l a hx

/-- Repeated keys stand side by side in a sorted list, so none is left. -/
theorem pairwise_dedupByKey (h : l.Pairwise fun x y => key x ≤ key y) :
    (dedupByKey key l).Pairwise fun x y => key x < key y := by
  have hne : (dedupByKey key l).IsChain fun x y => key x ≠ key y := List.isChain_destutter _ l
  have hle : (dedupByKey key l).IsChain fun x y => key x ≤ key y :=
    (h.sublist (dedupByKey_sublist key l)).isChain
  have trans : IsTrans α fun x y => key x < key y := ⟨fun x y z => Nat.lt_trans⟩
  rw [List.isChain_iff_getElem] at hne hle
  rw [← List.isChain_iff_pairwise, List.isChain_iff_getElem]
  intro i hi
  exact lt_of_le_of_ne (hle i hi) (hne i hi)

/-- Where keys increase, no key is left out between neighbours exactly when the key before each key
past the first is there. -/
theorem gapless_iff (h : l.Pairwise fun x y => key x < key y) :
    (∀ xs x y ys, l = xs ++ x :: y :: ys → key y ≤ key x + 1) ↔
      ∀ x ∈ l.head?, ∀ y ∈ l, key x < key y → ∃ z ∈ l, key z + 1 = key y := by
  constructor
  · intro hgap x hx y hy hxy
    obtain ⟨xs, ys, rfl⟩ := List.append_of_mem hy
    rcases List.eq_nil_or_concat xs with rfl | ⟨xs, z, rfl⟩
    · obtain rfl : y = x := Option.some.inj hx
      exact absurd hxy (Nat.lt_irrefl _)
    · rw [List.concat_eq_append, List.append_assoc] at hgap h
      have hzy : key z < key y :=
        (List.pairwise_cons.mp (List.pairwise_append.mp h).2.1).1 y List.mem_cons_self
      exact ⟨z, by simp, le_antisymm hzy (hgap xs z y ys rfl)⟩
  · rintro hkeys xs x y ys rfl
    obtain ⟨-, htail, hfront⟩ := List.pairwise_append.mp h
    obtain ⟨hx, hy⟩ := List.pairwise_cons.mp htail
    have hxy : key x < key y := hx y List.mem_cons_self
    obtain ⟨z, hz, hzy⟩ : ∃ z ∈ xs ++ x :: y :: ys, key z + 1 = key y := by
      cases xs with
      | nil => exact hkeys x rfl y (by simp) hxy
      | cons w xs =>
        exact hkeys w rfl y (by simp) (hfront w List.mem_cons_self y (by simp))
    simp only [List.mem_append, List.mem_cons] at hz
    rcases hz with hz | rfl | rfl | hz
    · have := hfront z hz x List.mem_cons_self
      omega
    · exact hzy.ge
    · omega
    · have := (List.pairwise_cons.mp hy).1 z hz
      omega

namespace Numbered

theorem mem_iff (hlog : Numbered key log) : x ∈ log ↔
    ∃ i, ∃ h : i < log.length, key x = i + 1 ∧ log[i] = x := by
  constructor
  · intro hx
    obtain ⟨i, hi, rfl⟩ := List.mem_iff_getElem.mp hx
    exact ⟨i, hi, hlog i hi, rfl⟩
  · rintro ⟨i, hi, -, rfl⟩
    exact List.getElem_mem hi

theorem key_inj (hlog : Numbered key log) (hx : x ∈ log) (hy : y ∈ log) (h : key x = key y) :
    x = y := by
  obtain ⟨i, hi, hkx, rfl⟩ := hlog.mem_iff.mp hx
  obtain ⟨j, hj, hky, rfl⟩ := hlog.mem_iff.mp hy
  obtain rfl : i = j := by omega
  rfl

theorem pairwise (hlog : Numbered key log) : log.Pairwise fun x y => key x < key y := by
  rw [List.pairwise_iff_getElem]
  intro i j hi hj hij
  rw [hlog i hi, hlog j hj]
  exact Nat.succ_lt_succ hij

theorem mem_slice (hlog : Numbered key log) (m : ℕ) :
    x ∈ (log.drop d).take m ↔ x ∈ log ∧ d < key x ∧ key x ≤ d + m := by
  rw [hlog.mem_iff, List.mem_iff_getElem]
  constructor
  · rintro ⟨i, hi, rfl⟩
    rw [List.length_take, List.length_drop] at hi
    have hd : d + i < log.length := by omega
    rw [List.getElem_take, List.getElem_drop]
    exact ⟨⟨d + i, hd, hlog _ hd, rfl⟩, by rw [hlog _ hd]; omega, by rw [hlog _ hd]; omega⟩
  · rintro ⟨⟨i, hi, hkey, rfl⟩, hlt, hle⟩
    refine ⟨i - d, ?_, ?_⟩
    · rw [List.length_take, List.length_drop]
      omega
    · simp only [List.getElem_take, List.getElem_drop]
      congr 1
      omega

/-- The keys of a slice run from the one past `d` to `e`. -/
theorem keys_slice (hlog : Numbered key log) {e : ℕ} (hde : d < e) (he : e ≤ log.length) :
    ((log.drop d).take (e - d)).head?.map key = some (d + 1) ∧
      ((log.drop d).take (e - d)).getLast?.map key = some e := by
  have hlen : ((log.drop d).take (e - d)).length = e - d := by
    rw [List.length_take, List.length_drop]
    omega
  constructor
  · rw [List.head?_eq_getElem?, List.getElem?_eq_getElem (by omega), List.getElem_take,
      List.getElem_drop, Option.map_some, hlog]
  · rw [List.getLast?_eq_getElem?, List.getElem?_eq_getElem (by omega), List.getElem_take,
      List.getElem_drop, Option.map_some, hlog, hlen]
    exact congrArg some (by omega)

theorem mem_keys_slice (hlog : Numbered key log) {e k : ℕ} (he : e ≤ log.length) :
    k ∈ ((log.drop d).take (e - d)).map key ↔ d < k ∧ k ≤ e := by
  rw [List.mem_map]
  constructor
  · rintro ⟨x, hx, rfl⟩
    obtain ⟨-, hlt, hle⟩ := (hlog.mem_slice _).mp hx
    exact ⟨hlt, by omega⟩
  · rintro ⟨hlt, hle⟩
    have hk : k - 1 < log.length := by omega
    have hkey : key log[k - 1] = k := by rw [hlog _ hk]; omega
    refine ⟨log[k - 1], (hlog.mem_slice _).mpr ⟨List.getElem_mem hk, ?_, ?_⟩, hkey⟩
    · omega
    · omega

theorem key_le_length (hlog : Numbered key log) (hx : x ∈ log) : key x ≤ log.length := by
  obtain ⟨i, hi, hkey, -⟩ := hlog.mem_iff.mp hx
  omega

end Numbered

/-- A chunk covers the positions up to its largest key. -/
theorem Chunk.exists_last (hlog : Numbered key log) (hl : Chunk key log d l) (hne : l ≠ []) :
    ∃ z ∈ l, d < key z ∧ ∀ x, x ∈ l ↔ x ∈ log ∧ d < key x ∧ key x ≤ key z := by
  obtain ⟨z, hz⟩ := Option.ne_none_iff_exists'.mp
    (mt (List.argmax_eq_none (f := key)).mp hne)
  have hzl : z ∈ l := List.argmax_mem hz
  refine ⟨z, hzl, hl.past z hzl, fun x => ?_⟩
  constructor
  · intro hx
    exact ⟨hl.mem_log x hx, hl.past x hx, List.le_of_mem_argmax hx hz⟩
  · rintro ⟨hx, hlt, hle⟩
    rcases Nat.lt_or_eq_of_le hle with hlt' | heq
    · exact hl.down z hzl x hx hlt hlt'
    · rwa [hlog.key_inj hx (hl.mem_log z hzl) heq]

/-- Sorting a chunk and dropping its repeated keys gives a slice of the log. -/
theorem Chunk.reassemble (hlog : Numbered key log) (hl : Chunk key log d l) (hne : l ≠ []) :
    ∃ z ∈ l, d < key z ∧ (∀ x ∈ l, key x ≤ key z) ∧
      dedupByKey key (sortByKey key l) = (log.drop d).take (key z - d) := by
  obtain ⟨z, hz, hdz, hmem⟩ := hl.exists_last hlog hne
  refine ⟨z, hz, hdz, fun x hx => ((hmem x).mp hx).2.2, ?_⟩
  have irrefl : Std.Irrefl fun x y : α => key x < key y := ⟨fun x => Nat.lt_irrefl _⟩
  have antisymm : Std.Antisymm fun x y : α => key x < key y :=
    ⟨fun x y hxy hyx => absurd hxy (Nat.lt_asymm hyx)⟩
  have hsorted := pairwise_dedupByKey (pairwise_sortByKey key l)
  have hslice : ((log.drop d).take (key z - d)).Pairwise fun x y => key x < key y :=
    hlog.pairwise.sublist ((List.take_sublist _ _).trans (List.drop_sublist _ _))
  apply List.Pairwise.eq_of_mem_iff hsorted hslice
  intro x
  have hsub : ∀ y ∈ dedupByKey key (sortByKey key l), y ∈ l := fun y hy =>
    mem_sortByKey.mp ((dedupByKey_sublist _ _).subset hy)
  have hkeep : x ∈ dedupByKey key (sortByKey key l) ↔ x ∈ l := by
    refine ⟨hsub x, fun hx => ?_⟩
    obtain ⟨y, hy, hkey⟩ := exists_mem_dedupByKey (mem_sortByKey.mpr hx)
    rwa [← hlog.key_inj (hl.mem_log y (hsub y hy)) (hl.mem_log x hx) hkey]
  rw [hkeep, hmem, hlog.mem_slice, Nat.add_sub_cancel' hdz.le]

end Reassembly
