import Mathlib.Data.List.Infix
import Mathlib.Data.Nat.Find

/-! # Markers in a text

A marker is a word whose last letter occurs nowhere before, like a line with its
line break. Two markers of one length that end alike do not overlap in a text,
so that the first and the last place of a marker are where it was put.
-/

/-- A word whose last letter occurs nowhere else in it. -/
structure Marker (α : Type*) where
  body : List α
  mark : α
  mark_not_mem : mark ∉ body

namespace Marker

variable {α : Type*} {M N : Marker α} {w text pre post : List α} {i j k : ℕ}

def word (M : Marker α) : List α := M.body ++ [M.mark]

@[simp] theorem length_word : M.word.length = M.body.length + 1 := by simp [word]

theorem word_ne_nil : M.word ≠ [] := by simp [word]

/-- The word stands in the text at the given place. -/
def StandsAt (w text : List α) (i : ℕ) : Prop := w <+: text.drop i

theorem StandsAt.getElem? (h : StandsAt w text i) (hk : k < w.length) :
    text[i + k]? = some w[k] := by
  have hget := List.prefix_iff_getElem?.mp h k hk
  rwa [List.getElem?_drop] at hget

theorem StandsAt.le_length (h : StandsAt w text i) (hw : w ≠ []) : i + w.length ≤ text.length := by
  have hlen := h.length_le
  have hpos := List.length_pos_of_ne_nil hw
  rw [List.length_drop] at hlen
  omega

theorem StandsAt.split (h : StandsAt w text i) :
    text = text.take i ++ w ++ text.drop (i + w.length) := by
  obtain ⟨rest, hrest⟩ := h
  have hdrop : text.drop (i + w.length) = rest := by
    rw [← List.drop_drop, ← hrest, List.drop_left]
  rw [hdrop, List.append_assoc, hrest, List.take_append_drop]

theorem standsAt_length (pre w post : List α) : StandsAt w (pre ++ w ++ post) pre.length := by
  rw [StandsAt, List.append_assoc, List.drop_left]
  exact List.prefix_append w post

theorem standsAt_take (h : StandsAt w text i) (hik : i + w.length ≤ k) : w <:+: text.take k := by
  have hprefix : w <+: (text.take k).drop i := by
    rw [List.drop_take]
    exact List.prefix_take_iff.mpr ⟨h, by omega⟩
  exact hprefix.isInfix.trans (List.drop_suffix i _).isInfix

theorem exists_standsAt (h : w <:+: text) : ∃ i, i + w.length ≤ text.length ∧ StandsAt w text i := by
  obtain ⟨pre, post, rfl⟩ := h
  exact ⟨pre.length, by simp, standsAt_length pre w post⟩

open Classical in
theorem StandsAt.exists_first (h : StandsAt w text i) :
    ∃ j ≤ i, StandsAt w text j ∧ ∀ k < j, ¬ StandsAt w text k :=
  have hex : ∃ j, StandsAt w text j := ⟨i, h⟩
  ⟨Nat.find hex, Nat.find_min' hex h, Nat.find_spec hex, fun _ hk => Nat.find_min hex hk⟩

open Classical in
theorem StandsAt.exists_last (h : StandsAt w text i) (hw : w ≠ []) :
    ∃ j, i ≤ j ∧ StandsAt w text j ∧ ∀ k, j < k → ¬ StandsAt w text k := by
  have hbound {k : ℕ} (hk : StandsAt w text k) : k ≤ text.length :=
    (Nat.le_add_right k _).trans (hk.le_length hw)
  refine ⟨Nat.findGreatest (StandsAt w text) text.length, Nat.le_findGreatest (hbound h) h,
    Nat.findGreatest_spec (hbound h) h, fun k hk hstands => ?_⟩
  exact Nat.findGreatest_is_greatest hk (hbound hstands) hstands

/-- No place before the first one lies in the text before it. -/
theorem not_infix_take (h : ∀ j < i, ¬ StandsAt w text j) (hw : w ≠ []) :
    ¬ w <:+: text.take i := by
  intro hinfix
  obtain ⟨j, hj, hstands⟩ := exists_standsAt hinfix
  have hpos := List.length_pos_of_ne_nil hw
  have hlen : (text.take i).length ≤ i := List.length_take_le i text
  refine h j (by omega) (hstands.trans ?_)
  rw [List.drop_take]
  exact List.take_prefix _ _

/-- No place after the last one lies in the text behind it. -/
theorem not_infix_drop (h : ∀ j, i < j → ¬ StandsAt w text j) (hik : i < k) :
    ¬ w <:+: text.drop k := by
  intro hinfix
  obtain ⟨j, -, hstands⟩ := exists_standsAt hinfix
  rw [StandsAt, List.drop_drop] at hstands
  exact h (k + j) (by omega) hstands

/-- Markers of one length with one last letter do not overlap. -/
theorem no_overlap (hmark : M.mark = N.mark) (hlen : M.body.length = N.body.length)
    (hM : StandsAt M.word text i) (hN : StandsAt N.word text j) (hij : i < j) :
    i + M.word.length ≤ j := by
  by_contra hlt
  have hlast : text[i + M.body.length]? = some N.mark := by
    rw [hM.getElem? (by simp)]
    simp [word, hmark]
  obtain ⟨k, hk⟩ : ∃ k, i + M.body.length = j + k := Nat.exists_eq_add_of_le (by simp at hlt; omega)
  have hkn : k < N.body.length := by omega
  have hbody : text[j + k]? = some N.body[k] := by
    rw [hN.getElem? (by simp; omega)]
    simp [word, hkn]
  rw [hk, hbody, Option.some.injEq] at hlast
  exact N.mark_not_mem (hlast ▸ List.getElem_mem hkn)

/-- Two markers do not stand at one place. -/
theorem ne_of_standsAt (hne : M.word ≠ N.word) (hlen : M.body.length = N.body.length)
    (hM : StandsAt M.word text i) (hN : StandsAt N.word text j) : i ≠ j := by
  rintro rfl
  have hword : M.word.length = N.word.length := by simp [hlen]
  exact hne ((List.prefix_of_prefix_length_le hM hN hword.le).eq_of_length hword)

/-- Behind a text without the marker it first stands where it was put. -/
theorem length_le_of_standsAt (hpre : ¬ M.word <:+: pre)
    (h : StandsAt M.word (pre ++ M.word ++ post) j) : pre.length ≤ j := by
  by_contra hlt
  have hend := no_overlap rfl rfl h (standsAt_length pre M.word post) (not_le.mp hlt)
  have hinfix := standsAt_take h hend
  rw [List.append_assoc, List.take_left] at hinfix
  exact hpre hinfix

/-- Before a text without the marker it last stands where it was put. -/
theorem le_length_of_standsAt (hpost : ¬ M.word <:+: post)
    (h : StandsAt M.word (pre ++ M.word ++ post) j) : j ≤ pre.length := by
  by_contra hlt
  have hend := no_overlap rfl rfl (standsAt_length pre M.word post) h (not_le.mp hlt)
  obtain ⟨k, rfl⟩ := Nat.exists_eq_add_of_le hend
  rw [StandsAt, ← List.drop_drop, ← List.length_append, List.drop_left] at h
  exact hpost (h.isInfix.trans (List.drop_suffix k post).isInfix)

/-! ## A text between two markers -/

/-- The text holds `mid` between its first `M` and its last `N`. -/
structure Encloses (M N : Marker α) (text head mid tail : List α) : Prop where
  text : text = head ++ M.word ++ mid ++ N.word ++ tail
  head : ¬ M.word <:+: head
  tail : ¬ N.word <:+: tail

variable {head mid tail : List α}

theorem Encloses.first (h : Encloses M N text head mid tail) :
    StandsAt M.word text head.length ∧ ∀ j < head.length, ¬ StandsAt M.word text j := by
  have htext : text = head ++ M.word ++ (mid ++ N.word ++ tail) := by
    rw [h.text]
    simp only [List.append_assoc]
  rw [htext]
  refine ⟨standsAt_length _ _ _, fun j hj hstands => ?_⟩
  exact absurd (length_le_of_standsAt h.head hstands) (not_le.mpr hj)

theorem Encloses.last (h : Encloses M N text head mid tail) :
    StandsAt N.word text (head ++ M.word ++ mid).length ∧
      ∀ j, (head ++ M.word ++ mid).length < j → ¬ StandsAt N.word text j := by
  rw [h.text]
  refine ⟨standsAt_length _ _ _, fun j hj hstands => ?_⟩
  exact absurd (le_length_of_standsAt h.tail hstands) (not_le.mpr hj)

theorem Encloses.take (h : Encloses M N text head mid tail) : text.take head.length = head := by
  rw [h.text, List.append_assoc, List.append_assoc, List.append_assoc, List.take_left]

theorem Encloses.slice (h : Encloses M N text head mid tail) :
    (text.drop (head.length + M.word.length)).take
      ((head ++ M.word ++ mid).length - (head.length + M.word.length)) = mid := by
  have hlen : (head ++ M.word ++ mid).length - (head.length + M.word.length) = mid.length := by
    rw [List.length_append, List.length_append, Nat.add_sub_cancel_left]
  rw [h.text, hlen, ← List.length_append, List.append_assoc, List.append_assoc, List.drop_left,
    List.take_left]

theorem Encloses.drop (h : Encloses M N text head mid tail) :
    text.drop ((head ++ M.word ++ mid).length + N.word.length) = tail := by
  rw [h.text, ← List.length_append, List.drop_left]

/-- A text with the first `M` not behind the last `N` is cut at them: they cannot overlap. -/
theorem encloses_of_standsAt (hmark : M.mark = N.mark) (hlen : M.body.length = N.body.length)
    (hne : M.word ≠ N.word) (hM : StandsAt M.word text i ∧ ∀ k < i, ¬ StandsAt M.word text k)
    (hN : StandsAt N.word text j ∧ ∀ k, j < k → ¬ StandsAt N.word text k) (hij : i ≤ j) :
    Encloses M N text (text.take i)
      ((text.drop (i + M.word.length)).take (j - (i + M.word.length)))
      (text.drop (j + N.word.length)) := by
  have hlt : i < j := lt_of_le_of_ne hij (ne_of_standsAt hne hlen hM.1 hN.1)
  have hapart := no_overlap hmark hlen hM.1 hN.1 hlt
  have hbehind : j < j + N.word.length := by simp
  refine ⟨?_, not_infix_take hM.2 word_ne_nil, not_infix_drop hN.2 hbehind⟩
  have hmid : text.drop (i + M.word.length) =
      (text.drop (i + M.word.length)).take (j - (i + M.word.length)) ++ text.drop j := by
    conv_lhs => rw [← List.take_append_drop (j - (i + M.word.length))
      (text.drop (i + M.word.length))]
    rw [List.drop_drop, Nat.add_sub_cancel' hapart]
  have htail : text.drop j = N.word ++ text.drop (j + N.word.length) := by
    rw [← List.drop_drop]
    exact (List.prefix_iff_eq_append.mp hN.1).symm
  calc text = text.take i ++ M.word ++ text.drop (i + M.word.length) := hM.1.split
    _ = text.take i ++ M.word ++ ((text.drop (i + M.word.length)).take
          (j - (i + M.word.length)) ++ (N.word ++ text.drop (j + N.word.length))) := by
      rw [← htail, ← hmid]
    _ = _ := by simp only [List.append_assoc]

/-- A text is cut between its first and its last marker exactly when it holds the two in order. -/
theorem exists_encloses_iff (hmark : M.mark = N.mark) (hlen : M.body.length = N.body.length)
    (hne : M.word ≠ N.word) :
    (∃ head mid tail, Encloses M N text head mid tail) ↔
      ∃ h x y, text = h ++ M.word ++ x ++ N.word ++ y := by
  constructor
  · rintro ⟨head, mid, tail, hcut⟩
    exact ⟨head, mid, tail, hcut.text⟩
  · rintro ⟨h, x, y, rfl⟩
    have hM : StandsAt M.word (h ++ M.word ++ x ++ N.word ++ y) h.length := by
      simp only [List.append_assoc _ x, List.append_assoc _ (x ++ N.word)]
      exact standsAt_length _ _ _
    obtain ⟨i, hi, hfirst⟩ := hM.exists_first
    obtain ⟨j, hj, hlast⟩ := (standsAt_length (h ++ M.word ++ x) N.word y).exists_last word_ne_nil
    have hij : i ≤ j := by
      rw [List.length_append, List.length_append] at hj
      omega
    exact ⟨_, _, _, encloses_of_standsAt hmark hlen hne hfirst hlast hij⟩

end Marker
