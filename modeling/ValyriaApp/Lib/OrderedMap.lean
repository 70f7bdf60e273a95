import Mathlib.Data.List.Nodup

/-! # Insertion-ordered maps

An ordered map is a list of entries with distinct keys. Writing an existing key
replaces its entry in place; writing a new key appends it, so the entries stand
in the order in which their keys were first written.
-/

/-- A finite map that remembers the order in which its keys were first written. -/
structure OrderedMap (κ α : Type*) where
  entries : List (κ × α)
  nodup : (entries.map Prod.fst).Nodup

namespace OrderedMap

variable {κ α : Type*}

@[ext] theorem ext {m n : OrderedMap κ α} (h : m.entries = n.entries) : m = n := by
  cases m; cases n; simpa using h

def empty : OrderedMap κ α := ⟨[], List.nodup_nil⟩

def keys (m : OrderedMap κ α) : List κ := m.entries.map Prod.fst

def values (m : OrderedMap κ α) : List α := m.entries.map Prod.snd

variable [DecidableEq κ]

/-- Replace the value of `k` in a list of entries, or append the entry when there is none. -/
def setEntry (k : κ) (v : α) : List (κ × α) → List (κ × α)
  | [] => [(k, v)]
  | (j, w) :: es => if j = k then (k, v) :: es else (j, w) :: setEntry k v es

theorem mem_keys_setEntry {k j : κ} {v : α} {es : List (κ × α)} :
    j ∈ (setEntry k v es).map Prod.fst ↔ j = k ∨ j ∈ es.map Prod.fst := by
  induction es with
  | nil => simp [setEntry]
  | cons e es ih =>
    obtain ⟨i, w⟩ := e
    by_cases h : i = k
    · subst h; simp [setEntry]
    · rw [setEntry, if_neg h, List.map_cons, List.mem_cons, ih, List.map_cons, List.mem_cons]
      exact or_left_comm

theorem nodup_setEntry {k : κ} {v : α} {es : List (κ × α)} (h : (es.map Prod.fst).Nodup) :
    ((setEntry k v es).map Prod.fst).Nodup := by
  induction es with
  | nil => simp [setEntry]
  | cons e es ih =>
    obtain ⟨i, w⟩ := e
    rw [List.map_cons, List.nodup_cons] at h
    by_cases hik : i = k
    · subst hik; simpa [setEntry] using h
    · rw [setEntry, if_neg hik, List.map_cons, List.nodup_cons, mem_keys_setEntry]
      exact ⟨fun hm => hm.elim hik h.1, ih h.2⟩

def set (m : OrderedMap κ α) (k : κ) (v : α) : OrderedMap κ α :=
  ⟨setEntry k v m.entries, nodup_setEntry m.nodup⟩

def get? (m : OrderedMap κ α) (k : κ) : Option α :=
  (m.entries.find? fun e => e.1 = k).map Prod.snd

@[simp] theorem get?_empty (k : κ) : (empty : OrderedMap κ α).get? k = none := rfl

theorem find?_setEntry (k j : κ) (v : α) (es : List (κ × α)) :
    (setEntry k v es).find? (fun e => e.1 = j) =
      if j = k then some (k, v) else es.find? fun e => e.1 = j := by
  induction es with
  | nil => by_cases h : j = k <;> simp [setEntry, h, eq_comm]
  | cons e es ih =>
    obtain ⟨i, w⟩ := e
    by_cases hik : i = k
    · subst hik
      by_cases hj : i = j
      · simp [setEntry, hj]
      · simp [setEntry, hj, Ne.symm hj]
    · by_cases hj : i = j
      · subst hj; simp [setEntry, hik]
      · simp [setEntry, hik, hj, ih]

@[simp] theorem get?_set_self (m : OrderedMap κ α) (k : κ) (v : α) :
    (m.set k v).get? k = some v := by
  simp [get?, set, find?_setEntry]

theorem get?_set (m : OrderedMap κ α) (k j : κ) (v : α) :
    (m.set k v).get? j = if j = k then some v else m.get? j := by
  by_cases h : j = k <;> simp [get?, set, find?_setEntry, h]

theorem get?_eq_some_iff (m : OrderedMap κ α) {k : κ} {v : α} :
    m.get? k = some v ↔ (k, v) ∈ m.entries := by
  obtain ⟨entries, hnodup⟩ := m
  rw [get?, Option.map_eq_some_iff]
  constructor
  · rintro ⟨⟨j, w⟩, hfind, rfl⟩
    obtain rfl : j = k := by simpa using List.find?_some hfind
    exact List.mem_of_find?_eq_some hfind
  · intro hmem
    have hsome : (entries.find? fun e => decide (e.1 = k)).isSome :=
      List.find?_isSome.mpr ⟨(k, v), hmem, decide_eq_true rfl⟩
    obtain ⟨⟨j, w⟩, hfind⟩ := Option.isSome_iff_exists.mp hsome
    obtain rfl : j = k := by simpa using List.find?_some hfind
    refine ⟨(j, w), hfind, ?_⟩
    have heq := List.inj_on_of_nodup_map hnodup (List.mem_of_find?_eq_some hfind) hmem rfl
    exact congrArg Prod.snd heq

/-- Every entry of the map meets the predicate. -/
def All (m : OrderedMap κ α) (Q : κ → α → Prop) : Prop := ∀ ⦃k v⦄, m.get? k = some v → Q k v

theorem all_empty {Q : κ → α → Prop} : (empty : OrderedMap κ α).All Q := by
  intro k v h
  simp at h

theorem All.set {m : OrderedMap κ α} {Q : κ → α → Prop} {k : κ} {v : α} (h : m.All Q)
    (hv : Q k v) : (m.set k v).All Q := by
  intro j w hw
  rw [get?_set] at hw
  split at hw
  · rename_i hj
    obtain rfl := Option.some.inj hw
    exact hj ▸ hv
  · exact h hw

theorem All.mono {m : OrderedMap κ α} {Q R : κ → α → Prop} (h : m.All Q)
    (hQR : ∀ k v, Q k v → R k v) : m.All R :=
  fun _ _ hkv => hQR _ _ (h hkv)

end OrderedMap
