import ValyriaApp.Lib.OrderedMap

/-! # Nested tables

A document of nested tables holds a leaf or a further table under each key. A
path is a list of keys from the root; what a document means to a reader is the
leaf, the table or the nothing that it has at every path. Setting a leaf is
stated on that meaning: it is idempotent, and two leaves neither of which stands
below the other commute.
-/

namespace NestedTable

open OrderedMap

/-- A value in a table. -/
inductive Node (κ α : Type) where
  | leaf (a : α)
  | table (entries : List (κ × Node κ α))

abbrev Table (κ α : Type) := List (κ × Node κ α)

/-- What stands at a path. -/
inductive Kind (α : Type) where
  | leaf (a : α)
  | table
deriving DecidableEq

variable {κ α : Type} [DecidableEq κ]

def get? (t : Table κ α) (k : κ) : Option (Node κ α) :=
  (t.find? fun e => e.1 = k).map Prod.snd

def kindAt : Table κ α → List κ → Option (Kind α)
  | _, [] => some .table
  | t, k :: ks =>
    match get? t k with
    | none => none
    | some (.leaf a) => if ks = [] then some (.leaf a) else none
    | some (.table es) => kindAt es ks

/-- The leaf at a path. -/
def leafAt (t : Table κ α) (p : List κ) : Option α :=
  match kindAt t p with
  | some (.leaf a) => some a
  | _ => none

variable {t u : Table κ α} {p : List κ}

@[simp] theorem get?_nil (k : κ) : get? ([] : Table κ α) k = none := rfl

@[simp] theorem kindAt_nil : kindAt t [] = some .table := by rw [kindAt.eq_def]

theorem kindAt_empty (p : List κ) :
    kindAt ([] : Table κ α) p = if p = [] then some .table else none := by
  cases p <;> simp [kindAt]

@[simp] theorem leafAt_nil : leafAt t [] = none := by simp [leafAt]

@[simp] theorem leafAt_empty (p : List κ) : leafAt ([] : Table κ α) p = none := by
  rw [leafAt, kindAt_empty]
  by_cases h : p = [] <;> simp [h]

theorem leafAt_congr (h : kindAt t p = kindAt u p) : leafAt t p = leafAt u p := by
  rw [leafAt, leafAt, h]

@[simp] theorem get?_setEntry (t : Table κ α) (k j : κ) (n : Node κ α) :
    get? (setEntry k n t) j = if j = k then some n else get? t j := by
  rw [get?, find?_setEntry]
  by_cases h : j = k <;> simp [get?, h]

theorem leafAt_cons_of_none {k : κ} (h : get? t k = none) : leafAt t (k :: p) = none := by
  simp [leafAt, kindAt, h]

theorem leafAt_cons_of_leaf {k : κ} {a : α} (h : get? t k = some (.leaf a)) :
    leafAt t (k :: p) = if p = [] then some a else none := by
  by_cases hp : p = [] <;> simp [leafAt, kindAt, h, hp]

theorem leafAt_cons_of_table {k : κ} (h : get? t k = some (.table u)) :
    leafAt t (k :: p) = leafAt u p := by
  simp [leafAt, kindAt, h]

/-- Only the value under the first key matters to the rest of a path. -/
theorem leafAt_cons_congr {k : κ} (h : get? t k = get? u k) :
    leafAt t (k :: p) = leafAt u (k :: p) := by
  simp [leafAt, kindAt, h]

/-- Nothing stands below the first key of a path that is absent. -/
theorem leafAt_of_absent {k : κ} {ks : List κ} (h : get? t k = none) (hp : k :: ks <+: p) :
    leafAt t p = none := by
  obtain ⟨rest, rfl⟩ := hp
  exact leafAt_cons_of_none h

theorem leafAt_eq_some_iff {a : α} : leafAt t p = some a ↔ kindAt t p = some (.leaf a) := by
  rw [leafAt]
  split <;> simp_all

theorem kindAt_below_leaf {q : List κ} {a : α} (h : kindAt t p = some (.leaf a)) (hpq : p <+: q)
    (hne : q ≠ p) : kindAt t q = none := by
  induction p generalizing t q with
  | nil => simp at h
  | cons k p ih =>
    obtain ⟨rest, rfl⟩ := hpq
    rw [kindAt] at h
    rw [List.cons_append, kindAt]
    split at h
    · exact nomatch h
    · rename_i hget
      split at h
      · rename_i hp
        subst hp
        simpa [hget] using hne
      · exact nomatch h
    · rename_i es hget
      exact ih h (List.prefix_append p rest) (by simpa using hne)

/-- Two documents that say the same at every path. -/
def Agree (t u : Table κ α) : Prop := ∀ p, kindAt t p = kindAt u p

mutual

def Node.paths : Node κ α → List (List κ)
  | .leaf _ => [[]]
  | .table es => [] :: paths es

/-- The paths below the root at which a document has something. -/
def paths : List (κ × Node κ α) → List (List κ)
  | [] => []
  | (k, n) :: es => n.paths.map (k :: ·) ++ paths es

end

omit [DecidableEq κ] in
theorem nil_mem_paths (n : Node κ α) : [] ∈ n.paths := by
  cases n <;> simp [Node.paths]

theorem mem_paths_of_get? {k : κ} {n : Node κ α} (h : get? t k = some n) (hp : p ∈ n.paths) :
    k :: p ∈ paths t := by
  induction t with
  | nil => simp at h
  | cons e t ih =>
    obtain ⟨j, m⟩ := e
    rw [paths, List.mem_append]
    by_cases hj : j = k
    · subst hj
      obtain rfl : m = n := by simpa [get?] using h
      exact Or.inl (List.mem_map_of_mem hp)
    · exact Or.inr (ih (by simpa [get?, hj] using h))

theorem mem_paths_of_kindAt (h : kindAt t p ≠ none) : p ∈ [] :: paths t := by
  induction p generalizing t with
  | nil => exact List.mem_cons_self
  | cons k p ih =>
    refine List.mem_cons_of_mem _ ?_
    cases hget : get? t k with
    | none => simp [kindAt, hget] at h
    | some n =>
      apply mem_paths_of_get? hget
      cases n with
      | leaf a =>
        obtain rfl : p = [] := by simpa [kindAt, hget] using h
        exact nil_mem_paths _
      | table es =>
        rw [Node.paths]
        exact ih (by simpa [kindAt, hget] using h)

theorem agree_iff : Agree t u ↔ ∀ p ∈ paths t ++ paths u, kindAt t p = kindAt u p := by
  constructor
  · exact fun h p _ => h p
  · intro h p
    by_cases ht : kindAt t p = none ∧ kindAt u p = none
    · rw [ht.1, ht.2]
    cases p with
    | nil => simp
    | cons k p =>
      apply h
      rw [List.mem_append]
      rcases not_and_or.mp ht with ht | hu
      · exact Or.inl (by simpa using mem_paths_of_kindAt ht)
      · exact Or.inr (by simpa using mem_paths_of_kindAt hu)

instance [DecidableEq α] : Decidable (Agree t u) := decidable_of_iff _ agree_iff.symm

section Write

variable {kind : List κ → Option (Kind α)} {k l : List κ} {a b : α}

/-- What stands at each path after the leaf `a` is set at `k`: tables lead to it and nothing stands
below it. -/
def kindAfter (kind : List κ → Option (Kind α)) (k : List κ) (a : α) (p : List κ) :
    Option (Kind α) :=
  if p = k then some (.leaf a)
  else if k <+: p then none
  else if p <+: k then some .table
  else kind p

/-- A leaf can be set at `k`: no leaf stands on the way. -/
def Open (kind : List κ → Option (Kind α)) (k : List κ) : Prop :=
  ∀ p, p <+: k → p ≠ k → ∀ a, kind p ≠ some (.leaf a)

@[simp] theorem kindAfter_self : kindAfter kind k a k = some (.leaf a) := if_pos rfl

theorem kindAfter_below (hne : p ≠ k) (h : k <+: p) : kindAfter kind k a p = none := by
  rw [kindAfter, if_neg hne, if_pos h]

theorem kindAfter_above (hne : p ≠ k) (h : p <+: k) : kindAfter kind k a p = some .table := by
  have hkp : ¬ k <+: p := fun hkp => hne (h.eq_of_length_le hkp.length_le)
  rw [kindAfter, if_neg hne, if_neg hkp, if_pos h]

theorem kindAfter_beside (hkp : ¬ k <+: p) (hpk : ¬ p <+: k) : kindAfter kind k a p = kind p := by
  have hne : p ≠ k := fun h => hkp (h ▸ List.prefix_rfl)
  rw [kindAfter, if_neg hne, if_neg hkp, if_neg hpk]

theorem kindAfter_idem : kindAfter (kindAfter kind k a) k a = kindAfter kind k a := by
  funext p
  by_cases hne : p = k
  · subst hne
    simp
  by_cases hkp : k <+: p
  · rw [kindAfter_below hne hkp, kindAfter_below hne hkp]
  by_cases hpk : p <+: k
  · rw [kindAfter_above hne hpk, kindAfter_above hne hpk]
  · rw [kindAfter_beside hkp hpk]

/-- Leaves set at two paths neither of which leads to the other do not meet. -/
theorem kindAfter_comm (hkl : ¬ k <+: l) (hlk : ¬ l <+: k) :
    kindAfter (kindAfter kind k a) l b = kindAfter (kindAfter kind l b) k a := by
  have hne : k ≠ l := fun h => hkl (h ▸ List.prefix_rfl)
  funext p
  by_cases hpk : p = k
  · subst hpk
    rw [kindAfter_self, kindAfter_beside hlk hkl, kindAfter_self]
  by_cases hpl : p = l
  · subst hpl
    rw [kindAfter_self, kindAfter_beside hkl hlk, kindAfter_self]
  by_cases hkp : k <+: p
  · rw [kindAfter_below hpk hkp]
    by_cases hlp : l <+: p
    · exact absurd (List.prefix_or_prefix_of_prefix hkp hlp) (by simp [hkl, hlk])
    by_cases hpl' : p <+: l
    · exact absurd (hkp.trans hpl') hkl
    · rw [kindAfter_beside hlp hpl', kindAfter_below hpk hkp]
  by_cases hlp : l <+: p
  · rw [kindAfter_below hpl hlp]
    by_cases hpk' : p <+: k
    · exact absurd (hlp.trans hpk') hlk
    · rw [kindAfter_beside hkp hpk', kindAfter_below hpl hlp]
  by_cases hpk' : p <+: k
  · rw [kindAfter_above hpk hpk']
    by_cases hpl' : p <+: l
    · rw [kindAfter_above hpl hpl']
    · rw [kindAfter_beside hlp hpl', kindAfter_above hpk hpk']
  · rw [kindAfter_beside hkp hpk']
    by_cases hpl' : p <+: l
    · rw [kindAfter_above hpl hpl', kindAfter_above hpl hpl']
    · rw [kindAfter_beside hlp hpl', kindAfter_beside hlp hpl', kindAfter_beside hkp hpk']

@[simp] theorem kindAfter_cons_nil {k : κ} {ks : List κ} :
    kindAfter kind (k :: ks) a [] = some .table := by
  rw [kindAfter_above (by simp) List.nil_prefix]

theorem kindAfter_cons_cons {j k : κ} {ks q : List κ} :
    kindAfter kind (k :: ks) a (j :: q) =
      if j = k then kindAfter (fun r => kind (k :: r)) ks a q else kind (j :: q) := by
  by_cases hj : j = k
  · subst hj
    simp [kindAfter]
  · rw [if_neg hj, kindAfter_beside (by simp [Ne.symm hj]) (by simp [hj])]

/-- What stood on the way to `k` does not matter. -/
theorem kindAfter_congr {kind' : List κ → Option (Kind α)}
    (h : ∀ p, ¬ p <+: k → kind p = kind' p) : kindAfter kind k a = kindAfter kind' k a := by
  funext p
  by_cases hpk : p <+: k
  · by_cases hne : p = k
    · subst hne
      simp
    · rw [kindAfter_above hne hpk, kindAfter_above hne hpk]
  · rw [kindAfter, kindAfter, h p hpk]

omit [DecidableEq κ] in
theorem open_cons {k : κ} {ks : List κ} (hroot : kind [] = some .table) :
    Open kind (k :: ks) ↔ Open (fun p => kind (k :: p)) ks := by
  constructor
  · intro h p hp hne a
    exact h (k :: p) (by simpa using hp) (by simpa using hne) a
  · intro h p hp hne a
    cases p with
    | nil => simp [hroot]
    | cons j p =>
      obtain ⟨rfl, hpks⟩ := List.cons_prefix_cons.mp hp
      exact h p hpks (by simpa using hne) a

/-- A leaf set beside `l` neither opens nor closes the way to `l`. -/
theorem open_kindAfter (hk : Open kind k) (hkl : ¬ k <+: l) :
    Open (kindAfter kind k a) l ↔ Open kind l := by
  have hkind : ∀ p, p <+: l → p ≠ l →
      ((∃ b, kindAfter kind k a p = some (.leaf b)) ↔ ∃ b, kind p = some (.leaf b)) := by
    intro p hpl hne
    have hkp : ¬ k <+: p := fun h => hkl (h.trans hpl)
    have hpk : p ≠ k := fun h => hkp (h ▸ List.prefix_rfl)
    by_cases hpk' : p <+: k
    · rw [kindAfter_above hpk hpk']
      exact ⟨nofun, fun ⟨b, hb⟩ => absurd hb (hk p hpk' hpk b)⟩
    · rw [kindAfter_beside hkp hpk']
  constructor
  · intro h p hpl hne b hb
    obtain ⟨c, hc⟩ := (hkind p hpl hne).mpr ⟨b, hb⟩
    exact h p hpl hne c hc
  · intro h p hpl hne b hb
    obtain ⟨c, hc⟩ := (hkind p hpl hne).mp ⟨b, hb⟩
    exact h p hpl hne c hc

end Write

end NestedTable
