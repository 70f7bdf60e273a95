import Mathlib.Data.List.Induction
import Mathlib.Data.List.Nodup
import Mathlib.Logic.Function.Basic
import ValyriaApp.Lib.OrderedMap

/-! # Keyed records

A stream of records keeps one value for each key: a record updates the value of
its key where it stands, or adds one. What is kept for a key is what the records
of that key leave behind, and a field of it comes from the last of them, from
the first, or from the last one that supplied it.
-/

namespace Keyed

variable {ρ κ β γ : Type*} {u : ρ → Option β → β} {rs : List ρ} {r : ρ}

/-- The records of a list of events, in order; an event that has no record is passed over. -/
inductive Records {ε : Type*} (R : ε → ρ → Prop) : List ε → List ρ → Prop
  | nil : Records R [] []
  | skip {e : ε} {es : List ε} {rs : List ρ} :
      (∀ r, ¬ R e r) → Records R es rs → Records R (e :: es) rs
  | take {e : ε} {r : ρ} {es : List ε} {rs : List ρ} :
      R e r → Records R es rs → Records R (e :: es) (r :: rs)

theorem records_filterMap {ε : Type*} {R : ε → ρ → Prop} {record : ε → Option ρ}
    (h : ∀ e r, record e = some r ↔ R e r) (es : List ε) : Records R es (es.filterMap record) := by
  induction es with
  | nil => exact .nil
  | cons e es ih =>
    cases hrec : record e with
    | none =>
      rw [List.filterMap_cons_none hrec]
      exact .skip (fun r hr => by simp [(h e r).mpr hr] at hrec) ih
    | some r =>
      rw [List.filterMap_cons_some hrec]
      exact .take ((h e r).mp hrec) ih

theorem Records.eq_filterMap {ε : Type*} {R : ε → ρ → Prop} {record : ε → Option ρ}
    (h : ∀ e r, record e = some r ↔ R e r) {es : List ε} {rs : List ρ} (hrs : Records R es rs) :
    rs = es.filterMap record := by
  induction hrs with
  | nil => rfl
  | @skip e es rs hnone _ ih =>
    have hrec : record e = none := Option.eq_none_iff_forall_ne_some.mpr fun r hr =>
      hnone r ((h e r).mp hr)
    rw [List.filterMap_cons_none hrec, ih]
  | take hr _ ih => rw [List.filterMap_cons_some ((h _ _).mpr hr), ih]

/-- A part of a state that only the events with a record change is a fold of the records. -/
theorem foldl_records {ε α σ : Type*} {fold : α → ε → α} (part : α → σ) (put : σ → ρ → σ)
    {record : ε → Option ρ}
    (h : ∀ a e, part (fold a e) = ((record e).map (put (part a))).getD (part a)) (es : List ε)
    (a : α) : part (es.foldl fold a) = (es.filterMap record).foldl put (part a) := by
  induction es generalizing a with
  | nil => rfl
  | cons e es ih =>
    rw [List.foldl_cons, ih, h]
    cases hrec : record e with
    | none => rw [List.filterMap_cons_none hrec, Option.map_none, Option.getD_none]
    | some r =>
      rw [List.filterMap_cons_some hrec, List.foldl_cons, Option.map_some, Option.getD_some]

/-- What records leave behind one after the other, each seeing what was there. -/
def latest (u : ρ → Option β → β) (rs : List ρ) : Option β :=
  rs.foldl (fun o r => some (u r o)) none

@[simp] theorem latest_nil : latest u [] = none := rfl

@[simp] theorem latest_concat : latest u (rs ++ [r]) = some (u r (latest u rs)) := by
  simp [latest]

theorem latest_isSome (h : rs ≠ []) : (latest u rs).isSome := by
  induction rs using List.reverseRecOn with
  | nil => exact absurd rfl h
  | append_singleton rs r _ => rw [latest_concat, Option.isSome_some]

/-! ## Fields -/

section Fields

variable {get : β → γ} {g : ρ → γ}

/-- A field that every record writes is the last one's. -/
theorem map_latest_of_last (h : ∀ r o, get (u r o) = g r) :
    (latest u rs).map get = rs.getLast?.map g := by
  induction rs using List.reverseRecOn with
  | nil => rfl
  | append_singleton rs r _ => simp [h]

/-- A field that only the first record writes is the first one's. -/
theorem map_latest_of_first (h : ∀ r o, get (u r o) = (o.map get).getD (g r)) :
    (latest u rs).map get = rs.head?.map g := by
  induction rs using List.reverseRecOn with
  | nil => rfl
  | append_singleton rs r ih =>
    rw [latest_concat, Option.map_some, h, ih]
    cases rs <;> simp

/-- A field that may be missing is carried over from the last record that supplied it. -/
theorem bind_latest_of_carried {get : β → Option γ} {f : ρ → Option γ}
    (h : ∀ r o, get (u r o) = (f r).or (o.bind get)) :
    (latest u rs).bind get = (rs.filterMap f).getLast? := by
  induction rs using List.reverseRecOn with
  | nil => rfl
  | append_singleton rs r ih =>
    rw [latest_concat, Option.bind_some, h, ih, List.filterMap_append]
    cases hf : f r <;> simp [hf]

/-- A field with a default is carried over from the last record that supplied it. -/
theorem map_latest_of_carried {f : ρ → Option γ} {d : γ}
    (h : ∀ r o, get (u r o) = (f r).getD ((o.map get).getD d)) :
    ((latest u rs).map get).getD d = (rs.filterMap f).getLast?.getD d := by
  induction rs using List.reverseRecOn with
  | nil => rfl
  | append_singleton rs r ih =>
    rw [latest_concat, Option.map_some, Option.getD_some, h, ih, List.filterMap_append]
    cases hf : f r <;> simp [hf]

end Fields

/-! ## Lists of values -/

variable [DecidableEq κ] {key : β → κ} {kr : ρ → κ} {k : κ} {f : Option β → β} {bs : List β}
  {ks : List κ} {g : κ → Option β}

/-- Update the value of the key where it stands, or add one at the end. -/
def upsert (key : β → κ) (k : κ) (f : Option β → β) : List β → List β
  | [] => [f none]
  | b :: bs => if key b = k then f (some b) :: bs else b :: upsert key k f bs

theorem upsert_of_notMem (h : ∀ b ∈ bs, key b ≠ k) : upsert key k f bs = bs ++ [f none] := by
  induction bs with
  | nil => rfl
  | cons b bs ih =>
    rw [upsert, if_neg (h b List.mem_cons_self), ih fun c hc => h c (List.mem_cons_of_mem _ hc),
      List.cons_append]

theorem eraseDups_concat (ks : List κ) (k : κ) :
    (ks ++ [k]).eraseDups = if k ∈ ks then ks.eraseDups else ks.eraseDups ++ [k] := by
  rw [List.eraseDups_append]
  by_cases h : k ∈ ks <;> simp [List.removeAll, List.eraseDups_cons, h]

theorem nodup_eraseDups : ks.eraseDups.Nodup := by
  induction ks using List.reverseRecOn with
  | nil => simp
  | append_singleton ks j ih =>
    rw [eraseDups_concat]
    split
    · exact ih
    · rename_i hj
      refine ih.append (List.nodup_singleton j) ?_
      simpa using hj

/-- Where each key has one value, the value of the key is updated. -/
theorem upsert_filterMap (hks : ks.Nodup) (hg : ∀ j ∈ ks, ∃ b, g j = some b ∧ key b = j)
    (hk : k ∈ ks) :
    upsert key k f (ks.filterMap g) =
      ks.filterMap (Function.update g k (some (f (g k)))) := by
  induction ks with
  | nil => simp at hk
  | cons j ks ih =>
    obtain ⟨hj, hks⟩ := List.nodup_cons.mp hks
    obtain ⟨b, hb, hkey⟩ := hg j List.mem_cons_self
    rw [List.filterMap_cons_some hb, upsert, hkey]
    by_cases hjk : j = k
    · subst hjk
      have hrest : ks.filterMap (Function.update g j (some (f (g j)))) = ks.filterMap g := by
        refine List.filterMap_congr fun i hi => ?_
        have hij : i ≠ j := fun hij => hj (hij ▸ hi)
        rw [Function.update_of_ne hij]
      rw [if_pos rfl, List.filterMap_cons_some (by rw [Function.update_self]), hrest, hb]
    · have hrest := ih hks (fun i hi => hg i (List.mem_cons_of_mem _ hi))
        ((List.mem_cons.mp hk).resolve_left (Ne.symm hjk))
      rw [if_neg hjk, hrest,
        List.filterMap_cons_some (b := b) (by rw [Function.update_of_ne hjk, hb])]

theorem latest_of_mem (hkey : ∀ r o, key (u r o) = kr r) (hk : k ∈ (rs.map kr).eraseDups) :
    ∃ b, latest u (rs.filter (kr · = k)) = some b ∧ key b = k := by
  obtain ⟨r, hr, hkr⟩ := List.mem_map.mp (List.mem_eraseDups.mp hk)
  have hne : rs.filter (kr · = k) ≠ [] :=
    List.ne_nil_of_mem (List.mem_filter.mpr ⟨hr, decide_eq_true hkr⟩)
  obtain ⟨b, hb⟩ := Option.isSome_iff_exists.mp (latest_isSome (u := u) hne)
  have hlast : (latest u (rs.filter (kr · = k))).map key = (rs.filter (kr · = k)).getLast?.map kr :=
    map_latest_of_last hkey
  rw [hb, Option.map_some] at hlast
  obtain ⟨last, hmem, hlast⟩ := Option.map_eq_some_iff.mp hlast.symm
  refine ⟨b, hb, ?_⟩
  rw [← hlast]
  exact of_decide_eq_true (List.mem_filter.mp (List.mem_of_getLast? hmem)).2

/-- The values stand in the order in which their keys were first seen, and each is what the records
of its key leave behind. -/
theorem foldl_upsert (hkey : ∀ r o, key (u r o) = kr r) (rs : List ρ) :
    rs.foldl (fun bs r => upsert key (kr r) (u r) bs) [] =
      (rs.map kr).eraseDups.filterMap fun k => latest u (rs.filter (kr · = k)) := by
  induction rs using List.reverseRecOn with
  | nil => rfl
  | append_singleton rs r ih =>
    have hlatest (k : κ) : latest u ((rs ++ [r]).filter (kr · = k)) =
        Function.update (fun k => latest u (rs.filter (kr · = k))) (kr r)
          (some (u r (latest u (rs.filter (kr · = kr r))))) k := by
      rw [List.filter_append]
      by_cases hk : k = kr r
      · subst hk
        simp
      · rw [Function.update_of_ne hk]
        simp [Ne.symm hk]
    simp only [hlatest]
    rw [List.foldl_append, List.foldl_cons, List.foldl_nil, ih, List.map_append, List.map_singleton,
      eraseDups_concat]
    by_cases hk : kr r ∈ rs.map kr
    · rw [if_pos hk]
      exact upsert_filterMap nodup_eraseDups (fun j hj => latest_of_mem hkey hj)
        (List.mem_eraseDups.mpr hk)
    · rw [if_neg hk, List.filterMap_append]
      have hnone : rs.filter (kr · = kr r) = [] := by
        rw [List.filter_eq_nil_iff]
        simpa using hk
      have hrest : (rs.map kr).eraseDups.filterMap (Function.update
          (fun k => latest u (rs.filter (kr · = k))) (kr r)
            (some (u r (latest u (rs.filter (kr · = kr r)))))) =
          (rs.map kr).eraseDups.filterMap fun k => latest u (rs.filter (kr · = k)) := by
        refine List.filterMap_congr fun j hj => ?_
        have hne : j ≠ kr r := fun h => hk (h ▸ List.mem_eraseDups.mp hj)
        rw [Function.update_of_ne hne]
      rw [hrest, upsert_of_notMem]
      · simp [hnone]
      · intro b hb
        obtain ⟨j, hj, hb⟩ := List.mem_filterMap.mp hb
        obtain ⟨b', hb', hkeyb⟩ := latest_of_mem hkey hj
        obtain rfl := Option.some.inj (hb.symm.trans hb')
        rw [hkeyb]
        rintro rfl
        exact hk (List.mem_eraseDups.mp hj)

/-! ## Maps of values -/

theorem get?_foldl_set (rs : List ρ) (k : κ) :
    (rs.foldl (fun m r => m.set (kr r) (u r (m.get? (kr r)))) OrderedMap.empty).get? k =
      latest u (rs.filter (kr · = k)) := by
  induction rs using List.reverseRecOn with
  | nil => rfl
  | append_singleton rs r ih =>
    rw [List.foldl_append, List.foldl_cons, List.foldl_nil, OrderedMap.get?_set,
      List.filter_append]
    by_cases hk : kr r = k
    · subst hk
      simp [ih]
    · simp [ih, hk, Ne.symm hk]

end Keyed
