import Mathlib.Data.List.Basic

/-! # Histories in which every event is justified

A history lists events in the order they happened. It is justified when each of
its events is justified by the events before it.
-/

namespace Causal

variable {ε : Type*}

def Justified (J : List ε → ε → Prop) (log : List ε) : Prop :=
  ∀ past e rest, log = past ++ e :: rest → J past e

variable {J : List ε → ε → Prop} {log events : List ε} {e e' : ε}

theorem justified_nil : Justified J [] := by
  rintro past e rest h
  simp at h

/-- A justified history goes on with events that are justified by it and by each other. -/
theorem Justified.append (h : Justified J log)
    (he : ∀ past e rest, events = past ++ e :: rest → J (log ++ past) e) :
    Justified J (log ++ events) := by
  rintro past e rest heq
  rcases List.append_eq_append_iff.mp heq with ⟨as, rfl, hevents⟩ | ⟨bs, rfl, hevents⟩
  · exact he as e rest hevents
  · cases bs with
    | nil =>
      have hnow := he [] e rest (by simpa using hevents.symm)
      simpa using hnow
    | cons b bs =>
      obtain ⟨rfl, -⟩ := List.cons.inj hevents
      exact h past e bs rfl

theorem Justified.concat (h : Justified J log) (he : J log e) : Justified J (log ++ [e]) := by
  apply h.append
  rintro past e' rest heq
  obtain ⟨rfl, rfl, rfl⟩ : past = [] ∧ e' = e ∧ rest = [] := by
    simpa [List.singleton_eq_append_iff] using heq
  simpa using he

/-- Two events at once, of which the first may justify the second. -/
theorem Justified.concat₂ (h : Justified J log) (he : J log e) (he' : J (log ++ [e]) e') :
    Justified J (log ++ [e, e']) := by
  have hboth := (h.concat he).concat he'
  simpa using hboth

end Causal
