import Mathlib.Data.List.Sort
import Mathlib.Data.String.Basic
import ValyriaApp.Protocol.Json

/-! # Objects in the order of their keys

The maps of `serde_json` hold the properties of an object in the order of their
keys, those of JavaScript in the order they were written. Reading a property
does not show the difference, for the sort keeps the first entry of each key.
-/

namespace ValyriaApp.Lib

variable {α κ : Type*} [LinearOrder κ] {f : α → κ} {key : κ}

theorem find?_orderedInsert (a : α) (l : List α) :
    (l.orderedInsert (fun a b => f a ≤ f b) a).find? (f · = key) =
      (a :: l).find? (f · = key) := by
  induction l with
  | nil => rfl
  | cons b l ih =>
    rw [List.orderedInsert]
    split_ifs with hle
    · rfl
    · have hne : f a = key → f b ≠ key := by
        rintro rfl
        exact (not_le.mp hle).ne
      rw [List.find?_cons, ih, List.find?_cons, List.find?_cons, List.find?_cons]
      by_cases hb : f b = key
      · have ha : f a ≠ key := fun ha => hne ha hb
        simp [ha, hb]
      · simp [hb]

/-- Sorting by a key keeps the first entry of each key. -/
theorem find?_insertionSort (l : List α) :
    (l.insertionSort fun a b => f a ≤ f b).find? (f · = key) = l.find? (f · = key) := by
  induction l with
  | nil => rfl
  | cons a l ih =>
    rw [List.insertionSort_cons, find?_orderedInsert, List.find?_cons, ih, List.find?_cons]

end ValyriaApp.Lib

namespace ValyriaApp.Json

mutual

/-- The value, with the properties of its objects in the order of their keys. -/
def inOrder : Json → Json
  | null => null
  | bool b => bool b
  | num n => num n
  | str s => str s
  | arr xs => arr (itemsInOrder xs)
  | obj fields => obj ((fieldsInOrder fields).insertionSort fun a b => a.1 ≤ b.1)

def itemsInOrder : List Json → List Json
  | [] => []
  | x :: xs => inOrder x :: itemsInOrder xs

def fieldsInOrder : List (String × Json) → List (String × Json)
  | [] => []
  | (key, value) :: fields => (key, inOrder value) :: fieldsInOrder fields

end

theorem itemsInOrder_eq (xs : List Json) : itemsInOrder xs = xs.map inOrder := by
  induction xs with
  | nil => rfl
  | cons x xs ih => rw [itemsInOrder, ih, List.map_cons]

theorem find?_fieldsInOrder (fields : List (String × Json)) (key : String) :
    (fieldsInOrder fields).find? (fun f => f.1 = key) =
      (fields.find? fun f => f.1 = key).map fun f => (f.1, inOrder f.2) := by
  induction fields with
  | nil => rfl
  | cons field fields ih =>
    rw [fieldsInOrder, List.find?_cons, List.find?_cons, ih]
    by_cases h : field.1 = key <;> simp [h]

@[simp] theorem get?_inOrder (v : Json) (key : String) :
    v.inOrder.get? key = (v.get? key).map inOrder := by
  cases v with
  | obj fields =>
    rw [inOrder, get?, Lib.find?_insertionSort, find?_fieldsInOrder, Option.map_map, get?,
      Option.map_map]
    rfl
  | _ => rfl

@[simp] theorem str?_inOrder (v : Json) : v.inOrder.str? = v.str? := by
  cases v <;> rfl

end ValyriaApp.Json
