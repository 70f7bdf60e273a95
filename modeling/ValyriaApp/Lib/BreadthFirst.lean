import Mathlib.Algebra.GroupWithZero.Nat
import Mathlib.Algebra.Order.BigOperators.Group.List
import Mathlib.Algebra.Order.Group.Nat
import Mathlib.Data.List.Nodup
import Mathlib.Logic.Relation

/-! # Breadth-first traversal of a forest

The children of a node are together smaller than the node, so a queue from which
one node is taken and to which its children are added runs empty. What is found
on the way is what is found somewhere below the queue, and it is found once when
no two nodes of the queue have anything below them in common.
-/

namespace BreadthFirst

structure Forest (α : Type*) where
  children : α → List α
  size : α → ℕ
  size_children : ∀ a, ((children a).map size).sum < size a

variable {α β : Type*} (F : Forest α)

/-- What is found at the nodes, in the order in which they leave the queue. -/
def Forest.traverse (found : α → List β) : List α → List β
  | [] => []
  | a :: queue => found a ++ traverse found (queue ++ F.children a)
termination_by queue => (queue.map F.size).sum
decreasing_by
  have := F.size_children a
  simp only [List.map_append, List.sum_append, List.map_cons, List.sum_cons]
  omega

/-- `b` is `a` or one of its descendants. -/
def Forest.Below (a b : α) : Prop := Relation.ReflTransGen (fun a b => b ∈ F.children a) a b

/-- Nothing is below both. -/
def Forest.Apart (a b : α) : Prop := ∀ c, F.Below a c → ¬ F.Below b c

variable {F} {found : α → List β} {a b c : α} {queue : List α} {x : β}

theorem Forest.below_refl : F.Below a a := .refl

theorem Forest.Below.of_child (hc : c ∈ F.children a) (h : F.Below c b) : F.Below a b :=
  .head hc h

theorem Forest.below_iff : F.Below a b ↔ a = b ∨ ∃ c ∈ F.children a, F.Below c b := by
  rw [Forest.Below, Relation.ReflTransGen.cases_head_iff]
  rfl

theorem Forest.size_child (hc : c ∈ F.children a) : F.size c < F.size a := by
  have hmem : F.size c ∈ (F.children a).map F.size := List.mem_map_of_mem hc
  exact (List.le_sum_of_mem hmem).trans_lt (F.size_children a)

theorem Forest.Below.size_le (h : F.Below a b) : F.size b ≤ F.size a := by
  induction h with
  | refl => exact le_rfl
  | tail _ hc ih => exact (F.size_child hc).le.trans ih

theorem Forest.not_below_child (hc : c ∈ F.children a) : ¬ F.Below c a := fun h =>
  absurd h.size_le (Nat.not_le.mpr (F.size_child hc))

theorem Forest.mem_traverse :
    x ∈ F.traverse found queue ↔ ∃ a ∈ queue, ∃ b, F.Below a b ∧ x ∈ found b := by
  induction queue using Forest.traverse.induct F with
  | case1 => simp [Forest.traverse]
  | case2 a queue ih =>
    rw [Forest.traverse, List.mem_append, ih]
    constructor
    · rintro (hx | ⟨c, hc, b, hb, hx⟩)
      · exact ⟨a, List.mem_cons_self, a, F.below_refl, hx⟩
      · rcases List.mem_append.mp hc with hc | hc
        · exact ⟨c, List.mem_cons_of_mem _ hc, b, hb, hx⟩
        · exact ⟨a, List.mem_cons_self, b, hb.of_child hc, hx⟩
    · rintro ⟨c, hc, b, hb, hx⟩
      rcases List.mem_cons.mp hc with rfl | hc
      · rcases Forest.below_iff.mp hb with rfl | ⟨d, hd, hb⟩
        · exact Or.inl hx
        · exact Or.inr ⟨d, List.mem_append_right _ hd, b, hb, hx⟩
      · exact Or.inr ⟨c, List.mem_append_left _ hc, b, hb, hx⟩

/-- Where each thing is found at one node and the nodes have nothing below in common, nothing is
found twice. -/
theorem Forest.nodup_traverse (hfound : ∀ a, (found a).Nodup)
    (hplace : ∀ a b x, x ∈ found a → x ∈ found b → a = b)
    (hchildren : ∀ a, (F.children a).Pairwise F.Apart) (hqueue : queue.Pairwise F.Apart) :
    (F.traverse found queue).Nodup := by
  induction queue using Forest.traverse.induct F with
  | case1 =>
    rw [Forest.traverse]
    exact List.nodup_nil
  | case2 a queue ih =>
    obtain ⟨hfirst, hrest⟩ := List.pairwise_cons.mp hqueue
    rw [Forest.traverse]
    refine List.Nodup.append (hfound a) (ih ?_) ?_
    · refine List.pairwise_append.mpr ⟨hrest, hchildren a, fun b hb c hc d hbd hcd => ?_⟩
      exact hfirst b hb d (hcd.of_child hc) hbd
    · intro x hx hmem
      obtain ⟨c, hc, b, hb, hxb⟩ := Forest.mem_traverse.mp hmem
      obtain rfl := hplace a b x hx hxb
      rcases List.mem_append.mp hc with hc | hc
      · exact hfirst c hc a F.below_refl hb
      · exact Forest.not_below_child hc hb

end BreadthFirst
