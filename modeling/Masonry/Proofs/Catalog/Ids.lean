import Mathlib.Data.List.Induction
import Mathlib.Order.Bounds.Basic
import Mathlib.Tactic.Linarith
import Masonry.Catalog

/-!
# Ids of shapes

An id stands for the last shape of a catalog that has it, by its index, as a shape and by its boxes
(`Catalog.standsFor`). The index of the last shape is the one that an index of ids has which is kept
while shapes are added, where each shape takes its id over (`Catalog.getElem?_ids`).
-/

namespace Masonry

theorem lastIndex?_concat {β : Type} (test : β → Bool) (bs : List β) (b : β) :
    lastIndex? test (bs ++ [b]) = if test b then some bs.length else lastIndex? test bs := by
  induction bs with
  | nil => rfl
  | cons a bs ih =>
    rw [List.cons_append, lastIndex?, ih, lastIndex?]
    cases test b <;> rfl

namespace Catalog

variable {α : Type} {c : Catalog α} {s : Shape α} {id : Int32}

/-- A catalog comes from none by adding its shapes. -/
theorem push_induction {motive : Catalog α → Prop} (empty : motive .empty)
    (push : ∀ c s, motive c → motive (c.push s)) (c : Catalog α) : motive c := by
  obtain ⟨shapes⟩ := c
  induction shapes using List.reverseRecOn with
  | nil => exact empty
  | append_singleton shapes s ih => exact push ⟨shapes⟩ s ih

theorem size_push : (c.push s).size = c.size + 1 := List.length_append

theorem get?_push_of_lt {i : Nat} (h : i < c.size) : (c.push s).get? i = c.get? i :=
  List.getElem?_append_left h

theorem get?_push_size : (c.push s).get? c.size = some s := List.getElem?_concat_length

theorem lt_of_idAt? {i : Nat} (h : c.idAt? i = some id) : i < c.size := by
  obtain ⟨s, hs, -⟩ := Option.map_eq_some_iff.1 h
  exact (List.getElem?_eq_some_iff.1 hs).1

/-- A shape that is added has its id at the end, and the others keep theirs. -/
theorem idAt?_push_eq_some_iff {i : Nat} : (c.push s).idAt? i = some id ↔
    c.idAt? i = some id ∨ i = c.size ∧ s.id = id := by
  constructor
  · intro h
    have hi : i < c.size + 1 := size_push ▸ lt_of_idAt? h
    obtain hlt | rfl := Nat.lt_succ_iff_lt_or_eq.1 hi
    · rw [idAt?, get?_push_of_lt hlt] at h
      exact .inl h
    · rw [idAt?, get?_push_size] at h
      exact .inr ⟨rfl, Option.some.inj h⟩
  · rintro (h | ⟨rfl, rfl⟩)
    · rw [idAt?, get?_push_of_lt (lt_of_idAt? h)]
      exact h
    · rw [idAt?, get?_push_size]
      rfl

theorem indexOf?_push :
    (c.push s).indexOf? id = if s.id = id then some c.size else c.indexOf? id := by
  rw [indexOf?, push, lastIndex?_concat]
  simp only [beq_iff_eq]
  rfl

/-- The index of each id that is kept while shapes are added one after the other. -/
def ids (c : Catalog α) : Std.HashMap Int32 Nat :=
  c.shapes.zipIdx.foldl (fun ids entry => ids.insert entry.1.id entry.2) ∅

theorem ids_push : (c.push s).ids = c.ids.insert s.id c.size := by
  rw [ids, push, List.zipIdx_append, List.foldl_append, ids]
  simp [size]

/-- The kept index has for each id the index of the last shape with it. -/
theorem getElem?_ids (c : Catalog α) (id : Int32) : c.ids[id]? = c.indexOf? id := by
  induction c using push_induction with
  | empty => simp [ids, Catalog.empty, indexOf?, lastIndex?]
  | push c s ih =>
    rw [ids_push, Std.HashMap.getElem?_insert, indexOf?_push, ih]
    simp only [beq_iff_eq]

/-- What an id stands for: no shape, or the last one that has it. The index, the shape and its box turned
by any angle belong together. -/
inductive StandsFor [Scalar α] (c : Catalog α) (id : Int32) :
    Option Nat → Option (Shape α) → (α → Option (Box α)) → Prop
  | nothing (h : ∀ j, c.idAt? j ≠ some id) : StandsFor c id none none fun _ => none
  | last {i : Nat} {s : Shape α} (h : IsGreatest {j | c.idAt? j = some id} i)
      (hs : c.get? i = some s) : StandsFor c id (some i) (some s) fun degrees => some (s.boxAt degrees)

theorem indexOf?_eq_none (h : c.indexOf? id = none) (j : Nat) : c.idAt? j ≠ some id := by
  induction c using push_induction with
  | empty => simp [Catalog.empty, idAt?, get?]
  | push c s ih =>
    rw [indexOf?_push] at h
    split at h
    · cases h
    · next hs =>
      rw [Ne, idAt?_push_eq_some_iff, not_or]
      exact ⟨ih h, fun h' => hs h'.2⟩

theorem isGreatest_indexOf? {i : Nat} (h : c.indexOf? id = some i) :
    IsGreatest {j | c.idAt? j = some id} i := by
  induction c using push_induction with
  | empty => cases h
  | push c s ih =>
    rw [indexOf?_push] at h
    split at h
    · next hs =>
      cases h
      refine ⟨idAt?_push_eq_some_iff.2 (.inr ⟨rfl, hs⟩), fun j hj => ?_⟩
      exact (idAt?_push_eq_some_iff.1 hj).elim (fun h => Nat.le_of_lt (lt_of_idAt? h))
        fun h => Nat.le_of_eq h.1
    · next hs =>
      obtain ⟨hmem, hgreatest⟩ := ih h
      refine ⟨idAt?_push_eq_some_iff.2 (.inl hmem), fun j hj => ?_⟩
      exact (idAt?_push_eq_some_iff.1 hj).elim (fun h => hgreatest h) fun h => absurd h.2 hs

theorem standsFor [Scalar α] (c : Catalog α) (id : Int32) :
    c.StandsFor id (c.indexOf? id) (c.shape? id) (c.boxAt? id) := by
  cases hindex : c.indexOf? id with
  | none =>
    have hshape : c.shape? id = none := by rw [shape?, hindex]; rfl
    have hbox : c.boxAt? id = fun _ => none := by
      funext degrees
      rw [boxAt?, hshape]
      rfl
    rw [hshape, hbox]
    exact .nothing (indexOf?_eq_none hindex)
  | some i =>
    have hlast := isGreatest_indexOf? hindex
    obtain ⟨s, hs, -⟩ := Option.map_eq_some_iff.1 hlast.1
    have hshape : c.shape? id = some s := by rw [shape?, hindex]; exact hs
    have hbox : c.boxAt? id = fun degrees => some (s.boxAt degrees) := by
      funext degrees
      rw [boxAt?, hshape]
      rfl
    rw [hshape, hbox]
    exact .last hlast hs

end Catalog

end Masonry
