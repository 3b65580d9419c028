import Mathlib.Data.List.Basic
import Masonry.Proofs.Scalar.Order

/-!
# The nearest of several things

A search goes through a list and keeps the nearest thing so far; a later one takes its place only if it is
strictly nearer. So the search ends with the first of those things that are nearest of all (`Nearest`).
What it has kept after a part of the list is said by `Best`, which either step of such a search keeps
(`Best.pass`, `Best.take`). Things may lie at no distance at all, and are then passed over.
-/

namespace Masonry

variable {σ α : Type} [Scalar α]

/-- Things lie at one distance at most, and that is a number that is defined. -/
structure Measured (away : σ → α → Prop) : Prop where
  unique : ∀ {s d e}, away s d → away s e → d = e
  defined : ∀ {s d}, away s d → d ≤ d

/-- The thing with an index, at a distance, is the first of the nearest. -/
structure Nearest (away : σ → α → Prop) (l : List σ) (i : Nat) (s : σ) (d : α) : Prop where
  element : l[i]? = some s
  distance : away s d
  least : ∀ t ∈ l, ∀ e, away t e → d ≤ e
  first : ∀ j < i, ∀ t, l[j]? = some t → ∀ e, away t e → d < e

/-- What a search has found in a list: nothing, if there is nothing at any distance, or the first of the
nearest. -/
inductive Best (away : σ → α → Prop) (l : List σ) : Option (Nat × σ × α) → Prop where
  | absent (none_away : ∀ s ∈ l, ∀ d, ¬away s d) : Best away l none
  | found {i : Nat} {s : σ} {d : α} (nearest : Nearest away l i s d) : Best away l (some (i, s, d))

variable {away : σ → α → Prop} {l : List σ} {i j : Nat} {s t : σ} {d e : α}

theorem best_nil : Best away [] none := .absent (by simp)

variable [Scalar.Ordered α]

open Scalar.Ordered

/-- There is only one first among the nearest. -/
theorem Nearest.unique (h : Nearest away l i s d) (h' : Nearest away l j t e) : i = j ∧ s = t := by
  have hnot {i j s t d e} (h : Nearest away l i s d) (h' : Nearest away l j t e) : ¬i < j := by
    intro hlt
    have hnearer : e < d := h'.first i hlt s h.element d h.distance
    exact (lt_iff.1 hnearer).2 (h.least t (List.mem_of_getElem? h'.element) e h'.distance)
  obtain rfl : i = j := Nat.le_antisymm (Nat.not_lt.1 (hnot h' h)) (Nat.not_lt.1 (hnot h h'))
  exact ⟨rfl, Option.some.inj (h.element.symm.trans h'.element)⟩

namespace Best

variable {best : Option (Nat × σ × α)}

/-- A thing that is no nearer than the best so far is passed over. -/
theorem pass (h : Best away l best) (hm : Measured away)
    (hfar : ∀ d, away s d → ∃ b ∈ best, ¬d < b.2.2) : Best away (l ++ [s]) best := by
  cases h with
  | absent none_away =>
    refine .absent (List.forall_mem_append.2 ⟨none_away, List.forall_mem_singleton.2 fun d hd => ?_⟩)
    obtain ⟨b, hb, -⟩ := hfar d hd
    cases hb
  | @found i u e nearest =>
    have hindex : i < l.length := (List.getElem?_eq_some_iff.1 nearest.element).1
    refine .found ⟨?_, nearest.distance, ?_, fun j hj t ht => ?_⟩
    · rw [List.getElem?_append_left hindex, nearest.element]
    · refine List.forall_mem_append.2 ⟨nearest.least, List.forall_mem_singleton.2 fun d hd => ?_⟩
      obtain ⟨b, hb, hnot⟩ := hfar d hd
      cases hb
      exact le_of_not_lt (hm.defined hd) (hm.defined nearest.distance) hnot
    · rw [List.getElem?_append_left (hj.trans hindex)] at ht
      exact nearest.first j hj t ht

/-- A thing that is nearer than the best so far takes its place. -/
theorem take (h : Best away l best) (hm : Measured away) (hs : away s d)
    (hnear : ∀ b ∈ best, d < b.2.2) : Best away (l ++ [s]) (some (l.length, s, d)) := by
  have hless : ∀ t ∈ l, ∀ e, away t e → d < e := by
    intro t ht e he
    cases h with
    | absent none_away => exact absurd he (none_away t ht e)
    | found nearest => exact lt_of_lt_of_le (hnear _ rfl) (nearest.least t ht e he)
  refine .found ⟨by simp, hs, ?_, fun j hj t ht => ?_⟩
  · refine List.forall_mem_append.2 ⟨fun t ht e he => le_of_lt (hless t ht e he), ?_⟩
    refine List.forall_mem_singleton.2 fun e he => ?_
    rw [hm.unique he hs]
    exact hm.defined hs
  · rw [List.getElem?_append_left hj] at ht
    exact hless t (List.mem_of_getElem? ht)

end Best

end Masonry
