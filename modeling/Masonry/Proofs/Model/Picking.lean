import Mathlib.Data.List.Induction
import Masonry.Proofs.Model.Rearranging
import Masonry.Proofs.Space.Nearest

/-!
# Picking stones

A pick looks for the first of the stones that the ray meets nearest ahead; stones that it misses, and one
that it starts in, neither win nor stand in the way (`best_nearest?`). It marks that stone and, if asked
to, all that share its insert id. Besides these the marks of an additive pick stay, and of any other none
(`pick_nearest`).
-/

namespace Masonry.Model

variable {α : Type} {m : Model α} {s t : Stone α} {i : Nat}

/-! ## The search -/

section Search

variable [Scalar α] {r : Ray α}

/-- The ray meets the stone ahead of its origin, at a distance. -/
def MeetsAhead (m : Model α) (r : Ray α) (s : Stone α) (d : α) : Prop :=
  r.enter? (m.worldBox s) = some d ∧ 0 < d

variable [Scalar.Ordered α]

theorem measured_meetsAhead (m : Model α) (r : Ray α) : Measured (m.MeetsAhead r) where
  unique hd he := Option.some.inj (hd.1.symm.trans he.1)
  defined hd := (Scalar.Ordered.defined_of_lt hd.2).2

/-- The step of the search keeps the index and the distance of the first of the nearest. -/
theorem best_closerStone {l : List (Stone α)} {best : Option (Nat × Stone α × α)}
    (h : Best (m.MeetsAhead r) l best) (s : Stone α) :
    ∃ best', Best (m.MeetsAhead r) (l ++ [s]) best' ∧
      m.closerStone r (best.map fun b => (b.1, b.2.2)) (s, l.length) =
        best'.map fun b => (b.1, b.2.2) := by
  have hm := m.measured_meetsAhead r
  cases henter : r.enter? (m.worldBox s) with
  | none =>
    refine ⟨best, h.pass hm fun d hd => ?_, by simp [closerStone, henter]⟩
    cases henter.symm.trans hd.1
  | some d =>
    by_cases hahead : 0 < d
    · cases best with
      | none => exact ⟨_, h.take hm ⟨henter, hahead⟩ (by simp), by simp [closerStone, henter, hahead]⟩
      | some b =>
        by_cases hnear : d < b.2.2
        · refine ⟨_, h.take hm ⟨henter, hahead⟩ ?_, by simp [closerStone, henter, hahead, hnear]⟩
          rintro _ ⟨⟩
          exact hnear
        · refine ⟨some b, h.pass hm fun e he => ⟨b, rfl, ?_⟩,
            by simp [closerStone, henter, hahead, hnear]⟩
          rwa [hm.unique he ⟨henter, hahead⟩]
    · refine ⟨best, h.pass hm fun e he => ?_, by simp [closerStone, henter, hahead]⟩
      exact absurd (Option.some.inj (henter.symm.trans he.1) ▸ he.2) hahead

/-- The search ends with the first of the nearest. -/
theorem best_nearest? (m : Model α) (r : Ray α) : ∃ best, Best (m.MeetsAhead r) m.stones best ∧
    m.nearest? r = best.map fun b => (b.1, b.2.2) := by
  rw [nearest?]
  induction m.stones using List.reverseRecOn with
  | nil => exact ⟨none, best_nil, rfl⟩
  | append_singleton l s ih =>
    obtain ⟨best, hbest, heq⟩ := ih
    obtain ⟨best', hbest', hstep⟩ := best_closerStone hbest s
    refine ⟨best', hbest', ?_⟩
    rw [List.zipIdx_append, List.foldl_append, heq, ← hstep]
    simp

end Search

/-! ## The marks -/

/-- What is selected at an index marks the stone there and, if asked to, those with its insert id. -/
theorem getElem?_selectAt {index : Nat} (linked : Bool) (ht : m.stones[index]? = some t)
    (hs : m.stones[i]? = some s) : (m.selectAt index linked).stones[i]? =
      some (s.select (s.selected || decide (i = index ∨ (linked = true ∧ s.insertId = t.insertId)))) := by
  simp only [selectAt, ht, List.getElem?_map, List.getElem?_zipIdx, hs, Option.map_some, Nat.zero_add]
  split_ifs with hmark
  · rw [decide_eq_true hmark, Bool.or_true]
  · rw [decide_eq_false hmark, Bool.or_false]
    rfl

variable [Scalar α]

theorem selectionCenter?_eq_none_iff (m : Model α) : m.selectionCenter? = none ↔ m.selection = [] := by
  rw [selectionCenter?]
  cases m.selection <;> simp

/-- The search looks at boxes, and not at marks. -/
theorem nearest?_unmarked (m : Model α) (r : Ray α) (additive : Bool) :
    (m.unmarked additive).nearest? r = m.nearest? r := by
  rw [unmarked_eq, nearest?, nearest?, mapStones, List.zipIdx_map, List.foldl_map]
  rfl

theorem pick_eq (m : Model α) (r : Ray α) (additive linked : Bool) :
    (m.pick r additive linked).2 = match m.nearest? r with
      | some b => (m.unmarked additive).selectAt b.1 linked
      | none => m.unmarked additive := by
  have hpick := m.pick_snd r additive linked
  rw [nearest?_unmarked] at hpick
  exact hpick

variable [Scalar.Ordered α]

/-- The stone at an index after a pick: marked if it was and the pick is additive, or if it is the first of
the nearest, or if it shares the insert id of that stone and this is asked for. -/
theorem getElem?_pick (r : Ray α) (additive linked : Bool) (hs : m.stones[i]? = some s) :
    ∃ mark, (m.pick r additive linked).2.stones[i]? = some (s.select mark) ∧
      (mark = true ↔ (additive = true ∧ s.selected = true) ∨
        ∃ j t d, Nearest (m.MeetsAhead r) m.stones j t d ∧
          (i = j ∨ (linked = true ∧ s.insertId = t.insertId))) := by
  obtain ⟨best, hbest, hnearest⟩ := m.best_nearest? r
  have hstart {i : Nat} {s : Stone α} (hs : m.stones[i]? = some s) :
      (m.unmarked additive).stones[i]? = some (s.select (additive && s.selected)) := by
    rw [unmarked_eq, mapStones, List.getElem?_map, hs]
    rfl
  rw [pick_eq, hnearest]
  cases hbest with
  | absent none_away =>
    refine ⟨additive && s.selected, hstart hs, ?_⟩
    rw [Bool.and_eq_true, iff_self_or]
    rintro ⟨j, t, d, hnear, -⟩
    exact absurd hnear.distance (none_away t (List.mem_of_getElem? hnear.element) d)
  | @found j t d nearest =>
    have hmarks := getElem?_selectAt linked (hstart nearest.element) (hstart hs)
    refine ⟨(additive && s.selected) || decide (i = j ∨ (linked = true ∧ s.insertId = t.insertId)),
      hmarks, ?_⟩
    rw [Bool.or_eq_true, Bool.and_eq_true, decide_eq_true_iff]
    refine or_congr_right ⟨fun h => ⟨j, t, d, nearest, h⟩, ?_⟩
    rintro ⟨j', t', d', hnear, h⟩
    obtain ⟨rfl, rfl⟩ := hnear.unique nearest
    exact h

/-- A pick changes nothing but marks. Marked afterwards are the stones that were, if the pick is additive,
the first of the stones that the ray meets nearest ahead, which there is if it meets any ahead, and if
asked to all that share the insert id of that one. The answer is the center of the selection, and none if
and only if there is no selection. -/
theorem pick_nearest (m : Model α) (r : Ray α) (additive linked : Bool) :
    let after := (m.pick r additive linked).2
    (after = { m with stones := after.stones } ∧ after.stones.length = m.stones.length) ∧
      (∀ i s, m.stones[i]? = some s → ∃ mark, after.stones[i]? = some (s.select mark) ∧
        (mark = true ↔ (additive = true ∧ s.selected = true) ∨
          ∃ j t d, Nearest (m.MeetsAhead r) m.stones j t d ∧
            (i = j ∨ (linked = true ∧ s.insertId = t.insertId)))) ∧
      ((∃ s ∈ m.stones, ∃ d, m.MeetsAhead r s d) →
        ∃! j, ∃ t d, Nearest (m.MeetsAhead r) m.stones j t d) ∧
      (m.pick r additive linked).1 = after.selectionCenter? ∧
      ((m.pick r additive linked).1 = none ↔ after.selection = []) := by
  refine ⟨m.pick_frame r additive linked, fun i s hs => getElem?_pick r additive linked hs, ?_, rfl,
    selectionCenter?_eq_none_iff _⟩
  rintro ⟨s, hs, d, hmeets⟩
  obtain ⟨best, hbest, -⟩ := m.best_nearest? r
  cases hbest with
  | absent none_away => exact absurd hmeets (none_away s hs d)
  | @found j t e nearest =>
    refine ⟨j, ⟨t, e, nearest⟩, ?_⟩
    rintro j' ⟨t', e', hnear⟩
    exact (hnear.unique nearest).1

/-- Five cubes of one unit: around the start of a ray, off it and selected, two side by side below it, and
one more with the insert id of the first of these. -/
def abreast : Model Binary64 where
  origin := 0
  stones := [cube 0 3 ⟨1, 7, 0⟩ false, cube 1 9 ⟨8, 0, 0⟩ true, cube 2 7 ⟨0, 0, 0⟩ false,
    cube 3 8 ⟨1, 0, 0⟩ false, cube 4 7 ⟨5, 0, 0⟩ false]
  nextStone := 5
  groups := []
  nextGroup := 0
  lastLevel := 0
where
  cube (id insertId : Int32) (cell : Cell) (selected : Bool) : Stone Binary64 :=
    ⟨id, insertId, .white, 111, 0, cell, selected, ⟨0, 1⟩⟩

/-- Straight down between the two cubes that lie side by side. -/
def betweenAbreast : Ray Binary64 := ⟨⟨1, Scalar.ofInt 3, 0.5⟩, ⟨0, -1, 0⟩⟩

/-- Of two stones that are met at one distance the first is picked, here with a stone that shares its insert
id, and besides the one that was selected. -/
theorem pick_nearest_abreast :
    (∃ s ∈ abreast.stones, ∃ d, abreast.MeetsAhead betweenAbreast s d) ∧
      (∃! j, ∃ t d, Nearest (abreast.MeetsAhead betweenAbreast) abreast.stones j t d) ∧
      (abreast.pick betweenAbreast true true).2.stones.map (·.selected) =
        [false, true, true, false, true] := by
  have hmeets : ∃ s ∈ abreast.stones, ∃ d, abreast.MeetsAhead betweenAbreast s d :=
    ⟨abreast.cube 2 7 ⟨0, 0, 0⟩ false, by decide +kernel, Scalar.ofInt 2, by decide +kernel,
      by decide +kernel⟩
  exact ⟨hmeets, (pick_nearest abreast betweenAbreast true true).2.2.1 hmeets, by decide +kernel⟩

end Masonry.Model
