import Masonry.Proofs.Model.Editing

/-!
# The level of the last query

A model holds the level that its last query for a cell answered, for queries that keep to it. No other
edit changes it (`lastLevel_edit`).
-/

namespace Masonry.Model

variable {α : Type} [Scalar α]

/-- A query has no answer and changes nothing, or the model holds the level of its answer, which is
the level held before if the query keeps to it. -/
theorem cellAt_cases (m : Model α) (r : Ray α) (level : Int) (hold : Bool) :
    m.cellAt r level hold = (none, m) ∨
      ∃ cell, m.cellAt r level hold = (some cell, { m with lastLevel := cell.y }) ∧
        (hold = true → cell.y = m.lastLevel) := by
  cases hold with
  | true =>
    cases hplane : r.plane? (m.origin.y + Grid.height m.lastLevel) with
    | none => exact .inl (by simp [cellAt, levelHit?, hplane])
    | some hit =>
      refine .inr ⟨Grid.snap (hit.point - m.origin) m.lastLevel, ?_, fun _ => rfl⟩
      simp [cellAt, levelHit?, hplane, Grid.snap]
  | false =>
    cases hhit : m.levelHit? r level with
    | none => exact .inl (by simp [cellAt, hhit])
    | some hit =>
      refine .inr ⟨(m.stones.foldl (m.closerTop r) hit).2, ?_, nofun⟩
      simp [cellAt, hhit]

omit [Scalar α] in
theorem lastLevel_unite (m : Model α) : m.unite.lastLevel = m.lastLevel := by
  unfold unite
  split <;> rfl

omit [Scalar α] in
theorem lastLevel_selectGroup (m : Model α) (id : Int32) :
    (m.selectGroup id).2.lastLevel = m.lastLevel := by
  unfold selectGroup
  split <;> rfl

theorem lastLevel_pick (m : Model α) (r : Ray α) (additive linked : Bool) :
    (m.pick r additive linked).2.lastLevel = m.lastLevel := by
  rw [(m.pick_frame r additive linked).1]

/-- Only a query for a cell changes the level. -/
theorem lastLevel_edit (m : Model α) (c : Catalog α) {e : Edit α}
    (h : ∀ r level hold, e ≠ .look r level hold) : (m.edit c e).lastLevel = m.lastLevel := by
  cases e with
  | insert insertId p => exact (placeAll_places m c insertId [p]).frame.lastLevel
  | look r level hold => exact absurd rfl (h r level hold)
  | pick r additive linked => exact lastLevel_pick m r additive linked
  | move offset => exact (moveSelection_places m c offset).frame.lastLevel
  | copy offset insertId => exact (placeAll_places m c insertId _).frame.lastLevel
  | unite => exact lastLevel_unite m
  | selectGroup id => exact lastLevel_selectGroup m id
  | _ => rfl

end Masonry.Model
