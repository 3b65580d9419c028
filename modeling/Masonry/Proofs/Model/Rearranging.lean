import Masonry.Model.Selection
import Masonry.Proofs.Model.Placing

/-!
# Steps that hand out no id

Most edits leave every stone where it is and under its id, and change marks, insert ids or groups
only: they relabel the model (`Relabels`). With deleting and moving the selection they are the steps
that hand out no automatic id (`Rearranges`). Copying the selection is the one edit that does.
-/

namespace Masonry.Model

variable {α : Type}

/-- Every stone keeps its place, its id and its shape, and the next id stays. -/
structure Relabels (m m' : Model α) : Prop where
  origin : m'.origin = m.origin
  bare : m'.stones.map Stone.bare = m.stones.map Stone.bare
  nextStone : m'.nextStone = m.nextStone

theorem Relabels.ids_eq {m m' : Model α} (h : Relabels m m') : m'.ids = m.ids := by
  have hids := congrArg (List.map (·.id)) h.bare
  simpa [ids, Stone.bare, Function.comp_def] using hids

/-- Nothing changes but marks, insert ids and the level of the last query. -/
structure Marks (m m' : Model α) : Prop extends Relabels m m' where
  groups : m'.groups = m.groups
  nextGroup : m'.nextGroup = m.nextGroup

namespace Marks

variable {m m' m'' : Model α}

theorem refl (m : Model α) : Marks m m := ⟨⟨rfl, rfl, rfl⟩, rfl, rfl⟩

theorem trans (h : Marks m m') (h' : Marks m' m'') : Marks m m'' where
  origin := h'.origin.trans h.origin
  bare := h'.bare.trans h.bare
  nextStone := h'.nextStone.trans h.nextStone
  groups := h'.groups.trans h.groups
  nextGroup := h'.nextGroup.trans h.nextGroup

end Marks

theorem marks_mapStones {f : Stone α → Stone α} (hf : ∀ s, (f s).bare = s.bare) (m : Model α) :
    Marks m (m.mapStones f) :=
  ⟨⟨rfl, by simp [mapStones, hf], rfl⟩, rfl, rfl⟩

theorem marks_deselect (m : Model α) : Marks m m.deselect :=
  marks_mapStones (fun s => s.bare_select _) m

theorem marks_separate (m : Model α) (insertId : Int32) : Marks m (m.separate insertId) :=
  marks_mapStones (fun s => by split <;> rfl) m

theorem marks_unite (m : Model α) : Marks m m.unite := by
  unfold unite
  split
  · exact .refl m
  · exact marks_separate m _

theorem relabels_makeGroup (m : Model α) (name : String) : Relabels m (m.makeGroup name).2 :=
  ⟨rfl, rfl, rfl⟩

theorem relabels_deleteGroup (m : Model α) (id : Int32) : Relabels m (m.deleteGroup id).2 :=
  ⟨rfl, rfl, rfl⟩

theorem marks_selectGroup (m : Model α) (id : Int32) : Marks m (m.selectGroup id).2 := by
  unfold selectGroup
  split <;> exact marks_mapStones (fun s => s.bare_select _) m

theorem marks_selectAt (m : Model α) (index : Nat) (linked : Bool) :
    Marks m (m.selectAt index linked) := by
  unfold selectAt
  split
  · exact .refl m
  · refine ⟨⟨rfl, ?_, rfl⟩, rfl, rfl⟩
    rw [List.map_map, ← List.zipIdx_map_fst 0 m.stones, List.map_map, List.zipIdx_map_fst]
    refine List.map_congr_left fun q _ => ?_
    dsimp only [Function.comp_apply]
    split <;> rfl

theorem selectAt_eq (m : Model α) (index : Nat) (linked : Bool) :
    m.selectAt index linked = { m with stones := (m.selectAt index linked).stones } := by
  unfold selectAt
  split <;> rfl

/-- The model before a pick marks anything: the marks stay if the pick is additive. -/
def unmarked (m : Model α) (additive : Bool) : Model α := if additive then m else m.deselect

theorem unmarked_eq (m : Model α) (additive : Bool) :
    m.unmarked additive = m.mapStones fun s => s.select (additive && s.selected) := by
  cases additive with
  | false => rfl
  | true => exact congrArg (fun l => { m with stones := l }) (List.map_id m.stones).symm

theorem marks_unmarked (m : Model α) (additive : Bool) : Marks m (m.unmarked additive) := by
  rw [unmarked_eq]
  exact marks_mapStones (fun s => s.bare_select _) m

variable [Scalar α]

theorem pick_snd (m : Model α) (r : Ray α) (additive linked : Bool) :
    (m.pick r additive linked).2 = match (m.unmarked additive).nearest? r with
      | some b => (m.unmarked additive).selectAt b.1 linked
      | none => m.unmarked additive := by
  rw [pick, unmarked]
  cases (if additive then m else m.deselect).nearest? r <;> rfl

theorem marks_pick (m : Model α) (r : Ray α) (additive linked : Bool) :
    Marks m (m.pick r additive linked).2 := by
  have hstart := m.marks_unmarked additive
  rw [pick_snd]
  split
  · exact hstart.trans (marks_selectAt _ _ _)
  · exact hstart

/-- A pick changes nothing but marks. -/
theorem pick_frame (m : Model α) (r : Ray α) (additive linked : Bool) :
    (m.pick r additive linked).2 = { m with stones := (m.pick r additive linked).2.stones } ∧
      (m.pick r additive linked).2.stones.length = m.stones.length := by
  have hlength := congrArg List.length (marks_pick m r additive linked).bare
  rw [List.length_map, List.length_map] at hlength
  refine ⟨?_, hlength⟩
  rw [pick_snd]
  split
  · rw [selectAt_eq, unmarked_eq]
    rfl
  · rw [unmarked_eq]
    rfl

theorem marks_cellAt (m : Model α) (r : Ray α) (level : Int) (hold : Bool) :
    Marks m (m.cellAt r level hold).2 := by
  unfold cellAt
  split
  · exact .refl m
  · split
    · exact .refl m
    · exact ⟨⟨rfl, rfl, rfl⟩, rfl, rfl⟩

theorem replaceAll_places (m : Model α) (c : Catalog α) (offset : Cell) (ss : List (Stone α)) :
    Places c (fun id => ∃ s ∈ ss, id = some s.id) m (m.replaceAll c offset ss).2 := by
  induction ss generalizing m with
  | nil => exact .refl m
  | cons s ss ih =>
    refine .step (some s.id) s.insertId (s.placement.shifted offset) ⟨s, .head _, rfl⟩ ?_
    exact (ih _).mono fun _ ⟨t, ht, hid⟩ => ⟨t, .tail _ ht, hid⟩

/-- A move takes the selection out and places it again, each stone under its own id. -/
theorem moveSelection_places (m : Model α) (c : Catalog α) (offset : Cell) :
    Places c (fun id => ∃ s ∈ m.selection, id = some s.id) m.deleteSelection.2
      (m.moveSelection c offset).2 :=
  replaceAll_places _ c offset m.selection

/-- What can become of a model in a step that hands out no id. -/
inductive Rearranges (c : Catalog α) (m : Model α) : Model α → Prop where
  | relabel {m' : Model α} (h : Relabels m m') : Rearranges c m m'
  | delete : Rearranges c m m.deleteSelection.2
  | move (offset : Cell) : Rearranges c m (m.moveSelection c offset).2

end Masonry.Model
