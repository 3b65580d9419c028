import Masonry.Proofs.Model.Lineage

/-!
# Stones stay what they are

What an edit makes of a stone that is there before and after it is said once, by `Edit.Becomes`: the
stone stays as it is, up to its mark, unless it is selected and the edit moves the selection or gives
it another insert id. Ids tell stones apart here, so the ids of the model must differ and new ones must
lie above them (`becomes_edit`). A stone that is not selected is never taken away (`mem_ids_edit`).
-/

namespace Masonry

variable {α : Type}

namespace Edit

/-- The edit puts the stone into another cell. -/
def moves (e : Edit α) (s : Stone α) : Bool :=
  match e with
  | .move _ => s.selected
  | _ => false

/-- The second stone is what the edit leaves of the first. -/
inductive Becomes : Edit α → Stone α → Stone α → Prop
  | stays {e : Edit α} {s t : Stone α} (moves : e.moves s = false) (bare : t.bare = s.bare)
      (insertId : t.insertId = s.insertId) : Becomes e s t
  | moved {s : Stone α} (offset : Cell) (selected : s.selected = true) :
      Becomes (.move offset) s { s with cell := s.cell + offset, selected := false }
  | united {s t : Stone α} (selected : s.selected = true) (bare : t.bare = s.bare) :
      Becomes .unite s t
  | separated {s t : Stone α} (insertId : Int32) (selected : s.selected = true)
      (bare : t.bare = s.bare) : Becomes (.separate insertId) s t

theorem Becomes.refl {e : Edit α} {s : Stone α} (h : e.moves s = false) : e.Becomes s s :=
  .stays h rfl rfl

end Edit

namespace Model

variable {m m' : Model α} {s t : Stone α}

section Nodup

variable (hm : m.ids.Nodup) (hs : s ∈ m.stones) (hid : t.id = s.id)
include hm hs hid

theorem eq_of_id_eq (ht : t ∈ m.stones) : t = s := List.inj_on_of_nodup_map hm ht hs hid

theorem bare_eq_of_relabels (hr : Relabels m m') (ht : t ∈ m'.stones) : t.bare = s.bare := by
  have hbare : t.bare ∈ m.stones.map Stone.bare := hr.bare ▸ List.mem_map_of_mem ht
  obtain ⟨u, hu, hut⟩ := List.mem_map.1 hbare
  have huid : u.id = t.id := show u.bare.id = t.bare.id from congrArg Stone.id hut
  rw [← hut, eq_of_id_eq hm hs (huid.trans hid) hu]

theorem insertId_eq_of_holds (ht : m.Holds t) : t.insertId = s.insertId := by
  obtain ⟨u, hu, hlasting, hinsert⟩ := ht
  rw [← hinsert, eq_of_id_eq hm hs ((Stone.id_eq_of_lasting_eq hlasting).trans hid) hu]

/-- A stone with a new insert id was selected. -/
theorem selected_of_separate {insertId : Int32} (ht : t ∈ (m.separate insertId).stones) :
    t.insertId = s.insertId ∨ s.selected = true := by
  rcases of_mem_separate ht with ht | ⟨-, u, hu, hlasting⟩
  · exact .inl (congrArg Stone.insertId (eq_of_id_eq hm hs hid ht))
  · obtain ⟨hmem, hselected⟩ := List.mem_filter.1 hu
    rw [eq_of_id_eq hm hs ((Stone.id_eq_of_lasting_eq hlasting).trans hid) hmem] at hselected
    exact .inr hselected

end Nodup

variable [Scalar α] {c : Catalog α}

/-! ## Moves -/

/-- What is placed is not selected. -/
theorem selection_place (m : Model α) (c : Catalog α) (id : Option Int32) (insertId : Int32)
    (p : Placement) : (m.place c id insertId p).2.selection = m.selection := by
  rcases place_cases m c id insertId p with ⟨-, heq⟩ | ⟨s, hs, -, hplaced⟩
  · rw [heq]
  · obtain ⟨box, -, rfl⟩ := candidate?_eq_some_iff.1 hs
    rcases hplaced with ⟨k, -, -, heq⟩ | ⟨-, heq⟩ <;> simp [heq, selection, put]

theorem selection_replaceAll (m : Model α) (c : Catalog α) (offset : Cell) (ss : List (Stone α)) :
    (m.replaceAll c offset ss).2.selection = m.selection := by
  induction ss generalizing m with
  | nil => rfl
  | cons s ss ih =>
    show ((m.place c (some s.id) s.insertId (s.placement.shifted offset)).2.replaceAll c offset
      ss).2.selection = m.selection
    rw [ih, selection_place]

/-- After a move nothing is selected. -/
theorem selection_moveSelection (m : Model α) (c : Catalog α) (offset : Cell) :
    (m.moveSelection c offset).2.selection = [] := by
  rw [moveSelection, selection_replaceAll, selection, List.filter_filter]
  simp

/-- A stone that is placed again has the box that it had. -/
theorem eq_of_moved {offset : Cell} (hs : s.Shaped c) (ht : t.Shaped c) (h : s.Moved t offset)
    (hmark : t.selected = false) : t = { s with cell := s.cell + offset, selected := false } := by
  obtain ⟨hid, hinsert, hplacement⟩ := h
  have hcode : s.code = t.code := congrArg Placement.code hplacement
  have hturns : s.turns = t.turns := congrArg Placement.turns hplacement
  have hbox : s.box = t.box := by
    have heq := hs.box_eq
    rw [hcode, hturns, ht.box_eq] at heq
    exact (Option.some.inj heq).symm
  have hcolor : s.color = t.color := congrArg Placement.color hplacement
  have hcell : s.cell + offset = t.cell := congrArg Placement.cell hplacement
  cases t
  rw [Stone.mk.injEq]
  exact ⟨hid.symm, hinsert.symm, hcolor.symm, hcode.symm, hturns.symm, hcell.symm, hmark, hbox.symm⟩

/-! ## Edits -/

/-- A batch leaves the stones alone that are there. -/
theorem eq_of_mem_placeAll (hm : m.Ordered) {insertId : Int32} {ps : List Placement}
    (hmax : Int32.maxValue ∉ (m.placeAll c insertId ps).2.ids) (hs : s ∈ m.stones)
    (ht : t ∈ (m.placeAll c insertId ps).2.stones) (hid : t.id = s.id) : t = s := by
  rcases of_mem_placeAll ht with ht | ⟨-, hnew⟩
  · exact eq_of_id_eq hm.nodup hs hid ht
  · rw [ids_placeAll, List.mem_append, not_or] at hmax
    have hlt : s.id < m.nextStone := hm.lt_next _ (List.mem_map_of_mem hs)
    have hle : m.nextStone ≤ s.id := hid ▸ Counter.le_of_mem_upcoming hmax.2 hnew
    exact absurd hlt (Int32.not_lt.2 hle)

/-- A stone of the edited model with the id of a stone that was there is what the edit leaves of it,
while the greatest id is not in use. -/
theorem becomes_edit (hsound : Sound c m) (hm : m.Ordered) (e : Edit α)
    (hmax : Int32.maxValue ∉ (m.edit c e).ids) (hs : s ∈ m.stones) (ht : t ∈ (m.edit c e).stones)
    (hid : t.id = s.id) : e.Becomes s t := by
  have hturns : ∀ u ∈ m.stones, u.turns < 4 := fun u hu => (hsound.shaped u hu).turns_lt
  have hsame : t ∈ m.stones → e.moves s = false → e.Becomes s t := by
    intro ht hmoves
    rw [eq_of_id_eq hm.nodup hs hid ht]
    exact .refl hmoves
  cases e with
  | insert insertId p =>
    have hmax : Int32.maxValue ∉ (m.placeAll c insertId [p]).2.ids := hmax
    have hplaced : t = s := eq_of_mem_placeAll hm hmax hs ht hid
    exact hsame (hplaced ▸ hs) rfl
  | look r level hold =>
    have hstones : (m.edit c (.look r level hold)).stones = m.stones := stones_cellAt m r level hold
    exact hsame (hstones ▸ ht) rfl
  | pick r additive linked =>
    exact .stays rfl (bare_eq_of_relabels hm.nodup hs hid (marks_pick m r additive linked).toRelabels ht)
      (insertId_eq_of_holds hm.nodup hs hid (holds_pick ht))
  | deselect =>
    exact .stays rfl (bare_eq_of_relabels hm.nodup hs hid (marks_deselect m).toRelabels ht)
      (insertId_eq_of_holds hm.nodup hs hid (holds_deselect ht))
  | delete => exact hsame (List.mem_of_mem_filter ht) rfl
  | move offset =>
    rcases of_mem_moveSelection hturns ht with ⟨hmem, hmark⟩ | ⟨u, hu, hmoved⟩
    · exact hsame hmem (eq_of_id_eq hm.nodup hs hid hmem ▸ hmark)
    · obtain ⟨hmem, hselected⟩ := List.mem_filter.1 hu
      obtain rfl : u = s := eq_of_id_eq hm.nodup hs (hmoved.id.trans hid) hmem
      have hmark : t.selected = false := by
        rw [← Bool.not_eq_true]
        exact List.filter_eq_nil_iff.1 (selection_moveSelection m c offset) t ht
      have hshaped : t.Shaped c := (hsound.rearrange (.move offset)).shaped t ht
      rw [eq_of_moved (hsound.shaped u hmem) hshaped hmoved hmark]
      exact .moved offset hselected
  | copy offset insertId =>
    have hplaced := eq_of_mem_placeAll (c := c) hm hmax hs ht hid
    exact hsame (hplaced ▸ hs) rfl
  | unite =>
    have hbare := bare_eq_of_relabels hm.nodup hs hid (marks_unite m).toRelabels ht
    have hunite : t ∈ m.unite.stones := ht
    unfold unite at hunite
    split at hunite
    · exact hsame hunite rfl
    · rcases selected_of_separate hm.nodup hs hid hunite with hinsert | hselected
      · exact .stays rfl hbare hinsert
      · exact .united hselected hbare
  | separate insertId =>
    have hbare := bare_eq_of_relabels hm.nodup hs hid (marks_separate m insertId).toRelabels ht
    rcases selected_of_separate hm.nodup hs hid ht with hinsert | hselected
    · exact .stays rfl hbare hinsert
    · exact .separated insertId hselected hbare
  | makeGroup name => exact hsame ht rfl
  | deleteGroup id => exact hsame ht rfl
  | selectGroup id =>
    exact .stays rfl (bare_eq_of_relabels hm.nodup hs hid (marks_selectGroup m id).toRelabels ht)
      (insertId_eq_of_holds hm.nodup hs hid (holds_selectGroup ht))

/-- No edit takes away a stone that is not selected. -/
theorem mem_ids_edit (e : Edit α) (hs : s ∈ m.stones) (hmark : s.selected = false) :
    s.id ∈ (m.edit c e).ids := by
  have hkept : s ∈ m.deleteSelection.2.stones := List.mem_filter.2 ⟨hs, by simp [hmark]⟩
  rcases edit_cases m c e with ⟨hr, -⟩ | ⟨insertId, ps, -, heq, -⟩
  · generalize m.edit c e = m' at hr ⊢
    cases hr with
    | relabel hr =>
      rw [hr.ids_eq]
      exact List.mem_map_of_mem hs
    | delete => exact List.mem_map_of_mem hkept
    | move offset =>
      exact List.mem_map_of_mem ((moveSelection_places m c offset).frame.stones.subset hkept)
  · rw [heq]
    exact List.mem_map_of_mem ((placeAll_places m c insertId ps).frame.stones.subset hs)

end Model

end Masonry
