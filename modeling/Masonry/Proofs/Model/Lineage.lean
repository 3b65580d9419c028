import Masonry.Proofs.Model.Editing

/-!
# Where stones come from

A stone of an edited model was there before the edit, perhaps elsewhere, with another mark or under
another insert id, or the edit has placed it under an id that it handed out (`comes_edit`). While the
greatest id is not in use a model therefore succeeds those that it was made from (`Succeeds`): an id
that is gone does not come back, and one in use stays with its stone.
-/

namespace Masonry

variable {α : Type}

namespace Stone

/-- What a stone keeps wherever it is moved: its id, color, type code and rotation. -/
def lasting (s : Stone α) : Int32 × Color × Int32 × Nat := (s.id, s.color, s.code, s.turns)

theorem id_eq_of_lasting_eq {s t : Stone α} (h : s.lasting = t.lasting) : s.id = t.id :=
  congrArg Prod.fst h

/-- The second stone is the first in another cell. -/
structure Moved (s t : Stone α) (offset : Cell) : Prop where
  id : s.id = t.id
  insertId : s.insertId = t.insertId
  placement : s.placement.shifted offset = t.placement

theorem Moved.lasting_eq {s t : Stone α} {offset : Cell} (h : s.Moved t offset) :
    s.lasting = t.lasting := by
  have hcolor : s.color = t.color := congrArg Placement.color h.placement
  have hcode : s.code = t.code := congrArg Placement.code h.placement
  have hturns : s.turns = t.turns := congrArg Placement.turns h.placement
  rw [lasting, lasting, h.id, hcolor, hcode, hturns]

end Stone

namespace Model

variable {m m' m'' : Model α} {t : Stone α}

/-- The model has the stone, perhaps elsewhere or with another mark. -/
def Holds (m : Model α) (t : Stone α) : Prop :=
  ∃ s ∈ m.stones, s.lasting = t.lasting ∧ s.insertId = t.insertId

theorem holds_of_mem (ht : t ∈ m.stones) : m.Holds t := ⟨t, ht, rfl, rfl⟩

theorem Holds.of_forall (h : m'.Holds t) (hm : ∀ s ∈ m'.stones, m.Holds s) : m.Holds t := by
  obtain ⟨s, hs, hlasting, hinsert⟩ := h
  obtain ⟨u, hu, hlasting', hinsert'⟩ := hm s hs
  exact ⟨u, hu, hlasting'.trans hlasting, hinsert'.trans hinsert⟩

/-! ## Marks -/

/-- Marking stones does not take them away. -/
theorem holds_mark {mark : Stone α → Bool}
    (ht : t ∈ (m.mapStones fun s => s.select (mark s)).stones) : m.Holds t := by
  obtain ⟨s, hs, rfl⟩ := List.mem_map.1 ht
  exact ⟨s, hs, rfl, rfl⟩

theorem holds_deselect (ht : t ∈ m.deselect.stones) : m.Holds t := holds_mark ht

theorem holds_selectGroup {id : Int32} (ht : t ∈ (m.selectGroup id).2.stones) : m.Holds t := by
  unfold selectGroup at ht
  split at ht <;> exact holds_mark ht

theorem holds_selectAt {index : Nat} {linked : Bool} (ht : t ∈ (m.selectAt index linked).stones) :
    m.Holds t := by
  unfold selectAt at ht
  split at ht
  · exact holds_of_mem ht
  · obtain ⟨⟨s, i⟩, hs, rfl⟩ := List.mem_map.1 ht
    refine ⟨s, List.fst_mem_of_mem_zipIdx hs, ?_⟩
    dsimp only
    split <;> exact ⟨rfl, rfl⟩

theorem of_mem_separate {insertId : Int32} (ht : t ∈ (m.separate insertId).stones) :
    t ∈ m.stones ∨ (t.insertId = insertId ∧ ∃ s ∈ m.selection, s.lasting = t.lasting) := by
  obtain ⟨s, hs, rfl⟩ := List.mem_map.1 ht
  split
  · rename_i hselected
    exact .inr ⟨rfl, s, List.mem_filter.2 ⟨hs, hselected⟩, rfl⟩
  · exact .inl hs

variable [Scalar α] {c : Catalog α}

theorem holds_pick {r : Ray α} {additive linked : Bool}
    (ht : t ∈ (m.pick r additive linked).2.stones) : m.Holds t := by
  have hstart : ∀ s ∈ (m.unmarked additive).stones, m.Holds s := by
    rw [unmarked_eq]
    exact fun s hs => holds_mark hs
  rw [pick_snd] at ht
  split at ht
  · exact (holds_selectAt ht).of_forall hstart
  · exact hstart t ht

theorem stones_cellAt (m : Model α) (r : Ray α) (level : Int) (hold : Bool) :
    (m.cellAt r level hold).2.stones = m.stones := by
  unfold cellAt
  split
  · rfl
  · split <;> rfl

/-! ## Placements -/

/-- A placement adds nothing, or at the end the stone that was asked for. -/
theorem place_adds (m : Model α) (c : Catalog α) (id : Option Int32) (insertId : Int32)
    (p : Placement) :
    ∃ added, (m.place c id insertId p).2.stones = m.stones ++ added ∧
      ∀ t ∈ added, t.insertId = insertId ∧ t.placement = { p with turns := foldTurns p.turns } ∧
        ∀ k, id = some k → t.id = k := by
  rcases place_cases m c id insertId p with ⟨-, heq⟩ | ⟨s, hs, -, hplaced⟩
  · refine ⟨[], ?_, by simp⟩
    rw [heq, List.append_nil]
  · obtain ⟨box, -, rfl⟩ := candidate?_eq_some_iff.1 hs
    rcases hplaced with ⟨k, rfl, -, heq⟩ | ⟨rfl, heq⟩
    · rw [heq]
      refine ⟨_, rfl, List.forall_mem_singleton.2 ⟨rfl, rfl, ?_⟩⟩
      intro j hj
      exact Option.some.inj hj
    · rw [heq]
      refine ⟨_, rfl, List.forall_mem_singleton.2 ⟨rfl, rfl, ?_⟩⟩
      intro j hj
      cases hj

/-- Stones that are placed again under their own ids are the same stones elsewhere. -/
theorem of_mem_replaceAll {offset : Cell} {ss : List (Stone α)} (hturns : ∀ s ∈ ss, s.turns < 4)
    (ht : t ∈ (m.replaceAll c offset ss).2.stones) :
    t ∈ m.stones ∨ ∃ s ∈ ss, s.Moved t offset := by
  induction ss generalizing m with
  | nil => exact .inl ht
  | cons s ss ih =>
    obtain ⟨added, hstones, hadded⟩ :=
      place_adds m c (some s.id) s.insertId (s.placement.shifted offset)
    have hlater : t ∈ (m.place c (some s.id) s.insertId (s.placement.shifted offset)).2.stones ∨
        ∃ u ∈ ss, u.Moved t offset := ih (fun u hu => hturns u (.tail _ hu)) ht
    rcases hlater with ht | ⟨u, hu, hmoved⟩
    · rw [hstones] at ht
      rcases List.mem_append.1 ht with ht | ht
      · exact .inl ht
      · obtain ⟨hinsert, hplacement, hid⟩ := hadded t ht
        have hfold : foldTurns (s.placement.shifted offset).turns = s.turns :=
          foldTurns_of_lt (hturns s (.head _))
        rw [hfold] at hplacement
        exact .inr ⟨s, .head _, (hid s.id rfl).symm, hinsert.symm, hplacement.symm⟩
    · exact .inr ⟨u, .tail _ hu, hmoved⟩

/-- After a move there are the stones that were not selected, and selected ones elsewhere. -/
theorem of_mem_moveSelection {offset : Cell} (hturns : ∀ s ∈ m.stones, s.turns < 4)
    (ht : t ∈ (m.moveSelection c offset).2.stones) :
    (t ∈ m.stones ∧ t.selected = false) ∨ ∃ s ∈ m.selection, s.Moved t offset := by
  rcases of_mem_replaceAll (fun s hs => hturns s (List.mem_of_mem_filter hs)) ht with ht | h
  · obtain ⟨hmem, hmark⟩ := List.mem_filter.1 ht
    exact .inl ⟨hmem, by simpa using hmark⟩
  · exact .inr h

theorem holds_moveSelection {offset : Cell} (hturns : ∀ s ∈ m.stones, s.turns < 4)
    (ht : t ∈ (m.moveSelection c offset).2.stones) : m.Holds t := by
  rcases of_mem_moveSelection hturns ht with ⟨hmem, -⟩ | ⟨s, hs, hmoved⟩
  · exact holds_of_mem hmem
  · exact ⟨s, List.mem_of_mem_filter hs, hmoved.lasting_eq, hmoved.insertId⟩

/-- A batch adds stones at the end, under its insert id. -/
theorem placeAll_adds (m : Model α) (c : Catalog α) (insertId : Int32) (ps : List Placement) :
    ∃ added, (m.placeAll c insertId ps).2.stones = m.stones ++ added ∧
      ∀ t ∈ added, t.insertId = insertId := by
  induction ps generalizing m with
  | nil => exact ⟨[], (List.append_nil _).symm, by simp⟩
  | cons p ps ih =>
    obtain ⟨first, hfirst, hinsert⟩ := place_adds m c none insertId p
    obtain ⟨added, hstones, hadded⟩ := ih (m.place c none insertId p).2
    refine ⟨first ++ added, ?_, List.forall_mem_append.2 ⟨fun t ht => (hinsert t ht).1, hadded⟩⟩
    rw [← List.append_assoc, ← hfirst]
    exact hstones

/-- A stone of a batch has the insert id of the batch and one of the ids that it hands out. -/
theorem of_mem_placeAll {insertId : Int32} {ps : List Placement}
    (ht : t ∈ (m.placeAll c insertId ps).2.stones) :
    t ∈ m.stones ∨ (t.insertId = insertId ∧
      t.id ∈ Counter.upcoming m.nextStone (m.placeAll c insertId ps).1) := by
  obtain ⟨added, hstones, hadded⟩ := placeAll_adds m c insertId ps
  -- Both the stones and the ids of a batch come at the end, so they belong together.
  have hids : m.ids ++ added.map (·.id) =
      m.ids ++ Counter.upcoming m.nextStone (m.placeAll c insertId ps).1 := by
    rw [← ids_placeAll, ids, ids, hstones, List.map_append]
  rw [hstones] at ht
  rcases List.mem_append.1 ht with ht | ht
  · exact .inl ht
  · refine .inr ⟨hadded t ht, ?_⟩
    rw [← List.append_cancel_left hids]
    exact List.mem_map_of_mem ht

/-! ## Edits -/

end Model

namespace Edit

/-- The insert id that an edit gives to stones, if it gives one. -/
def insertId? : Edit α → Option Int32
  | .insert insertId _ => some insertId
  | .copy _ insertId => some insertId
  | .separate insertId => some insertId
  | _ => none

end Edit

namespace Model

variable {m m' m'' : Model α} {t : Stone α} [Scalar α] {c : Catalog α}

/-- Every stone of an edited model was there, or has an insert id that the edit has given, or is a
selected stone that has taken over the insert id of another one, as uniting does. -/
theorem comes_edit (hturns : ∀ s ∈ m.stones, s.turns < 4) (e : Edit α)
    (ht : t ∈ (m.edit c e).stones) :
    m.Holds t ∨ e.insertId? = some t.insertId ∨
      (e = .unite ∧ ∃ s ∈ m.selection, ∃ first ∈ m.selection,
        s.lasting = t.lasting ∧ first.insertId = t.insertId) := by
  cases e with
  | insert insertId p =>
    have hplaced : t ∈ (m.placeAll c insertId [p]).2.stones := ht
    rcases of_mem_placeAll hplaced with ht | ⟨hinsert, -⟩
    · exact .inl (holds_of_mem ht)
    · exact .inr (.inl (congrArg some hinsert.symm))
  | look r level hold =>
    have hstones : (m.edit c (.look r level hold)).stones = m.stones := stones_cellAt m r level hold
    rw [hstones] at ht
    exact .inl (holds_of_mem ht)
  | pick r additive linked => exact .inl (holds_pick ht)
  | deselect => exact .inl (holds_deselect ht)
  | delete => exact .inl (holds_of_mem (List.mem_of_mem_filter ht))
  | move offset => exact .inl (holds_moveSelection hturns ht)
  | copy offset insertId =>
    rcases of_mem_placeAll (c := c) ht with ht | ⟨hinsert, -⟩
    · exact .inl (holds_of_mem ht)
    · exact .inr (.inl (congrArg some hinsert.symm))
  | unite =>
    have hunite : t ∈ m.unite.stones := ht
    unfold unite at hunite
    split at hunite
    · exact .inl (holds_of_mem hunite)
    · rename_i first rest hselection
      have hfirst : first ∈ m.selection := hselection ▸ .head _
      rcases of_mem_separate hunite with ht | ⟨hinsert, s, hs, hlasting⟩
      · exact .inl (holds_of_mem ht)
      · exact .inr (.inr ⟨rfl, s, hs, first, hfirst, hlasting, hinsert.symm⟩)
  | separate insertId =>
    rcases of_mem_separate ht with ht | ⟨hinsert, -⟩
    · exact .inl (holds_of_mem ht)
    · exact .inr (.inl (congrArg some hinsert.symm))
  | makeGroup name => exact .inl (holds_of_mem ht)
  | deleteGroup id => exact .inl (holds_of_mem ht)
  | selectGroup id => exact .inl (holds_selectGroup ht)

/-! ## Succession -/

/-- The second model comes later than the first: its next id is not lower, and each of its stones was
in the first or has an id that was still to come. -/
structure Succeeds (m m' : Model α) : Prop where
  next_le : m.nextStone ≤ m'.nextStone
  stones : ∀ t ∈ m'.stones, (∃ s ∈ m.stones, s.lasting = t.lasting) ∨ m.nextStone ≤ t.id

omit [Scalar α] in
theorem Succeeds.refl (m : Model α) : m.Succeeds m where
  next_le := Int32.le_refl _
  stones t ht := .inl ⟨t, ht, rfl⟩

omit [Scalar α] in
theorem Succeeds.trans (h : m.Succeeds m') (h' : m'.Succeeds m'') : m.Succeeds m'' where
  next_le := Int32.le_trans h.next_le h'.next_le
  stones t ht := by
    rcases h'.stones t ht with ⟨s, hs, hlasting⟩ | hlater
    · rcases h.stones s hs with ⟨u, hu, hlasting'⟩ | hlater
      · exact .inl ⟨u, hu, hlasting'.trans hlasting⟩
      · rw [Stone.id_eq_of_lasting_eq hlasting] at hlater
        exact .inr hlater
    · exact .inr (Int32.le_trans h.next_le hlater)

/-- While the greatest id is not in use, placing does not lower the next id. -/
theorem Places.next_le {P : Option Int32 → Prop} (hp : Places c P m m')
    (hmax : Int32.maxValue ∉ m'.ids) : m.nextStone ≤ m'.nextStone := by
  refine hp.keeps (R := fun n => Int32.maxValue ∉ n.ids → m.nextStone ≤ n.nextStone) ?_ ?_
    (fun _ => Int32.le_refl _) hmax
  · intro n s k _ _ _ _ hn hmax
    rw [ids_put, List.mem_append, not_or] at hmax
    exact Int32.le_trans (hn hmax.1) (Counter.le_max_left _ _)
  · intro n s _ _ _ hn hmax
    rw [ids_put, List.mem_append, List.mem_singleton, not_or] at hmax
    have hlt : n.nextStone < n.nextStone + 1 := Counter.lt_add_one (Ne.symm hmax.2)
    exact Int32.le_trans (hn hmax.1) (Int32.le_of_lt hlt)

theorem succeeds_placeAll {insertId : Int32} {ps : List Placement}
    (hmax : Int32.maxValue ∉ (m.placeAll c insertId ps).2.ids) :
    m.Succeeds (m.placeAll c insertId ps).2 where
  next_le := (placeAll_places m c insertId ps).next_le hmax
  stones t ht := by
    rcases of_mem_placeAll ht with ht | ⟨-, hid⟩
    · exact .inl ⟨t, ht, rfl⟩
    · rw [ids_placeAll, List.mem_append, not_or] at hmax
      exact .inr (Counter.le_of_mem_upcoming hmax.2 hid)

theorem succeeds_rearrange (hturns : ∀ s ∈ m.stones, s.turns < 4) (hr : Rearranges c m m')
    (hmax : Int32.maxValue ∉ m'.ids) : m.Succeeds m' := by
  cases hr with
  | relabel hr =>
    refine ⟨hr.nextStone ▸ Int32.le_refl _, fun t ht => ?_⟩
    have hbare : t.bare ∈ m.stones.map Stone.bare := hr.bare ▸ List.mem_map_of_mem ht
    obtain ⟨s, hs, hst⟩ := List.mem_map.1 hbare
    have hlasting : s.bare.lasting = t.bare.lasting := congrArg Stone.lasting hst
    exact .inl ⟨s, hs, hlasting⟩
  | delete => exact ⟨Int32.le_refl _, fun t ht => .inl ⟨t, List.mem_of_mem_filter ht, rfl⟩⟩
  | move offset =>
    refine ⟨(moveSelection_places m c offset).next_le hmax, fun t ht => ?_⟩
    obtain ⟨s, hs, hlasting, -⟩ := holds_moveSelection hturns ht
    exact .inl ⟨s, hs, hlasting⟩

/-- An edited model succeeds the one that was edited, if the greatest id is not in use. -/
theorem succeeds_edit (hturns : ∀ s ∈ m.stones, s.turns < 4) (e : Edit α)
    (hmax : Int32.maxValue ∉ (m.edit c e).ids) : m.Succeeds (m.edit c e) := by
  rcases edit_cases m c e with ⟨hr, -⟩ | ⟨insertId, ps, -, heq, -⟩
  · exact succeeds_rearrange hturns hr hmax
  · rw [heq] at hmax ⊢
    exact succeeds_placeAll hmax

end Model

end Masonry
