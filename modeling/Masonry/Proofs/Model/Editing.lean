import Masonry.Proofs.Model.Identity
import Masonry.Proofs.Model.Separation

/-!
# Edited models

The models that come from the empty one by edits with one catalog (`Reached`), as long as no counter
starts again. All of them are sound, and their ids are those of counters that began at zero:
`Numbered` for the stones, `Grouped` for the groups.
-/

namespace Masonry

/-- A step of work on a model. -/
inductive Edit (α : Type) where
  /-- A stone is placed under the next id. -/
  | insert (insertId : Int32) (p : Placement)
  /-- A cell is asked for. -/
  | look (r : Ray α) (level : Int) (hold : Bool)
  | pick (r : Ray α) (additive linked : Bool)
  | deselect
  | delete
  | move (offset : Cell)
  | copy (offset : Cell) (insertId : Int32)
  | unite
  | separate (insertId : Int32)
  | makeGroup (name : String)
  | deleteGroup (id : Int32)
  | selectGroup (id : Int32)

namespace Model

variable {α : Type}

/-- The stones are numbered from zero on. -/
structure Numbered (m : Model α) : Prop where
  ordered : m.Ordered
  next_nonneg : 0 ≤ m.nextStone
  ids_nonneg : ∀ k ∈ m.ids, 0 ≤ k

/-- The groups are numbered from zero on, and no member is repeated in one. -/
structure Grouped (m : Model α) : Prop where
  nodup : (m.groups.map (·.id)).Nodup
  next_nonneg : 0 ≤ m.nextGroup
  ids : ∀ k ∈ m.groups.map (·.id), 0 ≤ k ∧ k < m.nextGroup
  members : ∀ g ∈ m.groups, g.members.Nodup ∧ ∀ k ∈ g.members, 0 ≤ k ∧ k < Int32.maxValue

/-- Numbering does not need any of the stones. -/
theorem Numbered.of_sublist {m m' : Model α} (h : m.Numbered) (hs : m'.ids.Sublist m.ids)
    (hnext : m'.nextStone = m.nextStone) : m'.Numbered where
  ordered := ⟨h.ordered.nodup.sublist hs, fun k hk => hnext ▸ h.ordered.lt_next k (hs.subset hk)⟩
  next_nonneg := hnext ▸ h.next_nonneg
  ids_nonneg k hk := h.ids_nonneg k (hs.subset hk)

theorem Numbered.of_mem_selection {m : Model α} (h : m.Numbered) {s : Stone α}
    (hs : s ∈ m.selection) : 0 ≤ s.id ∧ s.id < m.nextStone := by
  have hmem : s.id ∈ m.ids := List.mem_map_of_mem (List.mem_of_mem_filter hs)
  exact ⟨h.ids_nonneg _ hmem, h.ordered.lt_next _ hmem⟩

theorem Numbered.length_stones_lt {m : Model α} (h : m.Numbered) : m.stones.length < 2147483648 := by
  have hlt := Counter.length_lt_of_nodup h.ordered.nodup
    fun k hk => ⟨h.ids_nonneg k hk, h.ordered.lt_next k hk⟩
  rwa [ids, List.length_map] at hlt

theorem Grouped.length_groups_lt {m : Model α} (h : m.Grouped) : m.groups.length < 2147483648 := by
  have hlt := Counter.length_lt_of_nodup h.nodup h.ids
  rwa [List.length_map] at hlt

theorem Grouped.length_members_lt {m : Model α} (h : m.Grouped) {g : Group} (hg : g ∈ m.groups) :
    g.members.length < 2147483648 :=
  Counter.length_lt_of_nodup (h.members g hg).1 (h.members g hg).2

variable [Scalar α] {c : Catalog α} {m m' : Model α}

/-- Placing stones under ids that are not negative keeps the stones numbered. -/
theorem Numbered.places_given {P : Option Int32 → Prop} (h : m.Numbered) (hp : Places c P m m')
    (hP : ∀ id, P id → ∃ k, id = some k ∧ 0 ≤ k ∧ k ≠ Int32.maxValue) : m'.Numbered := by
  refine hp.keeps (R := fun n => n.Numbered) ?_ ?_ h
  · intro n s k hid _ _ hk hn
    obtain ⟨k', hkk', hnonneg, hne⟩ := hP _ hid
    obtain rfl := Option.some.inj hkk'
    refine ⟨hn.ordered.put hk (Counter.le_max_left _ _) ?_, ?_, ?_⟩
    · exact Int32.lt_of_lt_of_le (Counter.lt_add_one hne) (Counter.le_max_right _ _)
    · exact Int32.le_trans hn.next_nonneg (Counter.le_max_left _ _)
    · rw [ids_put]
      exact List.forall_mem_append.2 ⟨hn.ids_nonneg, List.forall_mem_singleton.2 hnonneg⟩
  · intro n s hnone
    obtain ⟨k, hk, -⟩ := hP none hnone
    cases hk

/-- A batch keeps the stones numbered if the next id has not gone down. -/
theorem Numbered.placeAll (h : m.Numbered) {insertId : Int32} {ps : List Placement}
    (hps : ps.length < 2147483648) (hnext : m.nextStone ≤ (m.placeAll c insertId ps).2.nextStone) :
    (m.placeAll c insertId ps).2.Numbered := by
  obtain ⟨hids, hadd, hcount⟩ := placeAll_hands_out m c insertId ps
  -- A batch is too short for the count to come round and end above where it began.
  have hroom : m.nextStone.toInt + (m.placeAll c insertId ps).1 < 2147483648 :=
    Counter.toInt_add_lt h.next_nonneg (Nat.lt_of_le_of_lt hcount hps) (hadd ▸ hnext)
  have hnew : ∀ k ∈ Counter.upcoming m.nextStone (m.placeAll c insertId ps).1,
      m.nextStone ≤ k ∧ k ≠ Int32.maxValue := fun k hk => Counter.of_mem_upcoming hroom hk
  have hmax : Int32.maxValue ∉ (m.placeAll c insertId ps).2.ids := by
    rw [hids, List.mem_append, not_or]
    refine ⟨fun hmem => ?_, fun hmem => (hnew _ hmem).2 rfl⟩
    exact Counter.ne_maxValue_of_lt (h.ordered.lt_next _ hmem) rfl
  refine ⟨h.ordered.places (placeAll_places m c insertId ps) hmax, Int32.le_trans h.next_nonneg hnext, ?_⟩
  rw [hids]
  exact List.forall_mem_append.2
    ⟨h.ids_nonneg, fun k hk => Int32.le_trans h.next_nonneg (hnew k hk).1⟩

theorem Numbered.rearrange (h : m.Numbered) (hr : Rearranges c m m') : m'.Numbered := by
  have hdelete : m.deleteSelection.2.Numbered := h.of_sublist (List.filter_sublist.map _) rfl
  cases hr with
  | relabel hr => exact h.of_sublist (hr.ids_eq ▸ List.Sublist.refl _) hr.nextStone
  | delete => exact hdelete
  | move offset =>
    refine hdelete.places_given (moveSelection_places m c offset) ?_
    rintro _ ⟨s, hs, rfl⟩
    obtain ⟨hnonneg, hlt⟩ := h.of_mem_selection hs
    exact ⟨s.id, rfl, hnonneg, Counter.ne_maxValue_of_lt hlt⟩

/-! ## Edits -/

/-- The model after an edit. -/
def edit (m : Model α) (c : Catalog α) : Edit α → Model α
  | .insert insertId p => (m.place c none insertId p).2
  | .look r level hold => (m.cellAt r level hold).2
  | .pick r additive linked => (m.pick r additive linked).2
  | .deselect => m.deselect
  | .delete => m.deleteSelection.2
  | .move offset => (m.moveSelection c offset).2
  | .copy offset insertId => (m.copySelection c offset insertId).2
  | .unite => m.unite
  | .separate insertId => m.separate insertId
  | .makeGroup name => (m.makeGroup name).2
  | .deleteGroup id => (m.deleteGroup id).2
  | .selectGroup id => (m.selectGroup id).2

/-- The ids that an edit hands out by itself. -/
def handedOut (m : Model α) (c : Catalog α) : Edit α → List Int32
  | .insert insertId p => Counter.upcoming m.nextStone (m.placeAll c insertId [p]).1
  | .copy offset insertId => Counter.upcoming m.nextStone (m.copySelection c offset insertId).1
  | _ => []

/-- An edit hands out no id, or it places a batch of stones, no more than one or a copy of each stone,
and hands out the ids of the batch. -/
theorem edit_cases (m : Model α) (c : Catalog α) (e : Edit α) :
    (Rearranges c m (m.edit c e) ∧ m.handedOut c e = []) ∨
      ∃ insertId ps, ps.length ≤ max 1 m.stones.length ∧ m.edit c e = (m.placeAll c insertId ps).2 ∧
        m.handedOut c e = Counter.upcoming m.nextStone (m.placeAll c insertId ps).1 := by
  cases e with
  | insert insertId p => exact .inr ⟨insertId, [p], Nat.le_max_left 1 _, rfl, rfl⟩
  | look r level hold => exact .inl ⟨.relabel (marks_cellAt m r level hold).toRelabels, rfl⟩
  | pick r additive linked => exact .inl ⟨.relabel (marks_pick m r additive linked).toRelabels, rfl⟩
  | deselect => exact .inl ⟨.relabel (marks_deselect m).toRelabels, rfl⟩
  | delete => exact .inl ⟨.delete, rfl⟩
  | move offset => exact .inl ⟨.move offset, rfl⟩
  | copy offset insertId =>
    refine .inr ⟨insertId, m.selection.map (·.placement.shifted offset), ?_, rfl, rfl⟩
    rw [List.length_map]
    exact Nat.le_trans (List.length_filter_le _ _) (Nat.le_max_right _ _)
  | unite => exact .inl ⟨.relabel (marks_unite m).toRelabels, rfl⟩
  | separate insertId => exact .inl ⟨.relabel (marks_separate m insertId).toRelabels, rfl⟩
  | makeGroup name => exact .inl ⟨.relabel (relabels_makeGroup m name), rfl⟩
  | deleteGroup id => exact .inl ⟨.relabel (relabels_deleteGroup m id), rfl⟩
  | selectGroup id => exact .inl ⟨.relabel (marks_selectGroup m id).toRelabels, rfl⟩

/-- An edit makes a group, deletes one, or leaves the groups alone. -/
theorem groups_edit (m : Model α) (c : Catalog α) (e : Edit α) :
    ((m.edit c e).groups = m.groups ∧ (m.edit c e).nextGroup = m.nextGroup) ∨
      (∃ name, e = .makeGroup name) ∨ ∃ id, e = .deleteGroup id := by
  cases e with
  | insert insertId p =>
    have hframe := (placeAll_places m c insertId [p]).frame
    exact .inl ⟨hframe.groups, hframe.nextGroup⟩
  | look r level hold =>
    have hmarks := marks_cellAt m r level hold
    exact .inl ⟨hmarks.groups, hmarks.nextGroup⟩
  | pick r additive linked =>
    have hmarks := marks_pick m r additive linked
    exact .inl ⟨hmarks.groups, hmarks.nextGroup⟩
  | deselect => exact .inl ⟨rfl, rfl⟩
  | delete => exact .inl ⟨rfl, rfl⟩
  | move offset =>
    have hframe := (moveSelection_places m c offset).frame
    exact .inl ⟨hframe.groups, hframe.nextGroup⟩
  | copy offset insertId =>
    have hframe := (placeAll_places m c insertId (m.selection.map (·.placement.shifted offset))).frame
    exact .inl ⟨hframe.groups, hframe.nextGroup⟩
  | unite =>
    have hmarks := marks_unite m
    exact .inl ⟨hmarks.groups, hmarks.nextGroup⟩
  | separate insertId => exact .inl ⟨rfl, rfl⟩
  | makeGroup name => exact .inr (.inl ⟨name, rfl⟩)
  | deleteGroup id => exact .inr (.inr ⟨id, rfl⟩)
  | selectGroup id =>
    have hmarks := marks_selectGroup m id
    exact .inl ⟨hmarks.groups, hmarks.nextGroup⟩

omit [Scalar α] in
theorem Grouped.of_groups_eq (h : m.Grouped) (hgroups : m'.groups = m.groups)
    (hnext : m'.nextGroup = m.nextGroup) : m'.Grouped := by
  constructor
  · rw [hgroups]
    exact h.nodup
  · rw [hnext]
    exact h.next_nonneg
  · rw [hgroups, hnext]
    exact h.ids
  · rw [hgroups]
    exact h.members

omit [Scalar α] in
/-- The ids of a selection can be the members of a group, if the next id of a group is not the
greatest. -/
theorem Grouped.makeGroup (h : m.Grouped) (hm : m.Numbered) (name : String)
    (hnext : m.nextGroup ≤ m.nextGroup + 1) : (m.makeGroup name).2.Grouped := by
  have hlt : m.nextGroup < m.nextGroup + 1 := Counter.lt_add_one (Counter.ne_maxValue_of_le_add_one hnext)
  have hids : (m.makeGroup name).2.groups.map (·.id) = m.groups.map (·.id) ++ [m.nextGroup] := by
    simp [Model.makeGroup]
  constructor
  · rw [hids, List.nodup_append]
    refine ⟨h.nodup, List.nodup_singleton _, fun j hj k hk hjk => ?_⟩
    rw [List.mem_singleton] at hk
    have hj := (h.ids j hj).2
    rw [hjk, hk] at hj
    exact Int32.lt_irrefl hj
  · exact Int32.le_trans h.next_nonneg hnext
  · rw [hids]
    refine List.forall_mem_append.2 ⟨fun k hk => ?_, List.forall_mem_singleton.2 ⟨h.next_nonneg, hlt⟩⟩
    exact ⟨(h.ids k hk).1, Int32.lt_of_lt_of_le (h.ids k hk).2 hnext⟩
  · refine List.forall_mem_append.2 ⟨h.members, List.forall_mem_singleton.2 ⟨?_, ?_⟩⟩
    · exact hm.ordered.nodup.sublist (List.filter_sublist.map _)
    · refine List.forall_mem_map.2 fun s hs => ?_
      obtain ⟨hnonneg, hlt⟩ := hm.of_mem_selection hs
      exact ⟨hnonneg, Int32.lt_of_lt_of_le hlt (Int32.le_maxValue _)⟩

omit [Scalar α] in
theorem Grouped.deleteGroup (h : m.Grouped) (id : Int32) : (m.deleteGroup id).2.Grouped := by
  have hsub : (m.deleteGroup id).2.groups.Sublist m.groups := List.eraseP_sublist
  exact ⟨h.nodup.sublist (hsub.map _), h.next_nonneg, fun k hk => h.ids k ((hsub.map _).subset hk),
    fun g hg => h.members g (hsub.subset hg)⟩

/-- The models that come from the empty one by edits with one catalog while no counter goes down,
as it does after the greatest number. Without stones the origin can be moved, too. -/
inductive Reached (c : Catalog α) : Model α → Prop where
  | start : Reached c empty
  | origin {m : Model α} (origin : Vec3 α) :
      Reached c m → m.stones = [] → Reached c (m.withOrigin origin)
  | edit {m : Model α} (e : Edit α) : Reached c m → m.nextStone ≤ (m.edit c e).nextStone →
      m.nextGroup ≤ (m.edit c e).nextGroup → Reached c (m.edit c e)

/-- What holds of every reached model: its stones can be placed again, and its ids count from zero. -/
structure Orderly (c : Catalog α) (m : Model α) : Prop where
  sound : Sound c m
  numbered : m.Numbered
  grouped : m.Grouped

theorem orderly_empty : Orderly c (empty : Model α) where
  sound := sound_empty
  numbered := ⟨ordered_empty, Int32.le_refl 0, by simp⟩
  grouped := by constructor <;> simp [empty]

/-- An edit after which no counter is lower keeps a model orderly. -/
theorem Orderly.edit (h : Orderly c m) (e : Edit α) (hstone : m.nextStone ≤ (m.edit c e).nextStone)
    (hgroup : m.nextGroup ≤ (m.edit c e).nextGroup) : Orderly c (m.edit c e) := by
  have hstones : Sound c (m.edit c e) ∧ (m.edit c e).Numbered := by
    rcases edit_cases m c e with ⟨hr, -⟩ | ⟨insertId, ps, hps, heq, -⟩
    · exact ⟨h.sound.rearrange hr, h.numbered.rearrange hr⟩
    · rw [heq] at hstone ⊢
      have hlength := h.numbered.length_stones_lt
      have hbatch : ps.length < 2147483648 := by omega
      exact ⟨h.sound.places (placeAll_places m c insertId ps), h.numbered.placeAll hbatch hstone⟩
  refine ⟨hstones.1, hstones.2, ?_⟩
  rcases groups_edit m c e with ⟨hgroups, hnext⟩ | ⟨name, rfl⟩ | ⟨id, rfl⟩
  · exact h.grouped.of_groups_eq hgroups hnext
  · exact h.grouped.makeGroup h.numbered name hgroup
  · exact h.grouped.deleteGroup id

theorem Reached.orderly (h : Reached c m) : Orderly c m := by
  induction h with
  | start => exact orderly_empty
  | origin origin _ hnil ih =>
    refine ⟨sound_of_stones_eq_nil hnil, ?_, ?_⟩
    · exact ih.numbered.of_sublist (List.Sublist.refl _) rfl
    · exact ih.grouped.of_groups_eq rfl rfl
  | edit e _ hstone hgroup ih => exact ih.edit e hstone hgroup

end Model

end Masonry
