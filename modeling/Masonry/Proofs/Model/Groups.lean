import Masonry.Proofs.Model.Lineage

/-!
# Groups

A group is found by its id, and holds the ids of stones that may be gone (`membersOf`). While its
members lie below the next id of a stone (`Dated`) none of those that are gone can come back, so that
the stones of a group only become fewer (`Succeeds.groupStones_sublist`). A new group has an id of its
own if those in use lie below the next one (`Tallied`), and then finds the stones that it was made of
(`selectGroup_makeGroup`).
-/

namespace Masonry.Model

variable {α : Type} {m m' : Model α} {t : Stone α} {id : Int32}

/-- The members of the first group with an id, if there is one. -/
def membersOf (m : Model α) (id : Int32) : List Int32 := ((m.group? id).map (·.members)).getD []

/-- A group finds a group by its own id, though not always itself. -/
theorem exists_membersOf_eq {m : Model α} {g : Group} (hg : g ∈ m.groups) :
    ∃ g' ∈ m.groups, g'.id = g.id ∧ m.membersOf g.id = g'.members := by
  obtain ⟨g', hfind⟩ : ∃ g', m.group? g.id = some g' := by
    rw [← Option.isSome_iff_exists, group?, List.find?_isSome]
    exact ⟨g, hg, by simp⟩
  have hid : g'.id = g.id := by simpa using List.find?_some hfind
  exact ⟨g', List.mem_of_find?_eq_some hfind, hid, by rw [membersOf, hfind]; rfl⟩

theorem mem_membersOf {k : Int32} (h : k ∈ m.membersOf id) : ∃ g ∈ m.groups, k ∈ g.members := by
  rw [membersOf] at h
  cases hfind : m.group? id with
  | none => simp [hfind] at h
  | some g => exact ⟨g, List.mem_of_find?_eq_some hfind, by simpa [hfind] using h⟩

theorem groupStones_eq (m : Model α) (id : Int32) :
    m.groupStones id = (m.membersOf id).filterMap m.stone? := by
  unfold groupStones membersOf
  cases m.group? id <;> rfl

theorem map_id_groupStones (m : Model α) (id : Int32) :
    (m.groupStones id).map (·.id) = (m.membersOf id).filter (· ∈ m.ids) := by
  rw [groupStones_eq, List.map_filterMap]
  simp only [map_stone?]
  rw [← List.filterMap_eq_filter]
  congr 1
  funext k
  simp [Option.guard]

/-- Where ids differ a stone is found by its id. -/
theorem stone?_eq_some_iff (h : m.ids.Nodup) {k : Int32} :
    m.stone? k = some t ↔ t ∈ m.stones ∧ t.id = k := by
  constructor
  · intro hfind
    exact ⟨List.mem_of_find?_eq_some hfind, by simpa using List.find?_some hfind⟩
  · rintro ⟨ht, rfl⟩
    obtain ⟨u, hfind⟩ : ∃ u, m.stone? t.id = some u := by
      rw [← Option.isSome_iff_exists, stone?, List.find?_isSome]
      exact ⟨t, ht, by simp⟩
    have hu : u.id = t.id := by simpa using List.find?_some hfind
    rw [hfind, List.inj_on_of_nodup_map h (List.mem_of_find?_eq_some hfind) ht hu]

/-- Where ids differ the stones of a group are those whose ids are its members. -/
theorem mem_groupStones_iff (h : m.ids.Nodup) :
    t ∈ m.groupStones id ↔ t ∈ m.stones ∧ t.id ∈ m.membersOf id := by
  rw [groupStones_eq, List.mem_filterMap]
  constructor
  · rintro ⟨k, hk, hfind⟩
    obtain ⟨ht, rfl⟩ := (stone?_eq_some_iff h).1 hfind
    exact ⟨ht, hk⟩
  · rintro ⟨ht, hk⟩
    exact ⟨t.id, hk, (stone?_eq_some_iff h).2 ⟨ht, rfl⟩⟩

/-! ## Members -/

/-- The next id lies above all ids of stones and above all members of groups. -/
structure Dated (m : Model α) : Prop extends Ordered m where
  members_lt : ∀ g ∈ m.groups, ∀ k ∈ g.members, k < m.nextStone

theorem Dated.of_groups_eq (h : m.Dated) (ho : m'.Ordered) (hgroups : m'.groups = m.groups)
    (hle : m.nextStone ≤ m'.nextStone) : m'.Dated := by
  refine ⟨ho, ?_⟩
  rw [hgroups]
  exact fun g hg k hk => Int32.lt_of_lt_of_le (h.members_lt g hg k hk) hle

/-- Of two lookups the first finds less: at each key nothing, or what the second finds. -/
theorem filterMap_sublist {κ β : Type} {find find' : κ → Option β} {keys : List κ}
    (h : ∀ k ∈ keys, find' k = none ∨ find' k = find k) :
    (keys.filterMap find').Sublist (keys.filterMap find) := by
  induction keys with
  | nil => exact List.Sublist.refl _
  | cons k keys ih =>
    obtain ⟨hk, hkeys⟩ := List.forall_mem_cons.1 h
    have hrest := ih hkeys
    rw [List.filterMap_cons, List.filterMap_cons]
    rcases hk with hnone | heq
    · rw [hnone]
      cases find k with
      | none => exact hrest
      | some b => exact hrest.cons b
    · rw [heq]
      cases find k with
      | none => exact hrest
      | some b => exact hrest.cons_cons b

/-- A stone of a later model whose id was a member of a group is one of the earlier model. -/
theorem Succeeds.of_member (h : m.Succeeds m') (hm : m.Dated) (ht : t ∈ m'.stones)
    (hk : t.id ∈ m.membersOf id) : ∃ s ∈ m.stones, s.lasting = t.lasting := by
  obtain ⟨g, hg, hmember⟩ := mem_membersOf hk
  rcases h.stones t ht with hs | hlater
  · exact hs
  · exact absurd (hm.members_lt g hg _ hmember) (Int32.not_lt.2 hlater)

/-- The stones of a group become fewer, and remain what they are. -/
theorem Succeeds.groupStones_sublist (h : m.Succeeds m') (hm : m.Dated)
    (hmembers : m'.membersOf id = m.membersOf id) :
    ((m'.groupStones id).map Stone.lasting).Sublist ((m.groupStones id).map Stone.lasting) := by
  rw [groupStones_eq, groupStones_eq, hmembers, List.map_filterMap, List.map_filterMap]
  refine filterMap_sublist fun k hk => ?_
  -- A stone that is found under the id of a member cannot have come later.
  cases hfind : m'.stone? k with
  | none => exact .inl rfl
  | some t =>
    have ht : t ∈ m'.stones := List.mem_of_find?_eq_some hfind
    obtain rfl : t.id = k := by simpa using List.find?_some hfind
    obtain ⟨s, hs, hlasting⟩ := h.of_member hm ht hk
    have hfound : m.stone? t.id = some s :=
      (stone?_eq_some_iff hm.nodup).2 ⟨hs, Stone.id_eq_of_lasting_eq hlasting⟩
    rw [hfound, Option.map_some, Option.map_some, hlasting]
    exact .inr rfl

/-! ## New groups -/

/-- The next id of a group lies above those of all groups. -/
def Tallied (m : Model α) : Prop := ∀ g ∈ m.groups, g.id < m.nextGroup

instance (m : Model α) : Decidable m.Tallied :=
  inferInstanceAs (Decidable (∀ g ∈ m.groups, g.id < m.nextGroup))

theorem Tallied.notMem (h : m.Tallied) : m.nextGroup ∉ m.groups.map (·.id) := by
  intro hmem
  obtain ⟨g, hg, hid⟩ := List.mem_map.1 hmem
  have hlt := h g hg
  rw [hid] at hlt
  exact Int32.lt_irrefl hlt

theorem Tallied.makeGroup (h : m.Tallied) {name : String}
    (hmax : Int32.maxValue ∉ (m.makeGroup name).2.groups.map (·.id)) :
    (m.makeGroup name).2.Tallied := by
  have hnext : m.nextGroup ≠ Int32.maxValue := by
    intro heq
    exact hmax (by simp [Model.makeGroup, heq])
  have hlt : m.nextGroup < m.nextGroup + 1 := Counter.lt_add_one hnext
  refine List.forall_mem_append.2 ⟨fun g hg => ?_, List.forall_mem_singleton.2 hlt⟩
  exact Int32.lt_trans (h g hg) hlt

theorem Tallied.deleteGroup (h : m.Tallied) (id : Int32) : (m.deleteGroup id).2.Tallied :=
  fun g hg => h g (List.eraseP_subset hg)

/-- Where ids differ, selecting by the ids of the selection changes nothing. -/
theorem map_select_selection (h : m.ids.Nodup) :
    (m.stones.map fun s => s.select ((m.selection.map (·.id)).contains s.id)) = m.stones := by
  have hsame : ∀ s ∈ m.stones, s.select ((m.selection.map (·.id)).contains s.id) = s := by
    intro s hs
    have hiff : s.id ∈ m.selection.map (·.id) ↔ s.selected = true := by
      rw [List.mem_map]
      constructor
      · rintro ⟨u, hu, hid⟩
        obtain ⟨hmem, hselected⟩ := List.mem_filter.1 hu
        rw [← List.inj_on_of_nodup_map h hmem hs hid]
        exact hselected
      · exact fun hselected => ⟨s, List.mem_filter.2 ⟨hs, hselected⟩, rfl⟩
    have hmark : (m.selection.map (·.id)).contains s.id = s.selected := by
      rw [Bool.eq_iff_iff, List.contains_iff_mem]
      exact hiff
    rw [hmark, Stone.select]
  exact (List.map_congr_left hsame).trans (List.map_id m.stones)

/-- Under a free id a new group is found, and selecting it selects the stones whose ids were those of
the selection. -/
theorem selectGroup_makeGroup (h : m.nextGroup ∉ m.groups.map (·.id)) (name : String) :
    (m.makeGroup name).2.selectGroup m.nextGroup =
      (true, (m.makeGroup name).2.mapStones fun s =>
        s.select ((m.selection.map (·.id)).contains s.id)) := by
  have hnone : m.groups.find? (·.id == m.nextGroup) = none := by
    rw [List.find?_eq_none]
    intro g hg hid
    exact h (List.mem_map.2 ⟨g, hg, by simpa using hid⟩)
  have hgroup : (m.makeGroup name).2.group? m.nextGroup =
      some ⟨m.nextGroup, name, m.selection.map (·.id)⟩ := by
    simp [group?, Model.makeGroup, List.find?_append, hnone]
  rw [selectGroup, hgroup]

/-! ## Edits -/

/-- Deleting the first group with an id hides no group with another one. -/
theorem find?_eraseP {k : Int32} (hne : k ≠ id) (groups : List Group) :
    (groups.eraseP (·.id == k)).find? (·.id == id) = groups.find? (·.id == id) := by
  induction groups with
  | nil => rfl
  | cons g groups ih =>
    by_cases hg : g.id = k
    · have hother : (g.id == id) = false := by simp [hg, hne]
      rw [List.eraseP_cons_of_pos (by simpa using hg), List.find?_cons, hother]
    · rw [List.eraseP_cons_of_neg (by simpa using hg), List.find?_cons, List.find?_cons, ih]

variable [Scalar α] {c : Catalog α}

/-- A group is found as before unless it is deleted. -/
theorem group?_edit (e : Edit α) (hkeep : e ≠ .deleteGroup id) (hgroup : (m.group? id).isSome) :
    (m.edit c e).group? id = m.group? id := by
  rcases groups_edit m c e with ⟨hgroups, -⟩ | ⟨name, rfl⟩ | ⟨k, rfl⟩
  · rw [group?, group?, hgroups]
  · have hfound : (m.groups.find? (·.id == id)).isSome := hgroup
    show (m.groups ++ _).find? _ = m.groups.find? _
    rw [List.find?_append, Option.or_of_isSome hfound]
  · exact find?_eraseP (fun heq => hkeep (congrArg Edit.deleteGroup heq)) m.groups

theorem Ordered.edit (h : m.Ordered) (e : Edit α) (hmax : Int32.maxValue ∉ (m.edit c e).ids) :
    (m.edit c e).Ordered := by
  rcases edit_cases m c e with ⟨hr, -⟩ | ⟨insertId, ps, -, heq, -⟩
  · exact h.rearrange hr hmax
  · rw [heq] at hmax ⊢
    exact h.places (placeAll_places m c insertId ps) hmax

/-- While the greatest id is not in use, members of groups stay below the next id. -/
theorem Dated.edit (h : m.Dated) (hturns : ∀ s ∈ m.stones, s.turns < 4) (e : Edit α)
    (hmax : Int32.maxValue ∉ (m.edit c e).ids) : (m.edit c e).Dated := by
  have hordered := h.toOrdered.edit e hmax
  have hnext := (succeeds_edit hturns e hmax).next_le
  rcases groups_edit m c e with ⟨hgroups, -⟩ | ⟨name, rfl⟩ | ⟨k, rfl⟩
  · exact h.of_groups_eq hordered hgroups hnext
  · refine ⟨hordered, List.forall_mem_append.2 ⟨h.members_lt, List.forall_mem_singleton.2 ?_⟩⟩
    refine List.forall_mem_map.2 fun s hs => ?_
    exact h.lt_next s.id (List.mem_map_of_mem (List.mem_of_mem_filter hs))
  · exact ⟨hordered, fun g hg => h.members_lt g (List.eraseP_subset hg)⟩

theorem Dated.placeAll (h : m.Dated) {insertId : Int32} {ps : List Placement}
    (hmax : Int32.maxValue ∉ (m.placeAll c insertId ps).2.ids) :
    (m.placeAll c insertId ps).2.Dated := by
  have hplaces := placeAll_places m c insertId ps
  exact h.of_groups_eq (h.toOrdered.places hplaces hmax) hplaces.frame.groups (hplaces.next_le hmax)

theorem Tallied.edit (h : m.Tallied) (e : Edit α)
    (hmax : Int32.maxValue ∉ (m.edit c e).groups.map (·.id)) : (m.edit c e).Tallied := by
  rcases groups_edit m c e with ⟨hgroups, hnext⟩ | ⟨name, rfl⟩ | ⟨k, rfl⟩
  · rw [Tallied, hgroups, hnext]
    exact h
  · exact h.makeGroup hmax
  · exact h.deleteGroup k

/-- A move takes the stones of a group along: one that is still there is still in the group, and
elsewhere if it was selected. -/
theorem mem_groupStones_moveSelection {s : Stone α} {offset : Cell} (hturns : ∀ u ∈ m.stones, u.turns < 4)
    (hnodup : m.ids.Nodup) (hs : s ∈ m.groupStones id)
    (ht : t ∈ (m.moveSelection c offset).2.stones) (hid : s.id = t.id) :
    t ∈ (m.moveSelection c offset).2.groupStones id ∧ s.lasting = t.lasting ∧
      t.placement = if s.selected then s.placement.shifted offset else s.placement := by
  obtain ⟨hmem, hmember⟩ := (mem_groupStones_iff hnodup).1 hs
  have hgroups : (m.moveSelection c offset).2.groups = m.groups :=
    (moveSelection_places m c offset).frame.groups
  have hmembers : (m.moveSelection c offset).2.membersOf id = m.membersOf id := by
    rw [membersOf, membersOf, group?, group?, hgroups]
  have hnodup' : (m.moveSelection c offset).2.ids.Nodup := nodup_ids_rearrange (.move offset) hnodup
  refine ⟨(mem_groupStones_iff hnodup').2 ⟨ht, by rwa [hmembers, ← hid]⟩, ?_⟩
  rcases of_mem_moveSelection hturns ht with ⟨htm, hmark⟩ | ⟨u, hu, hmoved⟩
  · obtain rfl := List.inj_on_of_nodup_map hnodup hmem htm hid
    exact ⟨rfl, by simp [hmark]⟩
  · obtain ⟨hum, hmark⟩ := List.mem_filter.1 hu
    obtain rfl := List.inj_on_of_nodup_map hnodup hmem hum (hid.trans hmoved.id.symm)
    exact ⟨hmoved.lasting_eq, by rw [if_pos hmark, hmoved.placement]⟩

end Masonry.Model
