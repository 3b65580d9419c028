import Masonry.Proofs.Model.Groups
import Masonry.Proofs.Save.ArchiveInversion
import Masonry.Proofs.Save.Loading

/-!
# Loading what was saved

A saved model is loaded by placing its stones again. If they keep apart and their ids differ
(`Settled`), nothing stands in the way of any of them, so that all those come back whose shape is in
the catalog (`ofArchive_archive`). Groups come back by their ids: each with the members of the first
group that has its id (`membersOf`).
-/

namespace Masonry

open Save

attribute [ext] Archive

variable {α : Type}

/-- The catalog has a shape for the stone. -/
def Catalog.knows (c : Catalog α) (s : Stone α) : Bool := (c.shape? s.code).isSome

theorem Catalog.boxAt?_eq_none_iff [Scalar α] {c : Catalog α} {s : Stone α} {angle : α} :
    c.boxAt? s.code angle = none ↔ c.knows s = false := by
  rw [boxAt?, knows, Option.map_eq_none_iff, Option.isSome_eq_false_iff, Option.isNone_iff_eq_none]

namespace Model

/-- A group is found by its id with members that pass a test if all groups are listed with those. -/
theorem membersOf_eq_filter {m m' : Model α} {p : Int32 → Bool}
    (h : m'.groups = m.groups.map fun g => { g with members := (m.membersOf g.id).filter p })
    (id : Int32) : m'.membersOf id = (m.membersOf id).filter p := by
  have hgroup : m'.group? id = (m.group? id).map fun g =>
      { g with members := (m.membersOf g.id).filter p } := by
    rw [group?, h, List.find?_map]
    rfl
  rw [membersOf, hgroup]
  cases hfind : m.group? id with
  | none => simp [membersOf, hfind]
  | some g =>
    have hid : g.id = id := by simpa using List.find?_some hfind
    simp [hid]

theorem length_membersOf_lt {m : Model α} {n : Nat} (h : ∀ g ∈ m.groups, g.members.length < n)
    (hn : 0 < n) (id : Int32) : (m.membersOf id).length < n := by
  rw [membersOf]
  cases hfind : m.group? id with
  | none => exact hn
  | some g => exact h g (List.mem_of_find?_eq_some hfind)

/-- The stones with a shape in the catalog, unselected. -/
def kept (m : Model α) (c : Catalog α) : List (Stone α) :=
  (m.stones.filter c.knows).map (·.select false)

theorem ids_kept_sublist (m : Model α) (c : Catalog α) :
    ((m.kept c).map (·.id)).Sublist m.ids := by
  have hids : (m.kept c).map (·.id) = (m.stones.filter c.knows).map (·.id) := by
    simp [kept, Stone.select, Function.comp_def]
  rw [hids]
  exact List.filter_sublist.map _

theorem filter_ids_filter_kept (m : Model α) (c : Catalog α) (ids : List Int32) :
    (ids.filter (· ∈ m.ids)).filter (· ∈ (m.kept c).map (·.id)) =
      ids.filter (· ∈ (m.kept c).map (·.id)) := by
  rw [List.filter_filter]
  refine List.filter_congr fun id _ => ?_
  have hsub : id ∈ (m.kept c).map (·.id) → id ∈ m.ids := fun h => (ids_kept_sublist m c).subset h
  simpa using hsub

variable [Scalar α] {c : Catalog α}

/-- The stones can be placed one after the other, each where it is, if its shape is there. -/
structure Placeable (c : Catalog α) (m : Model α) (ss : List (Stone α)) : Prop where
  apart : (m.stones ++ ss).Pairwise fun s t => (m.core s).overlaps (m.core t) = false
  turns_lt : ∀ s ∈ ss, s.turns < 4
  box_eq : ∀ s ∈ ss, ∀ box, c.boxAt? s.code (degrees s.turns) = some box → box = s.box
  nodup : (m.ids ++ ss.map (·.id)).Nodup

theorem Placeable.skip {m : Model α} {s : Stone α} {ss : List (Stone α)}
    (h : Placeable c m (s :: ss)) : Placeable c m ss where
  apart := h.apart.sublist ((List.sublist_cons_self s ss).append_left _)
  turns_lt t ht := h.turns_lt t (.tail _ ht)
  box_eq t ht := h.box_eq t (.tail _ ht)
  nodup := h.nodup.sublist ((List.sublist_cons_self _ _).append_left _)

theorem Placeable.step {m : Model α} {s : Stone α} {ss : List (Stone α)}
    (h : Placeable c m (s :: ss)) (next : Int32) : Placeable c (m.put (s.select false) next) ss where
  apart := by
    have hcores : ((m.put (s.select false) next).stones ++ ss).map m.core =
        (m.stones ++ s :: ss).map m.core := by simp [put]
    have hapart : ((m.stones ++ s :: ss).map m.core).Pairwise fun a b => a.overlaps b = false :=
      List.pairwise_map.2 h.apart
    rw [← hcores] at hapart
    exact List.pairwise_map.1 hapart
  turns_lt t ht := h.turns_lt t (.tail _ ht)
  box_eq t ht := h.box_eq t (.tail _ ht)
  nodup := by
    rw [ids_put, List.append_assoc]
    exact h.nodup

theorem placeStored_stored {m : Model α} {s : Stone α} {ss : List (Stone α)}
    (h : Placeable c m (s :: ss)) :
    placeStored c m s.stored =
      if c.knows s then m.put (s.select false) (max m.nextStone (s.id + 1)) else m := by
  have hturns : foldTurns (foldTurns s.turns) = s.turns := by
    rw [foldTurns_of_lt (foldTurns_lt _), foldTurns_of_lt (h.turns_lt s (.head _))]
  cases hknown : c.knows s with
  | false =>
    rw [placeStored, place_unknown]
    · rfl
    · have hnone : c.boxAt? s.code (degrees s.turns) = none := Catalog.boxAt?_eq_none_iff.2 hknown
      simp [candidate?, Stone.stored, Placement.folded, hturns, hnone]
  | true =>
    obtain ⟨box, hbox⟩ : ∃ box, c.boxAt? s.code (degrees s.turns) = some box := by
      rw [← Option.isSome_iff_exists, Catalog.boxAt?, Option.isSome_map]
      exact hknown
    obtain rfl := h.box_eq s (.head _) box hbox
    have hcandidate : candidate? c s.insertId (.folded s.code s.color s.turns s.cell) =
        some { s with id := 0, selected := false } := by
      rw [candidate?_eq_some_iff]
      simp [Placement.folded, hturns, hbox]
    have hroom : m.blocks { s with id := 0, selected := false } = false := by
      rw [blocks_eq_false_iff]
      intro t ht
      exact (List.pairwise_append.1 h.apart).2.2 t ht s (.head _)
    have hfree : s.id ∉ m.ids := fun hmem =>
      (List.nodup_append.1 h.nodup).2.2 s.id hmem s.id (.head _) rfl
    rw [placeStored]
    exact congrArg Prod.snd (place_given hcandidate hroom hfree)

/-- Of stones that can be placed, those with a shape are added, and the next id does not go beyond a
number that already was above all of them. -/
theorem foldl_placeStored_stored {m : Model α} {ss : List (Stone α)} {top : Int32}
    (h : Placeable c m ss) (hm : m.nextStone ≤ top) (hss : ∀ s ∈ ss, s.id + 1 ≤ top) :
    ∃ next, next ≤ top ∧ (ss.map Stone.stored).foldl (placeStored c) m =
      { m with
        stones := m.stones ++ (ss.filter c.knows).map (·.select false)
        nextStone := next } := by
  -- The stones still to be placed are part of `Placeable`: those left out stay in the way of none.
  induction ss generalizing m with
  | nil => exact ⟨m.nextStone, hm, by simp⟩
  | cons s ss ih =>
    obtain ⟨hs, hss⟩ := List.forall_mem_cons.1 hss
    rw [List.map_cons, List.foldl_cons, placeStored_stored h]
    cases hknown : c.knows s with
    | false =>
      obtain ⟨next, hle, hfold⟩ := ih h.skip hm hss
      exact ⟨next, hle, by simpa [hknown] using hfold⟩
    | true =>
      have htop : max m.nextStone (s.id + 1) ≤ top := Counter.max_le hm hs
      obtain ⟨next, hle, hfold⟩ := ih (h.step (max m.nextStone (s.id + 1))) htop hss
      refine ⟨next, hle, ?_⟩
      rw [if_pos rfl, hfold]
      simp [put, hknown]

/-- The stones can be placed again, and the next id has come up to the ids of all of them. -/
structure Settled (c : Catalog α) (m : Model α) : Prop where
  placeable : Placeable c (empty.withOrigin m.origin) m.stones
  next_nonneg : 0 ≤ m.nextStone
  succ_le : ∀ k ∈ m.ids, k + 1 ≤ m.nextStone

/-- Stones that keep apart can be placed again with the shapes that they have or with fewer. -/
theorem Sound.placeable {m : Model α} {c' : Catalog α} (h : Sound c m) (hnodup : m.ids.Nodup)
    (hshapes : ∀ s ∈ m.stones, c'.shape? s.code = c.shape? s.code ∨ c'.shape? s.code = none) :
    Placeable c' (empty.withOrigin m.origin) m.stones where
  apart := h.apart
  turns_lt s hs := (h.shaped s hs).turns_lt
  box_eq s hs box hbox := by
    have hshaped := (h.shaped s hs).box_eq
    rw [Catalog.boxAt?] at hbox hshaped
    rcases hshapes s hs with heq | hnone
    · rw [heq, hshaped] at hbox
      exact (Option.some.inj hbox).symm
    · rw [hnone] at hbox
      cases hbox
  nodup := hnodup

variable [Stored α]

/-- A settled model comes back without the stones that have no shape, with no stone selected and with
the members of each group that are still there. -/
theorem ofArchive_archive {m : Model α} (h : Settled c m) (nextInsert : Int32) :
    ofArchive c (m.archive nextInsert) =
      { m with
        stones := m.kept c
        groups := m.groups.map fun g =>
          { g with members := (m.membersOf g.id).filter (· ∈ (m.kept c).map (·.id)) }
        lastLevel := 0 } := by
  have horigin : (m.origin.map Stored.toWord).map (Stored.ofWord (α := α)) = m.origin := by
    simp [Vec3.map, Stored.ofWord_toWord]
  obtain ⟨next, hle, hfold⟩ := foldl_placeStored_stored h.placeable h.next_nonneg
    (List.forall_mem_map.1 h.succ_le)
  have hofStones : ofStones c (m.archive nextInsert) =
      { (empty : Model α).withOrigin m.origin with stones := m.kept c, nextStone := next } := by
    rw [ofStones]
    simp only [archive, horigin]
    exact hfold
  have hids : (ofArchive c (m.archive nextInsert)).ids = (m.kept c).map (·.id) := by
    rw [ids_ofArchive, hofStones]
    rfl
  ext1
  · rw [origin_ofArchive, hofStones]
    rfl
  · rw [stones_ofArchive, hofStones]
  · rw [nextStone_ofArchive, hofStones]
    show max next m.nextStone = m.nextStone
    exact Int32.le_antisymm (Counter.max_le hle (Int32.le_refl _)) (Counter.le_max_right _ _)
  · rw [groups_ofArchive, hids]
    simp only [archive, List.map_map, map_id_groupStones]
    refine List.map_congr_left fun g _ => ?_
    show ({ g with members := _ } : Group) = { g with members := _ }
    rw [filter_ids_filter_kept]
  · rfl
  · show (ofStones c (m.archive nextInsert)).lastLevel = 0
    rw [hofStones]
    rfl

/-- Where every shape is there, what is loaded is saved as the model was. -/
theorem archive_ofArchive_archive {m : Model α} (h : Settled c m)
    (hknown : ∀ s ∈ m.stones, c.knows s) (nextInsert : Int32) :
    (ofArchive c (m.archive nextInsert)).archive nextInsert = m.archive nextInsert := by
  have hkept : m.kept c = m.stones.map (·.select false) := by
    rw [kept, List.filter_eq_self.2 hknown]
  have hids : (m.kept c).map (·.id) = m.ids := by
    rw [hkept, List.map_map]
    rfl
  have hload := ofArchive_archive h nextInsert
  have hmembers : ∀ k, (ofArchive c (m.archive nextInsert)).membersOf k =
      (m.membersOf k).filter (· ∈ (m.kept c).map (·.id)) :=
    membersOf_eq_filter (by rw [hload])
  have hgroups : ∀ k, ((ofArchive c (m.archive nextInsert)).groupStones k).map (·.id) =
      (m.groupStones k).map (·.id) := by
    intro k
    rw [map_id_groupStones, map_id_groupStones, hmembers, hload]
    show ((m.membersOf k).filter (· ∈ (m.kept c).map (·.id))).filter (· ∈ (m.kept c).map (·.id)) = _
    rw [hids, List.filter_filter]
    simp
  ext1
  · rfl
  · show (ofArchive c (m.archive nextInsert)).origin.map Stored.toWord = m.origin.map Stored.toWord
    rw [hload]
  · show (ofArchive c (m.archive nextInsert)).stones.map Stone.stored = m.stones.map Stone.stored
    rw [hload]
    show (m.kept c).map Stone.stored = _
    rw [hkept, List.map_map]
    rfl
  · show (ofArchive c (m.archive nextInsert)).nextStone = m.nextStone
    rw [hload]
  · rfl
  · show (ofArchive c (m.archive nextInsert)).groups.map (fun g : Group =>
      { g with members := ((ofArchive c (m.archive nextInsert)).groupStones g.id).map Stone.id }) =
      m.groups.map fun g : Group => { g with members := (m.groupStones g.id).map Stone.id }
    simp only [hgroups]
    rw [hload, List.map_map]
    rfl

/-! ## Bytes -/

/-- Everything in the model can be stored. -/
structure Storable (m : Model α) : Prop where
  cells : ∀ s ∈ m.stones, IsInt32 s.cell.x ∧ IsInt32 s.cell.y ∧ IsInt32 s.cell.z
  names : ∀ g ∈ m.groups, (encodeText g.name).length < 65536
  stoneCount : m.stones.length < 2147483648
  groupCount : m.groups.length < 2147483648
  memberCount : ∀ g ∈ m.groups, g.members.length < 2147483648

omit [Scalar α] in
theorem fits_archive {m : Model α} (h : m.Storable) (hturns : ∀ s ∈ m.stones, s.turns < 4)
    (nextInsert : Int32) : (m.archive nextInsert).Fits where
  stoneCount := by simpa [archive] using h.stoneCount
  stones := by
    refine List.forall_mem_map.2 fun s hs => ?_
    obtain ⟨hx, hy, hz⟩ := h.cells s hs
    have hlt := hturns s hs
    refine ⟨?_, hx, hy, hz⟩
    show -2147483648 ≤ (s.turns : Int) ∧ (s.turns : Int) < 2147483648
    omega
  groupCount := by simpa [archive] using h.groupCount
  groups := by
    refine List.forall_mem_map.2 fun g hg => ⟨h.names g hg, ?_⟩
    show ((m.groupStones g.id).map (·.id)).length < 2147483648
    rw [map_id_groupStones]
    exact Nat.lt_of_le_of_lt (List.length_filter_le _ _)
      (length_membersOf_lt h.memberCount (by decide) g.id)

end Model

namespace Document

variable [Scalar α] [Stored α] {c : Catalog α}

/-- What a model is saved as is loaded, whatever follows it. -/
theorem loadPart_saved {m : Model α} {n : Int32} (hfits : (m.archive n).Fits) :
    ∃ bytes, m.saved n = .ok bytes ∧
      ∀ rest, loadPart c (bytes ++ rest) = .ok (⟨n, .ofArchive c (m.archive n)⟩, rest) := by
  obtain ⟨bytes, hrun, hdecode⟩ := inverts_archive.read _ hfits
  refine ⟨bytes, ?_, fun rest => ?_⟩
  · rw [Model.saved, Model.save, hrun]
  · exact loadPart_eq_ok_iff.2 ⟨_, hdecode rest, rfl⟩

end Document

end Masonry
