import Masonry.Proofs.Model.Editing
import Masonry.Proofs.Save.Replay

/-!
# Saving and loading an edited model

A model that was made by editing is loaded as it was saved, but for stones without a shape in the
catalog it is loaded with (`loadPart_saved_of_reached`).
-/

namespace Masonry

open Save

variable {α : Type} [Scalar α] {c c' : Catalog α} {m : Model α}

namespace Model

/-- An orderly model can be loaded with a catalog whose shapes are those it was made with. -/
theorem Orderly.settled (h : Orderly c m)
    (hshapes : ∀ s ∈ m.stones, c'.shape? s.code = c.shape? s.code ∨ c'.shape? s.code = none) :
    Settled c' m where
  placeable := h.sound.placeable h.numbered.ordered.nodup hshapes
  next_nonneg := h.numbered.next_nonneg
  succ_le k hk := Counter.add_one_le (h.numbered.ordered.lt_next k hk)

theorem Orderly.storable (h : Orderly c m)
    (hcells : ∀ s ∈ m.stones, IsInt32 s.cell.x ∧ IsInt32 s.cell.y ∧ IsInt32 s.cell.z)
    (hnames : ∀ g ∈ m.groups, (encodeText g.name).length ≤ 65535) : m.Storable where
  cells := hcells
  names g hg := Nat.lt_succ_of_le (hnames g hg)
  stoneCount := h.numbered.length_stones_lt
  groupCount := h.grouped.length_groups_lt
  memberCount _ hg := h.grouped.length_members_lt hg

omit [Scalar α] in
/-- Where group ids differ every group is found by its own id. -/
theorem Grouped.membersOf_eq {m : Model α} (h : m.Grouped) {g : Group} (hg : g ∈ m.groups) :
    m.membersOf g.id = g.members := by
  obtain ⟨g', hg', hid, hmembers⟩ := exists_membersOf_eq hg
  rw [hmembers, List.inj_on_of_nodup_map h.nodup hg' hg hid]

end Model

namespace Document

variable [Stored α]

/-- A model that was made by editing can be saved, whatever its next insert id, if its cells are
numbers of four bytes and the names of its groups are short enough. What is loaded, with any bytes
after it and with a catalog that agrees with the first on the shapes it has, is that model: its
origin and counters, the stones with a shape in their order, unselected, and the groups with the
members that were loaded. With the same catalog it is saved as the same bytes. -/
theorem loadPart_saved_of_reached (hm : m.Reached c)
    (hcells : ∀ s ∈ m.stones, IsInt32 s.cell.x ∧ IsInt32 s.cell.y ∧ IsInt32 s.cell.z)
    (hnames : ∀ g ∈ m.groups, (encodeText g.name).length ≤ 65535)
    (hshapes : ∀ s ∈ m.stones, c'.shape? s.code = c.shape? s.code ∨ c'.shape? s.code = none)
    (nextInsert : Int32) :
    ∃ bytes d, m.saved nextInsert = .ok bytes ∧
      (∀ rest, loadPart c' (bytes ++ rest) = .ok (d, rest) ∧ load c' (bytes ++ rest) = .ok d) ∧
      d.nextInsert = nextInsert ∧ d.model.origin = m.origin ∧
      d.model.nextStone = m.nextStone ∧ d.model.nextGroup = m.nextGroup ∧
      d.model.stones =
        (m.stones.filter fun s => (c'.shape? s.code).isSome).map (·.select false) ∧
      d.model.groups =
        m.groups.map (fun g => { g with members := g.members.filter (· ∈ d.model.ids) }) ∧
      (c' = c → d.model.saved d.nextInsert = .ok bytes) := by
  have horderly := hm.orderly
  have hsettled : m.Settled c' := horderly.settled hshapes
  have hfits := Model.fits_archive (horderly.storable hcells hnames) hsettled.placeable.turns_lt nextInsert
  obtain ⟨bytes, hsaved, hload⟩ := loadPart_saved (c := c') hfits
  have hmodel := Model.ofArchive_archive hsettled nextInsert
  refine ⟨bytes, _, hsaved, fun rest => ⟨hload rest, ?_⟩, rfl, ?_, ?_, ?_, ?_, ?_, ?_⟩
  · rw [load, hload rest]
    rfl
  · rw [hmodel]
  · rw [hmodel]
  · rw [hmodel]
  · rw [hmodel]
    rfl
  · rw [hmodel]
    refine List.map_congr_left fun g hg => ?_
    rw [horderly.grouped.membersOf_eq hg]
    rfl
  · rintro rfl
    have hknown : ∀ s ∈ m.stones, c'.knows s := fun s hs => (horderly.sound.shaped s hs).isSome_shape?
    rw [← hsaved, Model.saved, Model.save, Model.archive_ofArchive_archive hsettled hknown]
    rfl

/-- Two stones, the first of which is selected and makes up a group. -/
def pair : Model Binary64 :=
  (((Model.empty.edit .points (.insert 7 ⟨432, .red, 1, ⟨0, 0, 0⟩⟩)).edit .points
    (.insert 7 ⟨432, .blue, 0, ⟨5, 0, 0⟩⟩)).edit .points
    (.pick ⟨⟨0, 0, -1⟩, ⟨0, 0, 1⟩⟩ false false)).edit .points (.makeGroup "first")

theorem reached_pair : pair.Reached .points := by
  refine .edit _ (.edit _ (.edit _ (.edit _ .start ?_ ?_) ?_ ?_) ?_ ?_) ?_ ?_
  all_goals decide +kernel

theorem loadPart_saved_of_reached_pair :
    pair.ids = [0, 1] ∧ pair.groups = [⟨0, "first", [0]⟩] ∧ pair.Reached .points ∧
      (∀ s ∈ pair.stones, IsInt32 s.cell.x ∧ IsInt32 s.cell.y ∧ IsInt32 s.cell.z) ∧
      (∀ g ∈ pair.groups, (encodeText g.name).length ≤ 65535) ∧
      ∃ bytes d, pair.saved 8 = .ok bytes ∧
        (∀ rest, loadPart .points (bytes ++ rest) = .ok (d, rest) ∧
          load .points (bytes ++ rest) = .ok d) ∧
        d.nextInsert = 8 ∧ d.model.origin = pair.origin ∧
        d.model.nextStone = pair.nextStone ∧ d.model.nextGroup = pair.nextGroup ∧
        d.model.stones = (pair.stones.filter fun s =>
          (Catalog.points.shape? s.code).isSome).map (·.select false) ∧
        d.model.groups =
          pair.groups.map (fun g => { g with members := g.members.filter (· ∈ d.model.ids) }) ∧
        (Catalog.points = .points → d.model.saved d.nextInsert = .ok bytes) :=
  have hcells : ∀ s ∈ pair.stones, IsInt32 s.cell.x ∧ IsInt32 s.cell.y ∧ IsInt32 s.cell.z := by
    decide +kernel
  have hnames : ∀ g ∈ pair.groups, (encodeText g.name).length ≤ 65535 := by decide +kernel
  ⟨by decide +kernel, by decide +kernel, reached_pair, hcells, hnames,
    loadPart_saved_of_reached reached_pair hcells hnames (fun _ _ => .inl rfl) 8⟩

end Document

end Masonry
