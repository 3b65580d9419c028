import Masonry.Proofs.Save.Replay

/-!
# Saving what was loaded

Loading leaves out what a model cannot hold, so whatever bytes were loaded, the model can be saved
and loaded again, and everything comes back but for the members of groups: these are looked up by the
id of the group, and archives may repeat one. The second document is the first if and only if groups
with one id have the same members (`load_saved_of_load`).
-/

namespace Masonry

open Save

variable {α : Type} [Scalar α] [Stored α] {c : Catalog α}

namespace Model

theorem settled_ofArchive (c : Catalog α) (a : Archive) : Settled c (ofArchive c a) where
  placeable := (sound_ofArchive c a).placeable (nodup_ids_ofArchive c a) fun _ _ => .inl rfl
  next_nonneg := (nextStone_ofArchive_ge c a).1
  succ_le := (nextStone_ofArchive_ge c a).2

/-- Nothing of a loaded model is left out when it is loaded again. -/
theorem kept_ofArchive (c : Catalog α) (a : Archive) :
    (ofArchive c a).kept c = (ofArchive c a).stones := by
  obtain ⟨added, hstones, -, hselected⟩ := foldl_placeStored_stones c
    (empty.withOrigin (a.origin.map Stored.ofWord)) a.stones
  have hstones : (ofArchive c a).stones = added := hstones
  have hknown : (ofArchive c a).stones.filter c.knows = (ofArchive c a).stones :=
    List.filter_eq_self.2 fun s hs => ((sound_ofArchive c a).shaped s hs).isSome_shape?
  have hsame : ∀ s ∈ added, s.select false = s := by
    intro s hs
    rw [Stone.select, ← hselected s hs]
  rw [kept, hknown, hstones]
  exact (List.map_congr_left hsame).trans (List.map_id added)

theorem storable_ofArchive {a : Archive} (h : a.Fits) : (ofArchive c a).Storable := by
  obtain ⟨added, hstones, hsub, -⟩ := foldl_placeStored_stones c
    (empty.withOrigin (a.origin.map Stored.ofWord)) a.stones
  have hstones : (ofArchive c a).stones = added := hstones
  constructor
  · intro s hs
    rw [hstones] at hs
    have hmem := hsub.subset (List.mem_map_of_mem hs)
    obtain ⟨t, ht, hts⟩ := List.mem_map.1 hmem
    have hcell : s.cell = t.cell := congrArg StoredStone.cell hts.symm
    rw [hcell]
    exact ⟨(h.stones t ht).x, (h.stones t ht).y, (h.stones t ht).z⟩
  · rw [groups_ofArchive]
    exact List.forall_mem_map.2 fun g hg => (h.groups g hg).name
  · have hlength := hsub.length_le
    rw [List.length_map, List.length_map] at hlength
    rw [hstones]
    exact Nat.lt_of_le_of_lt hlength h.stoneCount
  · rw [groups_ofArchive, List.length_map]
    exact h.groupCount
  · rw [groups_ofArchive]
    refine List.forall_mem_map.2 fun g hg => ?_
    exact Nat.lt_of_le_of_lt (List.length_filter_le _ _) (h.groups g hg).members

theorem mem_ids_of_mem_membersOf {a : Archive} {id k : Int32}
    (h : k ∈ (ofArchive c a).membersOf id) : k ∈ (ofArchive c a).ids := by
  rw [membersOf] at h
  cases hfind : (ofArchive c a).group? id with
  | none => simp [hfind] at h
  | some g =>
    have hg : g ∈ (ofArchive c a).groups := List.mem_of_find?_eq_some hfind
    rw [groups_ofArchive] at hg
    obtain ⟨g, -, rfl⟩ := List.mem_map.1 hg
    simp only [hfind, Option.map_some, Option.getD_some] at h
    simpa using (List.mem_filter.1 h).2

/-- A loaded model that is saved comes back with the groups as they are found by their ids. -/
theorem ofArchive_archive_ofArchive (a : Archive) (nextInsert : Int32) :
    ofArchive c ((ofArchive c a).archive nextInsert) =
      { ofArchive c a with
        groups := (ofArchive c a).groups.map fun g =>
          { g with members := (ofArchive c a).membersOf g.id } } := by
  rw [ofArchive_archive (settled_ofArchive c a), kept_ofArchive]
  have hmembers : ∀ k, ((ofArchive c a).membersOf k).filter
      (· ∈ (ofArchive c a).stones.map (·.id)) = (ofArchive c a).membersOf k := by
    intro k
    exact List.filter_eq_self.2 fun id hid => decide_eq_true (mem_ids_of_mem_membersOf hid)
  simp only [hmembers]
  rw [lastLevel_ofArchive c a]

omit [Scalar α] [Stored α] in
/-- All groups are found by their ids with their own members if groups with one id share these. -/
theorem map_membersOf_eq_self_iff {m : Model α} :
    (m.groups.map fun g => { g with members := m.membersOf g.id }) = m.groups ↔
      ∀ g ∈ m.groups, ∀ g' ∈ m.groups, g.id = g'.id → g.members = g'.members := by
  have hself : (m.groups.map fun g => { g with members := m.membersOf g.id }) = m.groups ↔
      ∀ g ∈ m.groups, m.membersOf g.id = g.members := by
    constructor
    · intro h g hg
      exact congrArg Group.members (List.map_inj_left.1 (h.trans (List.map_id m.groups).symm) g hg)
    · intro h
      exact (List.map_congr_left fun g hg => by rw [h g hg]; rfl).trans (List.map_id m.groups)
  rw [hself]
  constructor
  · intro h g hg g' hg' hid
    rw [← h g hg, ← h g' hg', hid]
  · intro h g hg
    obtain ⟨g', hg', hid, hmembers⟩ := exists_membersOf_eq hg
    rw [hmembers, h g' hg' g hg hid]

end Model

namespace Document

/-- A document that was loaded can be saved, and what is loaded again differs from it at most in the
members of groups, which become those of the first group with the same id. -/
theorem load_saved_of_load {bytes : List UInt8} {d : Document α} (h : load c bytes = .ok d) :
    ∃ again, d.model.saved d.nextInsert = .ok again ∧
      load c again = .ok { d with model := { d.model with
        groups := d.model.groups.map fun g => { g with members := d.model.membersOf g.id } } } ∧
      (load c again = .ok d ↔
        ∀ g ∈ d.model.groups, ∀ g' ∈ d.model.groups, g.id = g'.id → g.members = g'.members) := by
  obtain ⟨a, rest, hdecode, rfl⟩ := load_eq_ok_iff.1 h
  have hfits : a.Fits := (inverts_archive.written hdecode).1
  have hturns := (Model.settled_ofArchive c a).placeable.turns_lt
  obtain ⟨again, hsaved, hload⟩ := loadPart_saved (c := c)
    (Model.fits_archive (Model.storable_ofArchive (c := c) hfits) hturns a.nextInsert)
  have hagain : load c again = .ok ⟨a.nextInsert, { Model.ofArchive c a with
      groups := (Model.ofArchive c a).groups.map fun g =>
        { g with members := (Model.ofArchive c a).membersOf g.id } }⟩ := by
    have hpart := hload []
    rw [List.append_nil, Model.ofArchive_archive_ofArchive] at hpart
    rw [load, hpart]
    rfl
  refine ⟨again, hsaved, hagain, ?_⟩
  rw [hagain, ← Model.map_membersOf_eq_self_iff, Except.ok.injEq, Document.mk.injEq, Model.ext_iff]
  simp

/-- Two stones, and two groups that share an id but no member. -/
def twins : Archive where
  nextInsert := 0
  origin := ⟨0, 0, 0⟩
  stones := [⟨0, 0, .white, 432, 0, ⟨0, 0, 0⟩⟩, ⟨1, 0, .white, 432, 0, ⟨5, 0, 0⟩⟩]
  nextStone := 2
  nextGroup := 1
  groups := [⟨0, "a", [0]⟩, ⟨0, "b", [1]⟩]

/-- The bytes of the twins. -/
def twinsBytes : List UInt8 := (Write.run none twins.writes).1

/-- The twins as they are loaded. -/
def twinsDocument : Document Binary64 := ⟨0, .ofArchive .points twins⟩

theorem load_saved_of_load_twins :
    load .points twinsBytes = .ok twinsDocument ∧
      ∃ again, twinsDocument.model.saved twinsDocument.nextInsert = .ok again ∧
        load .points again = .ok { twinsDocument with model := { twinsDocument.model with
          groups := twinsDocument.model.groups.map fun g =>
            { g with members := twinsDocument.model.membersOf g.id } } } ∧
        (load .points again = .ok twinsDocument ↔ ∀ g ∈ twinsDocument.model.groups,
          ∀ g' ∈ twinsDocument.model.groups, g.id = g'.id → g.members = g'.members) :=
  ⟨by decide +kernel, load_saved_of_load (by decide +kernel : load .points twinsBytes = .ok twinsDocument)⟩

/-- Loading is not canonical: the second of the twins comes back with the member of the first. -/
theorem twins_not_canonical :
    load .points twinsBytes = .ok twinsDocument ∧
      twinsDocument.model.groups = [⟨0, "a", [0]⟩, ⟨0, "b", [1]⟩] ∧
      ∃ again, twinsDocument.model.saved twinsDocument.nextInsert = .ok again ∧
        load .points again = .ok { twinsDocument with model := { twinsDocument.model with
          groups := [⟨0, "a", [0]⟩, ⟨0, "b", [0]⟩] } } ∧
        load .points again ≠ .ok twinsDocument := by
  refine ⟨by decide +kernel, by decide +kernel,
    (Write.run none (twinsDocument.model.archive twinsDocument.nextInsert).writes).1, ?_, ?_, ?_⟩
  all_goals decide +kernel

end Document

end Masonry
