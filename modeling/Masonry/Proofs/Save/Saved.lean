import Masonry.Proofs.Model.Lineage
import Masonry.Proofs.Save.ArchiveInversion
import Masonry.Proofs.Save.Loading

/-!
# Whatever was saved can be loaded

Cells and turns are stored in four bytes and come back reduced (`Archive.wrapped`), which changes
nothing in the bytes. If saving succeeds the rest of the archive fits the format. So the bytes of a
saved model are loaded, with the next insert id they were saved with, and their stones are stones of
that model (`load_of_saved`).
-/

namespace Masonry

namespace Save

/-- The stone with its turns and its cell as they are read back. -/
def StoredStone.wrapped (s : StoredStone) : StoredStone :=
  { s with
    turns := (Int32.ofInt s.turns).toInt
    cell := ⟨(Int32.ofInt s.cell.x).toInt, (Int32.ofInt s.cell.y).toInt, (Int32.ofInt s.cell.z).toInt⟩ }

theorem StoredStone.writes_wrapped (s : StoredStone) : s.wrapped.writes = s.writes := by
  simp only [StoredStone.writes, StoredStone.wrapped, Int32.ofInt_toInt]

theorem StoredStone.fits_wrapped (s : StoredStone) : s.wrapped.Fits where
  turns := isInt32_toInt _
  x := isInt32_toInt _
  y := isInt32_toInt _
  z := isInt32_toInt _

/-- The archive with its stones as they are read back. -/
def Archive.wrapped (a : Archive) : Archive :=
  { a with stones := a.stones.map StoredStone.wrapped }

theorem Archive.writes_wrapped (a : Archive) : a.wrapped.writes = a.writes := by
  have hstones : (a.stones.map StoredStone.wrapped).flatMap StoredStone.writes =
      a.stones.flatMap StoredStone.writes := by
    rw [List.flatMap_map]
    exact List.flatMap_congr fun s _ => s.writes_wrapped
  simp only [Archive.writes, Archive.wrapped, hstones, List.length_map]

/-! ## Writing that succeeds -/

namespace Write

variable {ws : List Write} {bytes : List UInt8}

theorem refuse_notMem (h : run none ws = (bytes, none)) (fault : SaveFault) : .refuse fault ∉ ws := by
  have hnone := run_none_snd ws
  rw [h, eq_comm, List.head?_eq_none_iff, List.filterMap_eq_nil_iff] at hnone
  exact fun hmem => nomatch hnone _ hmem

theorem lt_of_count_mem (h : run none ws = (bytes, none)) {n : Nat} (hn : count n ∈ ws) :
    n < 2147483648 := by
  by_contra hge
  rw [count, if_neg hge] at hn
  exact refuse_notMem h _ hn

theorem length_lt_of_text_subset (h : run none ws = (bytes, none)) {s : String} (hs : text s ⊆ ws) :
    (encodeText s).length < 65536 := by
  by_contra hge
  rw [text, if_neg hge] at hs
  exact refuse_notMem h _ (hs (List.mem_singleton_self _))

end Write

/-- What could be written fits the format, but for cells and turns that are reduced. -/
theorem Archive.fits_wrapped {a : Archive} {bytes : List UInt8}
    (h : Write.run none a.writes = (bytes, none)) : a.wrapped.Fits := by
  have hgroup : ∀ g ∈ a.groups, writesGroup g ⊆ a.writes := by
    intro g hg w hw
    exact List.mem_append_right _ (List.mem_flatMap.2 ⟨g, hg, hw⟩)
  constructor
  · rw [Archive.wrapped, List.length_map]
    exact Write.lt_of_count_mem h (by simp [Archive.writes])
  · exact List.forall_mem_map.2 fun s _ => s.fits_wrapped
  · show a.groups.length < _
    exact Write.lt_of_count_mem h (by simp [Archive.writes])
  · intro g hg
    constructor
    · refine Write.length_lt_of_text_subset h fun w hw => hgroup g hg ?_
      simp [writesGroup, hw]
    · refine Write.lt_of_count_mem h (hgroup g hg ?_)
      simp [writesGroup]

/-- Bytes that were written for an archive are read as that archive. -/
theorem Archive.decode_written {a : Archive} {bytes : List UInt8}
    (h : Write.run none a.writes = (bytes, none)) (rest : List UInt8) :
    Archive.decode (bytes ++ rest) = .ok (a.wrapped, rest) := by
  obtain ⟨bytes', hrun, hdecode⟩ := inverts_archive.read _ (Archive.fits_wrapped h)
  rw [Archive.writes_wrapped, h] at hrun
  cases hrun
  exact hdecode rest

end Save

open Save

variable {α : Type} [Scalar α] [Stored α] {c : Catalog α} {m : Model α} {n : Int32}

namespace Model

omit [Scalar α] in
theorem saved_eq_ok_iff {bytes : List UInt8} :
    m.saved n = .ok bytes ↔ Write.run none (m.archive n).writes = (bytes, none) := by
  rw [saved, save]
  generalize Write.run none (m.archive n).writes = r
  obtain ⟨bytes', _ | fault⟩ := r <;> simp

/-- The stones that come back are stones of the model that was saved. -/
theorem holds_of_mem_ofArchive_wrapped (hturns : ∀ s ∈ m.stones, s.turns < 4) {t : Stone α}
    (ht : t ∈ (ofArchive c (m.archive n).wrapped).stones) : m.Holds t := by
  obtain ⟨added, hstones, hsub, -⟩ := foldl_placeStored_stones c
    (empty.withOrigin ((m.archive n).wrapped.origin.map Stored.ofWord)) (m.archive n).wrapped.stones
  have hadded : (ofArchive c (m.archive n).wrapped).stones = added := hstones
  rw [hadded] at ht
  have hstored := hsub.subset (List.mem_map_of_mem ht)
  simp only [Archive.wrapped, archive, List.map_map, List.mem_map, Function.comp_apply] at hstored
  obtain ⟨s, hs, heq⟩ := hstored
  simp only [StoredStone.wrapped, Stone.stored, StoredStone.mk.injEq] at heq
  obtain ⟨hid, hinsert, hcolor, hcode, hfold, -⟩ := heq
  have hsmall := hturns s hs
  have hwrap : (Int32.ofInt s.turns).toInt = s.turns :=
    toInt_ofInt_of_isInt32 (by constructor <;> omega)
  rw [hwrap, foldTurns_of_lt hsmall] at hfold
  have hsame : s.turns = t.turns := Int.ofNat.inj hfold
  exact ⟨s, hs, by rw [Stone.lasting, Stone.lasting, hid, hcolor, hcode, hsame], hinsert⟩

end Model

/-- What was saved is loaded with the insert id that it was saved with, and without other stones than
those of the model. -/
theorem Document.load_of_saved (c : Catalog α) (hturns : ∀ s ∈ m.stones, s.turns < 4)
    {bytes : List UInt8} (h : m.saved n = .ok bytes) :
    ∃ d, Document.load c bytes = .ok d ∧ d.nextInsert = n ∧ ∀ t ∈ d.model.stones, m.Holds t := by
  have hdecode := Archive.decode_written (Model.saved_eq_ok_iff.1 h) []
  rw [List.append_nil] at hdecode
  refine ⟨_, Document.load_eq_ok_iff.2 ⟨_, [], hdecode, rfl⟩, rfl, ?_⟩
  exact fun t ht => Model.holds_of_mem_ofArchive_wrapped hturns ht

end Masonry
