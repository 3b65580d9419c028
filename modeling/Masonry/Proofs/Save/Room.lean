import Mathlib.Algebra.GroupWithZero.Nat
import Mathlib.Data.List.Basic
import Masonry.Save.Document
import Masonry.Proofs.Save.ArchiveInversion

/-!
# Saving with limited room

A sink with room for so many bytes takes them all or the first of them: wherever room ends, the bytes are
those of a sink without limit up to there, and saving fails for want of room (`Write.run_some`). Without
limit only a name that is too long can be refused, if no list is longer than its count can say, and the
bytes that are written otherwise can be counted (`save_limited`).
-/

namespace Masonry

namespace Save

namespace Write

/-- The bytes of a step. -/
def chunk : Write → List UInt8
  | .bytes bs => bs
  | .refuse _ => []

/-- A sink takes what one without limit takes, or as much of it as there is room for. -/
theorem run_some (room : Nat) (ws : List Write) : run (some room) ws =
    if (run none ws).1.length ≤ room then run none ws
    else ((run none ws).1.take room, some (.file .noRoom)) := by
  induction ws generalizing room with
  | nil => simp [run]
  | cons w ws ih =>
    cases w with
    | refuse fault => simp [run]
    | bytes bs =>
      simp only [run, List.length_append]
      by_cases hbytes : room < bs.length
      · rw [if_pos hbytes, if_neg (by omega), List.take_append_of_le_length (Nat.le_of_lt hbytes)]
      · rw [if_neg hbytes, ih]
        have hroom : (run none ws).1.length ≤ room - bs.length ↔
            bs.length + (run none ws).1.length ≤ room := by omega
        simp only [hroom]
        split
        · rfl
        · rw [List.take_append, List.take_of_length_le (Nat.not_lt.1 hbytes)]

/-- Where no step is refused, all are carried out. -/
theorem run_none_fst {ws : List Write} (h : ws.filterMap refused? = []) :
    (run none ws).1 = ws.flatMap chunk := by
  induction ws with
  | nil => rfl
  | cons w ws ih =>
    cases w with
    | refuse fault => cases h
    | bytes bs => exact congrArg (bs ++ ·) (ih h)

@[simp] theorem refused?_int32 (n : Int32) : (int32 n).refused? = none := rfl

@[simp] theorem refused?_word64 (w : UInt64) : (word64 w).refused? = none := rfl

@[simp] theorem length_chunk_int32 (n : Int32) : (int32 n).chunk.length = 4 := length_bigEndian 4 _

@[simp] theorem length_chunk_word64 (w : UInt64) : (word64 w).chunk.length = 8 := length_bigEndian 8 _

theorem count_of_lt {n : Nat} (h : n < 2147483648) : count n = int32 (Int32.ofNat n) := if_pos h

end Write

theorem length_encodeText (s : String) : (encodeText s).length = s.utf8ByteSize := by
  rw [encodeText_eq]
  rfl

/-- Why a name cannot be written: it has more bytes than its length can say. -/
def nameFault? (name : String) : Option SaveFault :=
  if 65535 < name.utf8ByteSize then some (.nameTooLong name.utf8ByteSize) else none

/-- All names can be written, or one is too long and the first such name is the fault. -/
theorem findSome?_nameFault? (gs : List Group) :
    (gs.findSome? (fun g => nameFault? g.name) = none ∧ ∀ g ∈ gs, g.name.utf8ByteSize ≤ 65535) ∨
      ∃ g ∈ gs, 65535 < g.name.utf8ByteSize ∧
        gs.findSome? (fun g => nameFault? g.name) = some (.nameTooLong g.name.utf8ByteSize) := by
  cases hfault : gs.findSome? fun g => nameFault? g.name with
  | none =>
    refine .inl ⟨rfl, fun g hg => Nat.not_lt.1 fun hlong => ?_⟩
    have hnone := List.findSome?_eq_none_iff.1 hfault g hg
    rw [nameFault?, if_pos hlong] at hnone
    cases hnone
  | some fault =>
    obtain ⟨g, hg, hname⟩ := List.exists_of_findSome?_eq_some hfault
    rw [nameFault?, Option.ite_none_right_eq_some] at hname
    exact .inr ⟨g, hg, hname.1, hname.2.symm⟩

theorem refused_text (s : String) : (Write.text s).filterMap Write.refused? = (nameFault? s).toList := by
  rw [Write.text, nameFault?, ← length_encodeText]
  by_cases hlong : 65535 < (encodeText s).length
  · rw [if_neg (by omega), if_pos hlong]
    rfl
  · rw [if_pos (by omega), if_neg hlong]
    rfl

theorem length_chunks_text {s : String} (h : nameFault? s = none) :
    ((Write.text s).flatMap Write.chunk).length = 2 + s.utf8ByteSize := by
  have hshort : (encodeText s).length < 65536 := by
    rw [nameFault?, ite_eq_right_iff] at h
    rw [length_encodeText]
    exact Nat.lt_succ_of_le (Nat.not_lt.1 fun hlong => nomatch h hlong)
  rw [Write.text, if_pos hshort, ← length_encodeText]
  simp [Write.chunk, length_bigEndian]

/-! ## Archives -/

theorem refused_stone (s : StoredStone) : s.writes.filterMap Write.refused? = [] := by
  simp [StoredStone.writes]

theorem length_chunks_stone (s : StoredStone) : (s.writes.flatMap Write.chunk).length = 32 := by
  simp [StoredStone.writes]

theorem refused_group {g : Group} (h : g.members.length < 2147483648) :
    (writesGroup g).filterMap Write.refused? = (nameFault? g.name).toList := by
  have hmembers : (g.members.map Write.int32).filterMap Write.refused? = [] := by simp
  rw [writesGroup, Write.count_of_lt h, List.filterMap_append, List.filterMap_append,
    List.filterMap_append, hmembers, refused_text]
  exact List.append_nil _ ▸ List.append_nil _ ▸ rfl

theorem length_chunks_group {g : Group} (h : g.members.length < 2147483648)
    (hname : nameFault? g.name = none) : ((writesGroup g).flatMap Write.chunk).length =
      10 + g.name.utf8ByteSize + 4 * g.members.length := by
  have hmembers : ((g.members.map Write.int32).flatMap Write.chunk).length = 4 * g.members.length := by
    simp [List.flatMap_map, List.length_flatMap, List.map_const', Nat.mul_comm]
  simp only [writesGroup, Write.count_of_lt h, List.flatMap_append, List.flatMap_singleton,
    List.length_append, Write.length_chunk_int32, length_chunks_text hname, hmembers]
  omega

/-- The counts of the archive can be written. -/
structure Archive.Countable (a : Archive) : Prop where
  stones : a.stones.length < 2147483648
  groups : a.groups.length < 2147483648
  members : ∀ g ∈ a.groups, g.members.length < 2147483648

namespace Archive

variable {a : Archive}

theorem Countable.writes_eq (h : a.Countable) : a.writes =
    [.int32 magic, .int32 version, .int32 a.nextInsert, .word64 a.origin.x, .word64 a.origin.y,
      .word64 a.origin.z, .int32 (Int32.ofNat a.stones.length)] ++ a.stones.flatMap StoredStone.writes ++
    [.int32 a.nextStone, .int32 (Int32.ofNat a.groups.length), .int32 a.nextGroup] ++
      a.groups.flatMap writesGroup := by
  rw [writes, Write.count_of_lt h.stones, Write.count_of_lt h.groups]

/-- Only names can be refused, and the first that is stops the writing. -/
theorem Countable.fault (h : a.Countable) :
    (Write.run none a.writes).2 = a.groups.findSome? fun g => nameFault? g.name := by
  have hstones : (a.stones.flatMap StoredStone.writes).filterMap Write.refused? = [] := by
    simp [List.filterMap_flatMap, refused_stone]
  have hgroups : (a.groups.flatMap writesGroup).filterMap Write.refused? =
      a.groups.flatMap fun g => (nameFault? g.name).toList := by
    rw [List.filterMap_flatMap]
    exact List.flatMap_congr fun g hg => refused_group (h.members g hg)
  rw [Write.run_none_snd, h.writes_eq]
  simp only [List.filterMap_append, hstones, hgroups, List.filterMap_cons, List.filterMap_nil,
    Write.refused?_int32, Write.refused?_word64, List.nil_append, List.head?_flatMap, Option.head?_toList]

/-- The bytes of an archive whose names can all be written. -/
theorem Countable.length (h : a.Countable) (hnames : ∀ g ∈ a.groups, nameFault? g.name = none) :
    (Write.run none a.writes).1.length = 52 + 32 * a.stones.length +
      (a.groups.map fun g => 10 + g.name.utf8ByteSize + 4 * g.members.length).sum := by
  have hfault := h.fault
  rw [List.findSome?_eq_none_iff.2 hnames, Write.run_none_snd, List.head?_eq_none_iff] at hfault
  have hstones : ((a.stones.flatMap StoredStone.writes).flatMap Write.chunk).length =
      32 * a.stones.length := by
    rw [List.flatMap_assoc, List.length_flatMap]
    simp [length_chunks_stone, List.map_const', Nat.mul_comm, -List.length_flatMap]
  have hgroups : ((a.groups.flatMap writesGroup).flatMap Write.chunk).length =
      (a.groups.map fun g => 10 + g.name.utf8ByteSize + 4 * g.members.length).sum := by
    rw [List.flatMap_assoc, List.length_flatMap]
    exact congrArg List.sum
      (List.map_congr_left fun g hg => length_chunks_group (h.members g hg) (hnames g hg))
  rw [Write.run_none_fst hfault, h.writes_eq]
  simp only [List.flatMap_append, List.length_append, hstones, hgroups, List.flatMap_cons, List.flatMap_nil,
    Write.length_chunk_int32, Write.length_chunk_word64, List.length_nil]
  omega

end Archive

end Save

namespace Model

variable {α : Type} {m : Model α}

open Save

/-- The stones of a group are no more than the members of a group. -/
theorem length_groupStones_lt {n : Nat} (h : ∀ g ∈ m.groups, g.members.length < n) {g : Group}
    (hg : g ∈ m.groups) : (m.groupStones g.id).length < n := by
  rw [groupStones]
  cases hfound : m.group? g.id with
  | none => exact Nat.lt_of_le_of_lt (Nat.zero_le _) (h g hg)
  | some g' =>
    have hlength := h g' (List.mem_of_find?_eq_some hfound)
    exact Nat.lt_of_le_of_lt (List.length_filterMap_le ..) hlength

theorem countable_archive [Stored α] (nextInsert : Int32) (hstones : m.stones.length < 2147483648)
    (hgroups : m.groups.length < 2147483648) (hmembers : ∀ g ∈ m.groups, g.members.length < 2147483648) :
    (m.archive nextInsert).Countable where
  stones := by rwa [archive, List.length_map]
  groups := by rwa [archive, List.length_map]
  members := by
    refine List.forall_mem_map.2 fun g hg => ?_
    rw [List.length_map]
    exact length_groupStones_lt hmembers hg

/-- Saving into a sink with room for so many bytes does what saving without limit does if that needs no
more, and otherwise it writes the first of those bytes and fails for want of room. Without limit saving
fails only for a name of more than 65535 bytes, the first of them, and if it does not fail the number of
bytes is that of the stones, of the groups with their names, and of the stones of the groups. -/
theorem save_limited [Scalar α] [Stored α] (m : Model α) (nextInsert : Int32)
    (hstones : m.stones.length < 2147483648) (hgroups : m.groups.length < 2147483648)
    (hmembers : ∀ g ∈ m.groups, g.members.length < 2147483648) :
    let out := (m.save nextInsert none).1
    let fault := (m.save nextInsert none).2
    (∀ room, m.save nextInsert (some room) =
        if out.length ≤ room then (out, fault) else (out.take room, some (.file .noRoom))) ∧
      (SaveFault.file .noRoom).message = "IO error: failed to write whole buffer" ∧
      fault = (m.groups.findSome? fun g =>
        if 65535 < g.name.utf8ByteSize then some (.nameTooLong g.name.utf8ByteSize) else none) ∧
      ((∃ bytes, fault = some (.nameTooLong bytes)) ↔ ∃ g ∈ m.groups, 65535 < g.name.utf8ByteSize) ∧
      ((∀ bytes, fault ≠ some (.nameTooLong bytes)) → fault = none ∧ out.length =
        52 + 32 * m.stones.length +
          (m.groups.map fun g => 10 + g.name.utf8ByteSize + 4 * (m.groupStones g.id).length).sum) := by
  intro out fault
  have hcount := countable_archive nextInsert hstones hgroups hmembers
  have hfault : fault = m.groups.findSome? fun g => nameFault? g.name := by
    refine hcount.fault.trans ?_
    rw [archive, List.findSome?_map]
    rfl
  refine ⟨fun room => Write.run_some room _, rfl, hfault, ?_⟩
  rcases findSome?_nameFault? m.groups with ⟨hnone, hshort⟩ | ⟨g, hg, hlong, hsome⟩
  · rw [← hfault] at hnone
    refine ⟨⟨fun ⟨bytes, hbytes⟩ => ?_, fun ⟨g, hg, hlong⟩ => ?_⟩, fun _ => ⟨hnone, ?_⟩⟩
    · cases hnone.symm.trans hbytes
    · exact absurd hlong (Nat.not_lt.2 (hshort g hg))
    · have hnames : ∀ g ∈ (m.archive nextInsert).groups, nameFault? g.name = none :=
        List.forall_mem_map.2 (List.findSome?_eq_none_iff.1 (hfault ▸ hnone))
      refine (hcount.length hnames).trans ?_
      simp [archive, Function.comp_def]
  · rw [← hfault] at hsome
    exact ⟨⟨fun _ => ⟨g, hg, hlong⟩, fun _ => ⟨_, hsome⟩⟩, fun hne => absurd hsome (hne _)⟩

/-- One stone, and a group of it and of a stone that is gone. -/
def lonely : Model Binary64 where
  origin := 0
  stones := [⟨0, 0, .white, 111, 0, ⟨0, 0, 0⟩, false, ⟨0, 1⟩⟩]
  nextStone := 2
  groups := [⟨0, "Mauer", [1, 0]⟩]
  nextGroup := 1
  lastLevel := 0

/-- The model has 103 bytes, and of these a sink with room for fifty takes fifty. -/
theorem save_limited_lonely :
    (lonely.save 1 none).2 = none ∧ (lonely.save 1 none).1.length = 103 ∧
      lonely.save 1 (some 50) = ((lonely.save 1 none).1.take 50, some (.file .noRoom)) := by
  obtain ⟨hrooms, -, hfault, -, hlength⟩ :=
    save_limited lonely 1 (by decide) (by decide) (by decide)
  have hnone : (lonely.save 1 none).2 = none := hfault.trans (by decide)
  obtain ⟨-, hbytes⟩ := hlength fun bytes hsome => nomatch hnone.symm.trans hsome
  have hcount : (lonely.save 1 none).1.length = 103 := hbytes.trans (by decide)
  refine ⟨hnone, hcount, (hrooms 50).trans (if_neg ?_)⟩
  rw [hcount]
  decide

end Model

end Masonry
