import Mathlib.Data.List.Basic
import Masonry.Save.Document

/-!
# Saving over a file

Writing to a path where there is a file leaves every path leading where it led, and every other file
as it was. Saving a model there therefore replaces the file whether or not it succeeds: the bytes that
were written before a fault take the place of those that were there.
-/

namespace Masonry

namespace Files

variable {fs fs' : Files} {path : String} {bytes : List UInt8}

/-- The places of the files. -/
def places (fs : Files) : List (List String) := fs.table.map Prod.fst

theorem isDirectory_eq (fs : Files) (path : List String) : fs.isDirectory path =
    (path.isEmpty || fs.places.any fun file => path.isPrefixOf file && path.length < file.length) := by
  rw [isDirectory, places, List.any_map]
  rfl

/-- Where files are decides where paths lead. -/
theorem resolve_congr (h : ∀ place, place ∈ fs'.places ↔ place ∈ fs.places) (path : String) :
    fs'.resolve path = fs.resolve path := by
  have hdirectory (place : List String) : fs'.isDirectory place = fs.isDirectory place := by
    have hany : fs'.places.any (fun file => place.isPrefixOf file && place.length < file.length) =
        fs.places.any fun file => place.isPrefixOf file && place.length < file.length := by
      rw [Bool.eq_iff_iff, List.any_eq_true, List.any_eq_true]
      exact exists_congr fun file => and_congr_left' (h file)
    rw [isDirectory_eq, isDirectory_eq, hany]
  have hfollow (here parts : List String) : fs'.follow here parts = fs.follow here parts := by
    induction parts generalizing here with
    | nil => rfl
    | cons part parts ih => simp only [follow, hdirectory, ih]
  unfold resolve
  split
  · rfl
  · exact hfollow [] _

/-- The bytes at one place do not depend on the entries for another. -/
theorem lookup_filter_ne {place here : List String} (h : here ≠ place)
    (table : List (List String × List UInt8)) :
    (table.filter (·.1 != place)).lookup here = table.lookup here := by
  induction table with
  | nil => rfl
  | cons entry table ih =>
    obtain ⟨file, bytes⟩ := entry
    by_cases hfile : file = place
    · rw [List.filter_cons_of_neg (by simp [hfile]), ih, List.lookup_cons, hfile, beq_false_of_ne h]
    · rw [List.filter_cons_of_pos (by simp [hfile]), List.lookup_cons, List.lookup_cons, ih]

theorem read_eq_ok_iff : fs.read path = .ok bytes ↔
    ∃ place, fs.resolve path = some place ∧ fs.table.lookup place = some bytes := by
  rw [read]
  cases hplace : fs.resolve path with
  | none => simp
  | some place => cases hbytes : fs.table.lookup place <;> simp [hbytes]

theorem write_eq_ok_iff : fs.write path bytes = .ok fs' ↔
    ∃ place, fs.resolve path = some place ∧ fs.isDirectory place = false ∧
      ⟨(place, bytes) :: fs.table.filter (·.1 != place)⟩ = fs' := by
  rw [write]
  cases hplace : fs.resolve path with
  | none => simp
  | some place => cases hdir : fs.isDirectory place <;> simp [hdir]

theorem write_eq_error {fault : FileFault} (h : fs.write path bytes = .error fault) :
    fault = .noSuchFile := by
  rw [write] at h
  split at h
  · exact (Except.error.inj h).symm
  · split at h
    · exact (Except.error.inj h).symm
    · cases h

/-- When a file is written in the place of another, each path leads where it led: to the bytes that
are written, if that is the place, and else to what was there. -/
theorem read_of_write {old : List UInt8} (hold : fs.read path = .ok old)
    (h : fs.write path bytes = .ok fs') (other : String) :
    fs'.read other = if fs.resolve other = fs.resolve path then .ok bytes else fs.read other := by
  obtain ⟨place, hplace, -, rfl⟩ := write_eq_ok_iff.1 h
  obtain ⟨place', hplace', hlookup⟩ := read_eq_ok_iff.1 hold
  obtain rfl : place' = place := Option.some_inj.1 (hplace'.symm.trans hplace)
  have hmem : place' ∈ fs.places := by
    obtain ⟨before, after, htable, -⟩ := List.lookup_eq_some_iff.1 hlookup
    simp [places, htable]
  have hplaces (q : List String) :
      q ∈ places ⟨(place', bytes) :: fs.table.filter (·.1 != place')⟩ ↔ q ∈ fs.places := by
    by_cases hq : q = place'
    · subst hq
      simpa [places] using hmem
    · simp [places, hq]
  unfold read
  rw [resolve_congr hplaces, hplace]
  cases hother : fs.resolve other with
  | none => rfl
  | some q =>
    by_cases hq : q = place'
    · subst hq
      simp
    · rw [if_neg (by simpa using hq)]
      simp only [Option.bind_some, List.lookup_cons, beq_false_of_ne hq, lookup_filter_ne hq]

end Files

namespace Model

variable {α : Type} [Stored α]

/-- Saving to a path where there is a file fails at once, if the path is that of a directory as well, or
else replaces the file: by the document, or by as much of it as was written before saving failed. -/
theorem saveTo_cases (m : Model α) (n : Int32) {fs : Files} {path : String} {old : List UInt8}
    (hold : fs.read path = .ok old) :
    m.saveTo n fs path = (some (.file .noSuchFile), fs) ∨
      (m.saveTo n fs path).1 = (m.save n none).2 ∧
        ∀ other, (m.saveTo n fs path).2.read other =
          if fs.resolve other = fs.resolve path then .ok (m.save n none).1 else fs.read other := by
  cases hwrite : fs.write path (m.save n none).1 with
  | error fault =>
    obtain rfl := Files.write_eq_error hwrite
    have hsave : m.saveTo n fs path = (some (.file .noSuchFile), fs) := by
      rw [saveTo]
      simp only [hwrite]
    exact .inl hsave
  | ok fs' =>
    have hsave : m.saveTo n fs path = ((m.save n none).2, fs') := by
      rw [saveTo]
      simp only [hwrite]
    rw [hsave]
    exact .inr ⟨rfl, Files.read_of_write hold hwrite⟩

end Model

end Masonry
