import Masonry.Proofs.Model.Batch
import Masonry.Proofs.Model.Identity
import Masonry.Proofs.Plan.Fitting
import Masonry.Session

/-!
# What a release and a copy put in

Releasing the button places the preview and copying places the shifted selection, each as a batch under
an insert id of its own. Both put in the accepted placements and leave the rest of the document alone
(`release_copySelection_commit`).
-/

namespace Masonry.Session

open Model

variable {α : Type} [Scalar α] {s t : Session α} {ps : List Placement} {count : Nat}

/-- The second session comes from the first by a batch of placements, of which `count` are accepted. -/
structure Commits (s : Session α) (ps : List Placement) (count : Nat) (t : Session α) : Prop where
  /-- The stones that were there stay as they are; those of the accepted placements come after them,
  unselected and under one insert id. Origin and groups stay. -/
  gains : Gains s.catalog s.nextInsert (s.model.accepted s.catalog ps) s.model t.model
  count_eq : count = (s.model.accepted s.catalog ps).length
  /-- The new stones have the next ids in a row. -/
  ids : t.model.ids = s.model.ids ++ Counter.upcoming s.model.nextStone count
  nextStone : t.model.nextStone = s.model.nextStone + Int32.ofNat count
  nextInsert : t.nextInsert = s.nextInsert + 1
  /-- The refused placements might as well not have been asked for. -/
  untraced : s.model.placeAll s.catalog s.nextInsert (s.model.accepted s.catalog ps) = (count, t.model)

theorem commits_of_placeAll
    (hbatch : s.model.placeAll s.catalog s.nextInsert ps = (count, t.model))
    (hinsert : t.nextInsert = s.nextInsert + 1) : s.Commits ps count t := by
  have ⟨hcount, hgains⟩ := placeAll_gains s.model s.catalog s.nextInsert ps
  have ⟨hids, hnext, _⟩ := placeAll_hands_out s.model s.catalog s.nextInsert ps
  rw [hbatch] at hcount hgains hids hnext
  exact ⟨hgains, hcount, hids, hnext, hinsert, (placeAll_accepted ..).trans hbatch⟩

/-- At the end of a drag the preview is committed, and at any time a copy of the selection: the
placements that fit become stones, and nothing else changes. -/
theorem release_copySelection_commit (s : Session α) :
    (s.mode = .drag → s.Commits s.preview s.release.1 s.release.2) ∧
      ∀ offset, s.Commits (s.model.selection.map (·.placement.shifted offset))
        (s.copySelection offset).1 (s.copySelection offset).2 := by
  refine ⟨fun hmode => ?_, fun offset => commits_of_placeAll rfl rfl⟩
  rw [release, if_neg (not_not_intro hmode)]
  exact commits_of_placeAll rfl rfl

/-- A stone in the way, a stone of the batch in the way, and a type code without a shape: two of five
placements are accepted. -/
theorem release_copySelection_commit_mixed :
    let s : Session Rat := { start oneBrick .default with
      mode := .drag
      model := ((empty : Model Rat).placeAll oneBrick 0 [⟨432, .white, 0, ⟨0, 0, 0⟩⟩]).2
      nextInsert := 1
      preview := [⟨432, .white, 0, ⟨3, 0, 0⟩⟩, ⟨432, .white, 0, ⟨4, 0, 0⟩⟩, ⟨7, .white, 0, ⟨0, 0, 2⟩⟩,
        ⟨432, .white, 5, ⟨4, 0, 1⟩⟩, ⟨432, .white, 5, ⟨8, 0, 0⟩⟩] }
    s.mode = .drag ∧
      s.model.accepted s.catalog s.preview = [⟨432, .white, 0, ⟨4, 0, 0⟩⟩, ⟨432, .white, 5, ⟨8, 0, 0⟩⟩] ∧
      s.Commits s.preview s.release.1 s.release.2 :=
  ⟨rfl, by decide +kernel, (release_copySelection_commit _).1 rfl⟩

end Masonry.Session
