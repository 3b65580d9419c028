import Mathlib.Data.List.Induction
import Masonry.Proofs.Model.Level
import Masonry.Proofs.Space.Nearest

/-!
# Queries for cells

A query looks along the line of a ray for the first of the stones whose top face lies nearest, as long as
that is nearer than the level that was asked for (`best_closerTop`). The answer is the cell on top of that
stone, and without such a stone the cell on the level. All else that is done to a model leaves the level
of the last answer as it is, so a query that holds the level answers with that one (`lastLevel_run`).
-/

namespace Masonry

/-- What can be done to a model: an edit with a catalog, a placement under a given id, and what is set as
it is when a model is made or loaded. -/
inductive Work (α : Type) where
  | edit (c : Catalog α) (e : Edit α)
  | place (c : Catalog α) (id insertId : Int32) (p : Placement)
  | setOrigin (origin : Vec3 α)
  | setGroups (nextStone nextGroup : Int32) (groups : List Group)

namespace Model

variable {α : Type} [Scalar α] {m : Model α} {r : Ray α} {s : Stone α}

/-! ## The search -/

section Search

/-- The line of the ray meets the top face of the stone at a distance, and that is less than a limit. -/
def MeetsTop (m : Model α) (r : Ray α) (limit : α) (s : Stone α) (d : α) : Prop :=
  ∃ hit, r.plane? (m.worldBox s).upper.y = some hit ∧ (m.worldBox s).holdsColumn hit.point = true ∧
    hit.distance = d ∧ d < limit

instance [DecidableEq α] {limit d : α} : Decidable (m.MeetsTop r limit s d) :=
  inferInstanceAs (Decidable (∃ hit ∈ r.plane? (m.worldBox s).upper.y, _))

/-- The cell on top of the stone, where the line of the ray meets the plane of its top face. -/
def IsOnTop (m : Model α) (r : Ray α) (s : Stone α) (cell : Cell) : Prop :=
  ∃ hit, r.plane? (m.worldBox s).upper.y = some hit ∧
    cell = Grid.snap (hit.point - m.origin) (s.cell.y + levelsOf s)

theorem topHit?_eq_some_iff {d : α} {cell : Cell} : m.topHit? r s = some (d, cell) ↔
    ∃ hit, r.plane? (m.worldBox s).upper.y = some hit ∧ (m.worldBox s).holdsColumn hit.point = true ∧
      hit.distance = d ∧ Grid.snap (hit.point - m.origin) (s.cell.y + levelsOf s) = cell := by
  rw [topHit?]
  cases r.plane? (m.worldBox s).upper.y <;> simp

theorem meetsTop_iff {limit d : α} : m.MeetsTop r limit s d ↔
    (∃ cell, m.topHit? r s = some (d, cell)) ∧ d < limit := by
  simp only [MeetsTop, topHit?_eq_some_iff]
  constructor
  · rintro ⟨hit, hplane, hholds, hdistance, hlt⟩
    exact ⟨⟨_, hit, hplane, hholds, hdistance, rfl⟩, hlt⟩
  · rintro ⟨⟨cell, hit, hplane, hholds, hdistance, -⟩, hlt⟩
    exact ⟨hit, hplane, hholds, hdistance, hlt⟩

theorem isOnTop_of_topHit? {kept : α × Cell} (h : m.topHit? r s = some kept) :
    m.IsOnTop r s kept.2 := by
  obtain ⟨hit, hplane, -, -, hcell⟩ := topHit?_eq_some_iff.1 h
  exact ⟨hit, hplane, hcell.symm⟩

/-- What the search keeps: the hit of the best top face, and the ground before there is one. -/
def Keeps (m : Model α) (r : Ray α) (ground : α × Cell) (kept : α × Cell) :
    Option (Nat × Stone α × α) → Prop
  | none => kept = ground
  | some (_, s, d) => m.topHit? r s = some kept ∧ kept.1 = d ∧ d < ground.1

variable [Scalar.Ordered α]

theorem measured_meetsTop (m : Model α) (r : Ray α) (limit : α) : Measured (m.MeetsTop r limit) where
  unique := by
    rintro s d e ⟨hit, hplane, -, rfl, -⟩ ⟨hit', hplane', -, rfl, -⟩
    rw [Option.some.inj (hplane.symm.trans hplane')]
  defined := by
    rintro s d ⟨-, -, -, -, hlt⟩
    exact (Scalar.Ordered.defined_of_lt hlt).1

/-- The step of the search keeps the hit of the first of the nearest. -/
theorem best_closerTop {ground kept : α × Cell} {l : List (Stone α)}
    {best : Option (Nat × Stone α × α)} (h : Best (m.MeetsTop r ground.1) l best)
    (hkept : m.Keeps r ground kept best) (s : Stone α) :
    ∃ best', Best (m.MeetsTop r ground.1) (l ++ [s]) best' ∧
      m.Keeps r ground (m.closerTop r kept s) best' := by
  have hm := m.measured_meetsTop r ground.1
  cases hhit : m.topHit? r s with
  | none =>
    refine ⟨best, h.pass hm fun d hd => ?_, by simpa [closerTop, hhit] using hkept⟩
    obtain ⟨⟨cell, hsome⟩, -⟩ := meetsTop_iff.1 hd
    cases hhit.symm.trans hsome
  | some hit =>
    have hdistance {d} (hd : m.MeetsTop r ground.1 s d) : d = hit.1 := by
      obtain ⟨⟨cell, hsome⟩, -⟩ := meetsTop_iff.1 hd
      rw [← Option.some.inj (hsome.symm.trans hhit)]
    have hmeets (hlt : hit.1 < ground.1) : m.MeetsTop r ground.1 s hit.1 :=
      meetsTop_iff.2 ⟨⟨hit.2, hhit⟩, hlt⟩
    by_cases hnear : hit.1 < kept.1
    · have hstep : m.closerTop r kept s = hit := by simp [closerTop, hhit, hnear]
      rw [hstep]
      cases best with
      | none =>
        obtain rfl : kept = ground := hkept
        exact ⟨_, h.take hm (hmeets hnear) (by simp), hhit, rfl, hnear⟩
      | some b =>
        obtain ⟨-, hb, hlimit⟩ := hkept
        have hlt := Scalar.Ordered.lt_of_lt_of_le (hb ▸ hnear) (Scalar.Ordered.le_of_lt hlimit)
        refine ⟨_, h.take hm (hmeets hlt) ?_, hhit, rfl, hlt⟩
        rintro _ ⟨⟩
        exact hb ▸ hnear
    · have hstep : m.closerTop r kept s = kept := by simp [closerTop, hhit, hnear]
      rw [hstep]
      refine ⟨best, h.pass hm fun d hd => ?_, hkept⟩
      obtain rfl := hdistance hd
      cases best with
      | none =>
        obtain rfl : kept = ground := hkept
        obtain ⟨-, -, -, -, hlt⟩ := hd
        exact absurd hlt hnear
      | some b => exact ⟨b, rfl, hkept.2.1 ▸ hnear⟩

/-- The search ends with the hit of the first of the nearest. -/
theorem best_foldl_closerTop (m : Model α) (r : Ray α) (ground : α × Cell) :
    ∃ best, Best (m.MeetsTop r ground.1) m.stones best ∧
      m.Keeps r ground (m.stones.foldl (m.closerTop r) ground) best := by
  induction m.stones using List.reverseRecOn with
  | nil => exact ⟨none, best_nil, rfl⟩
  | append_singleton l s ih =>
    obtain ⟨best, hbest, hkept⟩ := ih
    rw [List.foldl_concat]
    exact best_closerTop hbest hkept s

end Search

/-! ## The answer -/

section Answer

theorem plane?_eq_none_iff (height : α) : r.plane? height = none ↔ Scalar.isZero r.direction.y = true := by
  rw [Ray.plane?]
  split <;> simp [*]

/-- A query has no answer if the ray runs along the levels, and only then. -/
theorem cellAt_eq_none_iff (m : Model α) (r : Ray α) (level : Int) (hold : Bool) :
    (m.cellAt r level hold).1 = none ↔ Scalar.isZero r.direction.y = true := by
  cases hold with
  | true =>
    rw [← plane?_eq_none_iff (m.origin.y + Grid.height m.lastLevel), cellAt, if_pos rfl,
      Option.map_eq_none_iff, levelHit?, Option.map_eq_none_iff]
  | false =>
    rw [← plane?_eq_none_iff (m.origin.y + Grid.height level), cellAt, if_neg Bool.false_ne_true]
    cases hplane : r.plane? (m.origin.y + Grid.height level) <;> simp [levelHit?, hplane]

/-- Without an answer, and if it holds the level, a query changes nothing. -/
theorem cellAt_unchanged {level : Int} {hold : Bool}
    (h : hold = true ∨ (m.cellAt r level hold).1 = none) : (m.cellAt r level hold).2 = m := by
  rcases m.cellAt_cases r level hold with heq | ⟨cell, heq, hheld⟩
  · rw [heq]
  · rcases h with rfl | hnone
    · rw [heq, hheld rfl]
    · cases (congrArg Prod.fst heq).symm.trans hnone

/-- The level of an answer is kept, and nothing else is changed. -/
theorem cellAt_kept {level : Int} {hold : Bool} {cell : Cell}
    (h : (m.cellAt r level hold).1 = some cell) :
    (m.cellAt r level hold).2 = { m with lastLevel := cell.y } := by
  rcases m.cellAt_cases r level hold with heq | ⟨cell', heq, -⟩
  · cases (congrArg Prod.fst heq).symm.trans h
  · rw [heq] at h ⊢
    rw [Option.some.inj h]

/-- A ray that meets the level is answered with the cell there, or if it meets the top faces of stones before
that, with the cell on top of the first of the nearest. -/
theorem cellAt_first_top [Scalar.Ordered α] {level : Int} {ground : PlaneHit α}
    (h : r.plane? (m.origin.y + Grid.height level) = some ground) :
    ((∀ s ∈ m.stones, ∀ d, ¬m.MeetsTop r ground.distance s d) →
        (m.cellAt r level false).1 = some (Grid.snap (ground.point - m.origin) level)) ∧
      ((∃ s ∈ m.stones, ∃ d, m.MeetsTop r ground.distance s d) →
        ∃ i s d cell, Nearest (m.MeetsTop r ground.distance) m.stones i s d ∧ m.IsOnTop r s cell ∧
          (m.cellAt r level false).1 = some cell) := by
  obtain ⟨best, hbest, hkept⟩ :=
    m.best_foldl_closerTop r (ground.distance, Grid.snap (ground.point - m.origin) level)
  have hanswer : (m.cellAt r level false).1 = some (m.stones.foldl (m.closerTop r)
      (ground.distance, Grid.snap (ground.point - m.origin) level)).2 := by
    simp [cellAt, levelHit?, h]
  rw [hanswer]
  cases hbest with
  | absent none_away =>
    constructor
    · intro _
      rw [show m.stones.foldl (m.closerTop r) _ = _ from hkept]
    · rintro ⟨s, hs, d, hmeets⟩
      exact absurd hmeets (none_away s hs d)
  | @found i s d nearest =>
    refine ⟨fun hclear => absurd nearest.distance ?_, fun _ => ?_⟩
    · exact hclear s (List.mem_of_getElem? nearest.element) d
    · exact ⟨i, s, d, _, nearest, isOnTop_of_topHit? hkept.1, rfl⟩

end Answer

/-! ## The level of the last answer -/

section Work

/-- The model after a work. -/
def after (m : Model α) : Work α → Model α
  | .edit c e => m.edit c e
  | .place c id insertId p => (m.place c (some id) insertId p).2
  | .setOrigin origin => m.withOrigin origin
  | .setGroups nextStone nextGroup groups => { m with nextStone, nextGroup, groups }

/-- The model after a number of works. -/
def run (m : Model α) (ws : List (Work α)) : Model α := ws.foldl after m

/-- The level of the answer if the work is a query that does not hold the level, and has one. -/
def answered? (m : Model α) : Work α → Option Int
  | .edit _ (.look r level false) => (m.cellAt r level false).1.map (·.y)
  | _ => none

/-- The levels of the answers to queries that do not hold the level, in their order. -/
def levels (m : Model α) : List (Work α) → List Int
  | [] => []
  | w :: ws => (m.answered? w).toList ++ (m.after w).levels ws

theorem lastLevel_after (m : Model α) (w : Work α) :
    (m.after w).lastLevel = (m.answered? w).getD m.lastLevel := by
  cases w with
  | place c id insertId p =>
    have hplaces : Places c (· = some id) m (m.place c (some id) insertId p).2 :=
      .step (some id) insertId p rfl (.refl _)
    exact hplaces.frame.lastLevel
  | setOrigin origin => rfl
  | setGroups nextStone nextGroup groups => rfl
  | edit c e =>
    by_cases hlook : ∃ r level hold, e = .look r level hold
    · obtain ⟨r, level, hold, rfl⟩ := hlook
      show (m.cellAt r level hold).2.lastLevel = _
      cases hold with
      | true => rw [cellAt_unchanged (.inl rfl)]; rfl
      | false =>
        rw [answered?]
        cases hcell : (m.cellAt r level false).1 with
        | none => rw [cellAt_unchanged (.inr hcell), Option.map_none, Option.getD_none]
        | some cell => rw [cellAt_kept hcell, Option.map_some, Option.getD_some]
    · have hne : ∀ r level hold, e ≠ .look r level hold :=
        fun r level hold he => hlook ⟨r, level, hold, he⟩
      have hnone : m.answered? (.edit c e) = none := by
        cases e with
        | look r level hold => exact absurd rfl (hne r level hold)
        | _ => rfl
      rw [hnone]
      exact lastLevel_edit m c hne

/-- A model holds the level of the last answer. -/
theorem lastLevel_run (m : Model α) (ws : List (Work α)) :
    (m.run ws).lastLevel = (m.levels ws).getLastD m.lastLevel := by
  induction ws generalizing m with
  | nil => rfl
  | cons w ws ih =>
    show ((m.after w).run ws).lastLevel = _
    rw [ih, lastLevel_after, levels]
    cases m.answered? w with
    | none => rfl
    | some level => exact (List.getLastD_cons ..).symm

/-- A query that holds the level answers on the level of the last answer. -/
theorem level_of_hold {level : Int} {cell : Cell} {ws : List (Work α)}
    (h : ((m.run ws).cellAt r level true).1 = some cell) : cell.y = (m.levels ws).getLastD m.lastLevel := by
  rw [← lastLevel_run]
  rcases (m.run ws).cellAt_cases r level true with heq | ⟨cell', heq, hheld⟩
  · cases (congrArg Prod.fst heq).symm.trans h
  · rw [heq] at h
    rw [← Option.some.inj h, hheld rfl]

end Work

/-- A query has no answer if the ray runs along the levels, and only then. One that does not hold the level
answers the cell on the level that is asked for, or if the ray meets top faces of stones before that, the
cell on top of the first of the nearest. After all works from the empty model, a query that holds the level
answers on that of the last answer to one that did not, and on level zero before the first. Nothing but
that level is ever changed, and by queries without an answer and those that hold it not even this. -/
theorem cellAt_answers [Scalar.Ordered α] (m : Model α) (r : Ray α) (level : Int) :
    (∀ hold, ((m.cellAt r level hold).1 = none ↔ Scalar.isZero r.direction.y = true)) ∧
      (∀ ground, r.plane? (m.origin.y + Grid.height level) = some ground →
        ((∀ s ∈ m.stones, ∀ d, ¬m.MeetsTop r ground.distance s d) →
          (m.cellAt r level false).1 = some (Grid.snap (ground.point - m.origin) level)) ∧
        ((∃ s ∈ m.stones, ∃ d, m.MeetsTop r ground.distance s d) →
          ∃ i s d cell, Nearest (m.MeetsTop r ground.distance) m.stones i s d ∧ m.IsOnTop r s cell ∧
            (m.cellAt r level false).1 = some cell)) ∧
      (∀ ws cell, (((empty : Model α).run ws).cellAt r level true).1 = some cell →
        cell.y = ((empty : Model α).levels ws).getLastD 0) ∧
      (∀ hold, hold = true ∨ (m.cellAt r level hold).1 = none → (m.cellAt r level hold).2 = m) ∧
      ∀ cell, (m.cellAt r level false).1 = some cell →
        (m.cellAt r level false).2 = { m with lastLevel := cell.y } :=
  ⟨m.cellAt_eq_none_iff r level, fun _ hground => cellAt_first_top hground,
    fun _ _ hcell => level_of_hold hcell, fun _ h => cellAt_unchanged h, fun _ h => cellAt_kept h⟩

/-- A cube on the ground, two side by side above it, and one that stands off. -/
def steps : Model Rat where
  origin := ⟨0, 0, 0⟩
  stones := [cube 0 ⟨0, 0, 0⟩, cube 1 ⟨1, 5, 0⟩, cube 2 ⟨0, 5, 0⟩, cube 3 ⟨5, 9, 5⟩]
  nextStone := 4
  groups := []
  nextGroup := 0
  lastLevel := 0
where
  cube (id : Int32) (cell : Cell) : Stone Rat :=
    ⟨id, 0, .white, 111, 0, cell, false, ⟨⟨0, 0, 0⟩, ⟨1, 1, 1⟩⟩⟩

/-- Straight down where the two cubes lie side by side. -/
def ontoSteps : Ray Rat := ⟨⟨1, Scalar.ofInt 10, 0.5⟩, ⟨0, -1, 0⟩⟩

/-- The nearest top faces are those of the two cubes side by side; and a query that holds the level keeps to
the answer on the ground, not to the level that is asked for. -/
theorem cellAt_answers_steps :
    (∃ i s d cell, Nearest (steps.MeetsTop ontoSteps (Scalar.ofInt 10)) steps.stones i s d ∧
        steps.IsOnTop ontoSteps s cell ∧ (steps.cellAt ontoSteps 0 false).1 = some cell) ∧
      (steps.cellAt ontoSteps 0 false).1 = some ⟨1, 7, 0⟩ ∧
      ∀ cell, (((empty : Model Rat).run [.edit .empty (.look ontoSteps 4 false),
          .setOrigin ⟨1, 1, 1⟩, .edit .empty (.look ontoSteps 2 true)]).cellAt ontoSteps 0 true).1 =
        some cell → cell.y = 4 := by
  obtain ⟨ground, hground⟩ := Option.isSome_iff_exists.1
    (show (ontoSteps.plane? (steps.origin.y + Grid.height 0)).isSome = true by decide +kernel)
  have hfar : ∀ g ∈ ontoSteps.plane? (steps.origin.y + Grid.height 0), g.distance = Scalar.ofInt 10 := by
    decide +kernel
  obtain ⟨-, htop⟩ := (cellAt_answers steps ontoSteps 0).2.1 ground hground
  rw [hfar ground hground] at htop
  refine ⟨htop ⟨steps.cube 1 ⟨1, 5, 0⟩, by decide +kernel, Scalar.ofInt 7, by decide +kernel⟩,
    by decide +kernel, fun cell hcell => ?_⟩
  rw [(cellAt_answers empty ontoSteps 0).2.2.1 _ cell hcell]
  decide +kernel

end Model

end Masonry
