import Masonry.Proofs.Plan.Coverage

/-!
# Runs, round by round

A side can be laid one stone at a time: while a whole stone fits before the destination, the next stone is
laid one length on, and the gap is measured again from there (`Side.Rounds`). No round turns back, since a
stone that fits leaves the destination where it was, ahead or reached. So the rounds end after as many
stones as the first gap holds whole lengths, and leave its remainder, by which the corner to the next side
is chosen (`walk_rounds`).
-/

namespace Masonry

@[simp] theorem Axis.put_put (a : Axis) (c : Cell) (v : Int) : a.put (a.put c v) = a.put c := by
  cases a <;> rfl

section Steps

variable {dest step : Int}

/-- Steps with room for them end one step after another from where they start. -/
theorem endOfSteps_eq (hstep : 0 < step) {n : Nat} {value : Int}
    (hroom : n * step ≤ (value - dest).natAbs) :
    endOfSteps dest step n value = value + heading value dest * (n * step) := by
  rw [endOfSteps, stepsToward_eq hstep hroom]
  cases n with
  | zero => simp
  | succ n => simp [List.range_succ]

end Steps

namespace Side

/-- A side is laid round by round from a cell: the cells of the stones that are laid, and the cell before
which no whole stone fits any more. -/
inductive Rounds (s : Side) (length : Int) : Cell → List Cell → Cell → Prop where
  | stop (c : Cell) : (s.axis.of c - s.dest).natAbs < length → Rounds s length c [] c
  | lay {c next last : Cell} {cells : List Cell} : length ≤ (s.axis.of c - s.dest).natAbs →
      next = s.axis.put c (stepToward (s.axis.of c) s.dest length) →
      Rounds s length next cells last → Rounds s length c (next :: cells) last

/-- The whole stones that fit before the destination. -/
def count (s : Side) (length : Int) (start : Cell) : Nat :=
  (s.axis.of start - s.dest).natAbs / length.toNat

/-- The cell some stones on from the start of the side. -/
def cellAfter (s : Side) (length : Int) (start : Cell) (k : Nat) : Cell :=
  s.axis.put start (s.axis.of start + heading (s.axis.of start) s.dest * (k * length))

variable (s : Side) {length width : Int} (start : Cell)

/-- From one cell the rounds can go one way only. -/
theorem Rounds.unique {s : Side} {c last last' : Cell} {cells cells' : List Cell}
    (h : s.Rounds length c cells last) (h' : s.Rounds length c cells' last') :
    cells' = cells ∧ last' = last := by
  induction h generalizing cells' with
  | stop c hgap =>
    cases h' with
    | stop _ _ => exact ⟨rfl, rfl⟩
    | lay hfits _ _ => omega
  | lay hfits hnext _ ih =>
    cases h' with
    | stop _ hgap => omega
    | lay _ hnext' hrest =>
      subst hnext hnext'
      obtain ⟨rfl, rfl⟩ := ih hrest
      exact ⟨rfl, rfl⟩

/-- The rounds lay the steps for which there is room, if there is none for one more. -/
theorem rounds_steps (hlength : 0 < length) {n : Nat} {c : Cell}
    (hroom : n * length ≤ (s.axis.of c - s.dest).natAbs)
    (hfull : (s.axis.of c - s.dest).natAbs < (n + 1 : Nat) * length) :
    s.Rounds length c ((stepsToward s.dest length n (s.axis.of c)).map (s.axis.put c))
      (s.axis.put c (endOfSteps s.dest length n (s.axis.of c))) := by
  induction n generalizing c with
  | zero =>
    rw [endOfSteps_zero, Axis.put_of]
    exact .stop c (by simpa using hfull)
  | succ n ih =>
    obtain ⟨hfits, hrest⟩ := room_stepToward hlength hroom
    have hgap := natAbs_stepToward hlength hfits
    rw [Int.natCast_add, Int.add_mul, Int.natCast_one, Int.one_mul] at hfull
    -- A stone takes one length off the gap, and so leaves one round less.
    have hnext := @ih (s.axis.put c (stepToward (s.axis.of c) s.dest length))
    rw [Axis.of_put, Axis.put_put] at hnext
    rw [endOfSteps_succ]
    exact .lay hfits rfl (hnext hrest (by omega))

/-- The gap holds the whole stones of the side, and not one more. -/
theorem count_spec (hlength : 0 < length) :
    s.count length start * length + (s.axis.of start - s.dest).natAbs % length =
      (s.axis.of start - s.dest).natAbs ∧
    wholeSteps (s.axis.of start) s.dest length = s.count length start := by
  obtain ⟨n, rfl⟩ := Int.eq_ofNat_of_zero_le (Int.le_of_lt hlength)
  refine ⟨?_, rfl⟩
  have hdiv := Nat.div_add_mod (s.axis.of start - s.dest).natAbs n
  rw [Nat.mul_comm] at hdiv
  exact_mod_cast hdiv

/-- The stones of a side lie one length after another from its start. -/
theorem cells_eq (hlength : 0 < length) : s.cells length start =
    (List.range (s.count length start)).map fun k => s.cellAfter length start (k + 1) := by
  have hroom := room_wholeSteps (s.axis.of start) s.dest hlength
  rw [cells, coordinates, stepsToward_eq hlength hroom, (s.count_spec start hlength).2, List.map_map]
  rfl

/-- So does the last of them. -/
theorem put_finish (hlength : 0 < length) :
    s.axis.put start (s.finish length start) = s.cellAfter length start (s.count length start) := by
  have hroom := room_wholeSteps (s.axis.of start) s.dest hlength
  rw [finish, endOfSteps_eq hlength hroom, (s.count_spec start hlength).2]
  rfl

/-- The rounds lay the cells of the side and end with the last of them. -/
theorem rounds_cells (hlength : 0 < length) :
    s.Rounds length start (s.cells length start) (s.axis.put start (s.finish length start)) := by
  obtain ⟨hgap, hsteps⟩ := s.count_spec start hlength
  have hrest := Int.emod_lt_of_pos ((s.axis.of start - s.dest).natAbs : Int) hlength
  refine s.rounds_steps hlength (room_wholeSteps _ _ hlength) ?_
  rw [hsteps, Int.natCast_add, Int.add_mul, Int.natCast_one, Int.one_mul]
  omega

/-- No stone of a side lies beyond its destination, nor behind its start. -/
theorem between_cellAfter (hlength : 0 < length) {k : Nat} (hk : k ≤ s.count length start) :
    Between (s.axis.of start) s.dest (s.axis.of (s.cellAfter length start k)) := by
  have hgap := (s.count_spec start hlength).1
  have hrest := Int.emod_nonneg ((s.axis.of start - s.dest).natAbs : Int) (Int.ne_of_gt hlength)
  have hfits : k * length ≤ s.count length start * length :=
    Int.mul_le_mul_of_nonneg_right (Int.ofNat_le.2 hk) (Int.le_of_lt hlength)
  have hstart : 0 ≤ k * length := Int.mul_nonneg (Int.natCast_nonneg k) (Int.le_of_lt hlength)
  rw [cellAfter, Axis.of_put]
  unfold Between heading
  split <;> omega

/-- The corner is chosen by what a side's whole stones leave of its gap. -/
theorem cornerOffset_eq_of_rest (hlength : 0 < length) : s.cornerOffset length width start =
    if width ≤ (s.axis.of start - s.dest).natAbs % length then length - 1 else width - 1 := by
  have hlast := congrArg s.axis.of (s.put_finish start hlength)
  have hgap := (s.count_spec start hlength).1
  have hrest := Int.emod_nonneg ((s.axis.of start - s.dest).natAbs : Int) (Int.ne_of_gt hlength)
  have hleft : ((s.finish length start - s.dest).natAbs : Int) =
      (s.axis.of start - s.dest).natAbs % length := by
    rw [cellAfter, Axis.of_put, Axis.of_put] at hlast
    rw [hlast]
    unfold heading
    split <;> omega
  rw [cornerOffset_eq, hleft]

end Side

namespace Plan

/-- Walking a side of a wall lays stones round by round until none fits any more: one length after another
from its start, as many as there are whole lengths in the gap, none of them beyond the destination. The next
side starts one corner's offset further on and the same to the side, whether or not the stones are placed. -/
theorem walk_rounds (b : Brush) (hlength : 1 ≤ b.size.x) (s : Side) (start : Cell) :
    let value := s.axis.of start
    let gap := (value - s.dest).natAbs
    let stones := (List.range (gap / b.size.x.toNat)).map fun k => s.cellAfter b.size.x start (k + 1)
    let last := s.cellAfter b.size.x start (gap / b.size.x.toNat)
    let offset := if b.size.z ≤ gap % b.size.x then b.size.x - 1 else b.size.z - 1
    (∀ cells c, s.Rounds b.size.x start cells c ↔ cells = stones ∧ c = last) ∧
    (∀ c ∈ stones, Between value s.dest (s.axis.of c)) ∧
    ∃ corner : Cell,
      s.axis.of corner = s.axis.of last + (if value ≤ s.dest then offset else -offset) ∧
      s.axis.other.of corner = s.axis.other.of start + (if s.cornerBack then -offset else offset) ∧
      corner.y = start.y ∧
      ∀ laid sides, walk b start ({ s with laid } :: sides) =
        (if laid then stones.map (b.stone s.across) else []) ++ walk b corner sides := by
  intro value gap stones last offset
  have hcells : s.cells b.size.x start = stones := s.cells_eq start hlength
  have hlast : s.axis.put start (s.finish b.size.x start) = last := s.put_finish start hlength
  have hoffset : s.cornerOffset b.size.x b.size.z start = offset :=
    s.cornerOffset_eq_of_rest start hlength
  have hrounds := s.rounds_cells start hlength
  rw [hcells, hlast] at hrounds
  refine ⟨fun cells c => ⟨hrounds.unique, ?_⟩, fun c hc => ?_, s.nextStart b.size.x b.size.z start,
    ?_, ?_, ?_, fun laid sides => ?_⟩
  · rintro ⟨rfl, rfl⟩
    exact hrounds
  · obtain ⟨k, hk, rfl⟩ := List.mem_map.1 hc
    exact s.between_cellAfter start hlength (List.mem_range.1 hk)
  · rw [Side.of_nextStart, hoffset, ← hlast, Axis.of_put]
  · rw [Side.of_other_nextStart, hoffset]
  · rw [Side.nextStart, Side.getLast_cells]
    simp only [Axis.move, Axis.y_put]
  · rw [walk, ← hcells]
    rfl

/-- Stones three cells long lie at three and six of the seven cells to the destination; the cell that is
left is as wide as a stone, so the corner is two cells on. -/
theorem walk_rounds_rest :
    let b : Brush := ⟨321, .white, 0, 1, false, false⟩
    let s : Side := ⟨.x, 7, true, false, true⟩
    1 ≤ b.size.x ∧
      s.Rounds b.size.x ⟨0, 0, 0⟩ [⟨3, 0, 0⟩, ⟨6, 0, 0⟩] ⟨6, 0, 0⟩ ∧
      ∃ corner : Cell, corner.x = 8 ∧ corner.z = -2 ∧ ∀ sides,
        walk b ⟨0, 0, 0⟩ (s :: sides) =
          [⟨3, 0, 0⟩, ⟨6, 0, 0⟩].map (b.stone false) ++ walk b corner sides := by
  intro b s
  have hlength : 1 ≤ b.size.x := by decide
  obtain ⟨hrounds, -, corner, hx, hz, -, hwalk⟩ := walk_rounds b hlength s ⟨0, 0, 0⟩
  have hstones : [⟨3, 0, 0⟩, ⟨6, 0, 0⟩] = (List.range (7 / b.size.x.toNat)).map fun k =>
      s.cellAfter b.size.x ⟨0, 0, 0⟩ (k + 1) := by decide
  refine ⟨hlength, (hrounds _ _).2 ⟨hstones, by decide⟩, corner, hx.trans (by decide),
    hz.trans (by decide), fun sides => ?_⟩
  rw [hstones]
  exact hwalk true sides

end Plan

end Masonry
