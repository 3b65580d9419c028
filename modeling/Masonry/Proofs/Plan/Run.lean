import Masonry.Plan

/-!
# Where runs end

A run stops on the way to its destination, less than a stone's length before it. The next side starts
beyond the start of this one, off its line by the corner's offset, which is never negative. What holds
of each side and of the start of the next holds of a whole walk (`walk_cons_eq_map`).
-/

namespace Masonry

namespace Axis

variable (a : Axis) (c : Cell) (offset : Int)

@[simp] theorem of_move : a.of (a.move c offset) = a.of c + offset := by
  rw [move, of_put]

@[simp] theorem of_other_move : a.other.of (a.move c offset) = a.other.of c := by
  rw [move, of_other_put]

@[simp] theorem of_move_other : a.of (a.other.move c offset) = a.of c := by
  cases a <;> rfl

@[simp] theorem put_of : a.put c (a.of c) = c := by
  cases a <;> rfl

@[simp] theorem put_move (value : Int) : a.put (a.move c offset) value = a.put c value := by
  cases a <;> rfl

@[simp] theorem y_put (value : Int) : (a.put c value).y = c.y := by
  cases a <;> rfl

/-- How high a cell lies does not show along a horizontal axis. -/
theorem of_level (y : Int) : a.of { c with y } = a.of c := by
  cases a <;> rfl

end Axis

section Steps

variable {dest step : Int}

/-- A step with room for it does not pass the destination, so that less room is left by just it. -/
theorem natAbs_stepToward {value : Int} (hstep : 0 < step) (hroom : step ≤ (value - dest).natAbs) :
    (stepToward value dest step - dest).natAbs = (value - dest).natAbs - step := by
  unfold stepToward
  split <;> omega

/-- What is left of the room for some more steps after the first of them. -/
theorem room_stepToward {value : Int} {n : Nat} (hstep : 0 < step)
    (hroom : (n + 1 : Nat) * step ≤ (value - dest).natAbs) :
    step ≤ (value - dest).natAbs ∧ n * step ≤ (stepToward value dest step - dest).natAbs := by
  have hrest : (0 : Int) ≤ n * step := Int.mul_nonneg (Int.natCast_nonneg n) (Int.le_of_lt hstep)
  rw [Int.natCast_add, Int.add_mul, Int.natCast_one, Int.one_mul] at hroom
  have hfirst : step ≤ (value - dest).natAbs := by omega
  have hleft := natAbs_stepToward hstep hfirst
  exact ⟨hfirst, by omega⟩

/-- There is room for the whole steps between two coordinates. -/
theorem room_wholeSteps (value dest : Int) (hstep : 0 < step) :
    wholeSteps value dest step * step ≤ (value - dest).natAbs := by
  have hquot : 0 ≤ ((value - dest).natAbs : Int) / step :=
    Int.ediv_nonneg (Int.natCast_nonneg _) (Int.le_of_lt hstep)
  rw [wholeSteps, Int.toNat_of_nonneg hquot]
  exact Int.ediv_mul_le _ (Int.ne_of_gt hstep)

/-- The coordinate on which some steps end. -/
def endOfSteps (dest step : Int) (n : Nat) (value : Int) : Int :=
  ((stepsToward dest step n value).getLast?).getD value

@[simp] theorem endOfSteps_zero (value : Int) : endOfSteps dest step 0 value = value := rfl

theorem endOfSteps_succ (n : Nat) (value : Int) :
    endOfSteps dest step (n + 1) value = endOfSteps dest step n (stepToward value dest step) := by
  rw [endOfSteps, stepsToward, List.getLast?_cons, Option.getD_some, endOfSteps]

/-- Steps with room for them end between where they start and where they lead. -/
theorem endOfSteps_between (hstep : 0 < step) {n : Nat} {value : Int}
    (hroom : n * step ≤ (value - dest).natAbs) :
    (value ≤ dest → value ≤ endOfSteps dest step n value ∧ endOfSteps dest step n value ≤ dest) ∧
      (dest ≤ value →
        dest ≤ endOfSteps dest step n value ∧ endOfSteps dest step n value ≤ value) := by
  induction n generalizing value with
  | zero => simp
  | succ n ih =>
    obtain ⟨hfirst, hrest⟩ := room_stepToward hstep hroom
    have hend := ih hrest
    rw [endOfSteps_succ]
    unfold stepToward at hend ⊢
    split at hend <;> split <;> omega

/-- Whole steps that are not none lead away from where they start. -/
theorem endOfSteps_ne (hstep : 0 < step) {n : Nat} {value : Int}
    (hroom : (n + 1 : Nat) * step ≤ (value - dest).natAbs) :
    endOfSteps dest step (n + 1) value ≠ value := by
  obtain ⟨hfirst, hrest⟩ := room_stepToward hstep hroom
  have hend := endOfSteps_between hstep hrest
  rw [endOfSteps_succ]
  unfold stepToward at hend ⊢
  split at hend <;> split <;> omega

end Steps

namespace Side

variable (s : Side) {length width : Int} (start : Cell)

/-- The coordinate of the last stone of the side, or where it starts if it has none. -/
def finish (length : Int) (start : Cell) : Int :=
  endOfSteps s.dest length (wholeSteps (s.axis.of start) s.dest length) (s.axis.of start)

theorem cornerOffset_eq (length width : Int) : s.cornerOffset length width start =
    if (s.finish length start - s.dest).natAbs ≥ width then length - 1 else width - 1 := rfl

theorem cornerOffset_nonneg (hlength : 0 < length) (hwidth : 0 < width) :
    0 ≤ s.cornerOffset length width start := by
  rw [cornerOffset_eq]
  split <;> omega

/-- The cell of the last stone is the one at its coordinate. -/
theorem getLast_cells (length : Int) :
    ((s.cells length start).getLast?).getD start = s.axis.put start (s.finish length start) := by
  rw [cells, List.getLast?_map, finish, endOfSteps, coordinates]
  cases (stepsToward _ _ _ _).getLast? with
  | none => exact (s.axis.put_of start).symm
  | some value => rfl

/-- Where the next side starts along the axis of this one. -/
theorem of_nextStart (length width : Int) :
    s.axis.of (s.nextStart length width start) = s.finish length start +
      (if s.axis.of start ≤ s.dest then s.cornerOffset length width start
        else -s.cornerOffset length width start) := by
  rw [nextStart, getLast_cells]
  cases s.axis <;> rfl

/-- Where the next side starts along the other axis. -/
theorem of_other_nextStart (length width : Int) :
    s.axis.other.of (s.nextStart length width start) = s.axis.other.of start +
      (if s.cornerBack then -s.cornerOffset length width start
        else s.cornerOffset length width start) := by
  rw [nextStart, getLast_cells]
  cases s.axis <;> rfl

/-- A side that starts at its destination has no stones. -/
theorem finish_of_eq_dest (hlength : 0 < length) (hstart : s.axis.of start = s.dest) :
    s.finish length start = s.dest := by
  have hend := endOfSteps_between hlength (room_wholeSteps (s.axis.of start) s.dest hlength)
  unfold finish
  omega

/-- A side that starts at its destination turns the corner by a stone's width. -/
theorem cornerOffset_of_eq_dest (hlength : 0 < length) (hwidth : 0 < width)
    (hstart : s.axis.of start = s.dest) : s.cornerOffset length width start = width - 1 := by
  rw [cornerOffset_eq, s.finish_of_eq_dest start hlength hstart, if_neg]
  omega

/-- A side on the way to its destination leaves the coordinate it starts at: what it lacks in stones
the corner makes up for. -/
theorem nextStart_onward (hlength : 0 < length) (hwidth : 0 < width) :
    (s.axis.of start < s.dest →
        s.axis.of start < s.axis.of (s.nextStart length width start)) ∧
      (s.dest < s.axis.of start →
        s.axis.of (s.nextStart length width start) < s.axis.of start) := by
  have hroom := room_wholeSteps (s.axis.of start) s.dest hlength
  have hend := endOfSteps_between hlength hroom
  have hoffset := s.cornerOffset_nonneg start hlength hwidth
  rw [of_nextStart]
  unfold finish
  cases hn : wholeSteps (s.axis.of start) s.dest length with
  | zero =>
    -- No whole stone fits, so the offset is that of the gap the side starts with.
    have hgap : ((s.axis.of start - s.dest).natAbs : Int) < length := by
      have hquot : ((s.axis.of start - s.dest).natAbs : Int) / length ≤ 0 := Int.toNat_eq_zero.1 hn
      have hrem := Int.emod_lt_of_pos ((s.axis.of start - s.dest).natAbs : Int) hlength
      have hdiv := Int.mul_ediv_add_emod ((s.axis.of start - s.dest).natAbs : Int) length
      have hprod := Int.mul_nonpos_of_nonneg_of_nonpos (Int.le_of_lt hlength) hquot
      omega
    have hcorner := s.cornerOffset_eq start length width
    rw [finish, hn, endOfSteps_zero] at hcorner
    rw [endOfSteps_zero]
    split at hcorner <;> constructor <;> intro h <;> split <;> omega
  | succ n =>
    rw [hn] at hroom hend
    have hne := endOfSteps_ne hlength hroom
    constructor <;> intro h <;> split <;> omega

end Side

namespace Plan

/-- A walk lays the images of the stones of another if its first side does and the rest of it. -/
theorem walk_cons_eq_map {b b' : Brush} {start start' : Cell} {s s' : Side} {sides sides' : List Side}
    {f : Cell → Cell} {g : Placement → Placement} (hlaid : s'.laid = s.laid)
    (hcells : s'.cells b'.size.x start' = (s.cells b.size.x start).map f)
    (hstone : ∀ c, b'.stone s'.across (f c) = g (b.stone s.across c))
    (hrest : walk b' (s'.nextStart b'.size.x b'.size.z start') sides' =
      (walk b (s.nextStart b.size.x b.size.z start) sides).map g) :
    walk b' start' (s' :: sides') = (walk b start (s :: sides)).map g := by
  rw [walk, walk, List.map_append, hrest, hlaid, hcells]
  congr 1
  split
  · rw [List.map_map, List.map_map]
    exact List.map_congr_left fun c _ => hstone c
  · rfl

end Plan

end Masonry
