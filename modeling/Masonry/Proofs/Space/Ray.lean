import Mathlib.Algebra.Order.Field.Basic
import Mathlib.Data.Rat.Defs
import Mathlib.Order.Bounds.Basic
import Mathlib.Tactic.Linarith
import Mathlib.Tactic.Ring
import Masonry.Scalar.Exact
import Masonry.Space.Ray

/-!
# Where a ray meets a box

Over exact numbers, `Ray.enter?` is compared with the distances at which the ray is in the box. Each
coordinate comes into its interval at a distance of its own, if it ever does (`Course.Entry`), and
stays until it leaves for good; so the ray is in the box first at the last of three distances. The
face that is reached last is chosen by strict comparison, and when the faces along `y` and `z` are
reached together after the one along `x`, none of the two is chosen: through such an edge the ray
enters unseen. Everywhere else the answer is the least distance (`enter?_eq_some_iff`).
-/

namespace Masonry

/-- A coordinate that changes evenly along a ray, and the interval it should come into. -/
structure Course where
  start : Rat
  speed : Rat
  low : Rat
  high : Rat
  low_le_high : low ≤ high

namespace Course

variable (c : Course)

/-- The coordinate is in the interval at a distance. -/
def Inside (t : Rat) : Prop := c.low ≤ c.start + t * c.speed ∧ c.start + t * c.speed ≤ c.high

/-- The distance at which the face that the coordinate looks at is reached. -/
def reach : Rat := Ray.reach c.start c.speed (Ray.facing? c.start c.low c.high)

/-- The distances ahead at which the coordinate is in the interval. -/
def ahead : Set Rat := {t | 0 ≤ t ∧ c.Inside t}

theorem inside_zero_iff : c.Inside 0 ↔ c.low ≤ c.start ∧ c.start ≤ c.high := by
  rw [Inside, zero_mul, add_zero]

theorem meets_eq_true_iff (t : Rat) :
    Ray.meets c.start c.speed c.low c.high t = true ↔ c.Inside t := by
  show (!(decide (c.start + t * c.speed < c.low) || decide (c.high < c.start + t * c.speed))) = true ↔ _
  simp [Inside]

theorem facing?_eq : Ray.facing? c.start c.low c.high =
    if c.start < c.low then some c.low else if c.high < c.start then some c.high else none := rfl

theorem reach_some (face : Rat) : Ray.reach c.start c.speed (some face) =
    if c.speed = 0 then -1 else (face - c.start) / c.speed := by
  show (if c.speed.num == 0 then (-1 : Rat) else (face - c.start) / c.speed) = _
  simp

theorem isNone_facing?_iff : (Ray.facing? c.start c.low c.high).isNone = true ↔ c.Inside 0 := by
  rw [facing?_eq, inside_zero_iff]
  split_ifs with hbelow habove
  · simp [hbelow]
  · simp [habove]
  · simp [not_lt.1 hbelow, not_lt.1 habove]

/-- In between two distances at which the coordinate is in the interval it is there, too. -/
theorem Inside.between {s t u : Rat} (hs : c.Inside s) (hu : c.Inside u) (hst : s ≤ t) (htu : t ≤ u) :
    c.Inside t := by
  rcases le_total 0 c.speed with hspeed | hspeed
  · have hfrom : s * c.speed ≤ t * c.speed := mul_le_mul_of_nonneg_right hst hspeed
    have hto : t * c.speed ≤ u * c.speed := mul_le_mul_of_nonneg_right htu hspeed
    exact ⟨by linarith [hs.1], by linarith [hu.2]⟩
  · have hfrom : t * c.speed ≤ s * c.speed := mul_le_mul_of_nonpos_right hst hspeed
    have hto : u * c.speed ≤ t * c.speed := mul_le_mul_of_nonpos_right htu hspeed
    exact ⟨by linarith [hu.1], by linarith [hs.2]⟩

/-- What the distance to the face says of a coordinate: it is in the interval from the start, it comes
in at that distance, or it never does. -/
inductive Entry : Prop where
  | within (reach_eq : c.reach = -1) (inside : c.Inside 0)
  | later (pos : 0 < c.reach) (least : IsLeast c.ahead c.reach)
  | never (neg : c.reach < 0) (empty : c.ahead = ∅)

/-- Wherever the coordinate is in the interval it has passed the face that it looks at. -/
theorem entry_of_face {face : Rat} (hface : Ray.facing? c.start c.low c.high = some face)
    (hlow : c.low ≤ face) (hhigh : face ≤ c.high) (hne : face ≠ c.start)
    (hpassed : ∀ t, c.Inside t → 0 ≤ (face - c.start) * (c.start + t * c.speed - face)) : c.Entry := by
  have hreach : c.reach = if c.speed = 0 then -1 else (face - c.start) / c.speed := by
    rw [reach, hface, reach_some]
  have hgap : face - c.start ≠ 0 := sub_ne_zero.2 hne
  by_cases hspeed : c.speed = 0
  · have hnone : ∀ t, ¬c.Inside t := by
      intro t ht
      have hpass := hpassed t ht
      rw [hspeed, mul_zero, add_zero, ← neg_sub face c.start, mul_neg, neg_nonneg] at hpass
      exact absurd hpass (not_le.2 (mul_self_pos.2 hgap))
    rw [if_pos hspeed] at hreach
    exact .never (by rw [hreach]; norm_num) (Set.eq_empty_of_forall_notMem fun t ht => hnone t ht.2)
  · rw [if_neg hspeed] at hreach
    have hat : c.reach * c.speed = face - c.start := by rw [hreach, div_mul_cancel₀ _ hspeed]
    have hafter : ∀ t, c.Inside t → 0 ≤ c.reach * (t - c.reach) := by
      intro t ht
      have hpass := hpassed t ht
      have hdistance : (face - c.start) * (c.start + t * c.speed - face) =
          c.reach * (t - c.reach) * (c.speed * c.speed) := by
        rw [← sub_sub_sub_cancel_right _ face c.start, add_sub_cancel_left, ← hat]
        ring
      rw [hdistance] at hpass
      exact nonneg_of_mul_nonneg_left hpass (mul_self_pos.2 hspeed)
    rcases lt_or_gt_of_ne (div_ne_zero hgap hspeed) with hneg | hpos
    · rw [← hreach] at hneg
      refine .never hneg (Set.eq_empty_of_forall_notMem fun t ht => ?_)
      have hlate := hafter t ht.2
      have hless : t - c.reach ≤ 0 := nonpos_of_mul_nonneg_right hlate hneg
      linarith [ht.1]
    · rw [← hreach] at hpos
      refine .later hpos ⟨⟨hpos.le, ?_⟩, fun t ht => ?_⟩
      · rw [Inside, hat, add_sub_cancel]
        exact ⟨hlow, hhigh⟩
      · have hlate := nonneg_of_mul_nonneg_right (hafter t ht.2) hpos
        linarith

theorem entry : c.Entry := by
  have hfacing := c.facing?_eq
  split_ifs at hfacing with hbelow habove
  · refine c.entry_of_face hfacing le_rfl c.low_le_high hbelow.ne' fun t ht => ?_
    exact mul_nonneg (sub_nonneg.2 hbelow.le) (sub_nonneg.2 ht.1)
  · refine c.entry_of_face hfacing c.low_le_high le_rfl habove.ne fun t ht => ?_
    exact mul_nonneg_of_nonpos_of_nonpos (sub_nonpos.2 habove.le) (sub_nonpos.2 ht.2)
  · refine .within ?_ (c.inside_zero_iff.2 ⟨not_lt.1 hbelow, not_lt.1 habove⟩)
    rw [reach, hfacing]
    rfl

variable {c} {t : Rat}

/-- The face is reached no later than the interval. -/
theorem reach_le_of_mem (ht : t ∈ c.ahead) : c.reach ≤ t := by
  cases c.entry with
  | within reach_eq _ => linarith [ht.1]
  | later _ least => exact least.2 ht
  | never _ empty => simp [empty] at ht

theorem reach_mem (h : 0 ≤ c.reach) : c.reach ∈ c.ahead := by
  cases c.entry with
  | within reach_eq _ => linarith
  | later _ least => exact least.1
  | never neg _ => linarith

/-- From where the face is reached the coordinate is in the interval until it leaves. -/
theorem mem_ahead_of_between {u : Rat} (hu : u ∈ c.ahead) (ht : 0 ≤ t) (hreach : c.reach ≤ t)
    (htu : t ≤ u) : t ∈ c.ahead := by
  cases c.entry with
  | within _ inside => exact ⟨ht, inside.between c hu.2 ht htu⟩
  | later _ least => exact ⟨ht, least.1.2.between c hu.2 hreach htu⟩
  | never _ empty => simp [empty] at hu

/-- The answer for a box, when the face that this coordinate looks at is taken for the last one. -/
def entering (c d e : Course) : Option Rat :=
  if c.reach < 0 then none
  else if Ray.meets d.start d.speed d.low d.high c.reach &&
      Ray.meets e.start e.speed e.low e.high c.reach then some c.reach
  else none

/-- An answer lies in the box. -/
theorem entering_eq_some_iff {d e : Course} :
    c.entering d e = some t ↔ c.reach = t ∧ t ∈ c.ahead ∧ t ∈ d.ahead ∧ t ∈ e.ahead := by
  unfold entering
  split_ifs with hbehind hmeets
  · constructor
    · exact nofun
    · rintro ⟨rfl, hc, -, -⟩
      exact absurd hc.1 (not_le.2 hbehind)
  · rw [Bool.and_eq_true, meets_eq_true_iff, meets_eq_true_iff] at hmeets
    rw [Option.some_inj]
    constructor
    · rintro rfl
      exact ⟨rfl, reach_mem (not_lt.1 hbehind), ⟨not_lt.1 hbehind, hmeets.1⟩, not_lt.1 hbehind, hmeets.2⟩
    · exact fun h => h.1
  · rw [Bool.and_eq_true, meets_eq_true_iff, meets_eq_true_iff] at hmeets
    constructor
    · exact nofun
    · rintro ⟨rfl, -, hd, he⟩
      exact absurd ⟨hd.2, he.2⟩ hmeets

/-- All three coordinates are in their intervals first where the last of them comes in. -/
theorem isLeast_inter {x y z : Course} (h : (x.ahead ∩ (y.ahead ∩ z.ahead)).Nonempty) :
    IsLeast (x.ahead ∩ (y.ahead ∩ z.ahead)) (max 0 (max x.reach (max y.reach z.reach))) := by
  have hbound : max 0 (max x.reach (max y.reach z.reach)) ∈
      lowerBounds (x.ahead ∩ (y.ahead ∩ z.ahead)) := by
    rintro t ⟨hx, hy, hz⟩
    exact max_le hx.1 (max_le (reach_le_of_mem hx) (max_le (reach_le_of_mem hy) (reach_le_of_mem hz)))
  obtain ⟨u, hx, hy, hz⟩ := h
  have hpos := le_max_left 0 (max x.reach (max y.reach z.reach))
  have hlate := le_max_right 0 (max x.reach (max y.reach z.reach))
  have hbefore := hbound ⟨hx, hy, hz⟩
  have hreach := max_le_iff.1 hlate
  have hreach' := max_le_iff.1 hreach.2
  exact ⟨⟨mem_ahead_of_between hx hpos hreach.1 hbefore, mem_ahead_of_between hy hpos hreach'.1 hbefore,
    mem_ahead_of_between hz hpos hreach'.2 hbefore⟩, hbound⟩

/-- A coordinate that is in its interval at `t` was there before if its face was reached before. -/
theorem exists_mem_lt (ht : t ∈ c.ahead) (hpos : 0 < t) (hreach : c.reach < t) :
    ∃ s, s ∈ c.ahead ∧ s < t :=
  have hbefore : max 0 c.reach < t := max_lt hpos hreach
  ⟨_, mem_ahead_of_between ht (le_max_left _ _) (le_max_right _ _) hbefore.le, hbefore⟩

/-- Two coordinates `y` and `z` come in together at a distance, after `x` has come in. -/
def OverEdge (x y z : Course) (t : Rat) : Prop :=
  (∀ s, 0 ≤ s → s < t → ¬y.Inside s ∧ ¬z.Inside s) ∧ ∃ s, 0 ≤ s ∧ s < t ∧ x.Inside s

/-- The answer for three coordinates is zero inside, or else that of the coordinate whose face is
reached strictly last, or else that of `x`. -/
inductive Chosen (x y z : Course) : Option Rat → Prop where
  | inside (hx : x.Inside 0) (hy : y.Inside 0) (hz : z.Inside 0) : Chosen x y z (some 0)
  | lastY (outside : ¬(x.Inside 0 ∧ y.Inside 0 ∧ z.Inside 0)) (afterX : x.reach < y.reach)
      (afterZ : z.reach < y.reach) : Chosen x y z (y.entering x z)
  | lastZ (outside : ¬(x.Inside 0 ∧ y.Inside 0 ∧ z.Inside 0)) (afterX : x.reach < z.reach)
      (afterY : y.reach < z.reach) : Chosen x y z (z.entering x y)
  | fallback (outside : ¬(x.Inside 0 ∧ y.Inside 0 ∧ z.Inside 0))
      (notY : ¬(x.reach < y.reach ∧ z.reach < y.reach))
      (notZ : ¬(x.reach < z.reach ∧ y.reach < z.reach)) : Chosen x y z (x.entering y z)

variable {x y z : Course}

/-- Any answer is the least distance, and not one at which `y` and `z` come in together after `x`. -/
theorem Chosen.sound {answer : Option Rat} (h : Chosen x y z answer) (ht : answer = some t) :
    IsLeast (x.ahead ∩ (y.ahead ∩ z.ahead)) t ∧ ¬OverEdge x y z t := by
  cases h with
  | inside hx hy hz =>
    obtain rfl : 0 = t := Option.some_inj.1 ht
    refine ⟨⟨⟨⟨le_rfl, hx⟩, ⟨le_rfl, hy⟩, le_rfl, hz⟩, fun s hs => hs.1.1⟩, ?_⟩
    rintro ⟨-, s, hs, hlt, -⟩
    exact absurd hs (not_le.2 hlt)
  | lastY _ _ afterZ =>
    obtain ⟨hreach, hy, hx, hz⟩ := entering_eq_some_iff.1 ht
    refine ⟨⟨⟨hx, hy, hz⟩, fun s hs => hreach ▸ reach_le_of_mem hs.2.1⟩, ?_⟩
    rintro ⟨hnone, s, hs, hlt, -⟩
    obtain ⟨u, hu, hut⟩ := exists_mem_lt hz (hs.trans_lt hlt) (hreach ▸ afterZ)
    exact (hnone u hu.1 hut).2 hu.2
  | lastZ _ _ afterY =>
    obtain ⟨hreach, hz, hx, hy⟩ := entering_eq_some_iff.1 ht
    refine ⟨⟨⟨hx, hy, hz⟩, fun s hs => hreach ▸ reach_le_of_mem hs.2.2⟩, ?_⟩
    rintro ⟨hnone, s, hs, hlt, -⟩
    obtain ⟨u, hu, hut⟩ := exists_mem_lt hy (hs.trans_lt hlt) (hreach ▸ afterY)
    exact (hnone u hu.1 hut).1 hu.2
  | fallback =>
    obtain ⟨hreach, hx, hy, hz⟩ := entering_eq_some_iff.1 ht
    refine ⟨⟨⟨hx, hy, hz⟩, fun s hs => hreach ▸ reach_le_of_mem hs.1⟩, ?_⟩
    rintro ⟨-, s, hs, hlt, hin⟩
    have hlate : x.reach ≤ s := reach_le_of_mem ⟨hs, hin⟩
    exact absurd (hreach ▸ hlate) (not_le.2 hlt)

/-- The least distance is the answer, unless `y` and `z` come in together there, after `x`. -/
theorem Chosen.complete {answer : Option Rat} (h : Chosen x y z answer)
    (ht : IsLeast (x.ahead ∩ (y.ahead ∩ z.ahead)) t) (hedge : ¬OverEdge x y z t) : answer = some t := by
  obtain ⟨hx, hy, hz⟩ := ht.1
  have hmax := ht.unique (isLeast_inter ⟨t, ht.1⟩)
  -- Off the start the least distance is one of the three at which a face is reached.
  have hface (outside : ¬(x.Inside 0 ∧ y.Inside 0 ∧ z.Inside 0)) :
      0 < t ∧ (x.reach = t ∨ y.reach = t ∨ z.reach = t) := by
    have hpos : 0 < t := lt_of_le_of_ne hx.1 fun heq =>
      outside (heq ▸ ⟨hx.2, hy.2, hz.2⟩)
    refine ⟨hpos, ?_⟩
    rcases max_choice 0 (max x.reach (max y.reach z.reach)) with h | h
    · exact absurd (hmax.trans h) hpos.ne'
    · rcases max_choice x.reach (max y.reach z.reach) with h' | h'
      · exact .inl (hmax.trans (h.trans h')).symm
      · rcases max_choice y.reach z.reach with h'' | h''
        · exact .inr (.inl (hmax.trans (h.trans (h'.trans h''))).symm)
        · exact .inr (.inr (hmax.trans (h.trans (h'.trans h''))).symm)
  have hlateX := reach_le_of_mem hx
  have hlateY := reach_le_of_mem hy
  have hlateZ := reach_le_of_mem hz
  cases h with
  | inside hx₀ hy₀ hz₀ =>
    rw [le_antisymm (ht.2 ⟨⟨le_rfl, hx₀⟩, ⟨le_rfl, hy₀⟩, le_rfl, hz₀⟩) hx.1]
  | lastY outside afterX afterZ =>
    refine entering_eq_some_iff.2 ⟨?_, hy, hx, hz⟩
    rcases (hface outside).2 with h | h | h <;> linarith
  | lastZ outside afterX afterY =>
    refine entering_eq_some_iff.2 ⟨?_, hz, hx, hy⟩
    rcases (hface outside).2 with h | h | h <;> linarith
  | fallback outside notY notZ =>
    refine entering_eq_some_iff.2 ⟨?_, hx, hy, hz⟩
    obtain ⟨hpos, hlast⟩ := hface outside
    by_contra hne
    have hbefore : x.reach < t := lt_of_le_of_ne hlateX hne
    have htogether : y.reach = t ∧ z.reach = t := by
      rcases hlast with h | h | h
      · exact absurd h hne
      · exact ⟨h, le_antisymm hlateZ (not_lt.1 fun hlt => notY ⟨by linarith, by linarith⟩)⟩
      · exact ⟨le_antisymm hlateY (not_lt.1 fun hlt => notZ ⟨by linarith, by linarith⟩), h⟩
    obtain ⟨s, hs, hlt⟩ := exists_mem_lt hx hpos hbefore
    refine hedge ⟨fun u hu hut => ⟨fun hin => ?_, fun hin => ?_⟩, s, hs.1, hlt, hs.2⟩
    · have hreach : y.reach ≤ u := reach_le_of_mem ⟨hu, hin⟩
      linarith
    · have hreach : z.reach ≤ u := reach_le_of_mem ⟨hu, hin⟩
      linarith

end Course

/-- The box has its corners in order, so that it is not empty. -/
structure Box.Proper (b : Box Rat) : Prop where
  x : b.lower.x ≤ b.upper.x
  y : b.lower.y ≤ b.upper.y
  z : b.lower.z ≤ b.upper.z

/-- The point lies in the box or on its faces. -/
def Box.Holds (b : Box Rat) (p : Vec3 Rat) : Prop :=
  p.x ∈ Set.Icc b.lower.x b.upper.x ∧ p.y ∈ Set.Icc b.lower.y b.upper.y ∧
    p.z ∈ Set.Icc b.lower.z b.upper.z

namespace Ray

/-- The point at a distance along the ray. -/
def pointAt (r : Ray Rat) (t : Rat) : Vec3 Rat := r.origin + r.direction.scaled t

/-- The distances ahead at which the ray is in the box. -/
def hits (r : Ray Rat) (b : Box Rat) : Set Rat := {t | 0 ≤ t ∧ b.Holds (r.pointAt t)}

/-- The ray comes between the faces along `y` and those along `z` at the same distance, after it has
come between those along `x`. -/
def EntersOverEdge (r : Ray Rat) (b : Box Rat) (t : Rat) : Prop :=
  (∀ s, 0 ≤ s → s < t → (r.pointAt s).y ∉ Set.Icc b.lower.y b.upper.y ∧
      (r.pointAt s).z ∉ Set.Icc b.lower.z b.upper.z) ∧
    ∃ s, 0 ≤ s ∧ s < t ∧ (r.pointAt s).x ∈ Set.Icc b.lower.x b.upper.x

variable (r : Ray Rat) {b : Box Rat}

/-- One coordinate of the ray, and what the box takes up of it. -/
def course (r : Ray Rat) {b : Box Rat} (axis : Vec3 Rat → Rat) (h : axis b.lower ≤ axis b.upper) :
    Course := ⟨axis r.origin, axis r.direction, axis b.lower, axis b.upper, h⟩

theorem mem_Icc_iff {axis : Vec3 Rat → Rat} (h : axis b.lower ≤ axis b.upper) {t : Rat}
    (hpoint : axis (r.pointAt t) = axis r.origin + axis r.direction * t) :
    axis (r.pointAt t) ∈ Set.Icc (axis b.lower) (axis b.upper) ↔ (r.course axis h).Inside t := by
  rw [hpoint, mul_comm]
  rfl

theorem hits_eq (hb : b.Proper) : r.hits b =
    (r.course Vec3.x hb.x).ahead ∩ ((r.course Vec3.y hb.y).ahead ∩ (r.course Vec3.z hb.z).ahead) := by
  ext t
  rw [hits, Set.mem_ofPred_eq, Box.Holds, r.mem_Icc_iff hb.x rfl, r.mem_Icc_iff hb.y rfl,
    r.mem_Icc_iff hb.z rfl]
  constructor
  · rintro ⟨ht, hx, hy, hz⟩
    exact ⟨⟨ht, hx⟩, ⟨ht, hy⟩, ht, hz⟩
  · rintro ⟨⟨ht, hx⟩, ⟨-, hy⟩, -, hz⟩
    exact ⟨ht, hx, hy, hz⟩

theorem enter?_chosen (hb : b.Proper) : Course.Chosen (r.course Vec3.x hb.x) (r.course Vec3.y hb.y)
    (r.course Vec3.z hb.z) (r.enter? b) := by
  have hinside : ((facing? r.origin.x b.lower.x b.upper.x).isNone &&
      (facing? r.origin.y b.lower.y b.upper.y).isNone &&
      (facing? r.origin.z b.lower.z b.upper.z).isNone) = true ↔
      (r.course Vec3.x hb.x).Inside 0 ∧ (r.course Vec3.y hb.y).Inside 0 ∧
        (r.course Vec3.z hb.z).Inside 0 := by
    rw [Bool.and_eq_true, Bool.and_eq_true, and_assoc]
    exact and_congr (r.course Vec3.x hb.x).isNone_facing?_iff
      (and_congr (r.course Vec3.y hb.y).isNone_facing?_iff (r.course Vec3.z hb.z).isNone_facing?_iff)
  by_cases hin : (r.course Vec3.x hb.x).Inside 0 ∧ (r.course Vec3.y hb.y).Inside 0 ∧
      (r.course Vec3.z hb.z).Inside 0
  · have heq : r.enter? b = some 0 := if_pos (hinside.2 hin)
    rw [heq]
    exact .inside hin.1 hin.2.1 hin.2.2
  have hout := mt hinside.1 hin
  by_cases hy : (r.course Vec3.x hb.x).reach < (r.course Vec3.y hb.y).reach ∧
      (r.course Vec3.z hb.z).reach < (r.course Vec3.y hb.y).reach
  · have heq : r.enter? b = (r.course Vec3.y hb.y).entering (r.course Vec3.x hb.x)
        (r.course Vec3.z hb.z) := (if_neg hout).trans (if_pos hy)
    rw [heq]
    exact .lastY hin hy.1 hy.2
  by_cases hz : (r.course Vec3.x hb.x).reach < (r.course Vec3.z hb.z).reach ∧
      (r.course Vec3.y hb.y).reach < (r.course Vec3.z hb.z).reach
  · have heq : r.enter? b = (r.course Vec3.z hb.z).entering (r.course Vec3.x hb.x)
        (r.course Vec3.y hb.y) := (if_neg hout).trans ((if_neg hy).trans (if_pos hz))
    rw [heq]
    exact .lastZ hin hz.1 hz.2
  · have heq : r.enter? b = (r.course Vec3.x hb.x).entering (r.course Vec3.y hb.y)
        (r.course Vec3.z hb.z) := (if_neg hout).trans ((if_neg hy).trans (if_neg hz))
    rw [heq]
    exact .fallback hin hy hz

theorem entersOverEdge_iff (hb : b.Proper) (t : Rat) : r.EntersOverEdge b t ↔
    Course.OverEdge (r.course Vec3.x hb.x) (r.course Vec3.y hb.y) (r.course Vec3.z hb.z) t := by
  simp only [EntersOverEdge, Course.OverEdge, r.mem_Icc_iff hb.x rfl, r.mem_Icc_iff hb.y rfl,
    r.mem_Icc_iff hb.z rfl]

/-- If the ray is ever in the box there is a least distance at which it is. This is the answer, unless
the ray comes into the box over an edge along `x`, when it has been between the faces along `x` before;
then, and if the ray is never in the box, there is no answer. -/
theorem enter?_isLeast_hits (hb : b.Proper) :
    (∀ t, r.enter? b = some t ↔ IsLeast (r.hits b) t ∧ ¬r.EntersOverEdge b t) ∧
      ((∃ t, 0 ≤ t ∧ b.Holds (r.pointAt t)) → ∃ t, IsLeast (r.hits b) t) := by
  have hchosen := r.enter?_chosen hb
  rw [r.hits_eq hb]
  refine ⟨fun t => ?_, fun hhit => ?_⟩
  · rw [r.entersOverEdge_iff hb]
    exact ⟨hchosen.sound, fun h => hchosen.complete h.1 h.2⟩
  · obtain ⟨t, ht⟩ := hhit
    have hmem : t ∈ r.hits b := ht
    rw [r.hits_eq hb] at hmem
    exact ⟨_, Course.isLeast_inter ⟨t, hmem⟩⟩

/-- A cube with one corner at zero. -/
def unitCube : Box Rat := ⟨⟨0, 0, 0⟩, ⟨1, 1, 1⟩⟩

theorem proper_unitCube : unitCube.Proper := by
  constructor <;> decide +kernel

/-- From below and from beside, a ray meets the face below last. -/
theorem enter?_isLeast_hits_rising :
    let rising : Ray Rat := ⟨⟨-1, -4, 1 / 2⟩, ⟨1, 2, 0⟩⟩
    unitCube.Proper ∧ rising.enter? unitCube = some 2 ∧ IsLeast (rising.hits unitCube) 2 ∧
      ¬rising.EntersOverEdge unitCube 2 :=
  have henter : (⟨⟨-1, -4, 1 / 2⟩, ⟨1, 2, 0⟩⟩ : Ray Rat).enter? unitCube = some 2 := by decide +kernel
  ⟨proper_unitCube, henter, ((enter?_isLeast_hits _ proper_unitCube).1 2).1 henter⟩

/-- Straight onto an edge along `x` a ray goes into the cube, but has no answer. -/
theorem enter?_misses_edge :
    let onEdge : Ray Rat := ⟨⟨1 / 2, -1, -1⟩, ⟨0, 1, 1⟩⟩
    unitCube.Proper ∧ (∃ t, 0 ≤ t ∧ unitCube.Holds (onEdge.pointAt t)) ∧
      onEdge.enter? unitCube = none := by
  refine ⟨proper_unitCube, ⟨1, by decide, ?_⟩, by decide +kernel⟩
  refine ⟨⟨?_, ?_⟩, ⟨?_, ?_⟩, ?_, ?_⟩ <;> decide +kernel

end Ray

end Masonry
