import Masonry.Catalog.Reading
import Masonry.Proofs.Model.Batch
import Masonry.Proofs.Model.Editing
import Masonry.Proofs.Plan.Fitting
import Masonry.Proofs.Scene.Drawing

/-!
# Stones in one place

A stone stands in the way of another one like it in its place if something is left of its box when the
faces are pulled in. Over exact numbers that depends on the shape alone: quarter turns swap and mirror the
horizontal axes, and the place of a stone moves its box as a whole. So a shape whose vertices lie farther
apart than twice the clearance along every axis is refused where a stone of it stands (`Shape.Thick`,
`place_again`), and one that is flat, thinner than that or without vertices is placed again.
-/

namespace Masonry

/-- Some two of the numbers lie farther apart than a distance. -/
def Spread (distance : Rat) (as : List Rat) : Prop := ∃ a ∈ as, ∃ b ∈ as, distance < a - b

instance (distance : Rat) (as : List Rat) : Decidable (Spread distance as) :=
  inferInstanceAs (Decidable (∃ a ∈ as, _))

section Spread

variable {distance low high : Rat} {as : List Rat}

/-- The least and the greatest of the numbers lie farthest apart. -/
theorem Extremes.spread_iff (h : Extremes low high as) : Spread distance as ↔ distance < high - low := by
  constructor
  · rintro ⟨a, ha, b, hb, hfar⟩
    have hupper : a ≤ high := (h.mem_Icc ha).2
    have hlower : low ≤ b := (h.mem_Icc hb).1
    linarith
  · exact fun hfar => ⟨high, h.greatest.1, low, h.least.1, hfar⟩

theorem spread_neg : Spread distance (as.map (-·)) ↔ Spread distance as := by
  constructor
  · rintro ⟨_, ha, _, hb, hfar⟩
    obtain ⟨a, hmem, rfl⟩ := List.mem_map.1 ha
    obtain ⟨b, hmem', rfl⟩ := List.mem_map.1 hb
    exact ⟨b, hmem', a, hmem, by linarith⟩
  · rintro ⟨a, ha, b, hb, hfar⟩
    exact ⟨-b, List.mem_map_of_mem hb, -a, List.mem_map_of_mem ha, by linarith⟩

end Spread

/-- The points lie farther apart than a distance along every axis. -/
structure SpreadOut (distance : Rat) (ps : List (Vec3 Rat)) : Prop where
  x : Spread distance (ps.map Vec3.x)
  y : Spread distance (ps.map Vec3.y)
  z : Spread distance (ps.map Vec3.z)

theorem spreadOut_iff {distance : Rat} {ps : List (Vec3 Rat)} : SpreadOut distance ps ↔
    Spread distance (ps.map Vec3.x) ∧ Spread distance (ps.map Vec3.y) ∧ Spread distance (ps.map Vec3.z) :=
  ⟨fun h => ⟨h.x, h.y, h.z⟩, fun h => ⟨h.1, h.2.1, h.2.2⟩⟩

instance (distance : Rat) (ps : List (Vec3 Rat)) : Decidable (SpreadOut distance ps) :=
  decidable_of_iff _ spreadOut_iff.symm

/-! ## Quarter turns -/

/-- The point after one more quarter turn. -/
def Vec3.quarter (p : Vec3 Rat) : Vec3 Rat := ⟨p.z, p.y, -p.x⟩

/-- A quarter turn swaps the horizontal axes and mirrors one of them. -/
theorem spreadOut_quarter {distance : Rat} {ps : List (Vec3 Rat)} :
    SpreadOut distance (ps.map Vec3.quarter) ↔ SpreadOut distance ps := by
  have hx : (ps.map Vec3.quarter).map Vec3.x = ps.map Vec3.z := List.map_map
  have hy : (ps.map Vec3.quarter).map Vec3.y = ps.map Vec3.y := List.map_map
  have hz : (ps.map Vec3.quarter).map Vec3.z = (ps.map Vec3.x).map (-·) := by
    rw [List.map_map, List.map_map]
    rfl
  rw [spreadOut_iff, spreadOut_iff, hx, hy, hz, spread_neg]
  tauto

theorem Exact.sinQuarter_add_two (n : Int) : sinQuarter (n + 2) = -sinQuarter n := by
  unfold sinQuarter
  split_ifs <;> first | omega | rfl

namespace Rotation

theorem apply_turn_zero (p : Vec3 Rat) : (turn (degrees 0)).apply p = p := by
  rw [turn_degrees]
  show (⟨p.x * 1 - p.z * -0, p.y, p.x * -0 + p.z * 1⟩ : Vec3 Rat) = ⟨p.x, p.y, p.z⟩
  congr 1 <;> ring

theorem apply_turn_succ (turns : Nat) (p : Vec3 Rat) :
    (turn (degrees (turns + 1))).apply p = ((turn (degrees turns)).apply p).quarter := by
  have hcos : Exact.sinQuarter ((turns + 1 : Nat) + 1) = -Exact.sinQuarter turns :=
    Exact.sinQuarter_add_two turns
  rw [turn_degrees, turn_degrees, hcos, Nat.cast_succ]
  generalize Exact.sinQuarter turns = s
  generalize Exact.sinQuarter (turns + 1) = d
  show (⟨p.x * -s - p.z * -d, p.y, p.x * -d + p.z * -s⟩ : Vec3 Rat) =
    ⟨p.x * -s + p.z * d, p.y, -(p.x * d - p.z * -s)⟩
  congr 1 <;> ring

end Rotation

/-- Quarter turns keep points as far apart along the axes as they were. -/
theorem spreadOut_turned {distance : Rat} {ps : List (Vec3 Rat)} (turns : Nat) :
    SpreadOut distance (ps.map (Rotation.turn (degrees turns)).apply) ↔ SpreadOut distance ps := by
  induction turns with
  | zero => rw [List.map_congr_left fun p _ => Rotation.apply_turn_zero p, List.map_id']
  | succ turns ih =>
    have hnext : ps.map (Rotation.turn (degrees (turns + 1))).apply =
        (ps.map (Rotation.turn (degrees turns)).apply).map Vec3.quarter := by
      rw [List.map_map]
      exact List.map_congr_left fun p _ => Rotation.apply_turn_succ turns p
    rw [hnext, spreadOut_quarter, ih]

/-! ## Boxes that keep an inside -/

namespace Box

/-- A box overlaps with itself if and only if it has an inside. -/
theorem overlaps_self_iff (b : Box Rat) : b.overlaps b = true ↔
    b.lower.x < b.upper.x ∧ b.lower.y < b.upper.y ∧ b.lower.z < b.upper.z := by
  have hlt (p q : Rat) : ¬p ≥ q ↔ p < q := not_le
  rw [overlaps_eq_true_iff]
  constructor
  · rintro ⟨hx, hy, hz, -, -, -⟩
    exact ⟨(hlt _ _).1 hx, (hlt _ _).1 hy, (hlt _ _).1 hz⟩
  · rintro ⟨hx, hy, hz⟩
    have hfaces := And.intro ((hlt _ _).2 hx) (And.intro ((hlt _ _).2 hy) ((hlt _ _).2 hz))
    exact ⟨hfaces.1, hfaces.2.1, hfaces.2.2, hfaces⟩

/-- Pulled in, the box of some points has an inside if the points lie farther apart than twice the
margin. -/
theorem Bounds.overlaps_shrunk_iff {b : Box Rat} {ps : List (Vec3 Rat)} (h : b.Bounds ps) (margin : Rat) :
    (b.shrunk margin).overlaps (b.shrunk margin) = true ↔ SpreadOut (2 * margin) ps := by
  have hside (low high : Rat) : low + margin < high - margin ↔ 2 * margin < high - low := by
    constructor <;> intro <;> linarith
  rw [overlaps_self_iff, spreadOut_iff, h.x.spread_iff, h.y.spread_iff, h.z.spread_iff]
  exact and_congr (hside _ _) (and_congr (hside _ _) (hside _ _))

end Box

namespace Shape

/-- The vertices of the shape lie farther apart than twice the clearance along every axis. -/
def Thick (s : Shape Rat) : Prop := SpreadOut (2 * Grid.clearance) (s.vertices.map s.placed)

instance (s : Shape Rat) : Decidable s.Thick := inferInstanceAs (Decidable (SpreadOut _ _))

/-- Wherever it is and whichever way it is turned, a shape is in its own way if and only if it is
thick. -/
theorem overlaps_core_iff (s : Shape Rat) (turns : Nat) (offset : Vec3 Rat) :
    let core := ((s.boxAt (degrees turns)).shifted offset).shrunk Grid.clearance
    core.overlaps core = true ↔ s.Thick := by
  intro core
  have hmoved : core = ((s.boxAt (degrees turns)).shrunk Grid.clearance).shifted offset :=
    Box.shrunk_shifted _ offset Grid.clearance
  rw [hmoved, Box.overlaps_shifted]
  rcases eq_or_ne s.vertices [] with hnil | hne
  · -- The box of no vertices is the zero box, of which nothing is left.
    have hbox : s.boxAt (degrees turns) = 0 := by
      rw [boxAt, hnil]
      rfl
    have hthick : ¬s.Thick := by
      rw [Thick, hnil]
      rintro ⟨⟨a, ha, -⟩, -, -⟩
      cases ha
    rw [hbox, iff_false_right hthick, Bool.not_eq_true]
    decide +kernel
  · have hbounds := Box.ofPoints?_eq_some_iff.1 (s.ofPoints?_turned hne (degrees turns))
    have hpoints : (s.vertices.map s.placed).map (Rotation.turn (degrees turns)).apply =
        s.vertices.map fun v => (Rotation.turn (degrees turns)).apply (s.placed v) := List.map_map
    rw [hbounds.overlaps_shrunk_iff, ← hpoints]
    exact spreadOut_turned turns

end Shape

namespace Model

variable {c : Catalog Rat} {m : Model Rat} {p : Placement} {s t : Stone Rat}

/-- A stone is in its own way if and only if its shape is thick. -/
theorem core_overlaps_self_iff {shape : Shape Rat} (hs : s.Shaped c)
    (hshape : c.shape? s.code = some shape) (m : Model Rat) :
    (m.core s).overlaps (m.core s) = true ↔ shape.Thick := by
  have hbox := hs.box_eq
  rw [Catalog.boxAt?, hshape, Option.map_some, Option.some.injEq] at hbox
  rw [core, worldBox, Stone.boxFrom, ← hbox]
  exact shape.overlaps_core_iff s.turns _

/-- Stones that differ in what relabeling changes have the same core. -/
theorem core_eq_of_bare_eq (h : t.bare = s.bare) (m : Model Rat) : m.core t = m.core s := by
  rw [← core_bare, h, core_bare]

theorem place_blocked {id : Option Int32} {insertId : Int32} (hs : candidate? c insertId p = some s)
    (hblocked : m.blocks s = true) : m.place c id insertId p = (.blocked, m) := by
  simp [place, hs, hblocked]

/-- No two stones of a sound model are turned alike and in one cell, if their shape is thick. -/
theorem Sound.apart_of_thick (h : Sound c m) {shape : Shape Rat} (hthick : shape.Thick) {i j : Nat}
    (hi : i < m.stones.length) (hj : j < m.stones.length) (hij : i ≠ j)
    (hshape : c.shape? m.stones[i].code = some shape) :
    ¬(m.stones[j].code = m.stones[i].code ∧ m.stones[j].turns = m.stones[i].turns ∧
      m.stones[j].cell = m.stones[i].cell) := by
  rintro ⟨hcode, hturns, hcell⟩
  have hshaped := h.shaped _ (List.getElem_mem hi)
  have hbox := (h.shaped _ (List.getElem_mem hj)).box_eq
  rw [hcode, hturns, hshaped.box_eq, Option.some.injEq] at hbox
  have hcore : m.core m.stones[j] = m.core m.stones[i] := by
    simp only [core, worldBox, Stone.boxFrom, hcell, hbox]
  have hself := (core_overlaps_self_iff hshaped hshape m).2 hthick
  have hapart := h.overlaps_getElem_eq_false hi hj hij
  rw [hcore, hself] at hapart
  cases hapart

/-- What is stored is what the placement becomes, where nothing was in its way. -/
theorem exists_put_of_isStored {id : Option Int32} {insertId : Int32}
    (h : (m.place c id insertId p).1.isStored = true) :
    ∃ s k next, candidate? c insertId p = some s ∧ m.blocks s = false ∧
      (m.place c id insertId p).2 = m.put { s with id := k } next := by
  rcases place_cases m c id insertId p with ⟨hrefused, -⟩ | ⟨s, hs, hroom, ⟨k, -, -, hk⟩ | ⟨-, hk⟩⟩
  · rw [h] at hrefused
    cases hrefused
  · exact ⟨s, k, _, hs, hroom, congrArg Prod.snd hk⟩
  · exact ⟨s, _, _, hs, hroom, congrArg Prod.snd hk⟩

/-- Under another insert id a placement becomes a stone that differs in its label only. -/
theorem exists_candidate? {insertId : Int32} (hs : candidate? c insertId p = some s) (insertId' : Int32) :
    ∃ s', candidate? c insertId' p = some s' ∧ s'.bare = s.bare := by
  obtain ⟨box, hbox, rfl⟩ := candidate?_eq_some_iff.1 hs
  exact ⟨_, candidate?_eq_some_iff.2 ⟨box, hbox, rfl⟩, rfl⟩

/-- A stone stands in the way of one with its core if it is in its own way. -/
theorem blocks_of_mem (ht : t ∈ m.stones) (hcore : m.core t = m.core s)
    (hself : (m.core s).overlaps (m.core s) = true) : m.blocks s = true :=
  List.any_eq_true.2 ⟨t, ht, hcore.symm ▸ hself⟩

/-- A stone that was put where nothing was in its way leaves room for another one with its core if it is not
in its own way. -/
theorem blocks_put_eq_false {k next : Int32} (hroom : m.blocks s = false) (hcore : m.core t = m.core s)
    (hself : (m.core s).overlaps (m.core s) = false) :
    (m.put { s with id := k } next).blocks t = false := by
  refine blocks_eq_false_iff.2 fun u hu => ?_
  rw [core_put, core_put, hcore]
  rcases List.mem_append.1 hu with hu | hu
  · exact blocks_eq_false_iff.1 hroom u hu
  · rw [List.mem_singleton.1 hu]
    exact hself

/-- After a stone has been stored, the same placement is refused if its shape is thick, and stored a second
time if it is not. If it is thick, it is refused for as long as the stone stays where it was placed,
whatever is done to the model besides. -/
theorem place_again {id : Option Int32} {insertId : Int32}
    (h : (m.place c id insertId p).1.isStored = true) :
    ∃ s shape, (m.place c id insertId p).2.stones = m.stones ++ [s] ∧ s.placement = p.normal ∧
      c.shape? p.code = some shape ∧
      (∀ insertId', ((m.place c id insertId p).2.place c none insertId' p).1 =
        if shape.Thick then .blocked else .stored (m.place c id insertId p).2.nextStone) ∧
      (shape.Thick → ∀ m' : Model Rat, (∃ t ∈ m'.stones, t.bare = s.bare) →
        ∀ id' insertId', m'.place c id' insertId' p = (.blocked, m')) := by
  obtain ⟨s, k, next, hs, hroom, hput⟩ := exists_put_of_isStored h
  have hplacement := (realizes_candidate? hs k).placement_eq
  have hshaped := shaped_of_candidate? hs
  obtain ⟨shape, hshape⟩ := Option.isSome_iff_exists.1 hshaped.isSome_shape?
  have hcode : s.code = p.code := congrArg Placement.code hplacement
  have hself (n : Model Rat) := core_overlaps_self_iff hshaped hshape n
  have hrefused (hthick : shape.Thick) (n : Model Rat)
      (hstands : ∃ t ∈ n.stones, t.bare = { s with id := k }.bare) (id' : Option Int32)
      (insertId' : Int32) : n.place c id' insertId' p = (.blocked, n) := by
    obtain ⟨t, ht, hbare⟩ := hstands
    obtain ⟨s', hs', hbare'⟩ := exists_candidate? hs insertId'
    have hcore : n.core t = n.core s := core_eq_of_bare_eq hbare n
    have hcore' : n.core s' = n.core s := core_eq_of_bare_eq hbare' n
    refine place_blocked hs' (blocks_of_mem ht (hcore.trans hcore'.symm) ?_)
    rw [hcore']
    exact (hself n).2 hthick
  rw [hput]
  refine ⟨{ s with id := k }, shape, rfl, hplacement, hcode ▸ hshape, fun insertId' => ?_, hrefused⟩
  split
  · next hthick =>
    have hlast : { s with id := k } ∈ (m.put { s with id := k } next).stones :=
      List.mem_append_right _ (List.mem_singleton_self _)
    rw [hrefused hthick _ ⟨_, hlast, rfl⟩]
  · next hthin =>
    obtain ⟨s', hs', hbare⟩ := exists_candidate? hs insertId'
    have hthin' : (m.core s).overlaps (m.core s) = false := Bool.eq_false_iff.2 (mt (hself m).1 hthin)
    rw [place_next hs' (blocks_put_eq_false hroom (core_eq_of_bare_eq hbare m) hthin')]

/-- A brick turned by a quarter is refused where one has just been placed. -/
theorem place_again_brick :
    let p : Placement := ⟨432, .red, 1, ⟨3, 2, 1⟩⟩
    ((empty : Model Rat).place oneBrick none 0 p).1.isStored = true ∧
      (((empty : Model Rat).place oneBrick none 0 p).2.place oneBrick none 1 p).1 = .blocked := by
  intro p
  have hstored : ((empty : Model Rat).place oneBrick none 0 p).1.isStored = true := by decide +kernel
  obtain ⟨s, shape, -, -, hshape, hagain, -⟩ := place_again hstored
  have hthick : shape.Thick := by
    have hbrick : ∀ shape ∈ oneBrick.shape? 432, shape.Thick := by decide +kernel
    exact hbrick shape hshape
  exact ⟨hstored, (hagain 1).trans (if_pos hthick)⟩

/-- A source with one flat shape, four by two cells wide. -/
def tile : String := "OBJ s402 \x7b ID = 402; VERT \x7b 0, 0, 0; 4, 0, 2; \x7d \x7d"

/-- The shape of the source. -/
def tileCatalog : Catalog Rat :=
  ⟨[{ Shape.blank "s402" with id := 402, vertices := [⟨0, 0, 0⟩, ⟨4, 0, 2⟩] }]⟩

/-- Two flat stones are placed in one cell, one after the other. -/
theorem flat_stones_coincide :
    ¬ ∀ source (c : Catalog Rat), Catalog.ofSource? source = .ok c → ∀ m, Reached c m →
      ∀ id insertId p, (m.place c id insertId p).1.isStored = true →
        ((m.place c id insertId p).2.place c none insertId p).1 = .blocked := by
  intro hblocked
  have hread : Catalog.ofSource? tile = .ok tileCatalog := by decide +kernel
  have hagain := hblocked tile tileCatalog hread empty .start none 0 ⟨402, .white, 0, ⟨0, 0, 0⟩⟩
    (by decide +kernel)
  revert hagain
  decide +kernel

end Model

end Masonry
