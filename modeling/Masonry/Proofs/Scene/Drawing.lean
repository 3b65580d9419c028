import Mathlib.Tactic.Ring
import Masonry.Proofs.Model.Placing
import Masonry.Proofs.Scene.Cache
import Masonry.Proofs.Shape.Triangles
import Masonry.Proofs.Space.Bounding

/-!
# Stones are drawn where they collide

The box of a stone is made of vertices that are turned by the negative angle from `x` to `z`, and the matrix
that the stone is drawn with turns by the positive angle from `z` to `x`. Over exact numbers, with angles of
whole quarter turns, both put a vertex at the same point (`Scene.applyPoint_transformOf`), so the box of a
stone in the world is that of the vertices that are drawn for it (`worldBox_bounds_drawn`).
-/

namespace Masonry

/-! ## Quarter turns -/

namespace Exact

theorem sinQuarter_neg (n : Int) : sinQuarter (-n) = -sinQuarter n := by
  unfold sinQuarter
  split_ifs <;> first | omega | rfl

/-- The cosine is even. -/
theorem sinQuarter_neg_add_one (n : Int) : sinQuarter (-n + 1) = sinQuarter (n + 1) := by
  unfold sinQuarter
  split_ifs <;> first | omega | rfl

theorem sin_intCast (n : Int) : Scalar.sin (n : Rat) = sinQuarter n :=
  congrArg sinQuarter (Rat.floor_intCast n)

theorem cos_intCast (n : Int) : Scalar.cos (n : Rat) = sinQuarter (n + 1) :=
  congrArg (fun k => sinQuarter (k + 1)) (Rat.floor_intCast n)

end Exact

open Exact (sinQuarter)

theorem Rotation.turn_degrees (turns : Nat) : (Rotation.turn (degrees turns) : Rotation Rat) =
    ⟨-sinQuarter turns, sinQuarter (turns + 1)⟩ := by
  have hangle : (-(degrees turns / Scalar.ofInt 360 * Scalar.ofInt 2 * Scalar.halfTurn) : Rat) =
      ((-(turns : Int) : Int) : Rat) := by
    show -(((turns : Int) : Rat) * ((90 : Int) : Rat) / ((360 : Int) : Rat) * ((2 : Int) : Rat) *
      ((2 : Int) : Rat)) = _
    push_cast
    ring
  rw [Rotation.turn, hangle, Exact.sin_intCast, Exact.cos_intCast, Exact.sinQuarter_neg,
    Exact.sinQuarter_neg_add_one]

namespace Matrix

variable (m n : Matrix Rat) (c : Column Rat)

theorem apply_def : m.apply c =
    ⟨m.x.x * c.x + m.y.x * c.y + m.z.x * c.z + m.w.x * c.w,
      m.x.y * c.x + m.y.y * c.y + m.z.y * c.z + m.w.y * c.w,
      m.x.z * c.x + m.y.z * c.y + m.z.z * c.z + m.w.z * c.w,
      m.x.w * c.x + m.y.w * c.y + m.z.w * c.z + m.w.w * c.w⟩ := rfl

/-- A product does what its second factor does, and then what its first does. -/
theorem apply_mul : (m * n).apply c = m.apply (n.apply c) := by
  have hmul : m * n = ⟨m.apply n.x, m.apply n.y, m.apply n.z, m.apply n.w⟩ := rfl
  simp only [hmul, apply_def]
  congr 1 <;> ring

theorem apply_shift (v : Vec3 Rat) : (shift v).apply c =
    ⟨c.x + v.x * c.w, c.y + v.y * c.w, c.z + v.z * c.w, c.w⟩ := by
  show (⟨1 * c.x + 0 * c.y + 0 * c.z + v.x * c.w, 0 * c.x + 1 * c.y + 0 * c.z + v.y * c.w,
    0 * c.x + 0 * c.y + 1 * c.z + v.z * c.w, 0 * c.x + 0 * c.y + 0 * c.z + 1 * c.w⟩ : Column Rat) = _
  congr 1 <;> ring

/-- The rotation that a number of quarter turns about the vertical axis makes of a point. -/
theorem apply_turn (turns : Nat) :
    (turn (id (degrees turns) * (Scalar.halfTurn / Scalar.ofInt 180))).apply c =
    ⟨c.x * sinQuarter (turns + 1) + c.z * sinQuarter turns, c.y,
      -(c.x * sinQuarter turns) + c.z * sinQuarter (turns + 1), c.w⟩ := by
  have hangle : (id (degrees turns) * (Scalar.halfTurn / Scalar.ofInt 180) : Rat) = ((turns : Int) : Rat) := by
    show ((turns : Int) : Rat) * ((90 : Int) : Rat) * (((2 : Int) : Rat) / ((180 : Int) : Rat)) = _
    push_cast
    ring
  rw [hangle, turn, Exact.sin_intCast, Exact.cos_intCast]
  generalize sinQuarter turns = s
  generalize sinQuarter (turns + 1) = d
  show (⟨d * c.x + 0 * c.y + s * c.z + 0 * c.w, 0 * c.x + 1 * c.y + 0 * c.z + 0 * c.w,
    -s * c.x + 0 * c.y + d * c.z + 0 * c.w, 0 * c.x + 0 * c.y + 0 * c.z + 1 * c.w⟩ : Column Rat) = _
  congr 1 <;> ring

end Matrix

/-- The matrix of a placement puts a point where its box has it: turned, and moved to the cell. -/
theorem Scene.applyPoint_transformOf (origin : Vec3 Rat) (p : Placement) (q : Vec3 Rat) :
    ((transformOf origin p).matrix id).applyPoint q =
      (Rotation.turn (degrees p.turns)).apply q + (Grid.corner p.cell + origin) := by
  have hcolumn : ((transformOf origin p).matrix id).apply ⟨q.x, q.y, q.z, 1⟩ = _ :=
    (Matrix.apply_mul ..).trans ((congrArg _ (Matrix.apply_turn ..)).trans (Matrix.apply_shift ..))
  have hposition : (transformOf origin p).position = origin + Grid.corner p.cell := rfl
  rw [Matrix.applyPoint, hcolumn, Rotation.turn_degrees, hposition]
  generalize (Grid.corner p.cell : Vec3 Rat) = corner
  generalize sinQuarter p.turns = s
  generalize sinQuarter (p.turns + 1) = d
  show (⟨q.x * d + q.z * s + (origin.x + corner.x) * 1, q.y + (origin.y + corner.y) * 1,
      -(q.x * s) + q.z * d + (origin.z + corner.z) * 1⟩ : Vec3 Rat) =
    ⟨q.x * d - q.z * -s + (corner.x + origin.x), q.y + (corner.y + origin.y),
      q.x * -s + q.z * d + (corner.z + origin.z)⟩
  congr 1 <;> ring

/-! ## Drawn vertices -/

theorem exists_left_of_forall₂ {β γ : Type} {R : β → γ → Prop} {bs : List β} {cs : List γ} {d : γ}
    (h : List.Forall₂ R bs cs) (hd : d ∈ cs) : ∃ b ∈ bs, R b d := by
  induction h with
  | nil => cases hd
  | cons hR _ ih =>
    rcases List.mem_cons.1 hd with rfl | hd
    · exact ⟨_, List.mem_cons_self, hR⟩
    · obtain ⟨b, hb, hR⟩ := ih hd
      exact ⟨b, List.mem_cons_of_mem _ hb, hR⟩

namespace Shape

variable {s : Shape Rat}

/-- The box of a shape is that of its vertices, turned. -/
theorem ofPoints?_turned (h : s.vertices ≠ []) (angle : Rat) :
    Box.ofPoints? (s.vertices.map fun v => (Rotation.turn angle).apply (s.placed v)) =
      some (s.boxAt angle) := by
  obtain ⟨v, vs, hvertices⟩ := List.exists_cons_of_ne_nil h
  rw [boxAt, hvertices]
  rfl

/-- The triangles of a shape have their corners at vertices of the shape. -/
theorem position_of_mem_batch {b : Batch Rat} (h : s.batch = .ok b) {w : Vertex Rat} (hw : w ∈ b.vertices) :
    ∃ v ∈ s.vertices, w.position = s.placed v := by
  obtain ⟨vss, hfaces, hvertices⟩ := batch_eq_ok_iff.1 h
  rw [hvertices, List.mem_flatten] at hw
  obtain ⟨vs, hvs, hw⟩ := hw
  obtain ⟨f, -, ht, htriangles⟩ := exists_left_of_forall₂ hfaces hvs
  obtain ⟨triangle, htriangle, hw⟩ := List.mem_flatten.1 hw
  obtain ⟨i, -, ha, hb, hc, -, positions, -, -⟩ := exists_left_of_forall₂ htriangles htriangle
  have hposition := List.mem_map_of_mem (f := Vertex.position) hw
  rw [positions, List.mem_map] at hposition
  obtain ⟨v, hv, hplaced⟩ := hposition
  refine ⟨v, ?_, hplaced.symm⟩
  simp only [List.mem_cons, List.not_mem_nil, or_false] at hv
  rcases hv with rfl | rfl | rfl
  · exact List.mem_of_getElem? ha
  · exact List.mem_of_getElem? hb
  · exact List.mem_of_getElem? hc

end Shape

namespace Scene

/-- The points at which the vertices of a shape are drawn for a placement. -/
def drawn (origin : Vec3 Rat) (p : Placement) (s : Shape Rat) : List (Vec3 Rat) :=
  s.vertices.map fun v => ((transformOf origin p).matrix id).applyPoint (s.placed v)

/-- The box of the drawn points is that of the shape, moved to the cell. -/
theorem ofPoints?_drawn {s : Shape Rat} (h : s.vertices ≠ []) (origin : Vec3 Rat) (p : Placement) :
    Box.ofPoints? (drawn origin p s) =
      some ((s.boxAt (degrees p.turns)).shifted (Grid.corner p.cell + origin)) := by
  have hdrawn : drawn origin p s =
      (s.vertices.map fun v => (Rotation.turn (degrees p.turns)).apply (s.placed v)).map
        (· + (Grid.corner p.cell + origin)) := by
    rw [List.map_map]
    exact List.map_congr_left fun v _ => applyPoint_transformOf origin p (s.placed v)
  rw [hdrawn, Box.ofPoints?_shifted, Shape.ofPoints?_turned h, Option.map_some]

variable {c : Catalog Rat} {m : Model Rat} {k : BatchCache Rat} {asked : List Int32}

/-- The box of a stone in the world is exactly that of the vertices of its shape where they are drawn. Drawn
are, in their order, the stones whose shapes have triangles, each with the matrix that this is true of, and
the corners of all triangles that are drawn for a stone lie in its box. -/
theorem worldBox_bounds_drawn (hm : ∀ s ∈ m.stones, s.Shaped c) (hk : k.Keeps c asked) :
    (∀ s ∈ m.stones, ∀ shape ∈ c.shape? s.code, shape.vertices ≠ [] →
        Box.ofPoints? (drawn m.origin s.placement shape) = some (m.worldBox s) ∧
          (m.worldBox s).Bounds (drawn m.origin s.placement shape)) ∧
      (ofModel m c k).1 = (m.stones.filterMap fun s => (c.batch? s.code).map fun batch =>
        ⟨s.code, batch, transformOf m.origin s.placement,
          if s.selected then .highlight else s.color.rgb⟩) ∧
      ∀ s ∈ m.stones, ∀ batch ∈ c.batch? s.code, ∀ w ∈ batch.vertices,
        (m.worldBox s).Holds (((transformOf m.origin s.placement).matrix id).applyPoint w.position) := by
  have hbox : ∀ s ∈ m.stones, ∀ shape ∈ c.shape? s.code, shape.vertices ≠ [] →
      Box.ofPoints? (drawn m.origin s.placement shape) = some (m.worldBox s) := by
    intro s hs shape hshape hne
    have hshaped := (hm s hs).box_eq
    rw [Catalog.boxAt?, hshape, Option.map_some, Option.some.injEq] at hshaped
    rw [ofPoints?_drawn hne, Model.worldBox, Stone.boxFrom, ← hshaped]
    rfl
  refine ⟨fun s hs shape hshape hne => ?_, ?_, fun s hs batch hbatch w hw => ?_⟩
  · have hpoints := hbox s hs shape hshape hne
    exact ⟨hpoints, Box.ofPoints?_eq_some_iff.1 hpoints⟩
  · rw [ofModel, (hk.draws m.origin _).1, List.filterMap_map]
    rfl
  · obtain ⟨shape, hshape, hmade⟩ := Option.bind_eq_some_iff.1 hbatch
    have hok : shape.batch = .ok batch := by
      cases hresult : shape.batch with
      | error fault =>
        rw [hresult] at hmade
        cases hmade
      | ok b =>
        rw [hresult] at hmade
        exact congrArg Except.ok (Option.some.inj hmade)
    obtain ⟨v, hv, hposition⟩ := Shape.position_of_mem_batch hok hw
    have hbounds := Box.ofPoints?_eq_some_iff.1 (hbox s hs shape hshape (List.ne_nil_of_mem hv))
    rw [hposition]
    exact hbounds.holds (List.mem_map.2 ⟨v, hv, rfl⟩)

/-- A triangle that leans back. -/
def wedge : Shape Rat where
  id := 123
  name := "wedge"
  caption := ""
  scale := 1
  shift := 0
  texSize := 512
  texFile := ""
  vertices := [⟨0, 0, 0⟩, ⟨1, 0, 0⟩, ⟨0, 0.8, 3⟩]
  texCoords := [.corners ⟨0, 0⟩ ⟨8, 8⟩]
  faces := [⟨[0, 1, 2], 0⟩]

/-- A stone of that shape, turned by a quarter, in a model that begins between two columns. -/
def leaning : Model Rat where
  origin := ⟨0.5, 0, 0⟩
  stones := [stone]
  nextStone := 1
  groups := []
  nextGroup := 0
  lastLevel := 0
where
  stone : Stone Rat := ⟨0, 0, .white, 123, 1, ⟨2, 5, 1⟩, false, ⟨⟨0, 0, -1⟩, ⟨3, 0.8, 0⟩⟩⟩

/-- Turned by a quarter, the stone reaches along `x` as far as its shape reaches along `z`, in the box and in
what is drawn. -/
theorem worldBox_bounds_drawn_wedge :
    (leaning.worldBox leaning.stone).Bounds (drawn leaning.origin leaning.stone.placement wedge) ∧
      leaning.worldBox leaning.stone = ⟨⟨2.5, 2, 0⟩, ⟨5.5, 2.8, 1⟩⟩ ∧
      (ofModel leaning ⟨[wedge]⟩ .empty).1.map (·.transform) = [⟨⟨2.5, 2, 1⟩, 90⟩] := by
  have hshaped : ∀ s ∈ leaning.stones, s.Shaped ⟨[wedge]⟩ :=
    List.forall_mem_singleton.2 ⟨by decide, by decide +kernel⟩
  obtain ⟨hbounds, hdraws, -⟩ := worldBox_bounds_drawn hshaped (BatchCache.keeps_empty _)
  refine ⟨(hbounds _ List.mem_cons_self wedge (by decide +kernel) (by decide)).2, by decide +kernel, ?_⟩
  rw [hdraws]
  decide +kernel

end Scene

end Masonry
