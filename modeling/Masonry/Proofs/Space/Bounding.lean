import Masonry.Proofs.Space.Ray
import Masonry.Proofs.Space.Shift

/-!
# Bounding boxes

Over exact numbers the box of a list of points is the least that holds them: along each axis its ends are
the least and the greatest coordinate of a point (`Box.Bounds`). There is one such box for any points, if
there are points, and it moves with them (`Box.ofPoints?_shifted`).
-/

namespace Masonry

/-- Two numbers are the least and the greatest of some. -/
structure Extremes (low high : Rat) (as : List Rat) : Prop where
  least : IsLeast {a | a ∈ as} low
  greatest : IsGreatest {a | a ∈ as} high

namespace Extremes

variable {low high low' high' a : Rat} {as : List Rat}

theorem singleton (a : Rat) : Extremes a a [a] := by
  constructor <;> simp [IsLeast, IsGreatest, lowerBounds, upperBounds]

/-- A number more, and the ends move out to it. -/
theorem concat (h : Extremes low high as) (a : Rat) :
    Extremes (Scalar.least low a) (Scalar.greatest high a) (as ++ [a]) := by
  have hset : {b | b ∈ as ++ [a]} = insert a {b | b ∈ as} := by
    ext b
    simp [or_comm]
  have hleast : Scalar.least low a = min a low := ((min_comm a low).trans (min_def_lt low a)).symm
  have hgreatest : Scalar.greatest high a = max a high := (max_def_lt a high).symm
  rw [hleast, hgreatest]
  exact ⟨hset ▸ h.least.insert a, hset ▸ h.greatest.insert a⟩

theorem unique (h : Extremes low high as) (h' : Extremes low' high' as) : low = low' ∧ high = high' :=
  ⟨h.least.unique h'.least, h.greatest.unique h'.greatest⟩

theorem add (h : Extremes low high as) (d : Rat) : Extremes (low + d) (high + d) (as.map (· + d)) := by
  have hset : {a | a ∈ as.map (· + d)} = (· + d) '' {a | a ∈ as} := by
    ext b
    exact List.mem_map
  have hmono : Monotone fun a : Rat => a + d := fun _ _ hle => add_le_add_left hle d
  exact ⟨hset ▸ hmono.map_isLeast h.least, hset ▸ hmono.map_isGreatest h.greatest⟩

theorem mem_Icc (h : Extremes low high as) (ha : a ∈ as) : a ∈ Set.Icc low high :=
  ⟨h.least.2 ha, h.greatest.2 ha⟩

end Extremes

namespace Box

variable {b b' : Box Rat} {ps : List (Vec3 Rat)} {p : Vec3 Rat}

/-- The box is the least that holds the points. -/
structure Bounds (b : Box Rat) (ps : List (Vec3 Rat)) : Prop where
  x : Extremes b.lower.x b.upper.x (ps.map Vec3.x)
  y : Extremes b.lower.y b.upper.y (ps.map Vec3.y)
  z : Extremes b.lower.z b.upper.z (ps.map Vec3.z)

namespace Bounds

theorem holds (h : b.Bounds ps) (hp : p ∈ ps) : b.Holds p :=
  ⟨h.x.mem_Icc (List.mem_map_of_mem hp), h.y.mem_Icc (List.mem_map_of_mem hp),
    h.z.mem_Icc (List.mem_map_of_mem hp)⟩

theorem singleton (p : Vec3 Rat) : Bounds ⟨p, p⟩ [p] := ⟨.singleton p.x, .singleton p.y, .singleton p.z⟩

/-- The step: the box grows just so far that it holds one point more. -/
theorem enlarge (h : b.Bounds ps) (p : Vec3 Rat) : (b.enlarge p).Bounds (ps ++ [p]) := by
  constructor <;> rw [List.map_append]
  · exact h.x.concat p.x
  · exact h.y.concat p.y
  · exact h.z.concat p.z

/-- The run over a list of points. -/
theorem foldl_enlarge (h : b.Bounds ps) (qs : List (Vec3 Rat)) :
    (qs.foldl Box.enlarge b).Bounds (ps ++ qs) := by
  induction qs generalizing b ps with
  | nil => rwa [List.append_nil]
  | cons q qs ih =>
    rw [← List.singleton_append, ← List.append_assoc]
    exact ih (h.enlarge q)

theorem unique (h : b.Bounds ps) (h' : b'.Bounds ps) : b = b' := by
  obtain ⟨⟨_, _, _⟩, _, _, _⟩ := b
  obtain ⟨⟨_, _, _⟩, _, _, _⟩ := b'
  obtain ⟨rfl, rfl⟩ := h.x.unique h'.x
  obtain ⟨rfl, rfl⟩ := h.y.unique h'.y
  obtain ⟨rfl, rfl⟩ := h.z.unique h'.z
  rfl

theorem shifted (h : b.Bounds ps) (v : Vec3 Rat) : (b.shifted v).Bounds (ps.map (· + v)) := by
  have haxis (f : Vec3 Rat → Rat) (hf : ∀ p, f (p + v) = f p + f v) :
      (ps.map (· + v)).map f = (ps.map f).map (· + f v) := by
    simp [hf]
  exact ⟨haxis Vec3.x (fun _ => rfl) ▸ h.x.add v.x, haxis Vec3.y (fun _ => rfl) ▸ h.y.add v.y,
    haxis Vec3.z (fun _ => rfl) ▸ h.z.add v.z⟩

end Bounds

/-- The box of a list of points is the one that bounds them. -/
theorem ofPoints?_eq_some_iff : ofPoints? ps = some b ↔ b.Bounds ps := by
  cases ps with
  | nil =>
    refine iff_of_false nofun fun h => ?_
    exact List.not_mem_nil h.x.least.1
  | cons p ps =>
    have hbounds := (Bounds.singleton p).foldl_enlarge ps
    rw [ofPoints?, Option.some.injEq]
    exact ⟨fun heq => heq ▸ hbounds, hbounds.unique⟩

/-- The box of points moves with them. -/
theorem ofPoints?_shifted (ps : List (Vec3 Rat)) (v : Vec3 Rat) :
    ofPoints? (ps.map (· + v)) = (ofPoints? ps).map (·.shifted v) := by
  cases hps : ofPoints? ps with
  | none =>
    cases ps with
    | nil => rfl
    | cons p ps => cases hps
  | some b => exact ofPoints?_eq_some_iff.2 ((ofPoints?_eq_some_iff.1 hps).shifted v)

end Box

end Masonry
