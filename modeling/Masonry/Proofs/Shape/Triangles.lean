import Mathlib.Data.List.Forall2
import Masonry.Shape.Triangles

/-!
# Which shapes have triangles

A shape has triangles if and only if every face can be drawn (`Shape.Drawable`): its texture coordinates
are there, and if it has a triangle, its corners are vertices and the texture coordinates serve them all.
The triangles are then those of the fans, face by face (`Shape.Draws`); else the fault is the first one
of the first face that cannot be drawn (`Shape.batch_outcome`).
-/

namespace Masonry

namespace Traversal

variable {β γ ε : Type} {e : ε}

theorem bind_eq_ok_iff {x : Except ε β} {k : β → Except ε γ} {c : γ} :
    (x >>= k) = .ok c ↔ ∃ b, x = .ok b ∧ k b = .ok c := by
  cases x <;> simp [bind, Except.bind]

theorem bind_eq_error_iff {x : Except ε β} {k : β → Except ε γ} :
    (x >>= k) = .error e ↔ x = .error e ∨ ∃ b, x = .ok b ∧ k b = .error e := by
  cases x <;> simp [bind, Except.bind]

/-- What follows and cannot fail does not matter. -/
theorem exists_bind_pure_iff {x : Except ε β} {g : β → γ} :
    (∃ c, (do return g (← x)) = (.ok c : Except ε γ)) ↔ ∃ b, x = .ok b := by
  simp only [bind_eq_ok_iff]
  constructor
  · exact fun ⟨_, b, hb, _⟩ => ⟨b, hb⟩
  · exact fun ⟨b, hb⟩ => ⟨_, b, hb, rfl⟩

theorem forall_mem_zipIdx {bs : List β} {n : Nat} {P : β → Prop} :
    (∀ p ∈ bs.zipIdx n, P p.1) ↔ ∀ b ∈ bs, P b := by
  rw [← List.forall_mem_map, List.zipIdx_map_fst]

variable {f : β → Except ε γ} {bs : List β}

theorem mapM_eq_ok_iff {cs : List γ} :
    bs.mapM f = .ok cs ↔ List.Forall₂ (fun b c => f b = .ok c) bs cs := by
  induction bs generalizing cs with
  | nil => cases cs <;> simp [pure, Except.pure]
  | cons b bs ih =>
    simp only [List.mapM_cons, bind_eq_ok_iff, ih, List.forall₂_cons_left_iff]
    constructor
    · rintro ⟨c, hc, cs', hcs, ⟨⟩⟩
      exact ⟨c, cs', hc, hcs, rfl⟩
    · rintro ⟨c, cs', hc, hcs, rfl⟩
      exact ⟨c, hc, cs', hcs, rfl⟩

theorem exists_mapM_eq_ok_iff : (∃ cs, bs.mapM f = .ok cs) ↔ ∀ b ∈ bs, ∃ c, f b = .ok c := by
  induction bs with
  | nil => simp [pure, Except.pure]
  | cons b bs ih =>
    rw [List.forall_mem_cons, ← ih]
    simp only [List.mapM_cons, bind_eq_ok_iff]
    constructor
    · rintro ⟨_, c, hc, cs, hcs, -⟩
      exact ⟨⟨c, hc⟩, cs, hcs⟩
    · rintro ⟨⟨c, hc⟩, cs, hcs⟩
      exact ⟨c :: cs, c, hc, cs, hcs, rfl⟩

/-- The fault of a list is that of its first element with one. -/
theorem mapM_eq_error_iff : bs.mapM f = .error e ↔ ∃ done b more, bs = done ++ b :: more ∧
    (∀ d ∈ done, ∃ c, f d = .ok c) ∧ f b = .error e := by
  induction bs with
  | nil => simp [pure, Except.pure]
  | cons b bs ih =>
    simp only [List.mapM_cons, bind_eq_error_iff, ih]
    constructor
    · rintro (h | ⟨c, hc, ⟨done, b', more, rfl, hdone, h⟩ | ⟨cs, -, h⟩⟩)
      · exact ⟨[], b, bs, rfl, by simp, h⟩
      · exact ⟨b :: done, b', more, rfl, List.forall_mem_cons.2 ⟨⟨c, hc⟩, hdone⟩, h⟩
      · cases h
    · rintro ⟨_ | ⟨d, done⟩, b', more, heq, hdone, h⟩
      · cases heq
        exact .inl h
      · cases heq
        obtain ⟨⟨c, hc⟩, hdone⟩ := List.forall_mem_cons.1 hdone
        exact .inr ⟨c, hc, .inl ⟨done, b', more, rfl, hdone, h⟩⟩

/-- The fault of consecutive numbers is that of the first one. -/
theorem mapM_range'_eq_error_iff {f : Nat → Except ε γ} {n : Nat} :
    (List.range' 1 n).mapM f = .error e ↔ ∃ i, 1 ≤ i ∧ i ≤ n ∧
      (∀ j, 1 ≤ j → j < i → ∃ c, f j = .ok c) ∧ f i = .error e := by
  rw [mapM_eq_error_iff]
  constructor
  · rintro ⟨_, i, more, hsplit, hdone, hi⟩
    obtain ⟨k, hk, rfl, hmore⟩ := List.range'_eq_append_iff.1 hsplit
    obtain ⟨rfl, hlast, -⟩ := List.range'_eq_cons_iff.1 hmore.symm
    exact ⟨_, by omega, by omega,
      fun j hj hjk => hdone j (List.mem_range'_1.2 ⟨hj, by omega⟩), hi⟩
  · rintro ⟨i, hfirst, hlast, hbefore, hi⟩
    obtain ⟨k, rfl⟩ : ∃ k, i = 1 + k := ⟨i - 1, by omega⟩
    obtain ⟨m, rfl⟩ : ∃ m, n = k + (m + 1) := ⟨n - 1 - k, by omega⟩
    refine ⟨_, 1 + k, _, List.range'_append_1.symm, fun j hj => ?_, hi⟩
    obtain ⟨hj, hjk⟩ := List.mem_range'_1.1 hj
    exact hbefore j hj hjk

end Traversal

namespace Face

/-- The index of the vertex at a corner of the face; the corners are counted from zero. -/
def corner (f : Face) (k : Nat) : Nat := f.vertices.getD k 0

theorem mem_vertices_iff {f : Face} {index : Nat} :
    index ∈ f.vertices ↔ ∃ k, k < f.vertices.length ∧ f.corner k = index := by
  have hcorner : ∀ k (h : k < f.vertices.length), f.corner k = f.vertices[k] := fun k h => by
    rw [corner, List.getD_eq_getElem?_getD, List.getElem?_eq_getElem h, Option.getD_some]
  rw [List.mem_iff_getElem]
  refine exists_congr fun k => ⟨?_, ?_⟩
  · rintro ⟨hk, rfl⟩
    exact ⟨hk, hcorner k hk⟩
  · rintro ⟨hk, rfl⟩
    exact ⟨hk, (hcorner k hk).symm⟩

/-- The indices of the vertices of a triangle of the fan. -/
def triangle (f : Face) (i : Nat) : List Nat := [f.corner 0, f.corner i, f.corner (i + 1)]

/-- The fan has a triangle for each corner that lies between two others than the first. -/
theorem fan_eq (f : Face) : f.fan = (List.range' 1 (f.vertices.length - 2)).map fun i =>
    (i, f.corner 0, f.corner i, f.corner (i + 1)) := by
  unfold fan corner
  cases f.vertices with
  | nil => rfl
  | cons a rest =>
    refine List.ext_getElem (by simp) fun k _ hk => ?_
    have hk : k < rest.length - 1 := by simpa using hk
    have hnext : (a :: rest)[1 + k]? = some rest[k] := by
      rw [Nat.add_comm, List.getElem?_cons_succ]
      exact List.getElem?_eq_getElem (by omega)
    have hlast : rest[1 + k]? = some rest[k + 1] := by
      rw [Nat.add_comm]
      exact List.getElem?_eq_getElem (by omega)
    simp [hnext, hlast]

end Face

namespace TexCoords

/-- The positions on the texture of the corners of a triangle of a fan. A rectangle gives the first
triangle the corner above or below the first, and the second triangle the other one. -/
inductive Maps : TexCoords → Nat → Pixel → Pixel → Pixel → Prop
  | first (p q : Pixel) : Maps (.corners p q) 1 p ⟨p.x, q.y⟩ q
  | second (p q : Pixel) : Maps (.corners p q) 2 p q ⟨q.x, p.y⟩
  | points {ps : List Pixel} {i : Nat} {a b c : Pixel} (ha : ps[0]? = some a) (hb : ps[i]? = some b)
      (hc : ps[i + 1]? = some c) : Maps (.points ps) i a b c

/-- Texture coordinates serve a face of so many corners. -/
def Serves : TexCoords → Nat → Prop
  | corners _ _, n => n ≤ 4
  | points ps, n => n ≤ ps.length

theorem Serves.mono {t : TexCoords} {m n : Nat} (h : t.Serves n) (hle : m ≤ n) : t.Serves m := by
  cases t with
  | corners _ _ => exact Nat.le_trans hle h
  | points ps => exact Nat.le_trans hle h

/-- The fault of texture coordinates that do not serve a triangle of a fan. -/
def shortage (face i : Nat) : TexCoords → BatchFault
  | corners _ _ => .tooManyTriangles face
  | points ps => .tooFewPoints face (i + 2) ps.length

variable {t : TexCoords} {face i : Nat}

theorem ofTriangle_eq_ok_iff {a b c : Pixel} :
    t.ofTriangle face i = .ok (a, b, c) ↔ t.Maps i a b c := by
  constructor
  · intro h
    cases t with
    | corners p q =>
      simp only [ofTriangle] at h
      split at h
      · cases h
        exact .first _ _
      · cases h
        exact .second _ _
      · cases h
    | points ps =>
      simp only [ofTriangle] at h
      split at h
      · next ha hb hc =>
        cases h
        exact .points ha hb hc
      · cases h
  · rintro (_ | _ | ⟨ha, hb, hc⟩)
    · rfl
    · rfl
    · simp [ofTriangle, ha, hb, hc]

theorem ofTriangle_eq_error_iff {e : BatchFault} (hi : 1 ≤ i) :
    t.ofTriangle face i = .error e ↔ ¬ t.Serves (i + 2) ∧ t.shortage face i = e := by
  cases t with
  | corners p q =>
    simp only [ofTriangle, Serves, shortage]
    split
    · simp
    · simp
    · next h₁ h₂ =>
      have hne : i ≠ 1 ∧ i ≠ 2 := ⟨h₁, h₂⟩
      have hserves : ¬ i + 2 ≤ 4 := by omega
      simp [hserves]
  | points ps =>
    simp only [ofTriangle, Serves, shortage]
    by_cases hserves : i + 2 ≤ ps.length
    · have ha : ps[0]? = some ps[0] := List.getElem?_eq_getElem _
      have hb : ps[i]? = some ps[i] := List.getElem?_eq_getElem _
      have hc : ps[i + 1]? = some ps[i + 1] := List.getElem?_eq_getElem _
      simp [ha, hb, hc, hserves]
    · have hc : ps[i + 1]? = none := List.getElem?_eq_none (by omega)
      simp [hc, hserves]

end TexCoords

namespace Shape

variable {α : Type} {s : Shape α} {f : Face} {t : TexCoords} {face i : Nat}

/-- The corners of a triangle of a fan are vertices of the shape, and the texture coordinates serve a
face that ends with it. -/
structure HasTriangle (s : Shape α) (f : Face) (t : TexCoords) (i : Nat) : Prop where
  corners : ∀ index ∈ f.triangle i, index < s.vertices.length
  serves : t.Serves (i + 2)

/-- The fault of a triangle of a fan: the first of its indices that is out of range, or that of the
texture coordinates. -/
inductive TriangleFails (s : Shape α) (face : Nat) (f : Face) (t : TexCoords) (i : Nat) :
    BatchFault → Prop
  | noVertex {index : Nat} (h : (f.triangle i).find? (s.vertices.length ≤ ·) = some index) :
      TriangleFails s face f t i (.noVertex face index)
  | texCoords (corners : ∀ index ∈ f.triangle i, index < s.vertices.length)
      (h : ¬ t.Serves (i + 2)) : TriangleFails s face f t i (t.shortage face i)

/-- The texture coordinates of the face are there, and if it has a triangle, its indices are in range and
the texture coordinates serve all its corners. -/
def Drawable (s : Shape α) (f : Face) : Prop :=
  ∃ t, s.texCoords[f.texCoords]? = some t ∧ (3 ≤ f.vertices.length →
    (∀ index ∈ f.vertices, index < s.vertices.length) ∧ t.Serves f.vertices.length)

/-- The fault of a face with the given number: it has no texture coordinates, or a triangle of its fan
is at fault and none before. -/
inductive Fails (s : Shape α) (face : Nat) (f : Face) : BatchFault → Prop
  | noTexCoords (h : s.texCoords[f.texCoords]? = none) :
      Fails s face f (.noTexCoords face f.texCoords)
  | triangle {t : TexCoords} {i : Nat} {e : BatchFault} (ht : s.texCoords[f.texCoords]? = some t)
      (first : 1 ≤ i) (last : i + 1 < f.vertices.length)
      (before : ∀ j, 1 ≤ j → j < i → s.HasTriangle f t j) (h : s.TriangleFails face f t i e) :
      Fails s face f e

variable [Scalar α]

/-- The position on the texture of the center of a pixel: to the right from the left edge, and upward from
the bottom edge. -/
def texel (s : Shape α) (p : Pixel) : α × α :=
  ((Scalar.ofInt p.x + 0.5) / Scalar.ofInt s.texSize, 1 - (Scalar.ofInt p.y + 0.5) / Scalar.ofInt s.texSize)

/-- The vertices of a triangle of a fan are those of its corners after scale and shift, with the normal of
the triangle before that, and with its positions on the texture. -/
inductive DrawsTriangle (s : Shape α) (f : Face) (t : TexCoords) (i : Nat) (vs : List (Vertex α)) : Prop
  | mk {a b c : Vec3 α} {pa pb pc : Pixel} (ha : s.vertices[f.corner 0]? = some a)
      (hb : s.vertices[f.corner i]? = some b) (hc : s.vertices[f.corner (i + 1)]? = some c)
      (hp : t.Maps i pa pb pc)
      (positions : vs.map Vertex.position = [a, b, c].map fun v => v * s.scale + s.shift)
      (normals : ∀ w ∈ vs, w.normal = ((b - a).cross (c - a)).normalized)
      (texture : (vs.map fun w => (w.u, w.v)) = [pa, pb, pc].map s.texel)

/-- The vertices of a face: those of its triangles, one after the other. -/
inductive Draws (s : Shape α) (f : Face) : List (Vertex α) → Prop
  | mk {t : TexCoords} {triangles : List (List (Vertex α))} (ht : s.texCoords[f.texCoords]? = some t)
      (h : List.Forall₂ (s.DrawsTriangle f t) (List.range' 1 (f.vertices.length - 2)) triangles) :
      Draws s f triangles.flatten

section Triangles

omit [Scalar α] in
theorem vertexOf_eq_ok_iff {index : Nat} {v : Vec3 α} :
    s.vertexOf face index = .ok v ↔ s.vertices[index]? = some v := by
  unfold vertexOf
  split
  · next h => simp [h]
  · next h => simp [h]

omit [Scalar α] in
theorem vertexOf_eq_error_iff {index : Nat} {e : BatchFault} :
    s.vertexOf face index = .error e ↔ s.vertices.length ≤ index ∧ .noVertex face index = e := by
  unfold vertexOf
  split
  · next h =>
    have hlt := (List.getElem?_eq_some_iff.1 h).1
    simp [Nat.not_le_of_lt hlt]
  · next h => simp [List.getElem?_eq_none_iff.1 h]

omit [Scalar α] in
/-- The first index is out of range, or it has a vertex and one after it is the first. -/
theorem of_find?_cons {index found : Nat} {more : List Nat}
    (h : (index :: more).find? (s.vertices.length ≤ ·) = some found) :
    s.vertices.length ≤ index ∧ index = found ∨
      ∃ v, s.vertices[index]? = some v ∧ more.find? (s.vertices.length ≤ ·) = some found := by
  by_cases hout : s.vertices.length ≤ index
  · rw [List.find?_cons_of_pos (by simpa using hout)] at h
    exact .inl ⟨hout, Option.some.inj h⟩
  · rw [List.find?_cons_of_neg (by simpa using hout)] at h
    exact .inr ⟨_, List.getElem?_eq_getElem (Nat.lt_of_not_le hout), h⟩

/-- Three vertices are given by their parts. -/
theorem eq_vertices {vs : List (Vertex α)} {a b c n : Vec3 α} {pa pb pc : Pixel}
    (positions : vs.map Vertex.position = [a, b, c].map fun v => v * s.scale + s.shift)
    (normals : ∀ w ∈ vs, w.normal = n)
    (texture : (vs.map fun w => (w.u, w.v)) = [pa, pb, pc].map s.texel) :
    vs = [s.vertex n a pa, s.vertex n b pb, s.vertex n c pc] := by
  obtain ⟨x, y, z, rfl⟩ : ∃ x y z, vs = [x, y, z] :=
    List.length_eq_three.1 (by simpa using congrArg List.length positions)
  have heq : ∀ {w : Vertex α} {v : Vec3 α} {p : Pixel}, w.position = v * s.scale + s.shift →
      w.normal = n → (w.u, w.v) = s.texel p → w = s.vertex n v p := by
    rintro ⟨_, _, _, _⟩ v p rfl rfl ⟨⟩
    rfl
  simp only [List.forall_mem_cons] at normals
  obtain ⟨hx, hy, hz, -⟩ := normals
  simp only [List.map_cons, List.cons.injEq] at positions texture
  rw [← heq positions.1 hx texture.1, ← heq positions.2.1 hy texture.2.1,
    ← heq positions.2.2.1 hz texture.2.2.1]

theorem triangle_eq_ok_iff (face : Nat) {vs : List (Vertex α)} :
    s.triangle face t (i, f.corner 0, f.corner i, f.corner (i + 1)) = .ok vs ↔
      s.DrawsTriangle f t i vs := by
  simp only [triangle, Traversal.bind_eq_ok_iff, vertexOf_eq_ok_iff]
  constructor
  · rintro ⟨a, ha, b, hb, c, hc, ⟨pa, pb, pc⟩, hp, ⟨⟩⟩
    exact .mk ha hb hc (TexCoords.ofTriangle_eq_ok_iff.1 hp) rfl (by simp [vertex]) rfl
  · rintro ⟨ha, hb, hc, hp, positions, normals, texture⟩
    rw [eq_vertices positions normals texture]
    exact ⟨_, ha, _, hb, _, hc, (_, _, _), TexCoords.ofTriangle_eq_ok_iff.2 hp, rfl⟩

theorem triangle_eq_error_iff (face : Nat) {e : BatchFault} (hi : 1 ≤ i) :
    s.triangle face t (i, f.corner 0, f.corner i, f.corner (i + 1)) = .error e ↔
      s.TriangleFails face f t i e := by
  have hlt : ∀ {k v}, s.vertices[k]? = some v → k < s.vertices.length :=
    fun h => (List.getElem?_eq_some_iff.1 h).1
  have hget : ∀ {k} (h : k < s.vertices.length), s.vertices[k]? = some s.vertices[k] :=
    fun h => List.getElem?_eq_getElem h
  simp only [triangle, Traversal.bind_eq_error_iff, vertexOf_eq_ok_iff, vertexOf_eq_error_iff,
    TexCoords.ofTriangle_eq_error_iff hi]
  constructor
  · rintro (⟨h, rfl⟩ | ⟨a, ha, ⟨h, rfl⟩ | ⟨b, hb, ⟨h, rfl⟩ | ⟨c, hc, ⟨h, rfl⟩ | ⟨_, -, ⟨⟩⟩⟩⟩⟩)
    · exact .noVertex (by simp [Face.triangle, h])
    · exact .noVertex (by simp [Face.triangle, hlt ha, h])
    · exact .noVertex (by simp [Face.triangle, hlt ha, hlt hb, h])
    · exact .texCoords (by simp [Face.triangle, hlt ha, hlt hb, hlt hc]) h
  · rintro (h | ⟨hcorners, h⟩)
    · obtain ⟨hout, rfl⟩ | ⟨a, ha, h⟩ := of_find?_cons h
      · exact .inl ⟨hout, rfl⟩
      obtain ⟨hout, rfl⟩ | ⟨b, hb, h⟩ := of_find?_cons h
      · exact .inr ⟨a, ha, .inl ⟨hout, rfl⟩⟩
      obtain ⟨hout, rfl⟩ | ⟨c, hc, h⟩ := of_find?_cons h
      · exact .inr ⟨a, ha, .inr ⟨b, hb, .inl ⟨hout, rfl⟩⟩⟩
      cases h
    · obtain ⟨ha, hb, hc, -⟩ : _ ∧ _ ∧ _ ∧ _ := by
        simpa only [Face.triangle, List.forall_mem_cons] using hcorners
      exact .inr ⟨_, hget ha, .inr ⟨_, hget hb, .inr ⟨_, hget hc, .inl ⟨h, rfl⟩⟩⟩⟩

omit [Scalar α] in
theorem exists_triangleFails_iff (face : Nat) :
    (∃ e, s.TriangleFails face f t i e) ↔ ¬ s.HasTriangle f t i := by
  constructor
  · rintro ⟨_, h | ⟨-, h⟩⟩ ⟨hcorners, hserves⟩
    · have hout := List.find?_some h
      exact absurd (hcorners _ (List.mem_of_find?_eq_some h)) (by simpa using hout)
    · exact h hserves
  · intro h
    cases hfind : (f.triangle i).find? (s.vertices.length ≤ ·) with
    | some index => exact ⟨_, .noVertex hfind⟩
    | none =>
      have hcorners : ∀ index ∈ f.triangle i, index < s.vertices.length := by
        simpa [List.find?_eq_none] using hfind
      exact ⟨_, .texCoords hcorners fun hserves => h ⟨hcorners, hserves⟩⟩

theorem exists_drawsTriangle_iff (hi : 1 ≤ i) :
    (∃ vs, s.DrawsTriangle f t i vs) ↔ s.HasTriangle f t i := by
  rw [← not_iff_not, ← exists_triangleFails_iff 0]
  simp only [← triangle_eq_ok_iff 0, ← triangle_eq_error_iff 0 hi]
  cases s.triangle 0 t (i, f.corner 0, f.corner i, f.corner (i + 1)) <;> simp

end Triangles

section Faces

omit [Scalar α] in
/-- A face is served as a whole if its triangles are: each corner is one of a triangle, and the last
triangle needs what the face needs. -/
theorem drawable_iff : s.Drawable f ↔ ∃ t, s.texCoords[f.texCoords]? = some t ∧
    ∀ i ∈ List.range' 1 (f.vertices.length - 2), s.HasTriangle f t i := by
  refine exists_congr fun t => and_congr_right fun _ => ?_
  simp only [List.mem_range'_1]
  constructor
  · intro h i hi
    obtain ⟨hindices, hserves⟩ := h (by omega)
    have hcorner : ∀ k, k < f.vertices.length → f.corner k < s.vertices.length :=
      fun k hk => hindices _ (Face.mem_vertices_iff.2 ⟨k, hk, rfl⟩)
    refine ⟨?_, hserves.mono (by omega)⟩
    simp only [Face.triangle, List.forall_mem_cons]
    exact ⟨hcorner 0 (by omega), hcorner i (by omega), hcorner (i + 1) (by omega), by simp⟩
  · intro h hlength
    have hlast := h (f.vertices.length - 2) (by omega)
    refine ⟨fun index hindex => ?_, hlast.serves.mono (by omega)⟩
    obtain ⟨k, hk, rfl⟩ := Face.mem_vertices_iff.1 hindex
    obtain rfl | ⟨hfirst, hlast⟩ | ⟨hfirst, rfl⟩ :
        k = 0 ∨ (1 ≤ k ∧ k < 1 + (f.vertices.length - 2)) ∨
          1 ≤ f.vertices.length - 2 ∧ k = f.vertices.length - 2 + 1 := by omega
    · exact (h 1 (by omega)).corners _ (by simp [Face.triangle])
    · exact (h k ⟨hfirst, hlast⟩).corners _ (by simp [Face.triangle])
    · exact hlast.corners _ (by simp [Face.triangle])

theorem faceTriangles_eq_ok_iff {vs : List (Vertex α)} :
    s.faceTriangles f face = .ok vs ↔ s.Draws f vs := by
  unfold faceTriangles
  split
  · next h =>
    refine iff_of_false nofun ?_
    rintro ⟨ht, -⟩
    cases h.symm.trans ht
  · next t h =>
    simp only [Face.fan_eq, List.mapM_map, Traversal.bind_eq_ok_iff, Traversal.mapM_eq_ok_iff,
      Function.comp_apply, triangle_eq_ok_iff]
    constructor
    · rintro ⟨triangles, htriangles, ⟨⟩⟩
      exact .mk h htriangles
    · rintro ⟨ht, htriangles⟩
      obtain rfl := Option.some.inj (h.symm.trans ht)
      exact ⟨_, htriangles, rfl⟩

theorem exists_faceTriangles_iff (face : Nat) :
    (∃ vs, s.faceTriangles f face = .ok vs) ↔ s.Drawable f := by
  rw [drawable_iff]
  unfold faceTriangles
  split
  · next h => simp [h]
  · next t h =>
    simp only [h, Option.some.injEq, exists_eq_left', Traversal.exists_bind_pure_iff]
    rw [Face.fan_eq, List.mapM_map, Traversal.exists_mapM_eq_ok_iff]
    refine forall₂_congr fun i hi => ?_
    simp only [Function.comp_apply, triangle_eq_ok_iff]
    exact exists_drawsTriangle_iff (List.mem_range'_1.1 hi).1

theorem faceTriangles_eq_error_iff {e : BatchFault} :
    s.faceTriangles f face = .error e ↔ s.Fails face f e := by
  unfold faceTriangles
  split
  · next h =>
    constructor
    · rintro ⟨⟩
      exact .noTexCoords h
    · rintro (_ | ⟨ht, -⟩)
      · rfl
      · cases h.symm.trans ht
  · next t h =>
    simp only [Face.fan_eq, List.mapM_map, Traversal.bind_eq_error_iff,
      Traversal.mapM_range'_eq_error_iff, Function.comp_apply, triangle_eq_ok_iff]
    constructor
    · rintro (⟨i, hfirst, hlast, hbefore, hi⟩ | ⟨_, -, ⟨⟩⟩)
      exact .triangle h hfirst (by omega)
        (fun j hj hji => (exists_drawsTriangle_iff hj).1 (hbefore j hj hji))
        ((triangle_eq_error_iff face hfirst).1 hi)
    · rintro (hnone | ⟨ht, hfirst, hlast, hbefore, hi⟩)
      · cases h.symm.trans hnone
      · obtain rfl := Option.some.inj (h.symm.trans ht)
        exact .inl ⟨_, hfirst, by omega,
          fun j hj hji => (exists_drawsTriangle_iff hj).2 (hbefore j hj hji),
          (triangle_eq_error_iff face hfirst).2 hi⟩

end Faces

section Batches

theorem batch_def (s : Shape α) : s.batch = do
    return ⟨(← s.faces.zipIdx.mapM fun p => s.faceTriangles p.1 p.2).flatten⟩ := rfl

theorem exists_batch_iff : (∃ b, s.batch = .ok b) ↔ ∀ f ∈ s.faces, s.Drawable f := by
  rw [batch_def, Traversal.exists_bind_pure_iff, Traversal.exists_mapM_eq_ok_iff]
  rw [← Traversal.forall_mem_zipIdx (P := s.Drawable)]
  exact forall₂_congr fun p _ => exists_faceTriangles_iff p.2

theorem batch_eq_ok_iff {b : Batch α} :
    s.batch = .ok b ↔ ∃ vss, List.Forall₂ s.Draws s.faces vss ∧ b.vertices = vss.flatten := by
  simp only [batch_def, Traversal.bind_eq_ok_iff, Traversal.mapM_eq_ok_iff, faceTriangles_eq_ok_iff]
  refine exists_congr fun vss => ?_
  rw [← List.forall₂_map_left_iff, List.zipIdx_map_fst]
  refine and_congr_right fun _ => ?_
  constructor
  · rintro ⟨⟩
    rfl
  · rintro h
    obtain ⟨_⟩ := b
    obtain rfl := h
    rfl

theorem batch_eq_error_iff {e : BatchFault} :
    s.batch = .error e ↔ ∃ done f more, s.faces = done ++ f :: more ∧
      (∀ g ∈ done, s.Drawable g) ∧ s.Fails done.length f e := by
  simp only [batch_def, Traversal.bind_eq_error_iff, Traversal.mapM_eq_error_iff]
  constructor
  · rintro (⟨_, ⟨f, k⟩, more, hsplit, hdone, hfails⟩ | ⟨_, -, ⟨⟩⟩)
    obtain ⟨done, after, heq, rfl, hafter⟩ := List.zipIdx_eq_append_iff.1 hsplit
    cases after with
    | nil => cases hafter
    | cons g after =>
      obtain ⟨⟨rfl, rfl⟩, -⟩ := List.cons.inj hafter
      rw [Nat.zero_add] at hfails
      exact ⟨done, f, after, heq, Traversal.forall_mem_zipIdx.1 fun p hp =>
        (exists_faceTriangles_iff p.2).1 (hdone p hp), faceTriangles_eq_error_iff.1 hfails⟩
  · rintro ⟨done, f, more, heq, hdone, hfails⟩
    refine .inl ⟨done.zipIdx, (f, done.length), more.zipIdx (done.length + 1), ?_, fun p hp => ?_,
      faceTriangles_eq_error_iff.2 hfails⟩
    · rw [heq, List.zipIdx_append, Nat.zero_add, List.zipIdx_cons]
    · exact (exists_faceTriangles_iff p.2).2 (Traversal.forall_mem_zipIdx.2 hdone p hp)

end Batches

/-- Whether a shape has triangles, which ones, and why not: it has some if and only if every face can be
drawn; they are then those of the faces in order; else the fault is that of the first face that cannot be
drawn. -/
theorem batch_outcome (s : Shape α) :
    ((∃ b, s.batch = .ok b) ↔ ∀ f ∈ s.faces, s.Drawable f) ∧
      (∀ b, s.batch = .ok b ↔ ∃ vss, List.Forall₂ s.Draws s.faces vss ∧ b.vertices = vss.flatten) ∧
      ∀ e, s.batch = .error e ↔ ∃ done f more, s.faces = done ++ f :: more ∧
        (∀ g ∈ done, s.Drawable g) ∧ s.Fails done.length f e :=
  ⟨exists_batch_iff, fun _ => batch_eq_ok_iff, fun _ => batch_eq_error_iff⟩

end Shape

end Masonry
