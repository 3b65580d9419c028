import Mathlib.Data.Finset.Card
import Masonry.Scene

/-!
# Caches do not show

A cache keeps for each id that was asked for what its shape makes, and nothing for an id without a shape
(`BatchCache.Keeps`). Each look-up keeps it so, hence whatever is asked of an invalidated cache, every
answer is the one that the catalog gives without a cache (`BatchCache.answers_invalidate`).
-/

namespace Masonry

variable {α : Type} [Scalar α]

/-- The triangles of the shape with an id, made anew; none if there is no such shape or it has none. -/
def Catalog.batch? (c : Catalog α) (id : Int32) : Option (Batch α) :=
  (c.shape? id).bind fun s => s.batch.toOption

/-- The draw for a placement with a tint, if its shape has triangles. -/
def Scene.draw? (origin : Vec3 α) (c : Catalog α) (p : Placement × Rgb) : Option (Draw α) :=
  (c.batch? p.1.code).map fun batch => ⟨p.1.code, batch, transformOf origin p.1, p.2⟩

namespace BatchCache

omit [Scalar α] in
/-- The ids in a cache. -/
def ids (k : BatchCache α) : List Int32 := k.entries.map Prod.fst

/-- After the ids have been asked for, the cache keeps just those of the catalog, each once, with what its
shape makes. -/
structure Keeps (c : Catalog α) (asked : List Int32) (k : BatchCache α) : Prop where
  nodup : k.ids.Nodup
  mem_ids : ∀ id, id ∈ k.ids ↔ id ∈ asked ∧ (c.shape? id).isSome
  made : ∀ e ∈ k.entries, e.2 = c.batch? e.1

variable {c : Catalog α} {asked : List Int32} {k : BatchCache α}

theorem keeps_empty (c : Catalog α) : Keeps c [] .empty :=
  ⟨List.nodup_nil, by simp [ids, empty], by simp [empty]⟩

omit [Scalar α] in
theorem mem_of_lookup {id : Int32} {kept : Option (Batch α)} (h : k.entries.lookup id = some kept) :
    (id, kept) ∈ k.entries := by
  obtain ⟨before, after, heq, -⟩ := List.lookup_eq_some_iff.1 h
  rw [heq]
  exact List.mem_append_right _ List.mem_cons_self

omit [Scalar α] in
theorem notMem_ids_of_lookup {id : Int32} (h : k.entries.lookup id = none) : id ∉ k.ids := by
  intro hmem
  obtain ⟨e, he, rfl⟩ := List.mem_map.1 hmem
  simpa using List.lookup_eq_none_iff.1 h e he

/-- The step: a look-up finds what the shape makes and keeps it. -/
theorem Keeps.batch (h : Keeps c asked k) (id : Int32) :
    (k.batch c id).1 = c.batch? id ∧ Keeps c (asked ++ [id]) (k.batch c id).2 := by
  have hstill : (id ∈ k.ids ∨ (c.shape? id).isSome = false) → Keeps c (asked ++ [id]) k := by
    refine fun hid => ⟨h.nodup, fun i => ?_, h.made⟩
    rw [List.mem_append, List.mem_singleton, or_and_right, h.mem_ids]
    refine (or_iff_left_of_imp ?_).symm
    rintro ⟨rfl, hi⟩
    exact hid.elim (h.mem_ids i).1 fun hnone => absurd hi (by simp [hnone])
  unfold BatchCache.batch
  split
  · next kept hkept =>
    have hmem := mem_of_lookup hkept
    exact ⟨h.made _ hmem, hstill (.inl (List.mem_map_of_mem hmem))⟩
  · next hnew =>
    split
    · next hshape =>
      exact ⟨by rw [Catalog.batch?, hshape]; rfl, hstill (.inr (by rw [hshape]; rfl))⟩
    · next s hshape =>
      have hmade : s.batch.toOption = c.batch? id := by rw [Catalog.batch?, hshape]; rfl
      refine ⟨hmade, List.nodup_cons.2 ⟨notMem_ids_of_lookup hnew, h.nodup⟩, fun i => ?_,
        List.forall_mem_cons.2 ⟨hmade, h.made⟩⟩
      show i ∈ id :: k.ids ↔ _
      rw [List.mem_cons, h.mem_ids, List.mem_append, List.mem_singleton, or_and_right, or_comm]
      refine or_congr_right (iff_self_and.2 ?_)
      rintro rfl
      rw [hshape]
      rfl

/-- The run over the placements of a scene. -/
theorem Keeps.draws (h : Keeps c asked k) (origin : Vec3 α) (ps : List (Placement × Rgb)) :
    (Scene.draws origin c k ps).1 = ps.filterMap (Scene.draw? origin c) ∧
      Keeps c (asked ++ ps.map fun p => p.1.code) (Scene.draws origin c k ps).2 := by
  induction ps generalizing asked k with
  | nil => exact ⟨rfl, (List.append_nil asked).symm ▸ h⟩
  | cons p ps ih =>
    obtain ⟨hbatch, hk⟩ := h.batch p.1.code
    obtain ⟨hdraws, hrest⟩ := ih hk
    rw [List.append_assoc] at hrest
    rw [Scene.draws, List.filterMap_cons, Scene.draw?, ← hbatch, ← hdraws]
    generalize k.batch c p.1.code = out at hrest
    obtain ⟨_ | batch, k⟩ := out <;> exact ⟨rfl, hrest⟩

/-- What is asked of a cache: the triangles of a shape, or the draws of a model or of a plan in one tint,
for a model with the given origin. -/
inductive Request (α : Type) where
  | batch (id : Int32)
  | model (m : Model α)
  | plan (ps : List Placement) (origin : Vec3 α) (tint : Rgb)

/-- What is answered: triangles, or draws in order and their number. -/
inductive Answer (α : Type) where
  | batch (batch : Option (Batch α))
  | draws (list : List (Draw α)) (count : Nat)

omit [Scalar α] in
/-- The ids that are asked for, in order. -/
def Request.codes : Request α → List Int32
  | batch id => [id]
  | model m => m.stones.map fun s => s.placement.code
  | plan ps _ _ => ps.map Placement.code

/-- The answer of a cache, and the cache after it. -/
def answer (c : Catalog α) (k : BatchCache α) : Request α → Answer α × BatchCache α
  | .batch id =>
    let (batch, k) := k.batch c id
    (.batch batch, k)
  | .model m =>
    let (draws, k) := Scene.ofModel m c k
    (.draws draws draws.length, k)
  | .plan ps origin tint =>
    let (draws, k) := Scene.ofPlan ps origin c k tint
    (.draws draws draws.length, k)

/-- The answers to requests, one after the other, and the cache after them. -/
def answers (c : Catalog α) : BatchCache α → List (Request α) → List (Answer α) × BatchCache α
  | k, [] => ([], k)
  | k, r :: rs =>
    let (answer, k) := k.answer c r
    let (more, k) := answers c k rs
    (answer :: more, k)

/-- The draws of a scene without a cache: one for each placement whose shape has triangles, which are made
anew for it. -/
def Answer.ofScene (origin : Vec3 α) (c : Catalog α) (ps : List (Placement × Rgb)) : Answer α :=
  .draws (ps.filterMap (Scene.draw? origin c)) (ps.countP fun p => (c.batch? p.1.code).isSome)

/-- The answer without a cache. -/
def Request.plain (c : Catalog α) : Request α → Answer α
  | batch id => .batch (c.batch? id)
  | model m => .ofScene m.origin c <| m.stones.map fun s =>
      (s.placement, if s.selected then .highlight else s.color.rgb)
  | plan ps origin tint => .ofScene origin c <| ps.map fun p => (p, tint)

theorem Keeps.scene (h : Keeps c asked k) (origin : Vec3 α) (ps : List (Placement × Rgb)) :
    Answer.draws (Scene.draws origin c k ps).1 (Scene.draws origin c k ps).1.length =
      .ofScene origin c ps := by
  rw [(h.draws origin ps).1, List.length_filterMap_eq_countP, Answer.ofScene]
  simp only [Scene.draw?, Option.isSome_map]

/-- The step for a request of any kind. -/
theorem Keeps.answer (h : Keeps c asked k) (r : Request α) :
    (k.answer c r).1 = r.plain c ∧ Keeps c (asked ++ r.codes) (k.answer c r).2 := by
  cases r with
  | batch id =>
    obtain ⟨hbatch, hk⟩ := h.batch id
    exact ⟨congrArg Answer.batch hbatch, hk⟩
  | model m =>
    refine ⟨h.scene m.origin _, ?_⟩
    have hk := (h.draws m.origin (m.stones.map fun s =>
      (s.placement, if s.selected then .highlight else s.color.rgb))).2
    rw [List.map_map] at hk
    exact hk
  | plan ps origin tint =>
    refine ⟨h.scene origin _, ?_⟩
    have hk := (h.draws origin (ps.map fun p => (p, tint))).2
    rw [List.map_map] at hk
    exact hk

/-- The run over requests. -/
theorem Keeps.answers (h : Keeps c asked k) (rs : List (Request α)) :
    (answers c k rs).1 = rs.map (Request.plain c) ∧
      Keeps c (asked ++ rs.flatMap Request.codes) (answers c k rs).2 := by
  induction rs generalizing asked k with
  | nil => exact ⟨rfl, (List.append_nil asked).symm ▸ h⟩
  | cons r rs ih =>
    obtain ⟨hanswer, hk⟩ := h.answer r
    obtain ⟨hmore, hrest⟩ := ih hk
    rw [List.append_assoc, ← List.flatMap_cons] at hrest
    exact ⟨congrArg₂ List.cons hanswer hmore, hrest⟩

/-- A cache keeps as many shapes as the ids of the catalog that were asked for. -/
theorem Keeps.size_eq (h : Keeps c asked k) :
    k.size = (asked.filter fun id => (c.shape? id).isSome).toFinset.card := by
  have hsame : (asked.filter fun id => (c.shape? id).isSome).toFinset = k.ids.toFinset := by
    ext id
    rw [List.mem_toFinset, List.mem_toFinset, List.mem_filter, h.mem_ids]
  rw [hsame, List.toFinset_card_of_nodup h.nodup, ids, List.length_map, size]

/-- Whatever a cache kept before it was invalidated, as for a new one, it answers every request as the
catalog does without a cache, and as a new cache does. It then keeps as many shapes as the catalog has of
the ids that were asked for. -/
theorem answers_invalidate (c : Catalog α) (k : BatchCache α) (rs : List (Request α)) :
    (answers c k.invalidate rs).1 = rs.map (Request.plain c) ∧
      (answers c k.invalidate rs).1 = rs.map (fun r => (BatchCache.empty.answer c r).1) ∧
      (answers c k.invalidate rs).2.size =
        ((rs.flatMap Request.codes).filter fun id => (c.shape? id).isSome).toFinset.card := by
  obtain ⟨hanswers, hk⟩ := (keeps_empty c).answers rs
  refine ⟨hanswers, hanswers.trans (List.map_congr_left fun r _ => ?_), hk.size_eq⟩
  exact ((keeps_empty c).answer r).1.symm

end BatchCache

end Masonry
