import Masonry.Model

/-!
# Placing a stone

What `Model.place` can do is said once, by `place_cases`: it changes nothing, or it puts the stone
that the catalog makes of the placement at the end of the list, clear of the stones before it, under
the id that was given or under the next one. `Places` is any number of such steps, so that a fact
about a batch of placements is one induction over it.
-/

namespace Masonry

variable {α : Type}

namespace Stone

/-- The stone without what relabeling changes: its insert id and its mark. -/
def bare (s : Stone α) : Stone α := { s with insertId := 0, selected := false }

@[simp] theorem bare_select (s : Stone α) (selected : Bool) : (s.select selected).bare = s.bare :=
  rfl

variable [Scalar α]

/-- The stone is as a catalog makes it: turned by less than a full turn, with the box of its shape. -/
structure Shaped (c : Catalog α) (s : Stone α) : Prop where
  turns_lt : s.turns < 4
  box_eq : c.boxAt? s.code (degrees s.turns) = some s.box

/-- A shaped stone has a shape. -/
theorem Shaped.isSome_shape? {c : Catalog α} {s : Stone α} (h : s.Shaped c) :
    (c.shape? s.code).isSome := by
  have hbox := h.box_eq
  rw [Catalog.boxAt?, Option.map_eq_some_iff] at hbox
  obtain ⟨shape, hshape, -⟩ := hbox
  rw [hshape]
  rfl

theorem shaped_bare_iff {c : Catalog α} {s : Stone α} : s.bare.Shaped c ↔ s.Shaped c :=
  ⟨fun h => ⟨h.turns_lt, h.box_eq⟩, fun h => ⟨h.turns_lt, h.box_eq⟩⟩

end Stone

attribute [ext] Model

namespace Model

/-- The ids of the stones, in their order. -/
def ids (m : Model α) : List Int32 := m.stones.map (·.id)

/-- The model with a stone at the end of the list. -/
def put (m : Model α) (s : Stone α) (next : Int32) : Model α :=
  { m with stones := m.stones ++ [s], nextStone := next }

@[simp] theorem ids_put (m : Model α) (s : Stone α) (next : Int32) :
    (m.put s next).ids = m.ids ++ [s.id] := by
  simp [ids, put]

@[simp] theorem nextStone_put (m : Model α) (s : Stone α) (next : Int32) :
    (m.put s next).nextStone = next := rfl

/-- What stays when stones are put in. -/
structure Frame (m m' : Model α) : Prop where
  origin : m'.origin = m.origin
  groups : m'.groups = m.groups
  nextGroup : m'.nextGroup = m.nextGroup
  lastLevel : m'.lastLevel = m.lastLevel
  stones : m.stones <+: m'.stones

theorem Frame.refl (m : Model α) : Frame m m := ⟨rfl, rfl, rfl, rfl, List.prefix_rfl⟩

theorem Frame.put {m m' : Model α} (h : Frame m m') (s : Stone α) (next : Int32) :
    Frame m (m'.put s next) :=
  { h with stones := h.stones.trans (List.prefix_append _ _) }

theorem stone?_eq_none_iff {m : Model α} {id : Int32} : m.stone? id = none ↔ id ∉ m.ids := by
  rw [stone?, List.find?_eq_none]
  simp [ids]

theorem map_stone? (m : Model α) (id : Int32) :
    (m.stone? id).map (·.id) = if id ∈ m.ids then some id else none := by
  cases hstone : m.stone? id with
  | none => simp [stone?_eq_none_iff.1 hstone]
  | some s =>
    have hid : s.id = id := by simpa using List.find?_some hstone
    have hmem : id ∈ m.ids := List.mem_map.2 ⟨s, List.mem_of_find?_eq_some hstone, hid⟩
    simp [hmem, hid]

variable [Scalar α] {c : Catalog α}

@[simp] theorem ids_empty : (empty : Model α).ids = [] := rfl

theorem core_eq_of_origin_eq {m m' : Model α} (h : m'.origin = m.origin) : m'.core = m.core := by
  funext s
  simp only [core, worldBox, h]

@[simp] theorem core_bare (m : Model α) (s : Stone α) : m.core s.bare = m.core s := rfl

@[simp] theorem core_select (m : Model α) (s : Stone α) (selected : Bool) :
    m.core (s.select selected) = m.core s := rfl

@[simp] theorem core_put (m : Model α) (s t : Stone α) (next : Int32) :
    (m.put s next).core t = m.core t := rfl

theorem candidate?_eq_some_iff {insertId : Int32} {p : Placement} {s : Stone α} :
    candidate? c insertId p = some s ↔
      ∃ box, c.boxAt? p.code (degrees (foldTurns p.turns)) = some box ∧
        ⟨0, insertId, p.color, p.code, foldTurns p.turns, p.cell, false, box⟩ = s := by
  simp [candidate?]

/-- What a placement becomes is as its shape makes it. -/
theorem shaped_of_candidate? {insertId : Int32} {p : Placement} {s : Stone α}
    (h : candidate? c insertId p = some s) : s.Shaped c := by
  obtain ⟨box, hbox, rfl⟩ := candidate?_eq_some_iff.1 h
  exact ⟨foldTurns_lt p.turns, hbox⟩

theorem blocks_eq_false_iff {m : Model α} {s : Stone α} :
    m.blocks s = false ↔ ∀ t ∈ m.stones, (m.core t).overlaps (m.core s) = false := by
  simp [blocks]

/-- Under a free id, or under the next one, a stone with a shape and with room is stored. -/
theorem place_given {m : Model α} {id insertId : Int32} {p : Placement} {s : Stone α}
    (hs : candidate? c insertId p = some s) (hroom : m.blocks s = false) (hfree : id ∉ m.ids) :
    m.place c (some id) insertId p =
      (.stored id, m.put { s with id } (max m.nextStone (id + 1))) := by
  have hnone : m.stone? id = none := stone?_eq_none_iff.2 hfree
  simp [place, hs, hroom, hnone, put]

theorem place_next {m : Model α} {insertId : Int32} {p : Placement} {s : Stone α}
    (hs : candidate? c insertId p = some s) (hroom : m.blocks s = false) :
    m.place c none insertId p =
      (.stored m.nextStone, m.put { s with id := m.nextStone } (m.nextStone + 1)) := by
  simp [place, hs, hroom, put]

theorem place_unknown {m : Model α} {id : Option Int32} {insertId : Int32} {p : Placement}
    (hs : candidate? c insertId p = none) : m.place c id insertId p = (.unknownShape, m) := by
  simp [place, hs]

/-- Placing a stone changes nothing, or stores it under the id that was given, which was free, or
under the next one. -/
theorem place_cases (m : Model α) (c : Catalog α) (id : Option Int32) (insertId : Int32)
    (p : Placement) :
    ((m.place c id insertId p).1.isStored = false ∧ (m.place c id insertId p).2 = m) ∨
      ∃ s, candidate? c insertId p = some s ∧ m.blocks s = false ∧
        ((∃ k, id = some k ∧ k ∉ m.ids ∧ m.place c id insertId p =
            (.stored k, m.put { s with id := k } (max m.nextStone (k + 1)))) ∨
          (id = none ∧ m.place c id insertId p =
            (.stored m.nextStone, m.put { s with id := m.nextStone } (m.nextStone + 1)))) := by
  cases hs : candidate? c insertId p with
  | none => exact .inl (by rw [place_unknown hs]; exact ⟨rfl, rfl⟩)
  | some s =>
    cases hroom : m.blocks s with
    | true => exact .inl (by simp [place, hs, hroom, Placed.isStored])
    | false =>
      cases id with
      | none => exact .inr ⟨s, rfl, hroom, .inr ⟨rfl, place_next hs hroom⟩⟩
      | some k =>
        by_cases hk : k ∈ m.ids
        · have htaken : m.stone? k ≠ none := mt stone?_eq_none_iff.1 (not_not_intro hk)
          refine .inl ?_
          simp [place, hs, hroom, Option.isSome_iff_ne_none.2 htaken, Placed.isStored]
        · exact .inr ⟨s, rfl, hroom, .inl ⟨k, rfl, hk, place_given hs hroom hk⟩⟩

/-- The second model comes from the first by placing stones one after the other, each under an id, or
under none of its own, that satisfies `P`. -/
inductive Places (c : Catalog α) (P : Option Int32 → Prop) : Model α → Model α → Prop where
  | refl (m : Model α) : Places c P m m
  | step {m m' : Model α} (id : Option Int32) (insertId : Int32) (p : Placement) :
      P id → Places c P (m.place c id insertId p).2 m' → Places c P m m'

namespace Places

variable {P Q : Option Int32 → Prop} {m m' : Model α}

theorem mono (h : Places c P m m') (hPQ : ∀ id, P id → Q id) : Places c Q m m' := by
  induction h with
  | refl m => exact .refl m
  | step id insertId p hid _ ih => exact .step id insertId p (hPQ id hid) ih

/-- A property that each placement keeps is kept by all of them together. The placements are those
of a stone that its shape made and that nothing was in the way of. -/
theorem keeps {R : Model α → Prop} (h : Places c P m m')
    (given : ∀ (m : Model α) (s : Stone α) (k : Int32), P (some k) → s.Shaped c → m.blocks s = false →
      k ∉ m.ids → R m → R (m.put { s with id := k } (max m.nextStone (k + 1))))
    (next : ∀ (m : Model α) (s : Stone α), P none → s.Shaped c → m.blocks s = false → R m →
      R (m.put { s with id := m.nextStone } (m.nextStone + 1)))
    (hm : R m) : R m' := by
  induction h with
  | refl m => exact hm
  | @step m m' id insertId p hid _ ih =>
    apply ih
    rcases place_cases m c id insertId p with ⟨-, heq⟩ | ⟨s, hs, hroom, ⟨k, rfl, hk, heq⟩ | ⟨rfl, heq⟩⟩
    · rwa [heq]
    · rw [heq]
      exact given m s k hid (shaped_of_candidate? hs) hroom hk hm
    · rw [heq]
      exact next m s hid (shaped_of_candidate? hs) hroom hm

/-- Placing keeps the origin and the groups, and adds stones at the end only. -/
theorem frame (h : Places c P m m') : Frame m m' :=
  h.keeps (R := Frame m) (fun _ _ _ _ _ _ _ hn => hn.put _ _) (fun _ _ _ _ _ hn => hn.put _ _)
    (.refl m)

end Places

theorem placeAll_places (m : Model α) (c : Catalog α) (insertId : Int32) (ps : List Placement) :
    Places c (· = none) m (m.placeAll c insertId ps).2 := by
  induction ps generalizing m with
  | nil => exact .refl m
  | cons p ps ih => exact .step none insertId p rfl (ih _)

end Model

end Masonry
