import Mathlib.Data.List.Forall2
import Mathlib.Data.List.Induction
import Masonry.Proofs.Model.Placing

/-!
# Batches of placements

A batch is placed in its order, and each placement is accepted or refused for good: it is accepted if
its shape is known and its core keeps clear of the stones that were there and of the placements
accepted before it (`Fits`, `accepted`). Only the accepted ones become stones, in their order
(`accepted_sublist`, `placeAll_gains`), and without the others the batch does the same
(`placeAll_accepted`).
-/

namespace Masonry

variable {α : Type}

/-- The placement with its quarter turns folded. -/
def Placement.normal (p : Placement) : Placement := .folded p.code p.color p.turns p.cell

/-- The stone is what a placement becomes under an insert id; its id is open. -/
structure Stone.Realizes [Scalar α] (c : Catalog α) (insertId : Int32) (p : Placement)
    (s : Stone α) : Prop where
  placement_eq : s.placement = p.normal
  insertId_eq : s.insertId = insertId
  selected_eq : s.selected = false
  shaped : s.Shaped c

namespace Model

variable [Scalar α] {c : Catalog α} {m m' : Model α} {insertId : Int32} {kept ps : List Placement}
  {p : Placement} {s : Stone α}

/-- The part of a placement that no stone may enter, if its shape is known. -/
def coreAt? (m : Model α) (c : Catalog α) (p : Placement) : Option (Box α) :=
  (c.boxAt? p.code (degrees (foldTurns p.turns))).map fun box =>
    (box.shifted (Grid.corner p.cell + m.origin)).shrunk Grid.clearance

/-- The placement has a shape, and its core overlaps no stone and none of the placements that have
been accepted. -/
def Fits (m : Model α) (c : Catalog α) (kept : List Placement) (p : Placement) : Prop :=
  ∃ core ∈ m.coreAt? c p, (∀ s ∈ m.stones, (m.core s).overlaps core = false) ∧
    ∀ q ∈ kept, ∀ other ∈ m.coreAt? c q, other.overlaps core = false

instance : Decidable (m.Fits c kept p) := inferInstanceAs (Decidable (∃ core ∈ m.coreAt? c p, _))

/-- The placements that are accepted when one after the other is tried. -/
def accepted (m : Model α) (c : Catalog α) (ps : List Placement) : List Placement :=
  ps.foldl (fun kept p => if m.Fits c kept p then kept ++ [p] else kept) []

theorem accepted_concat (ps : List Placement) (p : Placement) : m.accepted c (ps ++ [p]) =
    if m.Fits c (m.accepted c ps) p then m.accepted c ps ++ [p] else m.accepted c ps := by
  rw [accepted, List.foldl_concat]
  rfl

theorem accepted_sublist (m : Model α) (c : Catalog α) (ps : List Placement) :
    (m.accepted c ps).Sublist ps := by
  induction ps using List.reverseRecOn with
  | nil => exact .slnil
  | append_singleton ps p ih =>
    rw [accepted_concat]
    split
    · exact ih.append_right [p]
    · exact ih.trans (List.sublist_append_left ps [p])

/-- Placements that keep clear of the stones and of each other are all accepted. -/
theorem accepted_eq_self {core : Placement → Box α} (hcore : ∀ p ∈ ps, m.coreAt? c p = some (core p))
    (hroom : ∀ p ∈ ps, ∀ s ∈ m.stones, (m.core s).overlaps (core p) = false)
    (hapart : ps.Pairwise fun p q => (core p).overlaps (core q) = false) : m.accepted c ps = ps := by
  induction ps using List.reverseRecOn with
  | nil => rfl
  | append_singleton ps p ih =>
    simp only [List.forall_mem_append, List.forall_mem_singleton] at hcore hroom
    obtain ⟨hbefore, -, hcross⟩ := List.pairwise_append.1 hapart
    have hfits : m.Fits c ps p := by
      refine ⟨core p, hcore.2, hroom.2, fun q hq other hother => ?_⟩
      obtain rfl : core q = other := Option.some.inj ((hcore.1 q hq).symm.trans hother)
      exact hcross q hq p (List.mem_singleton_self p)
    rw [accepted_concat, ih hcore.1 hroom.1 hbefore, if_pos hfits]

/-- The core of what a placement becomes. -/
theorem coreAt?_eq_map_candidate? (m : Model α) (insertId : Int32) (p : Placement) :
    m.coreAt? c p = (candidate? c insertId p).map m.core := by
  rw [candidate?, Option.map_map]
  rfl

/-- What a placement becomes realizes it, whatever id it gets. -/
theorem realizes_candidate? (h : candidate? c insertId p = some s) (id : Int32) :
    { s with id }.Realizes c insertId p := by
  have hshaped := shaped_of_candidate? h
  obtain ⟨box, -, rfl⟩ := candidate?_eq_some_iff.1 h
  exact ⟨rfl, rfl, rfl, hshaped.turns_lt, hshaped.box_eq⟩

theorem coreAt?_of_realizes (h : s.Realizes c insertId p) : m.coreAt? c p = some (m.core s) := by
  have hcode : s.code = p.code := congrArg Placement.code h.placement_eq
  have hturns : s.turns = foldTurns p.turns := congrArg Placement.turns h.placement_eq
  have hcell : s.cell = p.cell := congrArg Placement.cell h.placement_eq
  rw [coreAt?, ← hcode, ← hturns, ← hcell, h.shaped.box_eq]
  rfl

theorem forall_core_iff {added : List (Stone α)} {P : Box α → Prop}
    (h : List.Forall₂ (Stone.Realizes c insertId) kept added) :
    (∀ q ∈ kept, ∀ core ∈ m.coreAt? c q, P core) ↔ ∀ t ∈ added, P (m.core t) := by
  induction h with
  | nil => simp
  | cons hp _ ih => simp only [List.forall_mem_cons, coreAt?_of_realizes hp, ih, Option.mem_some_iff,
      forall_eq']

theorem map_placement_of_realizes {added : List (Stone α)}
    (h : List.Forall₂ (Stone.Realizes c insertId) kept added) :
    added.map Stone.placement = kept.map Placement.normal := by
  induction h with
  | nil => rfl
  | cons hp _ ih => rw [List.map_cons, List.map_cons, hp.placement_eq, ih]

/-- The second model is the first with stones for some placements, in their order, after its own. -/
structure Gains (c : Catalog α) (insertId : Int32) (kept : List Placement) (m m' : Model α) : Prop
    extends Frame m m' where
  realized : ∃ added, m'.stones = m.stones ++ added ∧
    List.Forall₂ (Stone.Realizes c insertId) kept added

namespace Gains

theorem refl (m : Model α) : Gains c insertId [] m m := ⟨.refl m, [], by simp, .nil⟩

/-- What a placement becomes has room among the stones of the accepted placements just where it fits
with these. -/
theorem blocks_eq_false_iff (h : Gains c insertId kept m m') (hs : candidate? c insertId p = some s) :
    m'.blocks s = false ↔ m.Fits c kept p := by
  obtain ⟨added, hstones, hadded⟩ := h.realized
  have hcore : m.coreAt? c p = some (m.core s) := by
    rw [coreAt?_eq_map_candidate? m insertId, hs]
    rfl
  rw [Model.blocks_eq_false_iff, core_eq_of_origin_eq h.origin, hstones, List.forall_mem_append,
    ← forall_core_iff (P := fun core => core.overlaps (m.core s) = false) hadded, Fits, hcore]
  simp

/-- A placement that fits is stored after those accepted before it. -/
theorem place (h : Gains c insertId kept m m') (hp : m.Fits c kept p) :
    (m'.place c none insertId p).1.isStored = true ∧
      Gains c insertId (kept ++ [p]) m (m'.place c none insertId p).2 := by
  have ⟨core, hcore, _⟩ := hp
  rw [coreAt?_eq_map_candidate? m insertId, Option.mem_def, Option.map_eq_some_iff] at hcore
  obtain ⟨s, hs, -⟩ := hcore
  obtain ⟨added, hstones, hadded⟩ := h.realized
  rw [place_next hs ((h.blocks_eq_false_iff hs).2 hp)]
  refine ⟨rfl, h.toFrame.put _ _, added ++ [{ s with id := m'.nextStone }], ?_, ?_⟩
  · simp [put, hstones]
  · exact List.rel_append hadded (.cons (realizes_candidate? hs m'.nextStone) .nil)

/-- A placement that does not fit is refused and leaves no trace. -/
theorem place_refused (h : Gains c insertId kept m m') (hp : ¬m.Fits c kept p) :
    (m'.place c none insertId p).1.isStored = false ∧ (m'.place c none insertId p).2 = m' := by
  rcases place_cases m' c none insertId p with hrefused | ⟨s, hs, hroom, -⟩
  · exact hrefused
  · exact absurd ((h.blocks_eq_false_iff hs).1 hroom) hp

end Gains

theorem placeAll_concat (m : Model α) (c : Catalog α) (insertId : Int32) (ps : List Placement)
    (p : Placement) :
    m.placeAll c insertId (ps ++ [p]) =
      let (count, m) := m.placeAll c insertId ps
      let (placed, m) := m.place c none insertId p
      (if placed.isStored then count + 1 else count, m) := by
  induction ps generalizing m with
  | nil => simp [placeAll]
  | cons q ps ih =>
    simp only [List.cons_append, placeAll, ih]
    congr 1
    split <;> split <;> rfl

/-- A batch puts in the stones of its accepted placements and counts them. -/
theorem placeAll_gains (m : Model α) (c : Catalog α) (insertId : Int32) (ps : List Placement) :
    (m.placeAll c insertId ps).1 = (m.accepted c ps).length ∧
      Gains c insertId (m.accepted c ps) m (m.placeAll c insertId ps).2 := by
  induction ps using List.reverseRecOn with
  | nil => exact ⟨rfl, .refl m⟩
  | append_singleton ps p ih =>
    obtain ⟨hcount, hgains⟩ := ih
    rw [placeAll_concat, accepted_concat]
    -- The last placement meets the stones of those accepted so far, which is all that fitting looks at.
    by_cases hp : m.Fits c (m.accepted c ps) p
    · obtain ⟨hstored, hnext⟩ := hgains.place hp
      simp only [hstored, hp, if_true, List.length_append, List.length_singleton, hcount]
      exact ⟨trivial, hnext⟩
    · obtain ⟨hrefused, hsame⟩ := hgains.place_refused hp
      simp only [hrefused, hp, if_false, hsame, Bool.false_eq_true]
      exact ⟨hcount, hgains⟩

theorem accepted_accepted (m : Model α) (c : Catalog α) (ps : List Placement) :
    m.accepted c (m.accepted c ps) = m.accepted c ps := by
  induction ps using List.reverseRecOn with
  | nil => rfl
  | append_singleton ps p ih =>
    rw [accepted_concat]
    split
    · rw [accepted_concat, ih, if_pos ‹_›]
    · exact ih

/-- A batch does what its accepted placements alone would do. -/
theorem placeAll_accepted (m : Model α) (c : Catalog α) (insertId : Int32) (ps : List Placement) :
    m.placeAll c insertId (m.accepted c ps) = m.placeAll c insertId ps := by
  induction ps using List.reverseRecOn with
  | nil => rfl
  | append_singleton ps p ih =>
    rw [accepted_concat, placeAll_concat m c insertId ps]
    split
    · rw [placeAll_concat, ih]
    · obtain ⟨hrefused, hsame⟩ := (placeAll_gains m c insertId ps).2.place_refused ‹_›
      rw [ih]
      simp [hrefused, hsame]

end Model

end Masonry
