import Masonry.Proofs.Model.Editing
import Masonry.Proofs.Space.Shift

/-!
# Moving the selection

A move takes the selected stones out and places them again one after the other, each checked against
the stones that stayed and against those that have come back before it. Over exact numbers the latter
are never in its way, because stones that keep apart keep apart when all of them move by one offset. So
a selected stone is lost if and only if its core comes to overlap that of an unselected one, whatever
the order of the stones (`moveSelection_survivors`). That holds in every model that is built with one
catalog and whose next id has not started again (`Built`): there the ids differ, and none of them makes
the next id go up when it is given again (`Counted`).
-/

namespace Masonry

variable {α : Type}

namespace Stone

/-- The stone as it comes back from a move by a number of cells. -/
def carried (s : Stone α) (offset : Cell) : Stone α :=
  { s with cell := s.cell + offset, selected := false }

end Stone

namespace Model

/-- The ids of the stones differ, and the next id is above all of them but the greatest. -/
structure Counted (m : Model α) : Prop where
  nodup : m.ids.Nodup
  lt_next : ∀ k ∈ m.ids, k ≠ Int32.maxValue → k < m.nextStone

namespace Counted

variable {m m' : Model α} {s : Stone α}

/-- The next id is free as long as it is not the greatest. -/
theorem nextStone_notMem (h : m.Counted) (hnext : m.nextStone ≠ Int32.maxValue) :
    m.nextStone ∉ m.ids :=
  fun hmem => Int32.lt_irrefl (h.lt_next _ hmem hnext)

/-- Giving an id in use again does not raise the next id: it is below, or nothing comes after it. -/
theorem max_nextStone (h : m.Counted) {k : Int32} (hk : k ∈ m.ids) :
    max m.nextStone (k + 1) = m.nextStone := by
  have hle : k + 1 ≤ m.nextStone := by
    by_cases hmax : k = Int32.maxValue
    · subst hmax
      exact Int32.minValue_le m.nextStone
    · exact Counter.add_one_le (h.lt_next k hk hmax)
  exact Int32.le_antisymm (Counter.max_le (Int32.le_refl _) hle) (Counter.le_max_left _ _)

theorem put (h : m.Counted) {next : Int32} (hs : s.id ∉ m.ids) (hle : m.nextStone ≤ next)
    (hlt : s.id ≠ Int32.maxValue → s.id < next) : (m.put s next).Counted := by
  refine ⟨nodup_ids_put.2 ⟨h.nodup, hs⟩, ?_⟩
  rw [ids_put, List.forall_mem_append, List.forall_mem_singleton]
  exact ⟨fun k hk hmax => Int32.lt_of_lt_of_le (h.lt_next k hk hmax) hle, hlt⟩

theorem of_sublist (h : m.Counted) (hs : m'.ids.Sublist m.ids) (hle : m.nextStone ≤ m'.nextStone) :
    m'.Counted :=
  ⟨h.nodup.sublist hs, fun k hk hmax => Int32.lt_of_lt_of_le (h.lt_next k (hs.subset hk) hmax) hle⟩

theorem of_perm (h : m.Counted) {l : List (Stone α)} (hl : l.Perm m.stones) :
    Counted { m with stones := l } :=
  ⟨(hl.map Stone.id).nodup_iff.2 h.nodup, fun k hk => h.lt_next k ((hl.map Stone.id).subset hk)⟩

variable [Scalar α] {c : Catalog α}

/-- Placing stones under given ids keeps the count. -/
theorem places {P : Option Int32 → Prop} (h : m.Counted) (hp : Places c P m m') (hP : ¬P none) :
    m'.Counted := by
  refine hp.keeps (R := Counted) (fun n s k _ _ _ hk hn => ?_) (fun _ _ hnone => absurd hnone hP) h
  refine hn.put hk (Counter.le_max_left _ _) fun hmax => ?_
  exact Int32.lt_of_lt_of_le (Counter.lt_add_one hmax) (Counter.le_max_right _ _)

/-- A batch keeps the count if it does not hand out the greatest id. -/
theorem placeAll (h : m.Counted) {insertId : Int32} {ps : List Placement}
    (hmax : Int32.maxValue ∉ Counter.upcoming m.nextStone (m.placeAll c insertId ps).1) :
    (m.placeAll c insertId ps).2.Counted := by
  induction ps generalizing m with
  | nil => exact h
  | cons p ps ih =>
    have hcons : m.placeAll c insertId (p :: ps) =
        let q := m.place c none insertId p
        let r := q.2.placeAll c insertId ps
        (if q.1.isStored then r.1 + 1 else r.1, r.2) := rfl
    rcases place_cases m c none insertId p with ⟨hrefused, hm⟩ | ⟨s, -, -, ⟨k, hk, -⟩ | ⟨-, hm⟩⟩
    · simp only [hcons, hrefused, hm, Bool.false_eq_true, if_false] at hmax ⊢
      exact ih h hmax
    · cases hk
    · simp only [hcons, hm, Placed.isStored, if_true, Counter.upcoming, List.mem_cons, not_or] at hmax ⊢
      have hnext : m.nextStone ≠ Int32.maxValue := Ne.symm hmax.1
      have hlt : m.nextStone < m.nextStone + 1 := Counter.lt_add_one hnext
      exact ih (h.put (h.nextStone_notMem hnext) (Int32.le_of_lt hlt) fun _ => hlt) hmax.2

theorem rearrange (h : m.Counted) (hr : Rearranges c m m') : m'.Counted := by
  have hdelete : m.deleteSelection.2.Counted :=
    h.of_sublist (List.filter_sublist.map _) (Int32.le_refl _)
  cases hr with
  | relabel hr => exact h.of_sublist (hr.ids_eq ▸ List.Sublist.refl _) (Int32.le_of_eq hr.nextStone.symm)
  | delete => exact hdelete
  | move offset => exact hdelete.places (moveSelection_places m c offset) (by simp)

end Counted

section Built

variable [Scalar α] {c : Catalog α} {m : Model α}

/-- The models that come from the empty one by work with one catalog, as long as no edit hands out the
greatest id, after which the next id would start again. Besides edits the work is to move the origin, to
place a stone under a given id, to mark any stones as the selection, and to restore the groups and a
next id that were saved. -/
inductive Built (c : Catalog α) : Model α → Prop where
  | start : Built c empty
  | origin {m : Model α} (origin : Vec3 α) : Built c m → Built c (m.withOrigin origin)
  | given {m : Model α} (id insertId : Int32) (p : Placement) :
      Built c m → Built c (m.place c (some id) insertId p).2
  | edit {m : Model α} (e : Edit α) :
      Built c m → Int32.maxValue ∉ m.handedOut c e → Built c (m.edit c e)
  | mark {m : Model α} (marked : Stone α → Bool) :
      Built c m → Built c (m.mapStones fun s => s.select (marked s))
  | restore {m : Model α} (nextStone : Int32) (groups : List Group) (nextGroup : Int32) : Built c m →
      Built c { m with nextStone := max m.nextStone nextStone, groups, nextGroup }

theorem Counted.edit (h : m.Counted) (e : Edit α) (hmax : Int32.maxValue ∉ m.handedOut c e) :
    (m.edit c e).Counted := by
  rcases edit_cases m c e with ⟨hr, -⟩ | ⟨insertId, ps, -, heq, hids⟩
  · exact h.rearrange hr
  · rw [heq]
    exact h.placeAll (hids ▸ hmax)

theorem Sound.edit (h : Sound c m) (e : Edit α) : Sound c (m.edit c e) := by
  rcases edit_cases m c e with ⟨hr, -⟩ | ⟨insertId, ps, -, heq, -⟩
  · exact h.rearrange hr
  · rw [heq]
    exact h.places (placeAll_places m c insertId ps)

theorem Sound.overlaps_eq_false (h : Sound c m) {s t : Stone α} (hs : s ∈ m.stones) (ht : t ∈ m.stones)
    (hne : s ≠ t) : (m.core s).overlaps (m.core t) = false := by
  obtain ⟨i, hi, rfl⟩ := List.getElem_of_mem hs
  obtain ⟨j, hj, rfl⟩ := List.getElem_of_mem ht
  refine h.overlaps_getElem_eq_false hi hj fun hij => hne ?_
  simp only [hij]

/-- Soundness does not look at the order of the stones. -/
theorem Sound.of_perm (h : Sound c m) {l : List (Stone α)} (hl : l.Perm m.stones) :
    Sound c { m with stones := l } := by
  refine ⟨?_, fun s hs => h.shaped s (hl.subset hs)⟩
  exact (hl.pairwise_iff fun hst => (Box.overlaps_comm _ _).trans hst).2 h.apart

theorem Built.counted (h : Built c m) : m.Counted := by
  induction h with
  | start => constructor <;> simp
  | origin origin _ ih => exact ⟨ih.nodup, ih.lt_next⟩
  | given id insertId p _ ih =>
    exact ih.places (.step (P := fun id => id.isSome) (some id) insertId p rfl (.refl _)) (by simp)
  | edit e _ hmax ih => exact ih.edit e hmax
  | mark marked _ ih =>
    exact ih.rearrange (c := c)
      (.relabel (marks_mapStones (fun s => s.bare_select _) _).toRelabels)
  | restore nextStone groups nextGroup _ ih =>
    exact ih.of_sublist (List.Sublist.refl _) (Counter.le_max_left _ _)

end Built

section Carrying

variable [Scalar α] {c : Catalog α} {m : Model α} {offset : Cell} {s : Stone α} {ss : List (Stone α)}

/-- A stone as its shape makes it is made again in any cell. -/
theorem candidate?_carried (hs : s.Shaped c) :
    candidate? c s.insertId (s.placement.shifted offset) = some { s.carried offset with id := 0 } := by
  have hturns : foldTurns (s.placement.shifted offset).turns = s.turns := foldTurns_of_lt hs.turns_lt
  refine candidate?_eq_some_iff.2 ⟨s.box, ?_, ?_⟩
  · rw [hturns]
    exact hs.box_eq
  · rw [hturns]
    rfl

/-- A stone with an id that is free and below the next one comes back if nothing blocks it. -/
theorem place_carried (hs : s.Shaped c) (hfree : s.id ∉ m.ids)
    (hnext : max m.nextStone (s.id + 1) = m.nextStone) :
    m.place c (some s.id) s.insertId (s.placement.shifted offset) =
      if m.blocks (s.carried offset) then (.blocked, m)
      else (.stored s.id, m.put (s.carried offset) m.nextStone) := by
  have hcandidate : candidate? c s.insertId (s.placement.shifted offset) = _ := candidate?_carried hs
  cases hroom : m.blocks (s.carried offset) with
  | true =>
    have hblocked : m.blocks { s.carried offset with id := 0 } = true := hroom
    simp [place, hcandidate, hblocked]
  | false =>
    rw [place_given hcandidate hroom hfree, hnext]
    rfl

theorem blocks_put (t : Stone α) (next : Int32) :
    (m.put t next).blocks s = (m.blocks s || (m.core t).overlaps (m.core s)) := by
  simp [blocks, put, core, worldBox]

/-- Stones that come back clear of each other come back unless a stone that was there blocks them. -/
theorem replaceAll_eq (hshaped : ∀ s ∈ ss, s.Shaped c) (hids : (m.ids ++ ss.map (·.id)).Nodup)
    (hnext : ∀ s ∈ ss, max m.nextStone (s.id + 1) = m.nextStone)
    (hapart : ss.Pairwise fun s t =>
      (m.core (s.carried offset)).overlaps (m.core (t.carried offset)) = false) :
    m.replaceAll c offset ss =
      ((ss.filter fun s => !m.blocks (s.carried offset)).length,
        { m with stones := m.stones ++
          (ss.filter fun s => !m.blocks (s.carried offset)).map (·.carried offset) }) := by
  induction ss generalizing m with
  | nil => simp [replaceAll]
  | cons s ss ih =>
    obtain ⟨hs, hshaped⟩ := List.forall_mem_cons.1 hshaped
    obtain ⟨hlow, hnext⟩ := List.forall_mem_cons.1 hnext
    obtain ⟨hclear, hapart⟩ := List.pairwise_cons.1 hapart
    have hids : (m.ids ++ [s.id] ++ ss.map (·.id)).Nodup := by
      rw [List.append_assoc]
      exact hids
    have hbefore : m.ids.Nodup ∧ s.id ∉ m.ids :=
      nodup_ids_put.1 ((ids_put m s m.nextStone).symm ▸ hids.of_append_left)
    have hcons : m.replaceAll c offset (s :: ss) =
        let q := m.place c (some s.id) s.insertId (s.placement.shifted offset)
        let r := q.2.replaceAll c offset ss
        (if q.1.isStored then r.1 + 1 else r.1, r.2) := rfl
    rw [place_carried hs hbefore.2 hlow] at hcons
    cases hroom : m.blocks (s.carried offset) with
    | true =>
      have hrest : (m.ids ++ ss.map (·.id)).Nodup :=
        hids.sublist ((List.sublist_append_left _ _).append_right _)
      rw [hcons, hroom, List.filter_cons_of_neg (by simp [hroom])]
      simp only [if_true, ih hshaped hrest hnext hapart, Placed.isStored, Bool.false_eq_true, if_false]
    | false =>
      -- The stone is in place now, and none of those that come after it runs into it.
      have hsame : (ss.filter fun t => !(m.put (s.carried offset) m.nextStone).blocks (t.carried offset)) =
          ss.filter fun t => !m.blocks (t.carried offset) := by
        refine List.filter_congr fun t ht => ?_
        rw [blocks_put, hclear t ht, Bool.or_false]
      have hput := ih (m := m.put (s.carried offset) m.nextStone) hshaped
        ((ids_put m (s.carried offset) m.nextStone).symm ▸ hids) hnext hapart
      rw [hsame] at hput
      rw [hcons, hroom, List.filter_cons_of_pos (by simp [hroom])]
      simp only [Bool.false_eq_true, if_false, hput, Placed.isStored, if_true, List.length_cons]
      rw [List.map_cons, put, List.append_assoc, List.singleton_append]

end Carrying

section Exact

variable {c : Catalog Rat} {m : Model Rat}

theorem core_eq_shifted (m : Model Rat) (s : Stone Rat) :
    m.core s = ((s.box.shifted (Grid.corner s.cell)).shrunk Grid.clearance).shifted m.origin := by
  rw [core, worldBox, Stone.boxFrom, ← Box.shifted_shifted, Box.shrunk_shifted]

theorem core_carried (m : Model Rat) (s : Stone Rat) (offset : Cell) :
    m.core (s.carried offset) = (m.core s).shifted (Grid.corner offset) := by
  have hcell : (Grid.corner (s.carried offset).cell : Vec3 Rat) = Grid.corner s.cell + Grid.corner offset :=
    Grid.corner_add s.cell offset
  rw [core_eq_shifted, core_eq_shifted, hcell, ← Box.shifted_shifted, Box.shrunk_shifted]
  exact Box.shifted_swap _ _ _

/-- Wherever the origin is, the same stones overlap. -/
theorem Sound.withOrigin (h : Sound c m) (origin : Vec3 Rat) : Sound c (m.withOrigin origin) := by
  refine ⟨h.apart.imp fun hst => ?_, h.shaped⟩
  rw [core_eq_shifted, core_eq_shifted, Box.overlaps_shifted] at hst ⊢
  exact hst

theorem Built.sound (h : Built c m) : Sound c m := by
  induction h with
  | start => exact sound_empty
  | origin origin _ ih => exact ih.withOrigin origin
  | given id insertId p _ ih =>
    exact ih.places (.step (P := fun _ => True) (some id) insertId p trivial (.refl _))
  | edit e _ _ ih => exact ih.edit e
  | mark marked _ ih => exact ih.relabel (marks_mapStones (fun s => s.bare_select _) _).toRelabels
  | restore nextStone groups nextGroup _ ih => exact ⟨ih.apart, ih.shaped⟩

/-- An unselected stone stands where the core of the stone comes to lie. -/
def Obstructed (m : Model Rat) (offset : Cell) (s : Stone Rat) : Prop :=
  ∃ t ∈ m.stones, t.selected = false ∧
    (m.core t).overlaps ((m.core s).shifted (Grid.corner offset)) = true

instance (m : Model Rat) (offset : Cell) (s : Stone Rat) : Decidable (m.Obstructed offset s) :=
  inferInstanceAs (Decidable (∃ t ∈ m.stones, _))

/-- The selected stones that nothing obstructs, in their order. -/
def survivors (m : Model Rat) (offset : Cell) : List (Stone Rat) :=
  m.selection.filter fun s => ¬ m.Obstructed offset s

/-- Where stones come back, those that stayed block the ones that they obstruct. -/
theorem blocks_carried_iff (m : Model Rat) (offset : Cell) (s : Stone Rat) :
    m.deleteSelection.2.blocks (s.carried offset) = true ↔ m.Obstructed offset s := by
  have hcore : m.deleteSelection.2.core (s.carried offset) = (m.core s).shifted (Grid.corner offset) :=
    core_carried m s offset
  rw [blocks, List.any_eq_true, hcore]
  constructor
  · rintro ⟨t, ht, hover⟩
    obtain ⟨hmem, hmark⟩ := List.mem_filter.1 ht
    exact ⟨t, hmem, by simpa using hmark, hover⟩
  · rintro ⟨t, hmem, hmark, hover⟩
    exact ⟨t, List.mem_filter.2 ⟨hmem, by simpa using hmark⟩, hover⟩

/-- What a move does to a sound model: the stones that nothing obstructs come back behind those that
stayed. -/
theorem moveSelection_eq (hsound : Sound c m) (hcounted : m.Counted) (offset : Cell) :
    m.moveSelection c offset = ((m.survivors offset).length,
      { m with
        stones := m.stones.filter (!·.selected) ++ (m.survivors offset).map (·.carried offset) }) := by
  have hselection : ∀ s ∈ m.selection, s ∈ m.stones := fun s hs => List.mem_of_mem_filter hs
  have hparts : (m.stones.filter (!·.selected) ++ m.selection).Perm m.stones :=
    List.perm_append_comm.trans (List.filter_append_perm Stone.selected m.stones)
  have hids : (m.deleteSelection.2.ids ++ m.selection.map (·.id)).Nodup := by
    rw [ids, ← List.map_append]
    exact (hparts.map Stone.id).nodup_iff.2 hcounted.nodup
  have hapart : m.selection.Pairwise fun s t =>
      (m.deleteSelection.2.core (s.carried offset)).overlaps
        (m.deleteSelection.2.core (t.carried offset)) = false := by
    refine (hsound.apart.sublist List.filter_sublist).imp fun {s t} hst => ?_
    show (m.core (s.carried offset)).overlaps (m.core (t.carried offset)) = false
    rw [core_carried, core_carried, Box.overlaps_shifted]
    exact hst
  have hblocks : ∀ s ∈ m.selection, (!m.deleteSelection.2.blocks (s.carried offset)) =
      decide (¬ m.Obstructed offset s) := by
    intro s _
    rw [decide_not]
    exact congrArg (!·) (Bool.eq_iff_iff.2 ((blocks_carried_iff m offset s).trans decide_eq_true_iff.symm))
  have hmove := replaceAll_eq (m := m.deleteSelection.2) (fun s hs => hsound.shaped s (hselection s hs))
    hids (fun s hs => hcounted.max_nextStone (List.mem_map_of_mem (hselection s hs))) hapart
  rw [List.filter_congr hblocks] at hmove
  exact hmove

/-- The order of the stones does not matter to what survives. -/
theorem survivors_perm {l : List (Stone Rat)} (hl : l.Perm m.stones) (offset : Cell) :
    ({ m with stones := l }.survivors offset).Perm (m.survivors offset) := by
  have hobstructed : ∀ s, ({ m with stones := l } : Model Rat).Obstructed offset s ↔
      m.Obstructed offset s := fun s => exists_congr fun t => and_congr_left fun _ => hl.mem_iff
  have hfilter : { m with stones := l }.survivors offset =
      (l.filter (·.selected)).filter fun s => ¬ m.Obstructed offset s :=
    List.filter_congr fun s _ => decide_eq_decide.2 (not_congr (hobstructed s))
  rw [hfilter]
  exact (hl.filter _).filter _

/-- Stones that stay where they are stay clear of each other. -/
theorem survivors_zero (hsound : Sound c m) : m.survivors 0 = m.selection := by
  refine List.filter_eq_self.2 fun s hs => decide_eq_true ?_
  obtain ⟨hmem, hmark⟩ := List.mem_filter.1 hs
  rintro ⟨t, ht, hstay, hover⟩
  have hne : t ≠ s := by
    rintro rfl
    rw [hstay] at hmark
    cases hmark
  rw [Grid.corner_zero, Box.shifted_zero, hsound.overlaps_eq_false ht hmem hne] at hover
  cases hover

/-- A stone is lost if and only if it is selected and does not survive. -/
theorem id_notMem_moveSelection_iff (hsound : Sound c m) (hcounted : m.Counted) (offset : Cell)
    {s : Stone Rat} (hs : s ∈ m.selection) :
    s.id ∉ (m.moveSelection c offset).2.ids ↔ m.Obstructed offset s := by
  obtain ⟨hmem, hmark⟩ := List.mem_filter.1 hs
  have hsame : ∀ t ∈ m.stones, t.id = s.id → t = s := fun t ht =>
    List.inj_on_of_nodup_map hcounted.nodup ht hmem
  have hstay : s.id ∉ (m.stones.filter (!·.selected)).map (·.id) := by
    rw [List.mem_map]
    rintro ⟨t, ht, hid⟩
    obtain ⟨htmem, htmark⟩ := List.mem_filter.1 ht
    rw [hsame t htmem hid, hmark] at htmark
    cases htmark
  have hback : s.id ∈ (m.survivors offset).map (·.id) ↔ s ∈ m.survivors offset := by
    refine ⟨fun h => ?_, fun h => List.mem_map_of_mem h⟩
    obtain ⟨t, ht, hid⟩ := List.mem_map.1 h
    exact hsame t (List.mem_of_mem_filter (List.mem_of_mem_filter ht)) hid ▸ ht
  have hids : (m.moveSelection c offset).2.ids =
      (m.stones.filter (!·.selected)).map (·.id) ++ (m.survivors offset).map (·.id) := by
    rw [moveSelection_eq hsound hcounted, ids, List.map_append, List.map_map]
    rfl
  rw [hids, List.mem_append, or_iff_right hstay, hback, survivors, List.mem_filter, decide_eq_true_iff,
    not_and_not_right]
  exact ⟨fun h => h hs, fun h _ => h⟩

/-- Moving the selection of a model that work has built loses the stones that an unselected one
obstructs, and no others. Those that stayed come first and the survivors behind them, each in the old
order, and they are counted; nothing else changes, the next id included. In another order of the stones
the same ones survive, and where nothing moves nothing is lost. -/
theorem moveSelection_survivors (h : Built c m) (offset : Cell) :
    (∀ s ∈ m.selection, s.id ∉ (m.moveSelection c offset).2.ids ↔ m.Obstructed offset s) ∧
    m.moveSelection c offset = ((m.survivors offset).length,
      { m with stones := m.stones.filter (!·.selected) ++ (m.survivors offset).map (·.carried offset) }) ∧
    (∀ l, l.Perm m.stones → ({ m with stones := l }.moveSelection c offset).2.stones.Perm
      (m.moveSelection c offset).2.stones) ∧
    (m.moveSelection c 0).1 = m.selection.length := by
  have hsound := h.sound
  have hcounted := h.counted
  refine ⟨fun s hs => id_notMem_moveSelection_iff hsound hcounted offset hs,
    moveSelection_eq hsound hcounted offset, fun l hl => ?_, ?_⟩
  · have hmove := moveSelection_eq (hsound.of_perm hl) (hcounted.of_perm hl) offset
    rw [hmove, moveSelection_eq hsound hcounted offset]
    exact (hl.filter _).append ((survivors_perm hl offset).map _)
  · rw [moveSelection_eq hsound hcounted, survivors_zero hsound]

/-- The catalog of one plank, four cells long and one level high. -/
def planks : Catalog Rat :=
  ⟨[{ Shape.blank "s411" with id := 411, vertices := [⟨0, 0, 0⟩, ⟨4, 0.4, 1⟩] }]⟩

/-- Two planks in a row that are selected, the second turned half way round and under a given id, and a
third one two cells further on. -/
def row : Model Rat :=
  let first := (empty.edit planks (.insert 0 ⟨411, .white, 0, ⟨0, 0, 0⟩⟩)).withOrigin ⟨0.5, 0, 0⟩
  let second := (first.place planks (some 7) 0 ⟨411, .white, 2, ⟨8, 0, 1⟩⟩).2
  (second.edit planks (.insert 1 ⟨411, .white, 0, ⟨10, 0, 0⟩⟩)).mapStones fun s => s.select (s.insertId = 0)

/-- Moved by its length, the first plank comes where the second one was, which is lost at the third. -/
theorem moveSelection_survivors_row : Built planks row ∧
    (row.moveSelection planks ⟨4, 0, 0⟩).1 = 1 ∧
    (row.moveSelection planks ⟨4, 0, 0⟩).2.ids = [8, 0] := by
  have hbuilt : Built planks row :=
    .mark _ (.edit _ (.given _ _ _ (.origin _ (.edit _ .start (by decide +kernel)))) (by decide +kernel))
  rw [(moveSelection_survivors hbuilt ⟨4, 0, 0⟩).2.1]
  exact ⟨hbuilt, by decide +kernel, by decide +kernel⟩

end Exact

end Model

end Masonry
