import Masonry.Proofs.Session.Preview

/-!
# Clicks

A click is a press and a release with no move between them. The press turns the stack that the
cursor shows into the plan of a drag that has not left its anchor, and the release places that plan.
The two agree on filled brushes and on single layers; on every second layer of a wall the running
bond moves the stone two cells on (`run_clicks`).
-/

namespace Masonry

namespace Plan

theorem covering_self (start step : Int) : covering start start step = [start] := by
  simp [covering, wholeSteps, stepsToward]

theorem slabLayer_self (b : Brush) (start dest : Cell) (hx : dest.x = start.x)
    (hz : dest.z = start.z) : slabLayer b start dest = [b.stone false start] := by
  simp [slabLayer, hx, hz, covering_self]

/-- The first stone of a straight layer lies at its start, and an odd layer starts elsewhere. -/
theorem straightLayer_eq_cons (b : Brush) (row : Nat) (start dest : Cell)
    (h : b.longAxis.of dest = b.longAxis.of start) :
    ∃ more, straightLayer b row start dest =
      b.stone false (if row % 2 = 0 then start else b.longAxis.move start 2) :: more := by
  simp [straightLayer, h]

/-- A layer that starts where the drag ends is one stone. -/
theorem straightLayer_self (b : Brush) (start dest : Cell)
    (h : b.longAxis.of dest = b.longAxis.of start) :
    straightLayer b 0 start dest = [b.stone false start] := by
  simp [straightLayer, walk, Side.cells, Side.coordinates, wholeSteps, stepsToward, h]

/-- A layer of a drag that has not left its anchor is the one stone of the stack, if the brush is
filled or it is the first layer. -/
theorem layer_self (b : Brush) (row : Nat) (start dest : Cell) (hx : dest.x = start.x)
    (hz : dest.z = start.z) (h : b.filled = true ∨ row = 0) :
    layer b row start dest = [b.stone false start] := by
  have hof : ∀ a : Axis, a.of dest = a.of start := by
    intro a
    cases a with
    | x => exact hx
    | z => exact hz
  unfold layer
  split
  · exact slabLayer_self b start dest hx hz
  · rename_i hfilled
    obtain rfl : row = 0 := h.resolve_left hfilled
    rw [if_pos (hof _)]
    exact straightLayer_self b start dest (hof _)

/-- Filled brushes and single layers: a drag that has not left its anchor asks for the stack. -/
theorem drag_self_eq_stack {b : Brush} (hx : 0 < b.size.x) (hy : 0 < b.size.y) (hz : 0 < b.size.z)
    (h : b.filled = true ∨ b.layers ≤ 1) (anchor : Cell) :
    drag b anchor anchor = stack b anchor := by
  have hlayer : ∀ l ∈ layers b anchor, layer b l.1 l.2 anchor = [b.stone false l.2] := by
    intro l hl
    obtain ⟨row, hrow, rfl⟩ := List.mem_map.1 hl
    have hlt : row < b.layers := List.mem_range.1 hrow
    apply layer_self
    · rfl
    · rfl
    · exact h.imp_right fun hone => by omega
  rw [drag, if_neg (by omega), stack, if_neg (by omega), List.map_eq_flatMap]
  exact List.flatMap_congr hlayer

theorem layers_eq_cons_cons {b : Brush} (h : 2 ≤ b.layers) (anchor : Cell) : ∃ rest,
    layers b anchor = (0, anchor) :: (1, { anchor with y := anchor.y + b.size.y }) :: rest := by
  obtain ⟨n, hn⟩ : ∃ n, b.layers = n + 2 := ⟨b.layers - 2, by omega⟩
  simp [layers, hn, List.range_succ_eq_map]

/-- Walls of more than one layer: the second stone of the stack is moved two cells on. -/
theorem drag_self_ne_stack {b : Brush} (hx : 0 < b.size.x) (hy : 0 < b.size.y) (hz : 0 < b.size.z)
    (hwall : b.filled = false) (hlayers : 2 ≤ b.layers) (anchor : Cell) :
    drag b anchor anchor ≠ stack b anchor := by
  obtain ⟨rest, hrows⟩ := layers_eq_cons_cons hlayers anchor
  generalize hsecond : ({ anchor with y := anchor.y + b.size.y } : Cell) = second at hrows
  have hlevel : ∀ a : Axis, a.of anchor = a.of second := by
    intro a
    rw [← hsecond]
    cases a <;> rfl
  have hbelow : layer b 0 anchor anchor = [b.stone false anchor] :=
    layer_self b 0 anchor anchor rfl rfl (.inr rfl)
  obtain ⟨more, habove⟩ : ∃ more,
      layer b 1 second anchor = b.stone false (b.longAxis.move second 2) :: more := by
    rw [layer, hwall, if_neg (by decide), if_pos (hlevel _)]
    exact straightLayer_eq_cons b 1 second anchor (hlevel _)
  rw [drag, if_neg (by omega), stack, if_neg (by omega), hrows]
  intro heq
  simp only [List.flatMap_cons, List.map_cons, hbelow, habove, List.cons_append, List.nil_append,
    List.cons.injEq, true_and] at heq
  have hcell : b.longAxis.move second 2 = second := congrArg Placement.cell heq.1
  have hof : b.longAxis.of second + 2 = b.longAxis.of second := by
    rw [← Axis.of_put b.longAxis second (b.longAxis.of second + 2)]
    exact congrArg b.longAxis.of hcell
  omega

/-- A drag that has not left its anchor asks for the stack if and only if there are no stones in
either, or the stones have an extent along every axis and no layer is set off from the one below. -/
theorem drag_self_eq_stack_iff (b : Brush) (anchor : Cell) :
    drag b anchor anchor = stack b anchor ↔
      b.size.y ≤ 0 ∨ b.layers = 0 ∨
        (0 < b.size.x ∧ 0 < b.size.z ∧ (b.filled = true ∨ b.layers = 1)) := by
  by_cases hy : b.size.y ≤ 0
  · simp [drag, stack, hy]
  by_cases hempty : b.layers = 0
  · simp [drag, stack, layers, hempty]
  by_cases hflat : b.size.x ≤ 0 ∨ b.size.z ≤ 0
  · have hdrag : drag b anchor anchor = [] := by
      rw [drag, if_pos (by omega)]
    have hstack : stack b anchor ≠ [] := by
      simp [stack, layers, hy, hempty]
    constructor
    · intro heq
      exact absurd (heq.symm.trans hdrag) hstack
    · intro h
      omega
  · have hx : 0 < b.size.x := by omega
    have hz : 0 < b.size.z := by omega
    constructor
    · intro heq
      by_cases hwall : b.filled = false ∧ 2 ≤ b.layers
      · exact absurd heq (drag_self_ne_stack hx (by omega) hz hwall.1 hwall.2 anchor)
      · have hone : b.filled = true ∨ b.layers = 1 := by
          cases hfilled : b.filled with
          | true => exact .inl rfl
          | false => exact .inr (by simp [hfilled] at hwall; omega)
        exact .inr (.inr ⟨hx, hz, hone⟩)
    · rintro (h | h | ⟨-, -, h⟩)
      · omega
      · exact absurd h hempty
      · exact drag_self_eq_stack hx (by omega) hz (h.imp_right fun hone => by omega) anchor

end Plan

namespace Session

variable {α : Type} [Scalar α] [Stored α]

/-- What a click does. It attempts to place, in this order, what a drag from the anchor to itself asks
for. These are the stones that the preview showed before the press if and only if it showed none, or
the stones have an extent along every axis and are those of a filled brush or of a single layer. -/
structure Clicks (s : Session α) : Prop where
  count : ((s.handle .press).2.handle .release).1 = .count
    (s.model.placeAll s.catalog s.nextInsert (Plan.drag s.brush s.anchor s.anchor)).1
  model : ((s.handle .press).2.handle .release).2.model =
    (s.model.placeAll s.catalog s.nextInsert (Plan.drag s.brush s.anchor s.anchor)).2
  preview_iff : Plan.drag s.brush s.anchor s.anchor = s.preview ↔
    s.brush.size.y ≤ 0 ∨ s.brush.layers = 0 ∨
      (0 < s.brush.size.x ∧ 0 < s.brush.size.z ∧ (s.brush.filled = true ∨ s.brush.layers = 1))

/-- In every state of every session in which stones are inserted, a click attempts to place the plan
of a drag from the anchor to itself, which need not be the preview. -/
theorem run_clicks (c : Catalog α) (settings : Settings) (signals : List (Signal α))
    (hmode : ((start c settings).run signals).mode = .insert) :
    ((start c settings).run signals).Clicks := by
  have hhover := preview_run c settings signals
  generalize (start c settings).run signals = s at hmode hhover ⊢
  rw [planned, hmode] at hhover
  have hpress : s.press = { s with
      mode := .drag, dragEnd := s.anchor, preview := Plan.drag s.brush s.anchor s.anchor } := by
    rw [press, if_pos hmode]
    rfl
  constructor
  · show Reply.count s.press.release.1 = _
    rw [hpress]
    rfl
  · show s.press.release.2.model = _
    rw [hpress]
    rfl
  · rw [hhover]
    exact Plan.drag_self_eq_stack_iff s.brush s.anchor

/-- A session that is about to place two layers of stones four cells long, three levels high and two
cells wide. -/
def twoLayers : Session Binary64 := (start .points .default).run [.setLayers 2]

theorem run_clicks_twoLayers : twoLayers.mode = .insert ∧ twoLayers.Clicks :=
  ⟨by decide +kernel, run_clicks .points .default [.setLayers 2] (by decide +kernel)⟩

/-- A click does not always place what the preview showed: the second of two layers is placed two
cells beside the stone of the preview. -/
theorem twoLayers_click_places_other :
    twoLayers.mode = .insert ∧
      twoLayers.preview = [⟨432, .white, 0, ⟨0, 0, 0⟩⟩, ⟨432, .white, 0, ⟨0, 3, 0⟩⟩] ∧
      (twoLayers.run [.press, .release]).model.stones.map Stone.placement =
        [⟨432, .white, 0, ⟨0, 0, 0⟩⟩, ⟨432, .white, 0, ⟨2, 3, 0⟩⟩] ∧
      (twoLayers.run [.press, .release]).model.stones.map Stone.placement ≠ twoLayers.preview := by
  decide +kernel

end Session

end Masonry
