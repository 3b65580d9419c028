import Masonry.Proofs.Model.Level
import Masonry.Proofs.Session.Edits

/-!
# The level of a drag

While stones are dragged the cursor moves on the level that the model holds, and the anchor lies on the
level on which the pointer has put it. The two agree until another document is opened: that brings a
model which holds level zero, and leaves the anchor where it is (`Reopened`). So drags stay on the level
of their anchor exactly where no stones are dragged off level zero between the opening of a document
and the next time the anchor is put (`run_drags_level`).
-/

namespace Masonry.Session

variable {α : Type} [Scalar α]

/-- The pointer puts the anchor into a cell: no stones are being dragged, and it is over a cell. -/
def putsAnchor (s : Session α) : Signal α → Bool
  | .moveTo ray => s.mode ≠ .drag && (s.model.cellAt ray s.level s.holdsLevel).1.isSome
  | _ => false

/-- A move of the pointer changes nothing, or it draws the end of a drag along the level that the model
holds, or it puts the anchor and the model holds the level of it. -/
inductive Moves (s : Session α) (ray : Ray α) : Session α → Prop where
  | off (puts : s.putsAnchor (.moveTo ray) = false) : Moves s ray s
  | drag (cell : Cell) (puts : s.putsAnchor (.moveTo ray) = false) (mode : s.mode = .drag)
      (level : cell.y = s.model.lastLevel) :
      Moves s ray { s with model.lastLevel := cell.y, dragEnd := cell }.refresh
  | put (cell : Cell) (puts : s.putsAnchor (.moveTo ray) = true) (mode : s.mode ≠ .drag) :
      Moves s ray { s with model.lastLevel := cell.y, anchor := cell, dragEnd := cell }.refresh

theorem moves_moveTo (s : Session α) (ray : Ray α) : s.Moves ray (s.moveTo ray) := by
  rcases s.model.cellAt_cases ray s.level s.holdsLevel with hnone | ⟨cell, hsome, hheld⟩
  · have heq : s.moveTo ray = s := by
      rw [moveTo, hnone]
    rw [heq]
    exact .off (by simp [putsAnchor, hnone])
  · by_cases hmode : s.mode = .drag
    · have heq : s.moveTo ray = { s with model.lastLevel := cell.y, dragEnd := cell }.refresh := by
        rw [moveTo, hsome]
        exact if_pos hmode
      rw [heq]
      exact .drag cell (by simp [putsAnchor, hmode]) hmode (hheld (by simp [holdsLevel, hmode]))
    · have heq : s.moveTo ray =
          { s with model.lastLevel := cell.y, anchor := cell, dragEnd := cell }.refresh := by
        rw [moveTo, hsome]
        exact if_neg hmode
      rw [heq]
      exact .put cell (by simp [putsAnchor, hmode, hsome]) hmode

omit [Scalar α] in
/-- Only moves of the pointer ask for cells. -/
theorem edit?_ne_look {s : Session α} {e : Signal α} {work : Edit α} (he : ∀ ray, e ≠ .moveTo ray)
    (h : s.edit? e = some work) : ∀ r level hold, work ≠ .look r level hold := by
  rintro r level hold rfl
  cases e with
  | moveTo ray => exact he ray rfl
  | click ray double =>
    rw [edit?] at h
    split at h <;> cases h
  | _ => cases h

theorem putsAnchor_eq_false {s : Session α} {e : Signal α} (he : ∀ ray, e ≠ .moveTo ray) :
    s.putsAnchor e = false := by
  cases e with
  | moveTo ray => exact absurd rfl (he ray)
  | _ => rfl

variable [Stored α]

/-- A document that is opened holds level zero. -/
theorem lastLevel_handle_of_opens {s : Session α} {e : Signal α} (h : e.opens s.catalog = true) :
    (s.handle e).2.model.lastLevel = 0 := by
  cases e with
  | clear => rfl
  | load bytes =>
    rw [Signal.opens] at h
    cases hload : Document.load s.catalog bytes with
    | error fault =>
      rw [hload] at h
      cases h
    | ok d =>
      obtain ⟨a, rest, -, rfl⟩ := Document.load_eq_ok_iff.1 hload
      rw [handle_load hload]
      exact Model.lastLevel_ofArchive s.catalog a
  | _ => cases h

/-- The model holds level zero after a document was opened, the level of the anchor after the pointer
has put it, and otherwise the level that it held before. -/
theorem lastLevel_handle (s : Session α) (e : Signal α) : (s.handle e).2.model.lastLevel =
    if e.opens s.catalog then 0
    else if s.putsAnchor e then (s.handle e).2.anchor.y else s.model.lastLevel := by
  by_cases hmove : ∃ ray, e = .moveTo ray
  · obtain ⟨ray, rfl⟩ := hmove
    show (s.moveTo ray).model.lastLevel =
      if s.putsAnchor (.moveTo ray) then (s.moveTo ray).anchor.y else s.model.lastLevel
    have hmoves := s.moves_moveTo ray
    generalize s.moveTo ray = t at hmoves ⊢
    cases hmoves with
    | off puts => simp [puts]
    | drag cell puts mode level => simp [puts, refresh, level]
    | put cell puts mode => simp [puts, refresh]
  · have hne : ∀ ray, e ≠ .moveTo ray := fun ray h => hmove ⟨ray, h⟩
    cases hopens : e.opens s.catalog with
    | true => exact lastLevel_handle_of_opens hopens
    | false =>
      rw [putsAnchor_eq_false hne]
      show _ = s.model.lastLevel
      rcases handle_work hopens with heq | ⟨work, hwork, heq⟩ | ⟨-, heq⟩
      · rw [heq]
      · rw [heq, Model.lastLevel_edit _ _ (edit?_ne_look hne hwork)]
      · rw [heq, (Model.placeAll_places _ _ _ _).frame.lastLevel]

/-- What a signal does to the anchor and to the drag: it moves the pointer, it sets the end of the drag
to the anchor, or it leaves both alone and begins no drag. -/
inductive Aims (s : Session α) (e : Signal α) (t : Session α) : Prop where
  | move (ray : Ray α) (signal : e = .moveTo ray) (moves : s.Moves ray t)
  | back (puts : s.putsAnchor e = false) (anchor : t.anchor = s.anchor) (dragEnd : t.dragEnd = s.anchor)
  | still (puts : s.putsAnchor e = false) (anchor : t.anchor = s.anchor)
      (drag : t.mode = .drag → s.mode = .drag ∧ t.dragEnd = s.dragEnd)

omit [Stored α] in
theorem Aims.same {s : Session α} {e : Signal α} (puts : s.putsAnchor e = false) : s.Aims e s :=
  .still puts rfl fun h => ⟨h, rfl⟩

theorem handle_aims (s : Session α) (e : Signal α) : s.Aims e (s.handle e).2 := by
  cases e with
  | moveTo ray => exact .move ray rfl (s.moves_moveTo ray)
  | press =>
    show s.Aims _ s.press
    unfold press
    split
    · exact .back rfl rfl rfl
    · exact .same rfl
  | release =>
    show s.Aims _ s.release.2
    unfold release
    split
    · exact .same rfl
    · exact .back rfl rfl rfl
  | click ray double =>
    show s.Aims _ (s.click ray double).2
    unfold click
    split <;> exact .still rfl rfl fun h => ⟨h, rfl⟩
  | key number =>
    show s.Aims _ (s.key number)
    unfold key
    split
    · exact .same rfl
    · split <;> exact .still rfl rfl fun h => ⟨h, rfl⟩
  | selectMode => exact .still rfl rfl nofun
  | insertMode => exact .still rfl rfl nofun
  | load bytes =>
    show s.Aims _ (s.load bytes).2
    unfold load
    split <;> exact .still rfl rfl fun h => ⟨h, rfl⟩
  | _ => exact .still rfl rfl fun h => ⟨h, rfl⟩

/-- The anchor stays where it is unless the pointer puts it. -/
theorem anchor_handle {s : Session α} {e : Signal α} (h : s.putsAnchor e = false) :
    (s.handle e).2.anchor = s.anchor := by
  cases handle_aims s e with
  | move ray signal moves =>
    subst signal
    generalize (s.handle (.moveTo ray)).2 = t at moves ⊢
    cases moves with
    | off => rfl
    | drag => rfl
    | put cell puts => exact absurd (puts.symm.trans h) Bool.noConfusion
  | back _ anchor => exact anchor
  | still _ anchor => exact anchor

/-- Where the cursor is drawn during a drag is on the level of the anchor, and will be. -/
def OnLevel (s : Session α) : Prop :=
  s.mode = .drag → s.dragEnd.y = s.anchor.y ∧ s.model.lastLevel = s.anchor.y

/-- A drag that is on the level of its anchor ends there after a signal. -/
theorem dragEnd_handle {s : Session α} {e : Signal α} (h : s.OnLevel)
    (hmode : (s.handle e).2.mode = .drag) : (s.handle e).2.dragEnd.y = (s.handle e).2.anchor.y := by
  cases handle_aims s e with
  | move ray signal moves =>
    subst signal
    generalize (s.handle (.moveTo ray)).2 = t at moves hmode ⊢
    cases moves with
    | off => exact (h hmode).1
    | drag cell _ hdrag level => exact level.trans (h hdrag).2
    | put cell _ hdrag => exact absurd hmode hdrag
  | back _ anchor dragEnd => rw [anchor, dragEnd]
  | still _ anchor drag =>
    obtain ⟨hdrag, hend⟩ := drag hmode
    rw [anchor, hend]
    exact (h hdrag).1

/-! ## Runs -/

/-- Another document has been opened since the pointer put the anchor. -/
inductive Reopened (s : Session α) : List (Signal α) → Prop where
  | opened {before : List (Signal α)} {e : Signal α} (h : e.opens s.catalog = true) :
      Reopened s (before ++ [e])
  | since {before : List (Signal α)} {e : Signal α} (h : Reopened s before)
      (puts : (s.run before).putsAnchor e = false) : Reopened s (before ++ [e])

theorem not_reopened_nil (s : Session α) : ¬s.Reopened [] := by
  intro h
  generalize hnil : ([] : List (Signal α)) = signals at h
  cases h with
  | opened => simp at hnil
  | since => simp at hnil

theorem reopened_append_singleton_iff {s : Session α} {before : List (Signal α)} {e : Signal α} :
    s.Reopened (before ++ [e]) ↔
      e.opens s.catalog = true ∨ (s.Reopened before ∧ (s.run before).putsAnchor e = false) := by
  constructor
  · intro h
    generalize hsignals : before ++ [e] = signals at h
    cases h with
    | opened h =>
      obtain ⟨rfl, hlast⟩ := List.append_inj' hsignals rfl
      obtain rfl := List.singleton_inj.1 hlast
      exact .inl h
    | since h puts =>
      obtain ⟨rfl, hlast⟩ := List.append_inj' hsignals rfl
      obtain rfl := List.singleton_inj.1 hlast
      exact .inr ⟨h, puts⟩
  · rintro (h | ⟨h, puts⟩)
    · exact .opened h
    · exact .since h puts

/-- The model holds level zero if another document has been opened since the anchor was put, and the
level of the anchor otherwise. -/
theorem lastLevel_run (c : Catalog α) (settings : Settings) (signals : List (Signal α)) :
    ((start c settings).Reopened signals → ((start c settings).run signals).model.lastLevel = 0) ∧
      (¬(start c settings).Reopened signals → ((start c settings).run signals).model.lastLevel =
        ((start c settings).run signals).anchor.y) := by
  generalize hs : start c settings = s
  induction signals using List.reverseRecOn with
  | nil =>
    refine ⟨fun h => absurd h (not_reopened_nil s), fun _ => ?_⟩
    rw [← hs]
    rfl
  | append_singleton before e ih =>
    rw [reopened_append_singleton_iff, run_append_singleton, lastLevel_handle, catalog_run]
    cases hopens : e.opens s.catalog with
    | true => simp
    | false =>
      cases hputs : (s.run before).putsAnchor e with
      | true => simp
      | false => simpa [anchor_handle hputs] using ih

/-- A drag stays on the level of its anchor in every state of a run if and only if, in every state in
which stones are dragged after another document was opened and before the anchor was put again, the
anchor lies on level zero. -/
theorem run_drags_level (c : Catalog α) (settings : Settings) (signals : List (Signal α)) :
    (start c settings).Always signals OnLevel ↔
      ∀ before, before <+: signals → ((start c settings).run before).mode = .drag →
        (start c settings).Reopened before → ((start c settings).run before).anchor.y = 0 := by
  constructor
  · intro h before hbefore hmode hreopened
    rw [← (h before hbefore hmode).2]
    exact (lastLevel_run c settings before).1 hreopened
  · intro h
    have hheld : ∀ before, before <+: signals → ((start c settings).run before).mode = .drag →
        ((start c settings).run before).model.lastLevel = ((start c settings).run before).anchor.y := by
      intro before hbefore hmode
      by_cases hreopened : (start c settings).Reopened before
      · rw [(lastLevel_run c settings before).1 hreopened, h before hbefore hmode hreopened]
      · exact (lastLevel_run c settings before).2 hreopened
    refine always_of_step nofun fun before e hbefore hlevel hmode => ⟨dragEnd_handle hlevel hmode, ?_⟩
    rw [← run_append_singleton] at hmode ⊢
    exact hheld _ hbefore hmode

/-- The anchor is put on level five, the drag begins, the document is cleared and the pointer moves. -/
def lowered : List (Signal Binary64) :=
  [.levelUp, .levelUp, .levelUp, .levelUp, .levelUp, .moveTo ⟨⟨0.5, 8.0, 0.5⟩, ⟨0, -1, 0⟩⟩, .press, .clear,
    .moveTo ⟨⟨0.5, 8.0, 0.5⟩, ⟨1, -1, 0⟩⟩]

/-- Clearing the document during a drag lets its end down to level zero. -/
theorem lowered_leaves_level :
    ((start .points .default).run lowered).mode = .drag ∧
      ((start .points .default).run lowered).anchor.y = 5 ∧
      ((start .points .default).run lowered).dragEnd.y = 0 ∧
      ¬((start .points .default).run lowered).OnLevel := by
  have hmode : ((start .points .default).run lowered).mode = .drag := by decide +kernel
  have hanchor : ((start .points .default).run lowered).anchor.y = 5 := by decide +kernel
  have hend : ((start .points .default).run lowered).dragEnd.y = 0 := by decide +kernel
  refine ⟨hmode, hanchor, hend, fun h => ?_⟩
  have hlevel := (h hmode).1
  rw [hanchor, hend] at hlevel
  exact absurd hlevel (by decide)

end Masonry.Session
