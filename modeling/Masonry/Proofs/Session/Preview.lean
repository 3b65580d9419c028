import Masonry.Proofs.Session.Effect

/-!
# The preview of a session

What a release places is the preview that the session holds, so the preview has to be what the mode,
the brush and the cells ask for at any time (`run_fresh`). A signal either plans it anew or leaves
alone everything that the plan depends on (`handle_shows`).
-/

namespace Masonry.Session

variable {α : Type}

/-- The second session holds a preview that is planned anew, or the preview of the first while it asks
for the same stones. -/
inductive Shows (s : Session α) : Session α → Prop where
  | anew (t : Session α) : Shows s t.refresh
  | still {t : Session α} (preview : t.preview = s.preview) (planned : t.planned = s.planned) :
      Shows s t

theorem Shows.preview_eq {s t : Session α} (h : s.Shows t) (hs : s.preview = s.planned) :
    t.preview = t.planned := by
  cases h with
  | anew t => rfl
  | still preview planned => rw [preview, planned, hs]

variable [Scalar α] [Stored α]

theorem handle_shows (s : Session α) (e : Signal α) : s.Shows (s.handle e).2 := by
  cases e with
  | moveTo ray =>
    show s.Shows (s.moveTo ray)
    unfold moveTo
    split
    · exact .still rfl rfl
    · split <;> exact .anew _
  | press =>
    show s.Shows s.press
    unfold press
    split
    · exact .anew _
    · exact .still rfl rfl
  | release =>
    show s.Shows s.release.2
    unfold release
    split
    · exact .still rfl rfl
    · exact .anew _
  | click ray double =>
    show s.Shows (s.click ray double).2
    unfold click
    split <;> exact .still rfl rfl
  | key number =>
    show s.Shows (s.key number)
    unfold key
    split
    · exact .still rfl rfl
    · split
      · exact .still rfl rfl
      · exact .anew _
  | setCode code => exact .anew _
  | setColor color => exact .anew _
  | setLayers layers => exact .anew _
  | turnBrush => exact .anew _
  | setFilled filled => exact .anew _
  | setEdgeOnly edgeOnly => exact .anew _
  | levelUp => exact .still rfl rfl
  | levelDown => exact .still rfl rfl
  | setShift held => exact .still rfl rfl
  | selectMode => exact .anew _
  | insertMode => exact .anew _
  | deleteSelection => exact .still rfl rfl
  | moveSelection offset => exact .still rfl rfl
  | copySelection offset => exact .still rfl rfl
  | unite => exact .still rfl rfl
  | separate => exact .still rfl rfl
  | makeGroup name => exact .still rfl rfl
  | deleteGroup id => exact .still rfl rfl
  | selectGroup id => exact .still rfl rfl
  | clear => exact .anew _
  | save => exact .still rfl rfl
  | load bytes =>
    show s.Shows (s.load bytes).2
    unfold load
    split
    · exact .still rfl rfl
    · exact .anew _

theorem preview_run (c : Catalog α) (settings : Settings) (signals : List (Signal α)) :
    ((start c settings).run signals).preview = ((start c settings).run signals).planned :=
  run_induction (P := fun s => s.preview = s.planned) rfl (fun s e h => (handle_shows s e).preview_eq h)
    signals

/-- The preview is what a release would place, given the mode, the brush and the cells of the
session. -/
structure Fresh (s : Session α) : Prop where
  select : s.mode = .select → s.preview = []
  insert : s.mode = .insert → s.preview = Plan.stack s.brush s.anchor
  drag : s.mode = .drag → s.preview = Plan.drag s.brush s.anchor s.dragEnd

/-- In every state of every session the preview is up to date. -/
theorem run_fresh (c : Catalog α) (settings : Settings) (signals : List (Signal α)) :
    ((start c settings).run signals).Fresh := by
  have hplanned := preview_run c settings signals
  unfold planned at hplanned
  constructor <;> intro hmode <;> simpa only [hmode] using hplanned

end Masonry.Session
