import Mathlib.Data.List.Induction
import Mathlib.Data.List.Infix
import Masonry.Session
import Masonry.Proofs.Save.Loading

/-!
# What a signal does to the model

A signal rearranges the model, places a batch, clears the model or loads one (`Effect`). Properties
of every model that a session can have are proved from these four cases, once for a signal
(`handle_effect`) and by induction for a run (`run_induction`).
-/

namespace Masonry.Session

variable {α : Type} [Scalar α] [Stored α]

/-- The ids that a signal hands out to the stones that it places. -/
def handedOut (s : Session α) : Signal α → List Int32
  | .release => Counter.upcoming s.model.nextStone s.release.1
  | .copySelection offset => Counter.upcoming s.model.nextStone (s.copySelection offset).1
  | _ => []

/-- What can become of the model of a session, and the ids that are handed out on the way. -/
inductive Effect (s : Session α) : List Int32 → Model α → Prop where
  | rearrange {m : Model α} (h : Model.Rearranges s.catalog s.model m) : Effect s [] m
  | place (insertId : Int32) (ps : List Placement) :
      Effect s (Counter.upcoming s.model.nextStone (s.model.placeAll s.catalog insertId ps).1)
        (s.model.placeAll s.catalog insertId ps).2
  | clear : Effect s [] .empty
  | load (a : Save.Archive) : Effect s [] (.ofArchive s.catalog a)

theorem Effect.relabel {s : Session α} {m : Model α} (h : Model.Relabels s.model m) :
    s.Effect [] m :=
  .rearrange (.relabel h)

theorem Effect.same (s : Session α) : s.Effect [] s.model :=
  .relabel (Model.Marks.refl _).toRelabels

omit [Stored α] in
theorem model_moveTo (s : Session α) (r : Ray α) :
    (s.moveTo r).model = (s.model.cellAt r s.level s.holdsLevel).2 := by
  unfold moveTo
  split
  · rename_i heq
    rw [heq]
  · rename_i heq
    rw [heq]
    split <;> rfl

theorem handle_effect (s : Session α) (e : Signal α) :
    s.Effect (s.handedOut e) (s.handle e).2.model := by
  cases e with
  | moveTo ray =>
    show s.Effect [] (s.moveTo ray).model
    rw [model_moveTo]
    exact .relabel (Model.marks_cellAt _ _ _ _).toRelabels
  | press =>
    show s.Effect [] s.press.model
    unfold press
    split <;> exact .same s
  | release =>
    show s.Effect (Counter.upcoming _ s.release.1) s.release.2.model
    unfold release
    split
    · exact .same s
    · exact .place s.nextInsert s.preview
  | click ray double =>
    show s.Effect [] (s.click ray double).2.model
    unfold click
    split
    · exact .same s
    · exact .relabel (Model.marks_pick _ _ _ _).toRelabels
  | key number =>
    show s.Effect [] (s.key number).model
    unfold key
    split
    · exact .same s
    · split <;> exact .same s
  | setCode code => exact .same s
  | setColor color => exact .same s
  | setLayers layers => exact .same s
  | turnBrush => exact .same s
  | setFilled filled => exact .same s
  | setEdgeOnly edgeOnly => exact .same s
  | levelUp => exact .same s
  | levelDown => exact .same s
  | setShift held => exact .same s
  | selectMode => exact .same s
  | insertMode => exact .relabel (Model.marks_deselect _).toRelabels
  | deleteSelection => exact .rearrange .delete
  | moveSelection offset => exact .rearrange (.move offset)
  | copySelection offset => exact .place s.nextInsert _
  | unite => exact .relabel (Model.marks_unite _).toRelabels
  | separate => exact .relabel (Model.marks_separate _ _).toRelabels
  | makeGroup name => exact .relabel (Model.relabels_makeGroup _ _)
  | deleteGroup id => exact .relabel (Model.relabels_deleteGroup _ _)
  | selectGroup id => exact .relabel (Model.marks_selectGroup _ _).toRelabels
  | clear => exact .clear
  | save => exact .same s
  | load bytes =>
    show s.Effect [] (s.load bytes).2.model
    unfold load
    split
    · exact .same s
    · rename_i d hd
      obtain ⟨a, rest, -, rfl⟩ := Document.load_eq_ok_iff.1 hd
      exact .load a

theorem catalog_handle (s : Session α) (e : Signal α) : (s.handle e).2.catalog = s.catalog := by
  cases e with
  | moveTo ray =>
    show (s.moveTo ray).catalog = s.catalog
    unfold moveTo
    split
    · rfl
    · split <;> rfl
  | press =>
    show s.press.catalog = s.catalog
    unfold press
    split <;> rfl
  | release =>
    show s.release.2.catalog = s.catalog
    unfold release
    split <;> rfl
  | click ray double =>
    show (s.click ray double).2.catalog = s.catalog
    unfold click
    split <;> rfl
  | key number =>
    show (s.key number).catalog = s.catalog
    unfold key
    split
    · rfl
    · split <;> rfl
  | load bytes =>
    show (s.load bytes).2.catalog = s.catalog
    unfold load
    split <;> rfl
  | _ => rfl

/-! ## Runs -/

theorem run_append (s : Session α) (signals more : List (Signal α)) :
    s.run (signals ++ more) = (s.run signals).run more :=
  List.foldl_append

theorem run_append_singleton (s : Session α) (signals : List (Signal α)) (e : Signal α) :
    s.run (signals ++ [e]) = ((s.run signals).handle e).2 :=
  run_append s signals [e]

/-- The property holds in every state of a run: after any number of its signals. -/
def Always (s : Session α) (signals : List (Signal α)) (P : Session α → Prop) : Prop :=
  ∀ before, before <+: signals → P (s.run before)

instance (s : Session α) (signals : List (Signal α)) (P : Session α → Prop) [DecidablePred P] :
    Decidable (s.Always signals P) :=
  decidable_of_iff (∀ before ∈ signals.inits, P (s.run before)) (by simp [Always])

/-- A property that holds at the start, and after each signal of the run if it held in all states
before, holds always. -/
theorem always_of_history {s : Session α} {signals : List (Signal α)} {P : Session α → Prop}
    (start : P s)
    (step : ∀ before e, before ++ [e] <+: signals → (∀ earlier, earlier <+: before → P (s.run earlier)) →
      P ((s.run before).handle e).2) :
    s.Always signals P := by
  suffices h : ∀ before, before <+: signals → ∀ earlier, earlier <+: before → P (s.run earlier) from
    fun before hbefore => h before hbefore before List.prefix_rfl
  intro before
  induction before using List.reverseRecOn with
  | nil =>
    intro _ earlier hearlier
    rw [List.prefix_nil.1 hearlier]
    exact start
  | append_singleton before e ih =>
    intro hbefore earlier hearlier
    have hpast := ih ((List.prefix_append _ _).trans hbefore)
    rcases List.prefix_concat_iff.1 hearlier with rfl | hearlier
    · rw [run_append_singleton]
      exact step before e hbefore hpast
    · exact hpast earlier hearlier

/-- A property that holds at the start and that each signal of the run keeps holds always. -/
theorem always_of_step {s : Session α} {signals : List (Signal α)} {P : Session α → Prop}
    (start : P s)
    (step : ∀ before e, before ++ [e] <+: signals → P (s.run before) → P ((s.run before).handle e).2) :
    s.Always signals P :=
  always_of_history start fun before e hbefore hpast => step before e hbefore (hpast before List.prefix_rfl)

theorem Always.of_prefix {s : Session α} {before signals : List (Signal α)} {P : Session α → Prop}
    (h : s.Always signals P) (hbefore : before <+: signals) : s.Always before P :=
  fun earlier hearlier => h earlier (hearlier.trans hbefore)

/-- A property that holds at the start and that every signal keeps holds after every run. -/
theorem run_induction {s : Session α} {P : Session α → Prop} (start : P s)
    (step : ∀ s e, P s → P (s.handle e).2) (signals : List (Signal α)) : P (s.run signals) :=
  always_of_step start (fun _ e _ => step _ e) signals List.prefix_rfl

theorem catalog_run (s : Session α) (signals : List (Signal α)) :
    (s.run signals).catalog = s.catalog :=
  run_induction (P := fun t => t.catalog = s.catalog) rfl (fun t e h => (catalog_handle t e).trans h) signals

end Masonry.Session
