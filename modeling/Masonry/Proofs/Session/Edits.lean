import Masonry.Proofs.Model.Lineage
import Masonry.Proofs.Session.Effect

/-!
# Signals as edits

Most signals are edits of the model, with the insert id that the session gives out next where the edit
gives one to stones (`edit?`). Besides, a release places the preview, and clearing and loading open
another document (`Signal.opens`). What becomes of the model is said once, by `handle_step`, and what
becomes of the next insert id by `nextInsert_handle`.
-/

namespace Masonry

open Save

variable {α : Type} [Scalar α] [Stored α]

/-- The signal opens another document: an empty one, or one that is loaded with the shapes of the
catalog. -/
def Signal.opens (c : Catalog α) : Signal α → Bool
  | .clear => true
  | .load bytes => (Document.load c bytes).isOk
  | _ => false

namespace Session

omit [Stored α] in
/-- The edit that a signal asks for, if it asks for one. -/
def edit? (s : Session α) : Signal α → Option (Edit α)
  | .moveTo ray => some (.look ray s.level s.holdsLevel)
  | .click ray double => if s.mode = .select then some (.pick ray s.shift double) else none
  | .insertMode => some .deselect
  | .deleteSelection => some .delete
  | .moveSelection offset => some (.move offset)
  | .copySelection offset => some (.copy offset s.nextInsert)
  | .unite => some .unite
  | .separate => some (.separate s.nextInsert)
  | .makeGroup name => some (.makeGroup name)
  | .deleteGroup id => some (.deleteGroup id)
  | .selectGroup id => some (.selectGroup id)
  | _ => none

/-- The signal gives the next insert id to stones. -/
def takesInsert (s : Session α) : Signal α → Bool
  | .release => s.mode = .drag
  | .copySelection _ => true
  | .separate => true
  | _ => false

/-- What becomes of the model of a session. -/
inductive Step (s : Session α) : Signal α → Model α → Prop where
  | keep (e : Signal α) : Step s e s.model
  | edit {e : Signal α} (work : Edit α) (h : s.edit? e = some work) :
      Step s e (s.model.edit s.catalog work)
  | release (h : s.mode = .drag) :
      Step s .release (s.model.placeAll s.catalog s.nextInsert s.preview).2
  | clear : Step s .clear .empty
  | load {bytes rest : List UInt8} {a : Archive} (h : Archive.decode bytes = .ok (a, rest)) :
      Step s (.load bytes) (.ofArchive s.catalog a)

theorem handle_step (s : Session α) (e : Signal α) : s.Step e (s.handle e).2.model := by
  cases e with
  | moveTo ray =>
    show s.Step _ (s.moveTo ray).model
    rw [model_moveTo]
    exact .edit (.look ray s.level s.holdsLevel) rfl
  | press =>
    show s.Step _ s.press.model
    unfold press
    split <;> exact .keep _
  | release =>
    show s.Step _ s.release.2.model
    unfold release
    split
    · exact .keep _
    · rename_i hmode
      exact .release (Decidable.not_not.1 hmode)
  | click ray double =>
    show s.Step _ (s.click ray double).2.model
    unfold click
    split
    · exact .keep _
    · rename_i hmode
      exact .edit (.pick ray s.shift double) (if_pos (Decidable.not_not.1 hmode))
  | key number =>
    show s.Step _ (s.key number).model
    unfold key
    split
    · exact .keep _
    · split <;> exact .keep _
  | insertMode => exact .edit .deselect rfl
  | deleteSelection => exact .edit .delete rfl
  | moveSelection offset => exact .edit (.move offset) rfl
  | copySelection offset => exact .edit (.copy offset s.nextInsert) rfl
  | unite => exact .edit .unite rfl
  | separate => exact .edit (.separate s.nextInsert) rfl
  | makeGroup name => exact .edit (.makeGroup name) rfl
  | deleteGroup id => exact .edit (.deleteGroup id) rfl
  | selectGroup id => exact .edit (.selectGroup id) rfl
  | clear => exact .clear
  | load bytes =>
    show s.Step _ (s.load bytes).2.model
    unfold load
    split
    · exact .keep _
    · rename_i d hd
      obtain ⟨a, rest, hdecode, rfl⟩ := Document.load_eq_ok_iff.1 hd
      exact .load hdecode
  | _ => exact .keep _

/-- Bytes that can be decoded open a document. -/
theorem opens_load {c : Catalog α} {bytes rest : List UInt8} {a : Archive}
    (h : Archive.decode bytes = .ok (a, rest)) : (Signal.load bytes).opens c = true := by
  have hload : Document.load c bytes = .ok ⟨a.nextInsert, .ofArchive c a⟩ :=
    Document.load_eq_ok_iff.2 ⟨a, rest, h, rfl⟩
  rw [Signal.opens, hload]
  rfl

/-- A signal that opens no document leaves the model as it is, edits it, or places the preview. -/
theorem handle_work {s : Session α} {e : Signal α} (h : e.opens s.catalog = false) :
    (s.handle e).2.model = s.model ∨
      (∃ work, s.edit? e = some work ∧ (s.handle e).2.model = s.model.edit s.catalog work) ∨
      (s.takesInsert e = true ∧
        (s.handle e).2.model = (s.model.placeAll s.catalog s.nextInsert s.preview).2) := by
  have hstep := handle_step s e
  generalize (s.handle e).2.model = m at hstep ⊢
  cases hstep with
  | keep e => exact .inl rfl
  | edit work hwork => exact .inr (.inl ⟨work, hwork, rfl⟩)
  | release hmode => exact .inr (.inr ⟨decide_eq_true hmode, rfl⟩)
  | clear => cases h
  | load hdecode => exact absurd (h.symm.trans (opens_load hdecode)) Bool.false_ne_true

/-- The session after a document was loaded. -/
theorem handle_load {s : Session α} {bytes : List UInt8} {d : Document α}
    (h : Document.load s.catalog bytes = .ok d) :
    (s.handle (.load bytes)).2 = { s with model := d.model, nextInsert := d.nextInsert }.refresh := by
  show (s.load bytes).2 = _
  rw [load, h]

/-- While a document is worked on, the next insert id changes only when stones are given it. -/
theorem nextInsert_handle (s : Session α) {e : Signal α} (h : e.opens s.catalog = false) :
    (s.handle e).2.nextInsert = if s.takesInsert e then s.nextInsert + 1 else s.nextInsert := by
  cases e with
  | moveTo ray =>
    show (s.moveTo ray).nextInsert = s.nextInsert
    unfold moveTo
    split
    · rfl
    · split <;> rfl
  | press =>
    show s.press.nextInsert = s.nextInsert
    unfold press
    split <;> rfl
  | release =>
    show s.release.2.nextInsert = _
    unfold release
    by_cases hmode : s.mode = .drag <;> simp [hmode, takesInsert, takeInsert, refresh]
  | click ray double =>
    show (s.click ray double).2.nextInsert = s.nextInsert
    unfold click
    split <;> rfl
  | key number =>
    show (s.key number).nextInsert = s.nextInsert
    unfold key
    split
    · rfl
    · split <;> rfl
  | clear => cases h
  | load bytes =>
    show (s.load bytes).2.nextInsert = s.nextInsert
    unfold load
    split
    · rfl
    · rename_i d hd
      rw [Signal.opens, hd] at h
      cases h
  | _ => rfl

omit [Scalar α] [Stored α] in
/-- The insert id that an edit gives to stones is the one that is taken for them. -/
theorem insertId?_of_edit? {s : Session α} {e : Signal α} {work : Edit α}
    (h : s.edit? e = some work) :
    work.insertId? = if s.takesInsert e then some s.nextInsert else none := by
  cases e with
  | click ray double =>
    rw [edit?] at h
    split at h
    · cases h
      rfl
    · cases h
  | _ => cases h <;> rfl

omit [Scalar α] [Stored α] in
/-- Uniting stones and deleting a group are asked for by one signal each. -/
theorem eq_of_edit? {s : Session α} {e : Signal α} {work : Edit α} (h : s.edit? e = some work) :
    (work = .unite → e = .unite) ∧ ∀ id, work = .deleteGroup id → e = .deleteGroup id := by
  cases e with
  | click ray double =>
    rw [edit?] at h
    split at h
    · cases h
      exact ⟨nofun, nofun⟩
    · cases h
  | _ => cases h <;> simp

end Session

end Masonry
