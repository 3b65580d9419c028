import Masonry.Proofs.Model.Constancy
import Masonry.Proofs.Session.Groups

/-!
# Stones of a session stay what they are

While a document is worked on an id names one stone for good, as long as no stone gets the greatest
id (`run_keeps_stones`). Color, type code, rotation and box of a stone never change. A stone changes
its cell where it is moved with the selection, and its insert id where it is united with others or
separated from them; and only selected stones are taken away.
-/

namespace Masonry.Session

open Model

variable {α : Type}

/-- The second stone is what a signal leaves of the first. -/
structure Leaves (e : Signal α) (t u : Stone α) : Prop where
  color : u.color = t.color
  code : u.code = t.code
  turns : u.turns = t.turns
  box : u.box = t.box
  /-- Only a selected stone changes its cell, where the selection is moved. -/
  cell : u.cell = t.cell ∨ ∃ offset, e = .moveSelection offset ∧ t.selected = true
  moved : ∀ offset, e = .moveSelection offset → t.selected = true →
    u.cell = t.cell + offset ∧ u.selected = false
  /-- Only a selected stone changes its insert id, where the selection is united or separated. -/
  insertId : u.insertId = t.insertId ∨ (e = .unite ∨ e = .separate) ∧ t.selected = true

/-- Where a stone keeps all but its mark and its insert id, only the latter is in question. -/
theorem leaves_of_bare {e : Signal α} {t u : Stone α} (hbare : u.bare = t.bare)
    (hmoved : ∀ offset, e = .moveSelection offset → t.selected = false)
    (hinsert : u.insertId = t.insertId ∨ (e = .unite ∨ e = .separate) ∧ t.selected = true) :
    Leaves e t u where
  color := show u.bare.color = t.bare.color from congrArg Stone.color hbare
  code := show u.bare.code = t.bare.code from congrArg Stone.code hbare
  turns := show u.bare.turns = t.bare.turns from congrArg Stone.turns hbare
  box := show u.bare.box = t.bare.box from congrArg Stone.box hbare
  cell := .inl (show u.bare.cell = t.bare.cell from congrArg Stone.cell hbare)
  moved offset he hselected :=
    absurd ((hmoved offset he).symm.trans hselected) Bool.false_ne_true
  insertId := hinsert

/-- Moving and separating the selection are asked for by one signal each. -/
theorem signal_of_edit? {s : Session α} {e : Signal α} {work : Edit α} (h : s.edit? e = some work) :
    (∀ offset, work = .move offset → e = .moveSelection offset) ∧
      ∀ insertId, work = .separate insertId → e = .separate := by
  cases e with
  | click ray double =>
    rw [edit?] at h
    split at h
    · cases h
      simp
    · cases h
  | _ => cases h <;> simp

/-- A signal that asks for an edit leaves of a stone what the edit makes of it. -/
theorem leaves_of_becomes {s : Session α} {e : Signal α} {work : Edit α} {t u : Stone α}
    (hwork : s.edit? e = some work) (h : work.Becomes t u) : Leaves e t u := by
  cases h with
  | stays hmoves hbare hinsert =>
    refine leaves_of_bare hbare (fun offset he => ?_) (.inl hinsert)
    subst he
    cases hwork
    exact hmoves
  | moved offset hselected =>
    obtain rfl := (signal_of_edit? hwork).1 offset rfl
    refine ⟨rfl, rfl, rfl, rfl, .inr ⟨offset, rfl, hselected⟩, fun offset' he _ => ?_, .inl rfl⟩
    cases he
    exact ⟨rfl, rfl⟩
  | united hselected hbare =>
    obtain rfl := (eq_of_edit? hwork).1 rfl
    exact leaves_of_bare hbare nofun (.inr ⟨.inl rfl, hselected⟩)
  | separated insertId hselected hbare =>
    obtain rfl := (signal_of_edit? hwork).2 insertId rfl
    exact leaves_of_bare hbare nofun (.inr ⟨.inr rfl, hselected⟩)

variable [Scalar α] [Stored α]

/-- What a signal does to the stones that are there. -/
structure KeepsStones (s : Session α) (e : Signal α) : Prop where
  /-- A stone under an id that was in use is the stone that had it. -/
  leaves : ∀ t ∈ s.model.stones, ∀ u ∈ (s.handle e).2.model.stones, u.id = t.id → Leaves e t u
  /-- A stone that is not selected stays. -/
  stays : ∀ t ∈ s.model.stones, t.selected = false → t.id ∈ (s.handle e).2.model.ids

/-- A signal that asks for an edit does it. -/
theorem model_handle_of_edit? {s : Session α} {e : Signal α} {work : Edit α}
    (h : s.edit? e = some work) : (s.handle e).2.model = s.model.edit s.catalog work := by
  cases e with
  | moveTo ray =>
    cases h
    exact model_moveTo s ray
  | click ray double =>
    rw [edit?] at h
    split at h
    · next hmode =>
      cases h
      show (s.click ray double).2.model = _
      rw [click, if_neg (not_not_intro hmode)]
      rfl
    · cases h
  | _ => cases h <;> rfl

theorem keepsStones_handle {s : Session α} {e : Signal α} (hsound : Sound s.catalog s.model)
    (hm : s.model.Ordered) (hopens : e.opens s.catalog = false)
    (hmax : Int32.maxValue ∉ (s.handle e).2.model.ids) : s.KeepsStones e := by
  cases hwork : s.edit? e with
  | some work =>
    have heq := model_handle_of_edit? hwork
    rw [heq] at hmax
    constructor
    · intro t ht u hu hid
      rw [heq] at hu
      exact leaves_of_becomes hwork (becomes_edit hsound hm work hmax ht hu hid)
    · intro t ht hmark
      rw [heq]
      exact mem_ids_edit work ht hmark
  | none =>
    -- Moving the selection is an edit, so a stone that is still there is where it was.
    have hleaves : ∀ t, Leaves e t t := by
      refine fun t => leaves_of_bare rfl (fun offset he => ?_) (.inl rfl)
      subst he
      cases hwork
    rcases handle_work hopens with heq | ⟨work, hsome, -⟩ | ⟨-, heq⟩
    · constructor
      · intro t ht u hu hid
        rw [heq] at hu
        exact eq_of_id_eq hm.nodup ht hid hu ▸ hleaves t
      · intro t ht _
        rw [heq]
        exact List.mem_map_of_mem ht
    · cases hwork.symm.trans hsome
    · rw [heq] at hmax
      constructor
      · intro t ht u hu hid
        rw [heq] at hu
        exact eq_of_mem_placeAll hm hmax ht hu hid ▸ hleaves t
      · intro t ht _
        rw [heq]
        have hframe := (placeAll_places s.model s.catalog s.nextInsert s.preview).frame
        exact List.mem_map_of_mem (hframe.stones.subset ht)

/-- In every run in which no stone gets the greatest id, every signal that opens no document keeps the
stones that are there. -/
theorem run_keeps_stones (c : Catalog α) (settings : Settings) (signals : List (Signal α))
    (hmax : (start c settings).Always signals fun s => Int32.maxValue ∉ s.model.ids)
    (before : List (Signal α)) (e : Signal α) (hbefore : before ++ [e] <+: signals)
    (hopens : e.opens c = false) : ((start c settings).run before).KeepsStones e := by
  have hearlier : before <+: signals := (List.prefix_append _ _).trans hbefore
  have hdated := dated_run hmax before hearlier
  refine keepsStones_handle (sound_run c settings before) hdated.toOrdered ?_ ?_
  · rw [catalog_run]
    exact hopens
  · rw [← run_append_singleton]
    exact hmax _ hbefore

/-- The stones of a wall are moved, selected again and given one insert id. -/
def regrouping : List (Signal Binary64) :=
  wall ++ [.moveSelection ⟨0, 0, 5⟩, .selectGroup 0, .unite]

/-- The two stones of the wall are moved at once, under their ids. -/
theorem run_keeps_stones_regrouping :
    (start .points .default).Always regrouping (fun s => Int32.maxValue ∉ s.model.ids) ∧
      wall ++ [.moveSelection ⟨0, 0, 5⟩] <+: regrouping ∧
      (Signal.moveSelection (α := Binary64) ⟨0, 0, 5⟩).opens Catalog.points = false ∧
      ((start .points .default).run wall).model.stones.map (fun t => (t.id, t.cell, t.selected)) =
        [(0, ⟨0, 0, 0⟩, true), (1, ⟨5, 0, 0⟩, true)] ∧
      ((start .points .default).run (wall ++ [.moveSelection ⟨0, 0, 5⟩])).model.stones.map
        (fun t => (t.id, t.cell, t.selected)) = [(0, ⟨0, 0, 5⟩, false), (1, ⟨5, 0, 5⟩, false)] ∧
      ((start .points .default).run wall).KeepsStones (.moveSelection ⟨0, 0, 5⟩) :=
  have hmax : (start .points .default).Always regrouping
      (fun s => Int32.maxValue ∉ s.model.ids) := by decide +kernel
  have hbefore : wall ++ [.moveSelection ⟨0, 0, 5⟩] <+: regrouping := by decide +kernel
  ⟨hmax, hbefore, rfl, by decide +kernel, by decide +kernel,
    run_keeps_stones .points .default regrouping hmax wall _ hbefore rfl⟩

end Masonry.Session
