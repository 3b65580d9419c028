import Masonry.Proofs.Session.Effect

/-!
# Stones of a session

Two invariants of every run, whatever bytes are loaded on the way. Stones keep apart and are as
their shapes make them (`run_tidy`). Their ids differ as long as no stone has the greatest id; a
repeated id is always one that was handed out automatically, since the next id is not looked up
among those in use (`run_ids_nodup_iff`).
-/

namespace Masonry.Session

open Model Save

variable {α : Type} [Scalar α] [Stored α]

/-- No two stones enter each other, and each has a whole rotation, a shape and the box of that shape
in that rotation. -/
structure Tidy (s : Session α) : Prop where
  apart : ∀ i j (hi : i < s.model.stones.length) (hj : j < s.model.stones.length), i ≠ j →
    ((s.model.worldBox s.model.stones[i]).shrunk Grid.clearance).overlaps
      ((s.model.worldBox s.model.stones[j]).shrunk Grid.clearance) = false
  turns_lt : ∀ t ∈ s.model.stones, t.turns < 4
  known : ∀ t ∈ s.model.stones, (s.catalog.shape? t.code).isSome
  box_eq : ∀ t ∈ s.model.stones, s.catalog.boxAt? t.code (degrees t.turns) = some t.box

theorem sound_handle {s : Session α} (h : Sound s.catalog s.model) (e : Signal α) :
    Sound (s.handle e).2.catalog (s.handle e).2.model := by
  rw [catalog_handle]
  have heffect := handle_effect s e
  generalize s.handedOut e = ids at heffect
  generalize (s.handle e).2.model = m at heffect
  cases heffect with
  | rearrange hr => exact h.rearrange hr
  | place insertId ps => exact h.places (placeAll_places _ _ _ _)
  | clear => exact sound_empty
  | load a => exact sound_ofArchive _ a

theorem sound_run (c : Catalog α) (settings : Settings) (signals : List (Signal α)) :
    Sound ((start c settings).run signals).catalog ((start c settings).run signals).model :=
  run_induction (P := fun s => Sound s.catalog s.model) sound_empty (fun _ e h => sound_handle h e) signals

theorem turns_lt_run (c : Catalog α) (settings : Settings) (signals : List (Signal α)) :
    ∀ t ∈ ((start c settings).run signals).model.stones, t.turns < 4 :=
  fun t ht => ((sound_run c settings signals).shaped t ht).turns_lt

/-- In every state of every session the stones keep apart, each as its shape makes it. -/
theorem run_tidy (c : Catalog α) (settings : Settings) (signals : List (Signal α)) :
    ((start c settings).run signals).Tidy := by
  have hsound := sound_run c settings signals
  exact
    { apart := fun i j hi hj hij => hsound.overlaps_getElem_eq_false hi hj hij
      turns_lt := fun t ht => (hsound.shaped t ht).turns_lt
      known := fun t ht => (hsound.shaped t ht).isSome_shape?
      box_eq := fun t ht => (hsound.shaped t ht).box_eq }

/-! ## Ids -/

/-- After a signal the ids differ if and only if those that it hands out are new. -/
theorem nodup_ids_handle_iff {s : Session α} (h : s.model.ids.Nodup) (e : Signal α) :
    (s.handle e).2.model.ids.Nodup ↔ (s.model.ids ++ s.handedOut e).Nodup := by
  have heffect := handle_effect s e
  generalize s.handedOut e = ids at heffect ⊢
  generalize (s.handle e).2.model = m at heffect ⊢
  cases heffect with
  | rearrange hr => simpa [h] using nodup_ids_rearrange hr h
  | place insertId ps => rw [ids_placeAll]
  | clear => simp [h]
  | load a => simpa [h] using nodup_ids_ofArchive s.catalog a

/-- Where no stone has the greatest id after a signal, the next id still lies above all ids. -/
theorem ordered_handle {s : Session α} (h : s.model.Ordered) (e : Signal α)
    (hmax : Int32.maxValue ∉ (s.handle e).2.model.ids) : (s.handle e).2.model.Ordered := by
  have heffect := handle_effect s e
  generalize s.handedOut e = ids at heffect
  generalize (s.handle e).2.model = m at heffect hmax ⊢
  cases heffect with
  | rearrange hr => exact h.rearrange hr hmax
  | place insertId ps => exact h.places (placeAll_places _ _ _ _) hmax
  | clear => exact ordered_empty
  | load a => exact ordered_ofArchive s.catalog a hmax

/-- The ids of the stones differ in every state of a run if and only if no signal hands out an id in
use, or one twice; and they do if the greatest id is never loaded or handed out. -/
theorem run_ids_nodup_iff (c : Catalog α) (settings : Settings) (signals : List (Signal α)) :
    ((start c settings).Always signals (fun s => s.model.ids.Nodup) ↔
      ∀ before e, before ++ [e] <+: signals →
        (((start c settings).run before).model.ids ++
          ((start c settings).run before).handedOut e).Nodup) ∧
    ((start c settings).Always signals (fun s => Int32.maxValue ∉ s.model.ids) →
      (start c settings).Always signals (fun s => s.model.ids.Nodup)) := by
  refine ⟨⟨fun h before e hbefore => ?_, fun h => ?_⟩, fun hmax => ?_⟩
  · have hnext := h _ hbefore
    rw [run_append_singleton] at hnext
    exact (nodup_ids_handle_iff (h before ((List.prefix_append _ _).trans hbefore)) e).1 hnext
  · exact always_of_step List.nodup_nil fun before e hbefore hids =>
      (nodup_ids_handle_iff hids e).2 (h before e hbefore)
  · have hordered : (start c settings).Always signals (fun s => s.model.Ordered) :=
      always_of_step ordered_empty fun before e hbefore hm =>
        ordered_handle hm e (run_append_singleton _ before e ▸ hmax _ hbefore)
    exact fun before hbefore => (hordered before hbefore).nodup

/-- A model whose one stone has the greatest id, which is also the next id. -/
def summit : Archive where
  nextInsert := 0
  origin := ⟨0, 0, 0⟩
  stones := [⟨Int32.maxValue, 0, .white, 432, 0, ⟨5, 0, 0⟩⟩]
  nextStone := Int32.maxValue
  nextGroup := 0
  groups := []

/-- Once the greatest id is loaded it is handed out again. -/
theorem summit_repeats_id :
    ((start .points .default).run
      [.load (Write.run none summit.writes).1, .press, .release]).model.ids =
        [Int32.maxValue, Int32.maxValue] ∧
    ¬((start .points .default).run
      [.load (Write.run none summit.writes).1, .press, .release]).model.ids.Nodup := by
  decide +kernel

end Masonry.Session
