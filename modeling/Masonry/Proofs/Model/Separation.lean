import Masonry.Proofs.Model.Rearranging

/-!
# Stones keep apart

The stones of a model are sound for a catalog if each is as its shape makes it and no core overlaps
another (`Sound`). Placing keeps this, because a stone is placed only where nothing blocks it, and so
does everything that leaves out stones or relabels them.
-/

namespace Masonry.Model

variable {α : Type} [Scalar α]

/-- No core of a stone overlaps that of another, and every stone is as its shape makes it. -/
structure Sound (c : Catalog α) (m : Model α) : Prop where
  apart : m.stones.Pairwise fun s t => (m.core s).overlaps (m.core t) = false
  shaped : ∀ s ∈ m.stones, s.Shaped c

variable {c : Catalog α} {m m' : Model α}

/-- Apart are any two stones at different places of the list, whichever is named first. -/
theorem Sound.overlaps_getElem_eq_false (h : Sound c m) {i j : Nat} (hi : i < m.stones.length)
    (hj : j < m.stones.length) (hij : i ≠ j) :
    (m.core m.stones[i]).overlaps (m.core m.stones[j]) = false := by
  have hapart := List.pairwise_iff_getElem.1 h.apart
  rcases Nat.lt_or_gt_of_ne hij with hlt | hlt
  · exact hapart i j hi hj hlt
  · rw [Box.overlaps_comm]
    exact hapart j i hj hi hlt

theorem sound_of_stones_eq_nil (h : m.stones = []) : Sound c m := by
  constructor <;> simp [h]

theorem sound_empty : Sound c (empty : Model α) := sound_of_stones_eq_nil rfl

/-- Leaving out stones keeps the rest sound. -/
theorem Sound.of_sublist (h : Sound c m) (ho : m'.origin = m.origin)
    (hs : m'.stones.Sublist m.stones) : Sound c m' := by
  refine ⟨?_, fun s hmem => h.shaped s (hs.subset hmem)⟩
  rw [core_eq_of_origin_eq ho]
  exact h.apart.sublist hs

/-- Soundness looks at what relabeling keeps. -/
theorem Sound.relabel (h : Sound c m) (hr : Relabels m m') : Sound c m' := by
  constructor
  · have hbare : (m.stones.map Stone.bare).Pairwise
        fun s t => (m.core s).overlaps (m.core t) = false := List.pairwise_map.2 h.apart
    rw [core_eq_of_origin_eq hr.origin]
    rw [← hr.bare] at hbare
    exact List.pairwise_map.1 hbare
  · have hbare : ∀ s ∈ m.stones.map Stone.bare, s.Shaped c :=
      List.forall_mem_map.2 fun s hs => Stone.shaped_bare_iff.2 (h.shaped s hs)
    rw [← hr.bare] at hbare
    exact fun s hs => Stone.shaped_bare_iff.1 (hbare _ (List.mem_map_of_mem hs))

/-- A stone as its shape makes it, in the way of none, can be put into a sound model. -/
theorem Sound.put {s : Stone α} (h : Sound c m) (hs : s.Shaped c) (hroom : m.blocks s = false)
    (k next : Int32) : Sound c (m.put { s with id := k } next) := by
  refine ⟨List.pairwise_append.2 ⟨h.apart, List.pairwise_singleton _ _, ?_⟩, ?_⟩
  · intro t ht u hu
    rw [List.mem_singleton.1 hu]
    exact blocks_eq_false_iff.1 hroom t ht
  · intro t ht
    rcases List.mem_append.1 ht with ht | ht
    · exact h.shaped t ht
    · rw [List.mem_singleton.1 ht]
      exact ⟨hs.turns_lt, hs.box_eq⟩

/-- Placing stones keeps a model sound. -/
theorem Sound.places {P : Option Int32 → Prop} (h : Sound c m) (hp : Places c P m m') :
    Sound c m' :=
  hp.keeps (fun _ _ k _ hs hroom _ hm => hm.put hs hroom k _) (fun _ _ _ hs hroom hm => hm.put hs hroom _ _) h

theorem Sound.delete (h : Sound c m) : Sound c m.deleteSelection.2 :=
  h.of_sublist rfl List.filter_sublist

/-- Marking, deleting and moving stones keep a model sound. -/
theorem Sound.rearrange (h : Sound c m) (hr : Rearranges c m m') : Sound c m' := by
  cases hr with
  | relabel hr => exact h.relabel hr
  | delete => exact h.delete
  | move offset => exact h.delete.places (moveSelection_places m c offset)

end Masonry.Model
