import Masonry.Proofs.Model.Counter
import Masonry.Proofs.Model.Rearranging

/-!
# Ids of stones

A stone placed under a given id is checked against the ids in use; one placed under the next id is
not, and relies on the next id lying above all of them (`Ordered`). That lasts as long as no stone
has the greatest id, after which the next id starts again from the least one. Main statements:
a batch of placements hands out consecutive ids (`ids_placeAll`), steps that hand out none never
repeat one (`nodup_ids_rearrange`), and without the greatest id order is kept (`Ordered.places`).
-/

namespace Masonry

namespace Model

variable {α : Type}

/-- No two stones share an id, and the next id is above all of them. -/
structure Ordered (m : Model α) : Prop where
  nodup : m.ids.Nodup
  lt_next : ∀ k ∈ m.ids, k < m.nextStone

theorem nodup_ids_put {m : Model α} {s : Stone α} {next : Int32} :
    (m.put s next).ids.Nodup ↔ m.ids.Nodup ∧ s.id ∉ m.ids := by
  rw [ids_put, List.nodup_append]
  constructor
  · rintro ⟨h, -, hne⟩
    exact ⟨h, fun hmem => hne _ hmem _ (List.mem_singleton_self _) rfl⟩
  · rintro ⟨h, hs⟩
    refine ⟨h, by simp, fun k hk j hj hkj => hs ?_⟩
    rw [← List.mem_singleton.1 hj, ← hkj]
    exact hk

/-- Putting in a stone keeps the order if the next id goes up to lie above it. -/
theorem Ordered.put {m : Model α} {s : Stone α} {next : Int32} (h : m.Ordered) (hs : s.id ∉ m.ids)
    (hle : m.nextStone ≤ next) (hlt : s.id < next) : (m.put s next).Ordered := by
  refine ⟨nodup_ids_put.2 ⟨h.nodup, hs⟩, fun k hk => ?_⟩
  rw [ids_put] at hk
  rw [nextStone_put]
  rcases List.mem_append.1 hk with hk | hk
  · exact Int32.lt_of_lt_of_le (h.lt_next k hk) hle
  · rw [List.mem_singleton.1 hk]
    exact hlt

/-- Order does not need any of the stones. -/
theorem Ordered.of_sublist {m m' : Model α} (h : m.Ordered) (hs : m'.stones.Sublist m.stones)
    (hle : m.nextStone ≤ m'.nextStone) : m'.Ordered := by
  have hids : m'.ids.Sublist m.ids := hs.map _
  refine ⟨h.nodup.sublist hids, fun k hk => ?_⟩
  exact Int32.lt_of_lt_of_le (h.lt_next k (hids.subset hk)) hle

theorem Ordered.relabel {m m' : Model α} (h : m.Ordered) (hr : Relabels m m') : m'.Ordered := by
  constructor
  · rw [hr.ids_eq]
    exact h.nodup
  · rw [hr.ids_eq, hr.nextStone]
    exact h.lt_next

variable [Scalar α] {c : Catalog α} {m m' : Model α} {P : Option Int32 → Prop}

theorem ordered_empty : (empty : Model α).Ordered := by
  constructor <;> simp

/-- Ids that are given to stones never repeat one in use. -/
theorem nodup_ids_places (hp : Places c P m m') (hP : ¬P none) (h : m.ids.Nodup) : m'.ids.Nodup :=
  hp.keeps (R := fun n => n.ids.Nodup) (fun _ _ _ _ _ _ hk hn => nodup_ids_put.2 ⟨hn, hk⟩)
    (fun _ _ hnone => absurd hnone hP) h

theorem nodup_ids_rearrange (hr : Rearranges c m m') (h : m.ids.Nodup) : m'.ids.Nodup := by
  have hdelete : m.deleteSelection.2.ids.Nodup := h.sublist (List.filter_sublist.map _)
  cases hr with
  | relabel hr => rwa [hr.ids_eq]
  | delete => exact hdelete
  | move offset => exact nodup_ids_places (moveSelection_places m c offset) (by simp) hdelete

/-- While the greatest id is not in use, placing keeps the next id above all ids. -/
theorem Ordered.places (h : m.Ordered) (hp : Places c P m m') (hmax : Int32.maxValue ∉ m'.ids) :
    m'.Ordered := by
  refine hp.keeps (R := fun n => Int32.maxValue ∉ n.ids → n.Ordered) ?_ ?_ (fun _ => h) hmax
  · intro n s k _ _ _ hk hn hmax
    rw [ids_put, List.mem_append, List.mem_singleton, not_or] at hmax
    have hne : k ≠ Int32.maxValue := Ne.symm hmax.2
    exact (hn hmax.1).put hk (Counter.le_max_left _ _)
      (Int32.lt_of_lt_of_le (Counter.lt_add_one hne) (Counter.le_max_right _ _))
  · intro n s _ _ _ hn hmax
    rw [ids_put, List.mem_append, List.mem_singleton, not_or] at hmax
    have hne : n.nextStone ≠ Int32.maxValue := Ne.symm hmax.2
    have hfresh : n.nextStone ∉ n.ids := fun hmem =>
      Int32.lt_irrefl ((hn hmax.1).lt_next _ hmem)
    have hlt : n.nextStone < n.nextStone + 1 := Counter.lt_add_one hne
    exact (hn hmax.1).put hfresh (Int32.le_of_lt hlt) hlt

theorem Ordered.rearrange (h : m.Ordered) (hr : Rearranges c m m')
    (hmax : Int32.maxValue ∉ m'.ids) : m'.Ordered := by
  have hdelete : m.deleteSelection.2.Ordered := h.of_sublist List.filter_sublist (Int32.le_refl _)
  cases hr with
  | relabel hr => exact h.relabel hr
  | delete => exact hdelete
  | move offset => exact hdelete.places (moveSelection_places m c offset) hmax

/-- A batch hands out the next ids in a row, one for each stone that is stored. -/
theorem placeAll_hands_out (m : Model α) (c : Catalog α) (insertId : Int32) (ps : List Placement) :
    (m.placeAll c insertId ps).2.ids =
        m.ids ++ Counter.upcoming m.nextStone (m.placeAll c insertId ps).1 ∧
      (m.placeAll c insertId ps).2.nextStone =
        m.nextStone + Int32.ofNat (m.placeAll c insertId ps).1 ∧
      (m.placeAll c insertId ps).1 ≤ ps.length := by
  induction ps generalizing m with
  | nil => simp [placeAll, Counter.upcoming]
  | cons p ps ih =>
    have hcons : m.placeAll c insertId (p :: ps) =
        let q := m.place c none insertId p
        let r := q.2.placeAll c insertId ps
        (if q.1.isStored then r.1 + 1 else r.1, r.2) := rfl
    rcases place_cases m c none insertId p with ⟨hrefused, hm⟩ | ⟨s, -, -, ⟨k, hk, -⟩ | ⟨-, hm⟩⟩
    · obtain ⟨hids, hnext, hcount⟩ := ih m
      have hle : (m.placeAll c insertId ps).1 ≤ (p :: ps).length := Nat.le_succ_of_le hcount
      simpa [hcons, hrefused, hm] using ⟨hids, hnext, hle⟩
    · cases hk
    · obtain ⟨hids, hnext, hcount⟩ := ih (m.put { s with id := m.nextStone } (m.nextStone + 1))
      have hadd : ∀ n, m.nextStone + 1 + Int32.ofNat n = m.nextStone + Int32.ofNat (n + 1) := by
        intro n
        rw [Int32.ofNat_add, Int32.add_assoc, Int32.add_comm (Int32.ofNat n)]
        rfl
      simp [hcons, hm, hids, hnext, hadd, hcount, Placed.isStored, Counter.upcoming]

theorem ids_placeAll (m : Model α) (c : Catalog α) (insertId : Int32) (ps : List Placement) :
    (m.placeAll c insertId ps).2.ids =
      m.ids ++ Counter.upcoming m.nextStone (m.placeAll c insertId ps).1 :=
  (placeAll_hands_out m c insertId ps).1

end Model

end Masonry
