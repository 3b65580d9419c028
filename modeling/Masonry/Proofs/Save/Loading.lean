import Masonry.Save.Document
import Masonry.Proofs.Model.Identity
import Masonry.Proofs.Model.Separation

/-!
# What is loaded

Whatever an archive says, its stones enter one by one through `Model.place` under their own ids. So a
loaded model is sound, its ids differ, and its next id is above them unless one is the greatest.
-/

namespace Masonry

/-- A catalog with one shape, which has no corners: the boxes of its stones are points. -/
def Catalog.points : Catalog Binary64 := ⟨[{ Shape.blank "s432" with id := 432 }]⟩

end Masonry

namespace Masonry.Model

open Save

variable {α : Type} [Scalar α] [Stored α]

/-- The model of an archive's stones, before the archive's counters and groups are taken over. -/
def ofStones (c : Catalog α) (a : Archive) : Model α :=
  a.stones.foldl (placeStored c) (empty.withOrigin (a.origin.map Stored.ofWord))

theorem stones_ofArchive (c : Catalog α) (a : Archive) :
    (ofArchive c a).stones = (ofStones c a).stones := rfl

theorem ids_ofArchive (c : Catalog α) (a : Archive) : (ofArchive c a).ids = (ofStones c a).ids :=
  rfl

theorem origin_ofArchive (c : Catalog α) (a : Archive) :
    (ofArchive c a).origin = (ofStones c a).origin := rfl

theorem nextStone_ofArchive (c : Catalog α) (a : Archive) :
    (ofArchive c a).nextStone = max (ofStones c a).nextStone a.nextStone := rfl

/-- Of the members of a group those are kept whose stone is there. -/
theorem groups_ofArchive (c : Catalog α) (a : Archive) :
    (ofArchive c a).groups =
      a.groups.map fun g => { g with members := g.members.filter (· ∈ (ofArchive c a).ids) } := by
  have hthere : ∀ id, ((ofStones c a).stone? id).isSome = decide (id ∈ (ofArchive c a).ids) := by
    intro id
    rw [← Option.isSome_map, map_stone?, ids_ofArchive]
    split <;> simp [*]
  show a.groups.map (fun g =>
    { g with members := g.members.filter fun id => ((ofStones c a).stone? id).isSome }) = _
  simp only [hthere]

omit [Stored α] in
theorem foldl_placeStored_places (c : Catalog α) (m : Model α) (ss : List StoredStone) :
    Places c (fun id => ∃ s ∈ ss, id = some s.id) m (ss.foldl (placeStored c) m) := by
  induction ss generalizing m with
  | nil => exact .refl m
  | cons s ss ih =>
    refine .step (some s.id) s.insertId (.folded s.code s.color s.turns s.cell) ⟨s, .head _, rfl⟩ ?_
    exact (ih _).mono fun _ ⟨t, ht, hid⟩ => ⟨t, .tail _ ht, hid⟩

theorem ofStones_places (c : Catalog α) (a : Archive) :
    Places c (fun id => ∃ s ∈ a.stones, id = some s.id) (empty.withOrigin (a.origin.map Stored.ofWord))
      (ofStones c a) :=
  foldl_placeStored_places c _ a.stones

theorem lastLevel_ofArchive (c : Catalog α) (a : Archive) : (ofArchive c a).lastLevel = 0 :=
  (ofStones_places c a).frame.lastLevel

/-- The next id of a loaded model has come up to all ids, and was never negative. -/
theorem nextStone_ofArchive_ge (c : Catalog α) (a : Archive) :
    0 ≤ (ofArchive c a).nextStone ∧ ∀ k ∈ (ofArchive c a).ids, k + 1 ≤ (ofArchive c a).nextStone := by
  have hplaced : 0 ≤ (ofStones c a).nextStone ∧
      ∀ k ∈ (ofStones c a).ids, k + 1 ≤ (ofStones c a).nextStone := by
    refine (ofStones_places c a).keeps
      (R := fun n => 0 ≤ n.nextStone ∧ ∀ k ∈ n.ids, k + 1 ≤ n.nextStone) ?_ (by simp) ?_
    · rintro m s k - - - - ⟨hnext, hids⟩
      -- For the greatest id `k + 1` is the least number, so this says nothing of it.
      rw [nextStone_put, ids_put]
      refine ⟨Int32.le_trans hnext (Counter.le_max_left _ _), fun j hj => ?_⟩
      rcases List.mem_append.1 hj with hj | hj
      · exact Int32.le_trans (hids j hj) (Counter.le_max_left _ _)
      · rw [List.mem_singleton.1 hj]
        exact Counter.le_max_right _ _
    · exact ⟨Int32.le_refl 0, by simp [withOrigin, ids, empty]⟩
  rw [nextStone_ofArchive, ids_ofArchive]
  refine ⟨Int32.le_trans hplaced.1 (Counter.le_max_left _ _), fun k hk => ?_⟩
  exact Int32.le_trans (hplaced.2 k hk) (Counter.le_max_left _ _)

omit [Stored α] in
/-- Placing a stored stone changes nothing or puts in that stone, unselected, with its turns folded. -/
theorem placeStored_cases (c : Catalog α) (m : Model α) (s : StoredStone) :
    placeStored c m s = m ∨ ∃ t next, t.stored = { s with turns := foldTurns s.turns } ∧
      t.selected = false ∧ placeStored c m s = m.put t next := by
  rcases place_cases m c (some s.id) s.insertId (.folded s.code s.color s.turns s.cell) with
    ⟨-, heq⟩ | ⟨t, ht, -, ⟨k, hk, -, heq⟩ | ⟨hnone, -⟩⟩
  · exact .inl heq
  · obtain ⟨box, -, rfl⟩ := candidate?_eq_some_iff.1 ht
    obtain rfl := Option.some.inj hk
    refine .inr ⟨_, _, ?_, ?_, congrArg Prod.snd heq⟩
    · simp [Stone.stored, Placement.folded, foldTurns_of_lt (foldTurns_lt s.turns)]
    · rfl
  · cases hnone

omit [Stored α] in
/-- What is added by loading are stones of the archive, in their order. -/
theorem foldl_placeStored_stones (c : Catalog α) (m : Model α) (ss : List StoredStone) :
    ∃ added, (ss.foldl (placeStored c) m).stones = m.stones ++ added ∧
      (added.map Stone.stored).Sublist (ss.map fun s => { s with turns := foldTurns s.turns }) ∧
      ∀ t ∈ added, t.selected = false := by
  induction ss generalizing m with
  | nil => exact ⟨[], by simp, .slnil, by simp⟩
  | cons s ss ih =>
    obtain ⟨added, hstones, hsub, hadded⟩ := ih (placeStored c m s)
    rw [List.foldl_cons, hstones]
    rcases placeStored_cases c m s with heq | ⟨t, next, ht, hselected, heq⟩
    · exact ⟨added, by rw [heq], .cons _ hsub, hadded⟩
    · refine ⟨t :: added, by simp [heq, put], ?_, List.forall_mem_cons.2 ⟨hselected, hadded⟩⟩
      rw [List.map_cons, List.map_cons, ht]
      exact .cons_cons _ hsub

theorem sound_ofArchive (c : Catalog α) (a : Archive) : Sound c (ofArchive c a) := by
  have hstart : Sound c ((empty : Model α).withOrigin (a.origin.map Stored.ofWord)) :=
    sound_of_stones_eq_nil rfl
  exact (hstart.places (ofStones_places c a)).of_sublist (origin_ofArchive c a) (List.Sublist.refl _)

theorem nodup_ids_ofArchive (c : Catalog α) (a : Archive) : (ofArchive c a).ids.Nodup := by
  rw [ids_ofArchive]
  exact nodup_ids_places (ofStones_places c a) (by simp) List.nodup_nil

theorem ordered_ofArchive (c : Catalog α) (a : Archive)
    (hmax : Int32.maxValue ∉ (ofArchive c a).ids) : (ofArchive c a).Ordered := by
  have hstart : ((empty : Model α).withOrigin (a.origin.map Stored.ofWord)).Ordered :=
    ordered_empty.of_sublist (List.Sublist.refl _) (Int32.le_refl _)
  refine (hstart.places (ofStones_places c a) hmax).of_sublist (List.Sublist.refl _) ?_
  rw [nextStone_ofArchive]
  exact Counter.le_max_left _ _

end Masonry.Model

namespace Masonry.Document

open Save

variable {α : Type} [Scalar α] [Stored α] {c : Catalog α} {bytes rest : List UInt8} {d : Document α}

/-- Bytes load if an archive can be read from them, and then as what the archive describes. -/
theorem loadPart_eq_ok_iff : loadPart c bytes = .ok (d, rest) ↔
    ∃ a, Archive.decode bytes = .ok (a, rest) ∧ d = ⟨a.nextInsert, .ofArchive c a⟩ := by
  rw [loadPart]
  cases Archive.decode bytes with
  | error fault => simp [bind, Except.bind]
  | ok r =>
    obtain ⟨a, rest'⟩ := r
    simp only [bind, Except.bind, pure, Except.pure, Except.ok.injEq, Prod.mk.injEq]
    constructor
    · rintro ⟨rfl, rfl⟩
      exact ⟨a, ⟨rfl, rfl⟩, rfl⟩
    · rintro ⟨a', ⟨rfl, rfl⟩, rfl⟩
      exact ⟨rfl, rfl⟩

/-- Whether a computation gives a value can be decided by running it. -/
instance decidableEqOk {ε β : Type} [DecidableEq β] (x : Except ε β) (b : β) : Decidable (x = .ok b) :=
  match x with
  | .ok a => decidable_of_iff (a = b) (by simp)
  | .error _ => isFalse (by simp)

theorem load_eq_ok_iff : load c bytes = .ok d ↔
    ∃ a rest, Archive.decode bytes = .ok (a, rest) ∧ d = ⟨a.nextInsert, .ofArchive c a⟩ := by
  have hpart : load c bytes = .ok d ↔ ∃ rest, loadPart c bytes = .ok (d, rest) := by
    rw [load]
    cases loadPart c bytes with
    | error fault => simp [Except.map]
    | ok r => simp [Except.map, Prod.ext_iff]
  rw [hpart, exists_comm]
  simp only [loadPart_eq_ok_iff]

end Masonry.Document
