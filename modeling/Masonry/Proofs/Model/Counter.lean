import Masonry.Model
import Mathlib.Data.List.Nodup
import Mathlib.Data.List.Perm.Subperm

/-!
# Counters

Ids come from counters of four bytes: each is the number after the last, and the least number comes
after the greatest. What is said here about such numbers is all that the rest needs of them.
-/

namespace Masonry.Counter

theorem toInt_max (a b : Int32) : (max a b).toInt = max a.toInt b.toInt := by
  show (if a ≤ b then b else a).toInt = if a.toInt ≤ b.toInt then b.toInt else a.toInt
  simp only [Int32.le_iff_toInt_le]
  split <;> rfl

theorem le_max_left (a b : Int32) : a ≤ max a b := by
  rw [Int32.le_iff_toInt_le, toInt_max]
  omega

theorem le_max_right (a b : Int32) : b ≤ max a b := by
  rw [Int32.le_iff_toInt_le, toInt_max]
  omega

theorem max_le {a b c : Int32} (ha : a ≤ c) (hb : b ≤ c) : max a b ≤ c := by
  rw [Int32.le_iff_toInt_le, toInt_max]
  rw [Int32.le_iff_toInt_le] at ha hb
  omega

/-- Only after the greatest number the count goes down. -/
theorem toInt_add_one {a : Int32} (h : a ≠ Int32.maxValue) : (a + 1).toInt = a.toInt + 1 := by
  have hne : a.toInt ≠ 2147483647 := fun heq => h (Int32.toInt.inj heq)
  have hge := a.le_toInt
  have hlt := a.toInt_lt
  rw [Int32.toInt_add, Int32.toInt_one]
  exact Int.bmod_eq_of_le (by omega) (by omega)

theorem lt_add_one {a : Int32} (h : a ≠ Int32.maxValue) : a < a + 1 := by
  rw [Int32.lt_iff_toInt_lt, toInt_add_one h]
  omega

theorem ne_maxValue_of_lt {a b : Int32} (h : a < b) : a ≠ Int32.maxValue := by
  rintro rfl
  have hlt := b.toInt_lt
  rw [Int32.lt_iff_toInt_lt, show Int32.maxValue.toInt = 2147483647 from rfl] at h
  omega

theorem ne_maxValue_of_le_add_one {a : Int32} (h : a ≤ a + 1) : a ≠ Int32.maxValue := by
  rintro rfl
  exact absurd h (by decide)

theorem add_one_le {a b : Int32} (h : a < b) : a + 1 ≤ b := by
  rw [Int32.le_iff_toInt_le, toInt_add_one (ne_maxValue_of_lt h)]
  exact Int32.lt_iff_toInt_lt.1 h

/-- A count that ends no lower than it began, and took few steps, never met the greatest number. -/
theorem toInt_add_lt {a : Int32} {n : Nat} (ha : 0 ≤ a) (hn : n < 2147483648)
    (h : a ≤ a + Int32.ofNat n) : a.toInt + n < 2147483648 := by
  have hlt := a.toInt_lt
  rw [Int32.le_iff_toInt_le] at ha h
  rw [Int32.toInt_add, Int32.toInt_ofNat_of_lt hn, Int.bmod_def] at h
  have hzero : (0 : Int32).toInt = 0 := rfl
  split at h <;> omega

/-- As many ids in a row as asked for, from the next one; the least follows the greatest. -/
def upcoming (next : Int32) : Nat → List Int32
  | 0 => []
  | n + 1 => next :: upcoming (next + 1) n

/-- Ids in a row that end below the greatest number are not below the first and not the greatest. -/
theorem of_mem_upcoming {next k : Int32} {n : Nat} (hn : next.toInt + n < 2147483648)
    (hk : k ∈ upcoming next n) : next ≤ k ∧ k ≠ Int32.maxValue := by
  induction n generalizing next with
  | zero => cases hk
  | succ n ih =>
    have hnext : next ≠ Int32.maxValue := by
      rintro rfl
      rw [show Int32.maxValue.toInt = 2147483647 from rfl] at hn
      omega
    rcases List.mem_cons.1 hk with rfl | hk
    · exact ⟨Int32.le_refl k, hnext⟩
    · have hsum : (next + 1).toInt + n < 2147483648 := by
        rw [toInt_add_one hnext]
        omega
      obtain ⟨hle, hne⟩ := ih hsum hk
      exact ⟨Int32.le_trans (Int32.le_of_lt (lt_add_one hnext)) hle, hne⟩

/-- Ids in a row without the greatest number are not below the first. -/
theorem le_of_mem_upcoming {next k : Int32} {n : Nat} (hmax : Int32.maxValue ∉ upcoming next n)
    (hk : k ∈ upcoming next n) : next ≤ k := by
  induction n generalizing next with
  | zero => cases hk
  | succ n ih =>
    have hnext : next ≠ Int32.maxValue := fun heq => hmax (heq ▸ .head _)
    rcases List.mem_cons.1 hk with rfl | hk
    · exact Int32.le_refl k
    · have hle : next + 1 ≤ k := ih (fun hmem => hmax (.tail _ hmem)) hk
      exact Int32.le_trans (Int32.le_of_lt (lt_add_one hnext)) hle

example : upcoming Int32.maxValue 2 = [Int32.maxValue, Int32.minValue] := by decide

/-- There is only so much room below a number of four bytes. -/
theorem length_lt_of_nodup {next : Int32} {ids : List Int32} (h : ids.Nodup)
    (hids : ∀ k ∈ ids, 0 ≤ k ∧ k < next) : ids.length < 2147483648 := by
  have hnat : ∀ k ∈ ids, (k.toInt.toNat : Int) = k.toInt := fun k hk =>
    Int.toNat_of_nonneg (Int32.le_iff_toInt_le.1 (hids k hk).1)
  have hnodup : (ids.map fun k => k.toInt.toNat).Nodup := by
    refine h.map_on fun j hj k hk hjk => Int32.toInt.inj ?_
    rw [← hnat j hj, ← hnat k hk, hjk]
  have hsub : (ids.map fun k => k.toInt.toNat) ⊆ List.range 2147483647 := by
    intro n hn
    obtain ⟨k, hk, rfl⟩ := List.mem_map.1 hn
    have hlt := Int32.lt_iff_toInt_lt.1 (hids k hk).2
    have hnext := next.toInt_lt
    have hk := hnat k hk
    rw [List.mem_range]
    omega
  have hle := (hnodup.subperm hsub).length_le
  rw [List.length_map, List.length_range] at hle
  omega

end Masonry.Counter
