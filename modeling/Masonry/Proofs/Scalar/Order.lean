import Mathlib.Algebra.Order.Ring.Int
import Mathlib.Algebra.Order.Ring.Rat
import Mathlib.Data.Prod.Lex
import Masonry.Scalar.Binary
import Masonry.Scalar.Exact

/-!
# Numbers in order

Numbers that are defined are ordered, and a number that is not compares with nothing (`Scalar.Ordered`).
Exact numbers are ordered so, and so are those of double precision: these compare as their keys do, and
undefined ones have no key (`Binary64.key?`).
-/

namespace Masonry

namespace Scalar

/-- The numbers that are at most themselves are totally ordered, and the others compare with nothing. Two
numbers may be at most each other and yet differ, as zeros of both signs do. -/
class Ordered (α : Type) [Scalar α] : Prop where
  defined_of_le : ∀ {a b : α}, a ≤ b → a ≤ a ∧ b ≤ b
  le_total : ∀ {a b : α}, a ≤ a → b ≤ b → a ≤ b ∨ b ≤ a
  le_trans : ∀ {a b c : α}, a ≤ b → b ≤ c → a ≤ c
  lt_iff : ∀ {a b : α}, a < b ↔ a ≤ b ∧ ¬b ≤ a

namespace Ordered

section Laws

variable {α : Type} [Scalar α] [Ordered α] {a b c : α}

theorem le_of_lt (h : a < b) : a ≤ b := (lt_iff.1 h).1

theorem defined_of_lt (h : a < b) : a ≤ a ∧ b ≤ b := defined_of_le (le_of_lt h)

theorem le_of_not_lt (ha : a ≤ a) (hb : b ≤ b) (h : ¬a < b) : b ≤ a := by
  rcases le_total ha hb with hle | hle
  · by_contra hnot
    exact h (lt_iff.2 ⟨hle, hnot⟩)
  · exact hle

theorem lt_of_lt_of_le (hab : a < b) (hbc : b ≤ c) : a < c := by
  refine lt_iff.2 ⟨le_trans (le_of_lt hab) hbc, fun hca => ?_⟩
  exact (lt_iff.1 hab).2 (le_trans hbc hca)

end Laws

/-- Numbers are ordered if they compare as keys from a linear order do, and not at all without a key. -/
theorem of_key {α κ : Type} [Scalar α] [LinearOrder κ] (key? : α → Option κ)
    (le_iff : ∀ a b : α, a ≤ b ↔ ∃ i ∈ key? a, ∃ j ∈ key? b, i ≤ j)
    (lt_iff : ∀ a b : α, a < b ↔ ∃ i ∈ key? a, ∃ j ∈ key? b, i < j) : Ordered α where
  defined_of_le h := by
    obtain ⟨i, hi, j, hj, -⟩ := (le_iff _ _).1 h
    exact ⟨(le_iff _ _).2 ⟨i, hi, i, hi, le_rfl⟩, (le_iff _ _).2 ⟨j, hj, j, hj, le_rfl⟩⟩
  le_total ha hb := by
    obtain ⟨i, hi, -⟩ := (le_iff _ _).1 ha
    obtain ⟨j, hj, -⟩ := (le_iff _ _).1 hb
    rcases le_or_gt i j with hij | hij
    · exact .inl ((le_iff _ _).2 ⟨i, hi, j, hj, hij⟩)
    · exact .inr ((le_iff _ _).2 ⟨j, hj, i, hi, hij.le⟩)
  le_trans hab hbc := by
    obtain ⟨i, hi, j, hj, hij⟩ := (le_iff _ _).1 hab
    obtain ⟨j', hj', k, hk, hjk⟩ := (le_iff _ _).1 hbc
    obtain rfl := Option.mem_unique hj hj'
    exact (le_iff _ _).2 ⟨i, hi, k, hk, hij.trans hjk⟩
  lt_iff {a b} := by
    rw [lt_iff, le_iff, le_iff]
    constructor
    · rintro ⟨i, hi, j, hj, hij⟩
      refine ⟨⟨i, hi, j, hj, hij.le⟩, ?_⟩
      rintro ⟨j', hj', i', hi', hji⟩
      obtain rfl := Option.mem_unique hi hi'
      obtain rfl := Option.mem_unique hj hj'
      exact absurd hij (not_lt.2 hji)
    · rintro ⟨⟨i, hi, j, hj, hij⟩, hnot⟩
      exact ⟨i, hi, j, hj, lt_of_not_ge fun hji => hnot ⟨j, hj, i, hi, hji⟩⟩

end Ordered

instance : Ordered Rat where
  defined_of_le _ := ⟨Rat.le_refl, Rat.le_refl⟩
  le_total _ _ := Rat.le_total
  le_trans := Rat.le_trans
  lt_iff := lt_iff_le_not_ge

end Scalar

namespace Binary64

open Float.Model

/-- Where a number stands among all that are defined: its kind and sign first, then its exponent, then its
mantissa. -/
def key? : UnpackedFloat → Option (Int ×ₗ Int ×ₗ Int)
  | .notANumber => none
  | .infinity .negative => some (toLex (-2, toLex (0, 0)))
  | .finite .negative mantissa exponent _ => some (toLex (-1, toLex (-exponent, -(mantissa : Int))))
  | .zero _ => some (toLex (0, toLex (0, 0)))
  | .finite .positive mantissa exponent _ => some (toLex (1, toLex (exponent, (mantissa : Int))))
  | .infinity .positive => some (toLex (2, toLex (0, 0)))

theorem compare_neg (a b : Int) : compare (-a) (-b) = (compare a b).swap := by
  rw [← Std.OrientedOrd.eq_swap]
  simp [compare, compareOfLessAndEq, eq_comm]

theorem compare_natCast (m n : Nat) : compare (m : Int) (n : Int) = compare m n := by
  simp [compare, compareOfLessAndEq]

/-- Numbers compare as their keys do. -/
theorem compare_eq (a b : UnpackedFloat) :
    a.compare b = (key? a).bind fun i => (key? b).map (compare i) := by
  rcases a with (_ | _) | _ | _ | ⟨(_ | _), m, e, hm⟩ <;>
    rcases b with (_ | _) | _ | _ | ⟨(_ | _), m', e', hm'⟩ <;> try rfl
  case finite.negative.finite.negative =>
    show some ((compare e e').then (compare m m')).swap =
      some ((compare (-e) (-e')).then (compare (-(m : Int)) (-(m' : Int))))
    rw [compare_neg, compare_neg, compare_natCast, Ordering.swap_then]
  case finite.positive.finite.positive =>
    show some ((compare e e').then (compare m m')) =
      some ((compare e e').then (compare (m : Int) (m' : Int)))
    rw [compare_natCast]

theorem le_iff (a b : Binary64) : a ≤ b ↔
    ∃ i ∈ key? a.toFloat.toModel.unpack, ∃ j ∈ key? b.toFloat.toModel.unpack, i ≤ j := by
  have hle : a ≤ b ↔ a.toFloat.toModel.unpack.le b.toFloat.toModel.unpack = true := by
    show decide (_ = true) = true ↔ _
    rw [decide_eq_true_iff]
    rfl
  rw [hle, UnpackedFloat.le, compare_eq]
  cases key? a.toFloat.toModel.unpack <;> cases key? b.toFloat.toModel.unpack <;>
    simp [Ordering.isLE_iff_ne_gt, compare_le_iff_le]

theorem lt_iff (a b : Binary64) : a < b ↔
    ∃ i ∈ key? a.toFloat.toModel.unpack, ∃ j ∈ key? b.toFloat.toModel.unpack, i < j := by
  have hlt : a < b ↔ a.toFloat.toModel.unpack.lt b.toFloat.toModel.unpack = true := by
    show decide (_ = true) = true ↔ _
    rw [decide_eq_true_iff]
    rfl
  rw [hlt, UnpackedFloat.lt, compare_eq]
  cases key? a.toFloat.toModel.unpack <;> cases key? b.toFloat.toModel.unpack <;>
    simp [compare_lt_iff_lt]

instance : Scalar.Ordered Binary64 :=
  .of_key (fun a => key? a.toFloat.toModel.unpack) le_iff lt_iff

end Binary64

end Masonry
