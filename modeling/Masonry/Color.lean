import Masonry.Scalar.Binary

/-!
# Colors

The palette has eight colors, numbered from zero. The number of a color is what saved models hold.
-/

namespace Masonry

/-- A color of stones. -/
inductive Color where
  | white
  | yellow
  | red
  | blue
  | black
  | green
  | brown
  | gray
  deriving DecidableEq, Repr, Inhabited

/-- The red, green and blue parts of a color, each from zero to one. -/
structure Rgb where
  red : Binary32
  green : Binary32
  blue : Binary32
  deriving DecidableEq, Repr, Inhabited

namespace Color

/-- The palette in the order of the numbers. -/
def all : List Color := [white, yellow, red, blue, black, green, brown, gray]

/-- The number of a color. -/
def index : Color → Nat
  | white => 0
  | yellow => 1
  | red => 2
  | blue => 3
  | black => 4
  | green => 5
  | brown => 6
  | gray => 7

/-- The color with a number. -/
def ofIndex? (index : Int) : Option Color :=
  match index with
  | .ofNat n => all[n]?
  | .negSucc _ => none

/-- A color is found under its own number, and under no other. -/
theorem ofIndex?_eq_some_iff {n : Int} {c : Color} : ofIndex? n = some c ↔ n = c.index := by
  constructor
  · intro h
    match n with
    | .ofNat k =>
      have hk : k < 8 := by
        rcases Nat.lt_or_ge k 8 with h' | h'
        · exact h'
        · simp [ofIndex?, all, h'] at h
      match k, hk with
      | 0, _ | 1, _ | 2, _ | 3, _ | 4, _ | 5, _ | 6, _ | 7, _ =>
        simp [ofIndex?, all] at h; subst h; rfl
    | .negSucc _ => simp [ofIndex?] at h
  · rintro rfl
    cases c <;> rfl

/-- The name of a color. -/
def name : Color → String
  | white => "white"
  | yellow => "yellow"
  | red => "red"
  | blue => "blue"
  | black => "black"
  | green => "green"
  | brown => "brown"
  | gray => "gray"

/-- The color with a name. -/
def ofName? (name : String) : Option Color := all.find? (·.name == name)

theorem ofName?_name (c : Color) : ofName? c.name = some c := by cases c <;> decide

/-- The parts of a color on the screen; black is light enough to show shading. -/
def rgb : Color → Rgb
  | white => ⟨1, 1, 1⟩
  | yellow => ⟨1, 1, 0⟩
  | red => ⟨0.7, 0.3, 0.3⟩
  | blue => ⟨0, 0, 1⟩
  | black => ⟨0.3, 0.3, 0.3⟩
  | green => ⟨0.1, 0.8, 0.1⟩
  | brown => ⟨0.5, 0.3, 0⟩
  | gray => ⟨0.6, 0.6, 0.6⟩

end Color

/-- The tint of selected stones. -/
def Rgb.highlight : Rgb := ⟨1, 0, 1⟩

end Masonry
