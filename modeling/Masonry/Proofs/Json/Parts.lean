import Mathlib.Data.List.Basic
import Mathlib.Data.List.TakeDrop
import Mathlib.Tactic.IntervalCases
import Masonry.Json

/-!
# Texts of JSON parts

A part of a JSON text is read back from the text that is printed for it, whatever follows: a string up to
its closing quote, and a number if no character follows that would go on with it. So a text that writes
parts one after the other, with any blanks between them, is cut into these parts (`parts?_of_writes`).
-/

namespace Masonry

/-! ## Digits -/

namespace Text

theorem digitsValue_toDigits (n : Nat) : digitsValue (Nat.toDigits 10 n) = n :=
  Nat.ofDigitChars_toDigits (by decide) (by decide)

/-- A number is not written with a zero in front. -/
theorem head?_toDigits {n : Nat} (hn : 0 < n) : (Nat.toDigits 10 n).head? ≠ some '0' := by
  induction n using Nat.strongRecOn with
  | ind n ih =>
    rw [Nat.toDigits_eq_if (by decide)]
    split
    · next hlt => interval_cases n <;> decide
    · next hge =>
      rw [List.head?_append_of_ne_nil _ (by simp)]
      exact ih (n / 10) (by omega) (by omega)

end Text

namespace Json

/-! ## Strings -/

theorem hexDigit?_digitChar {d : Nat} (hd : d < 16) : hexDigit? (Nat.digitChar d) = some d := by
  interval_cases d <;> decide

/-- The number of a control character is read back from its two digits. -/
theorem hex4?_digitChar {n : Nat} (hn : n < 0x20) :
    hex4? '0' '0' (Nat.digitChar (n / 16)) (Nat.digitChar (n % 16)) = some n := by
  have hzero : hexDigit? '0' = some 0 := by decide
  have hhigh := hexDigit?_digitChar (d := n / 16) (by omega)
  have hlow := hexDigit?_digitChar (d := n % 16) (by omega)
  simp only [hex4?, hzero, hhigh, hlow]
  congr 1
  omega

/-- A character that needs no escape stands for itself. -/
theorem stringUnits?_cons {c : Char} (tail : List Char) (hquote : c ≠ '"') (hslash : c ≠ '\\')
    (hc : ¬ c.toNat < 0x20) : stringUnits? (c :: tail) =
      (stringUnits? tail).map fun (units, rest) => (.char c :: units, rest) := by
  rw [stringUnits?]
  · simp [hc, Option.map_eq_bind]
  · exact hquote
  · intros
    exact hslash ‹_›
  · intros
    exact hslash ‹_›

/-- A character is read back from what is written for it in a string. -/
theorem stringUnits?_escaped (c : Char) (tail : List Char) : stringUnits? (escaped c ++ tail) =
    (stringUnits? tail).map fun (units, rest) => (.char c :: units, rest) := by
  unfold escaped
  split
  -- seven characters have an escape of their own
  iterate 7 (simp [stringUnits?, simpleEscape?, Option.map_eq_bind])
  next hquote hslash _ _ _ _ _ =>
    split
    · next hlt =>
      have hpair : ¬ (0xD800 ≤ c.toNat ∧ c.toNat ≤ 0xDFFF) := by omega
      simp [stringUnits?, hex4?_digitChar hlt, hpair, Option.map_eq_bind]
    · next hge =>
      exact stringUnits?_cons tail hquote hslash hge

theorem stringUnits?_flatMap_escaped (cs tail : List Char) :
    stringUnits? (cs.flatMap escaped ++ '"' :: tail) = some (cs.map .char, tail) := by
  induction cs with
  | nil => simp [stringUnits?]
  | cons c cs ih => simp [stringUnits?_escaped, ih]

theorem textOf?_map_char (cs : List Char) : textOf? (cs.map .char) = some cs := by
  induction cs with
  | nil => rfl
  | cons c cs ih => simp [textOf?, ih]

/-! ## Numbers -/

/-- A character that goes on with a number. -/
def continues (c : Char) : Bool := c.isDigit || c == '.' || c == 'e' || c == 'E'

/-- What follows does not go on with a number. -/
def Stops (rest : List Char) : Prop := ∀ c ∈ rest.head?, continues c = false

theorem stops_nil : Stops [] := by simp [Stops]

theorem stops_cons {c : Char} (cs : List Char) (hc : continues c = false) : Stops (c :: cs) := by
  simpa [Stops] using hc

variable {rest : List Char}

theorem spanDigits_append {digits : List Char} (hdigits : ∀ c ∈ digits, c.isDigit) (hrest : Stops rest) :
    spanDigits (digits ++ rest) = (digits, rest) := by
  rw [spanDigits, List.span_eq_takeWhile_dropWhile, List.takeWhile_append_of_pos hdigits,
    List.dropWhile_append_of_pos hdigits]
  cases rest with
  | nil => simp
  | cons c rest =>
    have hc : c.isDigit = false := by
      have := hrest c rfl
      simp_all [continues]
    simp [hc]

theorem fraction?_of_stops (hrest : Stops rest) : fraction? rest = some ([], rest) := by
  unfold fraction?
  split
  · have := hrest '.' rfl
    simp [continues] at this
  · rfl

theorem exponent?_of_stops (hrest : Stops rest) : exponent? rest = some ([], rest) := by
  cases rest with
  | nil => rfl
  | cons c rest =>
    have hc : ¬ (c = 'e' ∨ c = 'E') := by
      have := hrest c rfl
      simp_all [continues]
    simp [exponent?, hc]

/-- A number is read back from its digits; zero has no sign. -/
theorem number?_toDigits (negative : Bool) {n : Nat} (hzero : negative → 0 < n) (hrest : Stops rest) :
    number? negative (Nat.toDigits 10 n ++ rest) =
      some (.integer (if negative then -n else n), rest) := by
  have hdigits : ∀ c ∈ Nat.toDigits 10 n, c.isDigit :=
    fun _ hc => Nat.isDigit_of_mem_toDigits (by decide) (by decide) hc
  have hfront : ¬ ((Nat.toDigits 10 n).head? = some '0' ∧ 1 < (Nat.toDigits 10 n).length) := by
    intro ⟨hhead, hlength⟩
    by_cases hn : 0 < n
    · exact Text.head?_toDigits hn hhead
    · obtain rfl : n = 0 := by omega
      exact absurd hlength (by decide)
  have hsign : ¬ (negative ∧ n = 0) := by
    intro ⟨hneg, hn⟩
    have := hzero hneg
    omega
  simp [number?, spanDigits_append hdigits hrest, fraction?_of_stops hrest, exponent?_of_stops hrest,
    Text.digitsValue_toDigits, hfront, hsign]

/-! ## Parts -/

/-- The text of a part; that of a value is the one that is printed for it. -/
def Part.chars : Part → List Char
  | .openBrace => ['\x7b']
  | .closeBrace => ['\x7d']
  | .openBracket => ['[']
  | .closeBracket => [']']
  | .colon => [':']
  | .comma => [',']
  | .scalar v => v.prettyAt 0

/-- A part whose text says all of it: its value is no container, no number with a fraction or an exponent
and no string without text. -/
def Part.Plain : Part → Prop
  | .scalar (.real _) | .scalar (.string none) | .scalar (.array _) | .scalar (.object _) => False
  | _ => True

/-- A part ends where the rest begins. -/
def Part.EndsBefore (rest : List Char) : Part → Prop
  | .scalar (.integer _) => Stops rest
  | _ => True

theorem Part.endsBefore_of_stops (p : Part) (hrest : Stops rest) : p.EndsBefore rest := by
  unfold Part.EndsBefore
  split
  · exact hrest
  · trivial

/-- A digit begins a number and no other part. -/
theorem part?_digit {c : Char} (cs : List Char) (hc : c.isDigit) :
    part? (c :: cs) = (number? false (c :: cs)).map fun (n, rest) => (.scalar n, rest) := by
  unfold part?
  split
  all_goals first
    | rfl
    | simp_all

theorem part?_toDigits (n : Nat) (hrest : Stops rest) :
    part? (Nat.toDigits 10 n ++ rest) = some (.scalar (.integer n), rest) := by
  obtain ⟨c, cs, hcs⟩ : ∃ c cs, Nat.toDigits 10 n = c :: cs := List.exists_cons_of_ne_nil (by simp)
  have hc : c.isDigit := Nat.isDigit_of_mem_toDigits (by decide) (by decide) (hcs ▸ List.mem_cons_self)
  have hnumber := number?_toDigits false (n := n) (by simp) hrest
  rw [hcs, List.cons_append] at *
  simp [part?_digit _ hc, hnumber]

theorem part?_integer (n : Int) (hrest : Stops rest) :
    part? ((toString n).toList ++ rest) = some (.scalar (.integer n), rest) := by
  rw [Int.toString_eq_repr, Int.repr_eq_if]
  split
  · next hn =>
    rw [Nat.toList_repr, part?_toDigits _ hrest, Int.toNat_of_nonneg hn]
  · next hn =>
    have hnumber := number?_toDigits true (n := (-n).toNat) (by omega) hrest
    have hvalue : -((-n).toNat : Int) = n := by omega
    rw [if_pos rfl, hvalue] at hnumber
    rw [String.toList_append, Nat.toList_repr]
    simp [part?, hnumber]

/-- A part is read back from its text. -/
theorem part?_chars {p : Part} (hp : p.Plain) (hrest : p.EndsBefore rest) :
    part? (p.chars ++ rest) = some (p, rest) := by
  cases p with
  | scalar v =>
    cases v with
    | null => rfl
    | bool value => cases value <;> rfl
    | integer n => exact part?_integer n hrest
    | string text =>
      cases text with
      | none => exact hp.elim
      | some text =>
        simp [Part.chars, prettyAt, quoted, part?, stringUnits?_flatMap_escaped, textOf?_map_char]
    | real digits => exact hp.elim
    | array items => exact hp.elim
    | object members => exact hp.elim
  | _ => rfl

theorem part?_isSpace {c : Char} (cs : List Char) (hc : isSpace c) : part? (c :: cs) = none := by
  have hcases : c = ' ' ∨ c = '\t' ∨ c = '\n' ∨ c = '\r' := by
    simpa [isSpace, or_assoc] using hc
  obtain rfl | rfl | rfl | rfl := hcases <;> rfl

/-- The text of a part begins with no blank, since no part is read there. -/
theorem exists_chars {p : Part} (hp : p.Plain) : ∃ c cs, p.chars = c :: cs ∧ ¬ isSpace c := by
  have hread := part?_chars hp (p.endsBefore_of_stops stops_nil)
  rw [List.append_nil] at hread
  cases hchars : p.chars with
  | nil =>
    rw [hchars] at hread
    cases hread
  | cons c cs =>
    refine ⟨c, cs, rfl, ?_⟩
    intro hc
    rw [hchars, part?_isSpace cs hc] at hread
    cases hread

/-- A text writes parts one after the other, with any blanks between them. -/
inductive Writes : List Char → List Part → Prop where
  | nil : Writes [] []
  | blank {c : Char} {cs : List Char} {ps : List Part} : isSpace c → Writes cs ps → Writes (c :: cs) ps
  | part {p : Part} {cs : List Char} {ps : List Part} : p.Plain → p.EndsBefore cs → Writes cs ps →
      Writes (p.chars ++ cs) (p :: ps)

/-- A text is cut into the parts that it writes. -/
theorem parts?_of_writes {cs : List Char} {ps : List Part} (h : Writes cs ps) {n : Nat}
    (hn : cs.length ≤ n) : parts? n cs = some ps := by
  induction h generalizing n with
  | nil => simp [parts?]
  | @blank c cs ps hc _ ih =>
    cases n with
    | zero => simp at hn
    | succ n =>
      rw [parts?, if_pos hc]
      exact ih (by simpa using hn)
  | @part p cs ps hp hcs _ ih =>
    obtain ⟨c, tail, hchars, hc⟩ := exists_chars hp
    have hpart := part?_chars hp hcs
    simp only [hchars, List.cons_append, List.length_cons, List.length_append] at hpart hn ⊢
    cases n with
    | zero => omega
    | succ n =>
      have hrest := ih (n := n) (by omega)
      simp [parts?, hc, hpart, hrest]

end Json

end Masonry
