import Masonry.Proofs.Shape.Statements

/-!
# Braces

The braces of statements match, and a closing brace after texts whose braces match is found in one way
only (`Balanced.eq_of_append_eq`). So what stands between the braces of an object is determined by the
texts alone.
-/

namespace Masonry

/-- No text is a brace. -/
def Flat (xs : List String) : Prop := ∀ x ∈ xs, x ≠ "\x7b" ∧ x ≠ "\x7d"

/-- Every brace that is opened is closed, in the order in which braces nest. -/
inductive Balanced : List String → Prop
  | nil : Balanced []
  | word {x xs} (hx : x ≠ "\x7b" ∧ x ≠ "\x7d") (h : Balanced xs) : Balanced (x :: xs)
  | braces {xs ys} (inner : Balanced xs) (outer : Balanced ys) :
      Balanced ("\x7b" :: (xs ++ "\x7d" :: ys))

section Flat

@[simp] theorem flat_nil : Flat [] := by simp [Flat]

@[simp] theorem flat_cons {x : String} {xs : List String} :
    Flat (x :: xs) ↔ (x ≠ "\x7b" ∧ x ≠ "\x7d") ∧ Flat xs := List.forall_mem_cons

@[simp] theorem flat_append {xs ys : List String} : Flat (xs ++ ys) ↔ Flat xs ∧ Flat ys :=
  List.forall_mem_append

variable {β : Type} {P : Phrase β} {xs : List String}

theorem flat_integer {n : Nat} (h : Phrase.Integer xs n) : Flat xs := by
  obtain ⟨x, rfl, hopen⟩ := Reader.ne_of_integer h "\x7b"
  obtain ⟨_, heq, hclose⟩ := Reader.ne_of_integer h "\x7d"
  cases heq
  simp [hopen, hclose]

theorem flat_literal {text : String} (h : Phrase.Literal xs text) : Flat xs := by
  cases h with | @mk spelled cs hspelling
  have hne : ∀ word : String, word.toList.head? ≠ some '"' → spelled ≠ word := by
    rintro word hword rfl
    rw [hspelling] at hword
    exact hword rfl
  simp [hne "\x7b" (by decide), hne "\x7d" (by decide)]

theorem flat_flag {word : String} {b : Bool} (hword : word ≠ "\x7b" ∧ word ≠ "\x7d")
    (h : Phrase.Flag word xs b) : Flat xs := by
  cases h with
  | up => exact flat_cons.2 ⟨hword, flat_nil⟩
  | down => exact flat_nil

theorem flat_after {word : String} {b : β} (hP : ∀ {xs b}, P xs b → Flat xs)
    (hword : word ≠ "\x7b" ∧ word ≠ "\x7d") (h : Phrase.After word P xs b) : Flat xs := by
  obtain ⟨h⟩ := h
  exact flat_cons.2 ⟨hword, hP h⟩

theorem flat_maybe {b : Option β} (hP : ∀ {xs b}, P xs b → Flat xs) (h : Phrase.Maybe P xs b) :
    Flat xs := by
  cases h with
  | absent => exact flat_nil
  | present h => exact hP h

theorem flat_many {bs : List β} (hP : ∀ {xs b}, P xs b → Flat xs) (h : Phrase.Many P xs bs) :
    Flat xs := by
  induction h with
  | nil => exact flat_nil
  | cons h _ ih => exact flat_append.2 ⟨hP h, ih⟩

theorem flat_series {bs : List β} (hP : ∀ {xs b}, P xs b → Flat xs) (h : Phrase.Series P xs bs) :
    Flat xs := by
  obtain ⟨ha, hb, hc, hmore⟩ := h
  simp [hP ha, hP hb, hP hc, flat_many (flat_after hP (by decide)) hmore]

variable {α : Type} [Scalar α]

theorem flat_decimal {v : α} (h : Phrase.Decimal xs v) : Flat xs := by
  obtain ⟨hsign, hwhole, hfraction⟩ := h
  exact flat_append.2 ⟨flat_flag (by decide) hsign, flat_append.2
    ⟨flat_integer hwhole, flat_maybe (flat_after flat_integer (by decide)) hfraction⟩⟩

theorem flat_triple {v : Vec3 α} (h : Phrase.Triple xs v) : Flat xs := by
  obtain ⟨hx, hy, hz⟩ := h
  simp [flat_decimal hx, flat_decimal hy, flat_decimal hz]

theorem flat_pixelPair {p : Pixel} (h : Phrase.PixelPair xs p) : Flat xs := by
  obtain ⟨hx, hy⟩ := h
  simp [flat_integer hx, flat_integer hy]

theorem flat_texturePoints {v : TexCoords} (h : Phrase.TexturePoints xs v) : Flat xs := by
  cases h with
  | corners hp hq => simp [flat_pixelPair hp, flat_pixelPair hq]
  | points hlist => exact flat_series flat_pixelPair hlist

theorem flat_polygon {f : Face} (h : Phrase.Polygon xs f) : Flat xs := by
  obtain ⟨hvertices, htexCoords⟩ := h
  simp [flat_series flat_integer hvertices, flat_integer htexCoords]

theorem flat_index {n : Nat} (h : Phrase.Index xs n) : Flat xs := by
  obtain ⟨hn⟩ := h
  simp [flat_integer hn]

theorem flat_listEntry {e : Entry β} (hP : ∀ {xs b}, P xs b → Flat xs)
    (h : Phrase.ListEntry P xs e) : Flat xs := by
  obtain ⟨hindex, hvalue⟩ := h
  simp [flat_maybe flat_index hindex, hP hvalue]

theorem flat_assigned {b : β} (hP : ∀ {xs b}, P xs b → Flat xs) (h : Phrase.Assigned P xs b) :
    Flat xs := by
  obtain ⟨hvalue⟩ := h
  simp [hP hvalue]

end Flat

theorem Flat.balanced {xs : List String} (h : Flat xs) : Balanced xs := by
  induction xs with
  | nil => exact .nil
  | cons x xs ih =>
    obtain ⟨hx, hxs⟩ := flat_cons.1 h
    exact .word hx (ih hxs)

namespace Balanced

theorem append {xs ys : List String} (h : Balanced xs) (h' : Balanced ys) : Balanced (xs ++ ys) := by
  induction h with
  | nil => exact h'
  | word hx _ ih => exact .word hx ih
  | @braces xs zs hinner _ _ ih =>
    rw [List.cons_append, List.append_assoc, List.cons_append]
    exact .braces hinner ih

/-- The brace that closes a block is found in one way only. The induction is on the texts of the block;
a block within them is passed first, and then what follows it. -/
theorem eq_of_append_eq {xs xs' ys ys' : List String} (h : Balanced xs) (h' : Balanced xs')
    (heq : xs ++ "\x7d" :: ys = xs' ++ "\x7d" :: ys') : xs = xs' ∧ ys = ys' := by
  induction h generalizing xs' ys ys' with
  | nil =>
    cases h' with
    | nil => exact ⟨rfl, (List.cons.inj heq).2⟩
    | word hx => exact absurd (List.cons.inj heq).1.symm hx.2
    | braces => exact absurd (List.cons.inj heq).1 (by decide)
  | @word x xs hx _ ih =>
    cases h' with
    | nil => exact absurd (List.cons.inj heq).1 hx.2
    | @word x' xs' _ h' =>
      obtain ⟨rfl, htail⟩ := List.cons.inj heq
      obtain ⟨rfl, rfl⟩ := ih h' htail
      exact ⟨rfl, rfl⟩
    | braces => exact absurd (List.cons.inj heq).1 hx.1
  | @braces xs zs _ _ ihInner ihOuter =>
    cases h' with
    | nil => exact absurd (List.cons.inj heq).1 (by decide)
    | word hx => exact absurd (List.cons.inj heq).1.symm hx.1
    | @braces xs' zs' hinner houter =>
      simp only [List.cons_append, List.append_assoc, List.cons.injEq, true_and] at heq
      obtain ⟨rfl, htail⟩ := ihInner hinner heq
      obtain ⟨rfl, rfl⟩ := ihOuter houter htail
      exact ⟨rfl, rfl⟩

end Balanced

section Statements

variable {α β : Type} [Scalar α] {xs : List String}

theorem balanced_block {P : Phrase β} {bs : List β} (hP : ∀ {xs b}, P xs b → Flat xs)
    (h : Phrase.Block P xs bs) : Balanced xs := by
  obtain ⟨h⟩ := h
  exact .braces (flat_many hP h).balanced .nil

theorem balanced_statement {item : Item α} (h : Phrase.Statement xs item) : Balanced xs := by
  cases h with
  | id h => exact .word (by decide) (flat_assigned flat_integer h).balanced
  | caption h => exact .word (by decide) (flat_assigned flat_literal h).balanced
  | scale h => exact .word (by decide) (flat_assigned flat_triple h).balanced
  | texSize h => exact .word (by decide) (flat_assigned flat_integer h).balanced
  | texFile h => exact .word (by decide) (flat_assigned flat_literal h).balanced
  | shift h => exact .word (by decide) (flat_assigned flat_triple h).balanced
  | vertices h => exact .word (by decide) (balanced_block (flat_listEntry flat_triple) h)
  | texCoords h => exact .word (by decide) (balanced_block (flat_listEntry flat_texturePoints) h)
  | faces h => exact .word (by decide) (balanced_block (flat_listEntry flat_polygon) h)

theorem balanced_statements {items : List (Item α)} (h : Phrase.Many Phrase.Statement xs items) :
    Balanced xs := by
  induction h with
  | nil => exact .nil
  | cons h _ ih => exact (balanced_statement h).append ih

end Statements

end Masonry
