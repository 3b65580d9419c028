import Masonry.Proofs.Json.Parts

/-!
# Reading a value back

The machine that is driven by the parts of a value ends with this value, whatever containers are open
around it. So a text that writes the parts of a value describes the value (`parse?_of_writes`), and so does
the text that is printed for it (`parse?_pretty`).
-/

namespace Masonry.Json

/-! ## The parts of a value -/

/-- Lists the parts of elements, with a comma between one and the next. -/
def separated : List (List Part) → List Part
  | [] => []
  | first :: rest => first ++ rest.flatMap (.comma :: ·)

mutual

/-- The parts of a value. -/
def parts : Json → List Part
  | array items => .openBracket :: (separated (itemParts items) ++ [.closeBracket])
  | object members => .openBrace :: (separated (memberParts members) ++ [.closeBrace])
  | v => [.scalar v]

/-- The parts of each item of an array. -/
def itemParts : List Json → List (List Part)
  | [] => []
  | v :: vs => v.parts :: itemParts vs

/-- The parts of each member of an object. -/
def memberParts : List (Option String × Json) → List (List Part)
  | [] => []
  | (key, v) :: ms => (.scalar (.string key) :: .colon :: v.parts) :: memberParts ms

end

theorem itemParts_eq_map (items : List Json) : itemParts items = items.map parts := by
  induction items with
  | nil => rfl
  | cons v rest ih => rw [itemParts, ih, List.map_cons]

theorem memberParts_eq_map (members : List (Option String × Json)) : memberParts members =
    members.map fun (key, v) => .scalar (.string key) :: .colon :: v.parts := by
  induction members with
  | nil => rfl
  | cons m rest ih => rw [memberParts, ih, List.map_cons]

/-- A value whose text says all of it: it has no number with a fraction or an exponent and no string
without text. -/
def Plain (v : Json) : Prop := ∀ p ∈ v.parts, p.Plain

/-- Only the elements between two brackets matter. -/
theorem plain_listed_iff {p q : Part} (hp : p.Plain) (hq : q.Plain) (elements : List (List Part)) :
    (∀ r ∈ p :: (separated elements ++ [q]), r.Plain) ↔ ∀ ps ∈ elements, ∀ r ∈ ps, r.Plain := by
  have hcomma : Part.comma.Plain := trivial
  cases elements with
  | nil => simp [separated, hp, hq]
  | cons first rest =>
    simp only [separated, List.forall_mem_append, List.forall_mem_flatMap, List.forall_mem_cons, hcomma,
      hp, hq, true_and]
    simp

theorem plain_array_iff {items : List Json} : (array items).Plain ↔ ∀ v ∈ items, v.Plain := by
  have hlisted := plain_listed_iff (p := .openBracket) (q := .closeBracket) trivial trivial
  rw [Plain, parts, hlisted, itemParts_eq_map, List.forall_mem_map]
  rfl

theorem plain_object_iff {members : List (Option String × Json)} :
    (object members).Plain ↔ ∀ m ∈ members, m.1.isSome ∧ m.2.Plain := by
  have hkey : ∀ key : Option String, (Part.scalar (.string key)).Plain ↔ key.isSome := by
    intro key
    cases key <;> simp [Part.Plain]
  have hcolon : Part.colon.Plain := trivial
  have hlisted := plain_listed_iff (p := .openBrace) (q := .closeBrace) trivial trivial
  rw [Plain, parts, hlisted, memberParts_eq_map, List.forall_mem_map]
  simp only [List.forall_mem_cons, hkey, hcolon, true_and]
  rfl

/-! ## The machine -/

/-- A value that begins where the end of an array could stand is its first item. -/
theorem foldlM_firstItem (v : Json) (frames : List Frame) :
    v.parts.foldlM step? (.firstItem frames) = v.parts.foldlM step? (.value (.array [] :: frames)) := by
  cases v <;> rfl

mutual

/-- The parts of a value complete it in the containers that are open. -/
theorem foldlM_parts (v : Json) (frames : List Frame) :
    v.parts.foldlM step? (.value frames) = some (complete v frames) := by
  match v with
  | null | bool _ | integer _ | real _ | string _ => rfl
  | array [] => rfl
  | object [] => rfl
  | array (first :: rest) =>
    have hfirst := foldlM_parts first (.array [] :: frames)
    have hrest := foldlM_items rest [first] frames
    simp [parts, itemParts, separated, step?, beginValue?, foldlM_firstItem, hfirst, complete, hrest]
  | object ((key, v) :: rest) =>
    have hfirst := foldlM_parts v (.object [] key :: frames)
    have hrest := foldlM_members rest [(key, v)] frames
    simp [parts, memberParts, separated, step?, beginValue?, hfirst, complete, hrest]

/-- The parts of further items add them to the array. -/
theorem foldlM_items (items read : List Json) (frames : List Frame) :
    ((itemParts items).flatMap (.comma :: ·)).foldlM step? (.after (.array read) frames) =
      some (.after (.array (read ++ items)) frames) := by
  match items with
  | [] => simp [itemParts]
  | v :: rest =>
    have hfirst := foldlM_parts v (.array read :: frames)
    have hrest := foldlM_items rest (read ++ [v]) frames
    simp [itemParts, step?, hfirst, complete, hrest]

/-- The parts of further members add them to the object. -/
theorem foldlM_members (members read : List (Option String × Json)) (frames : List Frame) :
    ((memberParts members).flatMap (.comma :: ·)).foldlM step? (.after (.object read none) frames) =
      some (.after (.object (read ++ members) none) frames) := by
  match members with
  | [] => simp [memberParts]
  | (key, v) :: rest =>
    have hfirst := foldlM_parts v (.object read key :: frames)
    have hrest := foldlM_members rest (read ++ [(key, v)]) frames
    simp [memberParts, step?, hfirst, complete, hrest]

end

theorem ofParts?_parts (v : Json) : ofParts? v.parts = some v := by
  simp [ofParts?, foldlM_parts, complete]

/-- A text that writes the parts of a value describes the value. -/
theorem parse?_of_writes {v : Json} {text : String} (h : Writes text.toList v.parts) :
    parse? text = some v := by
  simp [parse?, parts?_of_writes h (Nat.le_refl _), ofParts?_parts]

/-! ## The printed text -/

/-- A text writes parts in front of a text that does not go on with a number. -/
def Prints (text : List Char) (ps : List Part) : Prop :=
  ∀ ⦃rest : List Char⦄ ⦃qs : List Part⦄, Stops rest → Writes rest qs → Writes (text ++ rest) (ps ++ qs)

theorem Writes.newLine {cs : List Char} {ps : List Part} (level : Nat) (h : Writes cs ps) :
    Writes (newLine level ++ cs) ps := by
  have hblanks : ∀ n : Nat, Writes (List.replicate n ' ' ++ cs) ps := by
    intro n
    induction n with
    | zero => exact h
    | succ n ih => exact .blank (by decide) ih
  exact .blank (by decide) (hblanks (2 * level))

theorem stops_newLine (level : Nat) (cs : List Char) : Stops (newLine level ++ cs) :=
  stops_cons _ (by decide)

theorem prints_chars {p : Part} (hp : p.Plain) : Prints p.chars [p] :=
  fun _ _ hrest h => .part hp (p.endsBefore_of_stops hrest) h

section Listed

variable {texts : List (List Char)} {elements : List (List Part)}

theorem stops_flatMap (texts : List (List Char)) (level : Nat) {rest : List Char} (hrest : Stops rest) :
    Stops (texts.flatMap (fun text => ',' :: (newLine level ++ text)) ++ rest) := by
  cases texts with
  | nil => exact hrest
  | cons text texts => exact stops_cons _ (by decide)

/-- Further elements of a container stand after a comma, each on its own line. -/
theorem prints_flatMap (level : Nat) (h : List.Forall₂ Prints texts elements) :
    Prints (texts.flatMap fun text => ',' :: (newLine level ++ text)) (elements.flatMap (.comma :: ·)) := by
  intro rest qs hrest hqs
  induction h with
  | nil => exact hqs
  | @cons text element texts elements htext _ ih =>
    have hmore := htext (stops_flatMap texts level hrest) ih
    have hcomma := Writes.part (p := .comma) trivial trivial (hmore.newLine level)
    simpa [Part.chars] using hcomma

/-- The elements of a container stand between its brackets. -/
theorem prints_listed {opening closing : Char} {p q : Part} (level : Nat)
    (hopening : ∀ ⦃cs ps⦄, Writes cs ps → Writes (opening :: cs) (p :: ps))
    (hclosing : ∀ ⦃cs ps⦄, Writes cs ps → Writes (closing :: cs) (q :: ps))
    (h : List.Forall₂ Prints texts elements) :
    Prints (listed opening closing level texts) (p :: (separated elements ++ [q])) := by
  intro rest qs _ hqs
  have hend := hclosing hqs
  cases h with
  | nil => exact hopening hend
  | @cons text element texts elements htext h =>
    have hstops := stops_newLine level (closing :: rest)
    have hmore := prints_flatMap (level + 1) h hstops (hend.newLine level)
    have hfirst := htext (stops_flatMap texts (level + 1) hstops) hmore
    simpa [listed, separated] using hopening (hfirst.newLine (level + 1))

end Listed

mutual

/-- The printed text writes the parts, whatever level it stands at. -/
theorem prints_prettyAt (v : Json) (level : Nat) (hv : v.Plain) : Prints (v.prettyAt level) v.parts := by
  match v with
  | null => exact prints_chars (hv _ List.mem_cons_self)
  | bool true => exact prints_chars (hv _ List.mem_cons_self)
  | bool false => exact prints_chars (hv _ List.mem_cons_self)
  | integer n => exact prints_chars (hv _ List.mem_cons_self)
  | real digits => exact (hv _ List.mem_cons_self).elim
  | string text => exact prints_chars (hv _ List.mem_cons_self)
  | array items =>
    apply prints_listed level (fun _ _ => .part (p := .openBracket) trivial trivial)
      (fun _ _ => .part (p := .closeBracket) trivial trivial)
    exact prints_prettyItems items (level + 1) (plain_array_iff.mp hv)
  | object members =>
    apply prints_listed level (fun _ _ => .part (p := .openBrace) trivial trivial)
      (fun _ _ => .part (p := .closeBrace) trivial trivial)
    exact prints_prettyMembers members (level + 1) (plain_object_iff.mp hv)

theorem prints_prettyItems (items : List Json) (level : Nat) (hitems : ∀ v ∈ items, v.Plain) :
    List.Forall₂ Prints (prettyItems level items) (itemParts items) := by
  match items with
  | [] => exact .nil
  | v :: rest =>
    obtain ⟨hv, hrest⟩ := List.forall_mem_cons.mp hitems
    exact .cons (prints_prettyAt v level hv) (prints_prettyItems rest level hrest)

theorem prints_prettyMembers (members : List (Option String × Json)) (level : Nat)
    (hmembers : ∀ m ∈ members, m.1.isSome ∧ m.2.Plain) :
    List.Forall₂ Prints (prettyMembers level members) (memberParts members) := by
  match members with
  | [] => exact .nil
  | (none, v) :: rest => exact absurd (hmembers _ List.mem_cons_self).1 (by simp)
  | (some key, v) :: rest =>
    obtain ⟨⟨_, hv⟩, hrest⟩ := List.forall_mem_cons.mp hmembers
    refine .cons ?_ (prints_prettyMembers rest level hrest)
    intro tail qs htail hqs
    have hvalue := prints_prettyAt v level hv htail hqs
    have hcolon := Writes.part (p := .colon) trivial trivial (.blank (c := ' ') (by decide) hvalue)
    have hstops := stops_cons (c := ':') (' ' :: (v.prettyAt level ++ tail)) (by decide)
    have hkey := prints_chars (p := .scalar (.string (some key))) trivial hstops hcolon
    simpa [Part.chars, prettyAt] using hkey

end

/-- A value is read back from the text that is printed for it. -/
theorem parse?_pretty {v : Json} (hv : v.Plain) : parse? v.pretty = some v := by
  apply parse?_of_writes
  have h := prints_prettyAt v 0 hv stops_nil .nil
  simpa [pretty] using h

end Masonry.Json
