import Masonry.Proofs.Shape.Values

/-!
# Reading statements

A statement changes a shape. The entries of a block change a list one after the other, and an entry is
read only if it fits the list as the entries before it leave it.
-/

namespace Masonry.Reader

variable {β : Type}

section Entries

variable {P : Phrase β}

/-- The texts begin neither with a bracket nor with a closing brace. -/
def Bare (xs : List String) : Prop := ∃ x ys, xs = x :: ys ∧ x ≠ "[" ∧ x ≠ "\x7d"

theorem Bare.append {xs : List String} (h : Bare xs) (ys : List String) : Bare (xs ++ ys) := by
  obtain ⟨x, zs, rfl, hx⟩ := h
  exact ⟨x, zs ++ ys, rfl, hx⟩

theorem bare_integer {xs : List String} {n : Nat} (h : Phrase.Integer xs n) : Bare xs := by
  obtain ⟨x, rfl, hbracket⟩ := ne_of_integer h "["
  obtain ⟨_, heq, hbrace⟩ := ne_of_integer h "\x7d"
  cases heq
  exact ⟨x, [], rfl, hbracket, hbrace⟩

theorem bare_series {xs : List String} {bs : List β} (hP : ∀ {xs b}, P xs b → Bare xs)
    (h : Phrase.Series P xs bs) : Bare xs := by
  obtain ⟨hfirst, -, -, -⟩ := h
  exact (hP hfirst).append _

theorem bare_triple {α : Type} [Scalar α] {xs : List String} {v : Vec3 α} (h : Phrase.Triple xs v) :
    Bare xs := by
  obtain ⟨⟨hsign, hwhole, -⟩, -, -⟩ := h
  refine Bare.append ?_ _
  cases hsign with
  | up => exact ⟨"-", _, rfl, by decide, by decide⟩
  | down => exact (bare_integer hwhole).append _

theorem bare_texturePoints {xs : List String} {v : TexCoords} (h : Phrase.TexturePoints xs v) :
    Bare xs := by
  have hpixel : ∀ {xs p}, Phrase.PixelPair xs p → Bare xs := by
    rintro _ _ ⟨hx, -⟩
    exact (bare_integer hx).append _
  obtain ⟨hfirst, -⟩ | hlist := h
  · exact (hpixel hfirst).append _
  · exact bare_series hpixel hlist

theorem bare_polygon {xs : List String} {f : Face} (h : Phrase.Polygon xs f) : Bare xs := by
  obtain ⟨hvertices, -⟩ := h
  exact (bare_series bare_integer hvertices).append _

theorem reads_bracketed (line : Nat) : Reads
    (do let index ← integer; expect "]"; return some (index, line))
    (fun zs out => ∃ n xs ys, zs = xs ++ "]" :: ys ∧ Phrase.Integer xs n ∧
      ys = [] ∧ some (n, line) = out) [] :=
  reads_integer.sep (by simp) fun n => reads_pure (some (n, line))

theorem entryIndex_sound {ts rest : List Token} {index : Option (Nat × Nat)}
    (h : entryIndex ts = .ok (index, rest)) :
    ∃ xs, texts ts = xs ++ texts rest ∧ Phrase.Maybe Phrase.Index xs (index.map Prod.fst) := by
  cases ts with
  | nil =>
    cases h
    exact ⟨[], rfl, .absent⟩
  | cons t ts =>
    simp only [entryIndex] at h
    split at h
    · next ht =>
      obtain ⟨_, hts, n, xs, _, rfl, hn, rfl, rfl⟩ := (reads_bracketed t.line).sound h
      refine ⟨"[" :: (xs ++ ["]"]), ?_, .present (.mk hn)⟩
      rw [List.cons_append, ← hts, ← ht]
      rfl
    · cases h
      exact ⟨[], rfl, .absent⟩

theorem entryIndex_complete {ts : List Token} {xs ys : List String} {i : Option Nat}
    (h : Phrase.Maybe Phrase.Index xs i) (hts : texts ts = xs ++ ys)
    (hnext : ∀ y ∈ ys.head?, y ≠ "[") : ∃ index rest,
      entryIndex ts = .ok (index, rest) ∧ index.map Prod.fst = i ∧ texts rest = ys := by
  cases h with
  | absent =>
    refine ⟨none, ts, ?_, rfl, hts⟩
    cases ts with
    | nil => rfl
    | cons t ts => exact if_neg (hnext t.text (congrArg List.head? hts).symm)
  | present hindex =>
    obtain ⟨hn⟩ := hindex
    obtain ⟨t, rest, rfl, ht, hrest⟩ := texts_eq_cons_iff.1 hts
    obtain ⟨rest, hindex, hrest⟩ :=
      (reads_bracketed t.line).complete ⟨_, _, _, rfl, hn, rfl, rfl⟩ hrest
    exact ⟨_, rest, (if_pos ht).trans hindex, rfl, hrest⟩

/-- What `entry` does with an index and a value that it has read. -/
def place (kind : EntryList) (list : List β) (index : Option (Nat × Nat)) (v : β) : Reader (List β) :=
  match index with
  | none => return list ++ [v]
  | some (i, line) =>
    if i < list.length then return list.set i v
    else fail (.noSuchEntry kind i list.length) (some line)

theorem entry_cons (kind : EntryList) (value : Reader β) (list : List β) (t : Token)
    (ts : List Token) : entry kind value list (t :: ts) =
      (do
        let index ← entryIndex
        let v ← value
        expect ";"
        place kind list index v : Reader (List β)) (t :: ts) := rfl

theorem reads_place (kind : EntryList) (list : List β) (index : Option (Nat × Nat)) (v : β) :
    Reads (place kind list index v) (fun xs list' => xs = [] ∧
      Entry.Fits list ⟨index.map Prod.fst, v⟩ ∧ Entry.put list ⟨index.map Prod.fst, v⟩ = list') [] := by
  obtain _ | ⟨i, line⟩ := index
  · exact (reads_pure (list ++ [v])).congr fun xs list' => by simp [Entry.put, Entry.Fits]
  · have hfits : Entry.Fits list ⟨some i, v⟩ ↔ i < list.length := by simp [Entry.Fits]
    unfold place
    by_cases hi : i < list.length
    · simp only [if_pos hi]
      exact (reads_pure (list.set i v)).congr fun xs list' => by simp [Entry.put, hfits, hi]
    · simp only [if_neg hi]
      exact reads_fail _ _ fun h => hi (hfits.1 h.2.1)

theorem reads_entry {value : Reader β} {more : List String} (h : Reads value P more)
    (hmore : ";" ∉ more) (hbare : ∀ {xs v}, P xs v → Bare xs) (kind : EntryList) (list : List β) :
    Reads (entry kind value list) (Updates (Phrase.ListEntry P) Entry.Fits Entry.put list) [] := by
  have hcontent := fun index => h.sep hmore fun v => reads_place kind list index v
  constructor
  · intro ts list' rest hr
    cases ts with
    | nil => cases hr
    | cons t ts =>
      rw [entry_cons] at hr
      obtain ⟨index, mid, hindex, hr⟩ := bind_eq_ok_iff.1 hr
      obtain ⟨xs, hts, hindex⟩ := entryIndex_sound hindex
      obtain ⟨_, hmid, v, ys, _, rfl, hv, rfl, hfits, hput⟩ := (hcontent index).sound hr
      exact ⟨_, by rw [hts, hmid]; simp only [List.append_assoc], _, .mk hindex hv, hfits, hput⟩
  · rintro ts zs ws list' ⟨_, ⟨hindex, hv⟩, hfits, rfl⟩ hts _
    obtain ⟨x, ys, rfl, hx, -⟩ := hbare hv
    rw [List.append_assoc] at hts
    obtain ⟨index, mid, hread, rfl, hmid⟩ := entryIndex_complete hindex hts (by simpa using hx)
    obtain ⟨rest, hcontent, hrest⟩ :=
      (hcontent index).complete ⟨_, _, _, rfl, hv, rfl, hfits, rfl⟩ hmid
    refine ⟨rest, ?_, hrest⟩
    cases ts with
    | nil => simp [texts] at hts
    | cons t ts =>
      rw [entry_cons, bind_of_ok hread]
      exact hcontent

theorem reads_entries {value : Reader β} {more : List String} (h : Reads value P more)
    (hmore : ";" ∉ more) (hbare : ∀ {xs v}, P xs v → Bare xs) (kind : EntryList) (list : List β) :
    Reads (entries kind value list) (Updates (Phrase.Block (Phrase.ListEntry P))
      (Along Entry.Fits Entry.put) (List.foldl Entry.put) list) [] := by
  refine reads_block (reads_entry h hmore hbare kind) ?_ list
  rintro _ _ ⟨hindex, hv⟩
  cases hindex with
  | absent =>
    obtain ⟨x, ys, rfl, -, hx⟩ := hbare hv
    exact ⟨x, _, rfl, hx⟩
  | present hindex =>
    obtain ⟨_⟩ := hindex
    exact ⟨"[", _, rfl, by decide⟩

end Entries

section Statements

variable {α : Type} [Scalar α]

/-- The statement that begins with a word is what the word's reader reads. -/
theorem reads_statement (s : Shape α) :
    Reads (statement s) (Updates Phrase.Statement Item.Fits Item.apply s) [] := by
  have hinteger := reads_assigned reads_integer (by simp)
  have hliteral := reads_assigned reads_literal (by simp)
  have htriple := reads_assigned (reads_triple (α := α)) (by simp)
  have hvertices := reads_entries (reads_triple (α := α)) (by simp) bare_triple .vertices s.vertices
  have htexCoords := reads_entries reads_texCoords (by simp) bare_texturePoints .texCoords s.texCoords
  have hfaces := reads_entries reads_face (by simp) bare_polygon .faces s.faces
  constructor
  · intro ts s' rest h
    cases ts with
    | nil => cases h
    | cons t ts =>
      have hcons : ∀ {word xs}, t.text = word → texts ts = xs ++ texts rest →
          texts (t :: ts) = word :: xs ++ texts rest := by
        rintro _ _ rfl hts
        exact congrArg (t.text :: ·) hts
      -- One case for each word, in the order of `statement`; the last is that of any other word.
      simp only [statement] at h
      split at h
      · next hword =>
        obtain ⟨xs, hts, n, hn, rfl⟩ := (hinteger.map _).sound h
        exact ⟨_, hcons hword hts, _, .id hn, trivial, rfl⟩
      · next hword =>
        obtain ⟨xs, hts, text, htext, rfl⟩ := (hliteral.map _).sound h
        exact ⟨_, hcons hword hts, _, .caption htext, trivial, rfl⟩
      · next hword =>
        obtain ⟨xs, hts, v, hv, rfl⟩ := (htriple.map _).sound h
        exact ⟨_, hcons hword hts, _, .scale hv, trivial, rfl⟩
      · next hword =>
        obtain ⟨xs, hts, n, hn, rfl⟩ := (hinteger.map _).sound h
        exact ⟨_, hcons hword hts, _, .texSize hn, trivial, rfl⟩
      · next hword =>
        obtain ⟨xs, hts, text, htext, rfl⟩ := (hliteral.map _).sound h
        exact ⟨_, hcons hword hts, _, .texFile htext, trivial, rfl⟩
      · next hword =>
        obtain ⟨xs, hts, v, hv, rfl⟩ := (htriple.map _).sound h
        exact ⟨_, hcons hword hts, _, .shift hv, trivial, rfl⟩
      · next hword =>
        obtain ⟨xs, hts, _, ⟨list, hlist, hfits, rfl⟩, rfl⟩ := (hvertices.map _).sound h
        exact ⟨_, hcons hword hts, _, .vertices hlist, hfits, rfl⟩
      · next hword =>
        obtain ⟨xs, hts, _, ⟨list, hlist, hfits, rfl⟩, rfl⟩ := (htexCoords.map _).sound h
        exact ⟨_, hcons hword hts, _, .texCoords hlist, hfits, rfl⟩
      · next hword =>
        obtain ⟨xs, hts, _, ⟨list, hlist, hfits, rfl⟩, rfl⟩ := (hfaces.map _).sound h
        exact ⟨_, hcons hword hts, _, .faces hlist, hfits, rfl⟩
      · cases h
  · rintro ts zs ys s' ⟨item, hitem, hfits, rfl⟩ hts _
    obtain ⟨word, xs, rfl⟩ : ∃ word xs, zs = word :: xs := by
      cases hitem <;> exact ⟨_, _, rfl⟩
    obtain ⟨t, ts, rfl, hword, hrest⟩ := texts_eq_cons_iff.1 hts
    cases hitem with
    | id hv =>
      simp only [statement, hword]
      exact (hinteger.map _).complete ⟨_, hv, rfl⟩ hrest
    | caption hv =>
      simp only [statement, hword]
      exact (hliteral.map _).complete ⟨_, hv, rfl⟩ hrest
    | scale hv =>
      simp only [statement, hword]
      exact (htriple.map _).complete ⟨_, hv, rfl⟩ hrest
    | texSize hv =>
      simp only [statement, hword]
      exact (hinteger.map _).complete ⟨_, hv, rfl⟩ hrest
    | texFile hv =>
      simp only [statement, hword]
      exact (hliteral.map _).complete ⟨_, hv, rfl⟩ hrest
    | shift hv =>
      simp only [statement, hword]
      exact (htriple.map _).complete ⟨_, hv, rfl⟩ hrest
    | vertices hlist =>
      simp only [statement, hword]
      exact (hvertices.map _).complete ⟨_, ⟨_, hlist, hfits, rfl⟩, rfl⟩ hrest
    | texCoords hlist =>
      simp only [statement, hword]
      exact (htexCoords.map _).complete ⟨_, ⟨_, hlist, hfits, rfl⟩, rfl⟩ hrest
    | faces hlist =>
      simp only [statement, hword]
      exact (hfaces.map _).complete ⟨_, ⟨_, hlist, hfits, rfl⟩, rfl⟩ hrest

/-- Every statement begins with a word that does not end a block. -/
theorem reads_statements (s : Shape α) :
    Reads (statements s)
      (Updates (Phrase.Block Phrase.Statement) (Along Item.Fits Item.apply) (List.foldl Item.apply) s)
      [] := by
  refine reads_block reads_statement (fun h => ?_) s
  cases h <;> exact ⟨_, _, rfl, by decide⟩

end Statements

end Masonry.Reader
