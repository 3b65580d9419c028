import Mathlib.Data.List.Nodup
import Masonry.Proofs.Catalog.Descriptions
import Masonry.Proofs.Catalog.Ids

/-!
# Catalogs of sources

Whatever is said of a shape, its faces keep three vertices and its polygons three points, since no entry
with fewer can be spelled. So the catalog of a source is regular, also where reading stopped before its
end: its shapes are, names are names and tell the shapes apart, and an id stands for the last shape
with it (`Catalog.ofSource_regular`).
-/

namespace Masonry

/-- A polygon has three points or more. -/
def TexCoords.Full : TexCoords → Prop
  | corners _ _ => True
  | points ps => 3 ≤ ps.length

/-- The face has three vertices or more. -/
def Face.Full (f : Face) : Prop := 3 ≤ f.vertices.length

/-- A shape with a name, all of whose polygons have a triangle. -/
structure Shape.Regular {α : Type} (s : Shape α) : Prop where
  name : Phrase.Name [s.name] s.name
  texCoords : ∀ t ∈ s.texCoords, t.Full
  faces : ∀ f ∈ s.faces, f.Full

namespace Phrase

variable {β : Type} {P : Phrase β} {xs : List String}

theorem Many.exists_of_mem {bs : List β} (h : Many P xs bs) : ∀ b ∈ bs, ∃ ys, P ys b := by
  induction h with
  | nil => simp
  | cons hb _ ih => exact List.forall_mem_cons.2 ⟨⟨_, hb⟩, ih⟩

theorem Series.three_le {bs : List β} (h : Series P xs bs) : 3 ≤ bs.length := by
  obtain ⟨-, -, -, -⟩ := h
  exact Nat.le_add_left 3 _

theorem TexturePoints.full {t : TexCoords} (h : TexturePoints xs t) : t.Full := by
  cases h with
  | corners => trivial
  | points h => exact h.three_le

theorem Polygon.full {f : Face} (h : Polygon xs f) : f.Full := by
  obtain ⟨hcorners, -⟩ := h
  exact hcorners.three_le

/-- What is spelled in a block of entries. -/
theorem exists_of_mem_block {es : List (Entry β)} (h : Block (ListEntry P) xs es) :
    ∀ e ∈ es, ∃ ys, P ys e.value := by
  obtain ⟨hmany⟩ := h
  intro e he
  obtain ⟨_, ⟨-, hvalue⟩⟩ := hmany.exists_of_mem e he
  exact ⟨_, hvalue⟩

end Phrase

namespace Entry

variable {β : Type} {P : β → Prop}

theorem forall_mem_put {list : List β} {e : Entry β} (hlist : ∀ b ∈ list, P b) (he : P e.value) :
    ∀ b ∈ e.put list, P b := by
  obtain ⟨_ | i, value⟩ := e
  · exact List.forall_mem_append.2 ⟨hlist, List.forall_mem_singleton.2 he⟩
  · intro b hb
    obtain hb | rfl := List.mem_or_eq_of_mem_set hb
    · exact hlist b hb
    · exact he

/-- Entries put into a list keep what holds of all its elements, if it holds of their values. -/
theorem forall_mem_foldl_put {list : List β} {es : List (Entry β)} (hlist : ∀ b ∈ list, P b)
    (hes : ∀ e ∈ es, P e.value) : ∀ b ∈ es.foldl put list, P b := by
  induction es generalizing list with
  | nil => exact hlist
  | cons e es ih =>
    obtain ⟨he, hes⟩ := List.forall_mem_cons.1 hes
    exact ih (forall_mem_put hlist he) hes

end Entry

namespace Item

variable {α : Type} [Scalar α]

/-- A statement keeps a shape regular, whatever it says. -/
theorem regular_apply {xs : List String} {item : Item α} (h : Phrase.Statement xs item)
    {s : Shape α} (hs : s.Regular) : (item.apply s).Regular := by
  obtain ⟨hname, htexCoords, hfaces⟩ := hs
  cases h with
  | id | caption | scale | texSize | texFile | shift | vertices => exact ⟨hname, htexCoords, hfaces⟩
  | texCoords h =>
    refine ⟨hname, Entry.forall_mem_foldl_put htexCoords fun e he => ?_, hfaces⟩
    obtain ⟨_, hvalue⟩ := Phrase.exists_of_mem_block h e he
    exact hvalue.full
  | faces h =>
    refine ⟨hname, htexCoords, Entry.forall_mem_foldl_put hfaces fun e he => ?_⟩
    obtain ⟨_, hvalue⟩ := Phrase.exists_of_mem_block h e he
    exact hvalue.full

theorem regular_foldl_apply {items : List (Item α)}
    (h : ∀ item ∈ items, ∃ xs, Phrase.Statement xs item) {s : Shape α} (hs : s.Regular) :
    (items.foldl apply s).Regular := by
  induction items generalizing s with
  | nil => exact hs
  | cons item items ih =>
    obtain ⟨⟨_, hitem⟩, hitems⟩ := List.forall_mem_cons.1 h
    exact ih hitems (regular_apply hitem hs)

end Item

namespace Catalog

variable {α : Type} {c : Catalog α}

/-- A catalog of regular shapes with different names. -/
structure Regular (c : Catalog α) : Prop where
  shapes : ∀ s ∈ c.shapes, s.Regular
  names : (c.shapes.map Shape.name).Nodup

theorem Regular.push {s : Shape α} (hc : c.Regular) (hs : s.Regular) (hnew : c.hasName s.name = false) :
    (c.push s).Regular := by
  refine ⟨List.forall_mem_append.2 ⟨hc.shapes, List.forall_mem_singleton.2 hs⟩, ?_⟩
  have hfresh : s.name ∉ c.shapes.map Shape.name := fun hmem =>
    Bool.false_ne_true (hnew.symm.trans (hasName_iff.2 hmem))
  show ((c.shapes ++ [s]).map Shape.name).Nodup
  rw [List.map_append]
  exact hc.names.append (List.nodup_singleton _) (List.disjoint_singleton.2 hfresh)

/-- Where names differ, each shape is found under its own. -/
theorem Regular.named?_of_mem (hc : c.Regular) {s : Shape α} (hs : s ∈ c.shapes) :
    c.named? s.name = some s := by
  obtain ⟨t, hfind⟩ : ∃ t, c.named? s.name = some t := by
    rw [← Option.isSome_iff_exists, ← hasName, hasName_iff]
    exact List.mem_map_of_mem hs
  have hname : t.name = s.name := by simpa using List.find?_some hfind
  rw [hfind, List.inj_on_of_nodup_map hc.names (List.mem_of_find?_eq_some hfind) hs hname]

theorem regular_empty : (empty : Catalog α).Regular := ⟨by simp [empty], List.nodup_nil⟩

variable [Scalar α]

/-- A shape that is described for a regular catalog is regular: it starts blank or as a shape of the
catalog. -/
theorem Regular.shape (hc : c.Regular) {xs : List String} {d : Description α}
    (hd : Phrase.Object xs d) : (d.shape c).Regular := by
  obtain ⟨hname, -, ⟨hmany⟩⟩ := hd
  refine Item.regular_foldl_apply hmany.exists_of_mem ?_
  have hcalled : ∀ {xs name}, Phrase.Name xs name → Phrase.Name [name] name := by
    rintro _ _ ⟨hspelling, hletter, halphanumeric⟩
    exact .mk hspelling hletter halphanumeric
  unfold Description.base
  split
  · exact ⟨hcalled hname, by simp [Shape.blank], by simp [Shape.blank]⟩
  · next s hs =>
    obtain ⟨n, -, hs⟩ := Option.bind_eq_some_iff.1 hs
    have hregular := hc.shapes s (List.mem_of_find?_eq_some hs)
    exact ⟨hcalled hname, hregular.texCoords, hregular.faces⟩

/-- Reading keeps a catalog regular, however far it gets. -/
theorem Regular.readShapes (hc : c.Regular) (n : Nat) (ts : List Token) :
    (readShapes n c ts).1.Regular := by
  induction n generalizing c ts with
  | zero => cases ts <;> exact hc
  | succ n ih =>
    cases ts with
    | nil => exact hc
    | cons t ts =>
      rw [Catalog.readShapes]
      split
      · next s rest hs =>
        obtain ⟨xs, -, d, hd, hfits, rfl⟩ := (Reader.reads_shape c).sound hs
        refine ih (hc.push (hc.shape hd) ?_) rest
        rw [Description.name_shape]
        exact hfits.fresh
      · exact hc

/-- The catalog of a source, all of it or what comes before the first error, is regular, finds each shape
under its name, and takes an id for the last shape with it, as does an index of ids that is kept while
shapes are added. -/
theorem ofSource_regular (source : String) :
    let c := (ofSource source : Catalog α × List SourceError).1
    c.Regular ∧ (∀ s ∈ c.shapes, c.named? s.name = some s) ∧ ∀ id : Int32,
      c.ids[id]? = c.indexOf? id ∧
      c.StandsFor id (c.indexOf? id) (c.shape? id) (c.boxAt? id) := by
  have hregular : (ofSource source : Catalog α × List SourceError).1.Regular := by
    unfold ofSource
    split
    · exact regular_empty
    · exact regular_empty.readShapes _ _
  exact ⟨hregular, fun s hs => hregular.named?_of_mem hs,
    fun id => ⟨getElem?_ids _ id, standsFor _ id⟩⟩

end Catalog

end Masonry
