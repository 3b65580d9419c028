import Masonry.Proofs.Catalog.Descriptions

/-!
# Copying shapes

In a catalog of admissible descriptions each description has the shape that it describes, under its
name (`Description.named?_catalog`). What a copy is of does not depend on its name, so a description
that copies a shape may say what describes that shape instead of copying it
(`Description.admissible_inlined`).
-/

namespace Masonry

theorem along_append {β σ : Type} {fits : σ → β → Prop} {next : σ → β → σ} {s : σ} {as bs : List β} :
    Along fits next s (as ++ bs) ↔ Along fits next s as ∧ Along fits next (as.foldl next s) bs := by
  induction as generalizing s with
  | nil => simp [Along]
  | cons a as ih => rw [List.cons_append, Along, Along, List.foldl_cons, ih, and_assoc]

namespace Item

variable {α : Type}

theorem apply_renamed (item : Item α) (s : Shape α) (name : String) :
    item.apply (s.renamed name) = (item.apply s).renamed name := by
  cases item <;> rfl

theorem fits_renamed (item : Item α) (s : Shape α) (name : String) :
    item.Fits (s.renamed name) ↔ item.Fits s := by
  cases item <;> exact Iff.rfl

theorem foldl_apply_renamed (items : List (Item α)) (s : Shape α) (name : String) :
    items.foldl apply (s.renamed name) = (items.foldl apply s).renamed name := by
  induction items generalizing s with
  | nil => rfl
  | cons item items ih => rw [List.foldl_cons, apply_renamed, ih, List.foldl_cons]

theorem along_renamed {items : List (Item α)} {s : Shape α} (name : String) :
    Along Fits apply (s.renamed name) items ↔ Along Fits apply s items := by
  induction items generalizing s with
  | nil => exact Iff.rfl
  | cons item items ih => rw [Along, Along, fits_renamed, apply_renamed, ih]

end Item

namespace Description

variable {α : Type} [Scalar α] {c c' : Catalog α} {d : Description α}

theorem Admissible.of_append {ds₁ ds₂ : List (Description α)} (h : Admissible (ds₁ ++ ds₂)) :
    Admissible ds₁ :=
  admissible_iff.2 (along_append.1 (admissible_iff.1 h)).1

/-- What is added comes after the shapes that are there. -/
theorem shapes_foldl_addTo (ds : List (Description α)) (c : Catalog α) :
    c.shapes <+: (ds.foldl addTo c).shapes := by
  induction ds generalizing c with
  | nil => exact List.prefix_rfl
  | cons d ds ih => exact (List.prefix_append _ _).trans (ih (d.addTo c))

/-- Shapes that come later change nothing about what a description copies. -/
theorem base_of_prefix (h : c.shapes <+: c'.shapes) (hfound : ∀ n ∈ d.source, c.hasName n = true) :
    d.base c' = d.base c := by
  unfold base
  cases hsource : d.source with
  | none => rfl
  | some n =>
    obtain ⟨s, hs⟩ := Option.isSome_iff_exists.1 (hfound n hsource)
    have hs' : c'.named? n = some s := h.find?_eq_some hs
    rw [Option.bind_some, Option.bind_some, hs, hs']

/-- The whole catalog has under the name of each description the shape that it describes there. -/
theorem named?_catalog {ds : List (Description α)} (h : Admissible ds) (hd : d ∈ ds) :
    (catalog ds).named? d.name = some (d.shape (catalog ds)) ∧ d.ItemsFit (catalog ds) := by
  obtain ⟨before, after, rfl⟩ := List.append_of_mem hd
  obtain ⟨hfresh, hfound, hitems⟩ := along_iff.1 (admissible_iff.1 h) before d after rfl
  have hcatalog : catalog (before ++ d :: after) = after.foldl addTo (d.addTo (catalog before)) :=
    List.foldl_append
  have hadded := shapes_foldl_addTo after (d.addTo (catalog before))
  have hbefore : (catalog before).shapes <+: (d.addTo (catalog before)).shapes :=
    List.prefix_append _ _
  have hbase := base_of_prefix (hbefore.trans hadded) hfound
  have hnamed : (d.addTo (catalog before)).named? d.name = some (d.shape (catalog before)) := by
    have hnone : (catalog before).named? d.name = none :=
      Option.not_isSome_iff_eq_none.1 fun hsome => Bool.false_ne_true (hfresh.symm.trans hsome)
    show ((catalog before).shapes ++ [d.shape (catalog before)]).find? _ = _
    rw [List.find?_append, ← Catalog.named?, hnone, Option.none_or, List.find?_singleton,
      name_shape, beq_self_eq_true, if_pos rfl]
  rw [hcatalog, shape, ItemsFit, hbase]
  exact ⟨hadded.find?_eq_some hnamed, hitems⟩

/-- A copy of a shape that items describe goes on from what they describe under the new name. -/
theorem base_of_copied {a : String} {items : List (Item α)} (hsource : d.source = some a)
    (hcopied : c.named? a = some (items.foldl Item.apply (.blank a))) :
    d.base c = items.foldl Item.apply (.blank d.name) := by
  rw [base, hsource, Option.bind_some, hcopied]
  exact (Item.foldl_apply_renamed items (.blank a) d.name).symm

/-- The description that copies nothing and begins with the given items. -/
def inlined (items : List (Item α)) (d : Description α) : Description α :=
  ⟨d.name, none, items ++ d.items⟩

/-- A description that copies a shape may say what describes that shape instead. -/
theorem admissible_inlined {ds₁ ds₂ : List (Description α)} {a : String} {items : List (Item α)}
    (h : Admissible (ds₁ ++ d :: ds₂)) (hsource : d.source = some a)
    (hitems : Along Item.Fits Item.apply (.blank a) items)
    (hcopied : (catalog ds₁).named? a = some (items.foldl Item.apply (.blank a))) :
    Admissible (ds₁ ++ d.inlined items :: ds₂) ∧
      catalog (ds₁ ++ d.inlined items :: ds₂) = catalog (ds₁ ++ d :: ds₂) := by
  have hbase := base_of_copied hsource hcopied
  have hshape : (d.inlined items).addTo (catalog ds₁) = d.addTo (catalog ds₁) := by
    rw [addTo, addTo, shape, shape, hbase]
    exact congrArg (catalog ds₁).push List.foldl_append
  constructor
  · obtain ⟨hbefore, hd, hafter⟩ := along_append.1 (admissible_iff.1 h)
    refine admissible_iff.2 (along_append.2 ⟨hbefore, ⟨hd.fresh, ?_, ?_⟩, ?_⟩)
    · rintro _ ⟨⟩
    · refine along_append.2 ⟨(Item.along_renamed d.name).2 hitems, ?_⟩
      have hfit := hd.items
      rw [ItemsFit, ← catalog, hbase] at hfit
      exact hfit
    · rw [← catalog, hshape]
      exact hafter
  · rw [catalog, List.foldl_append, List.foldl_cons, ← catalog, hshape, catalog, catalog,
      List.foldl_append, List.foldl_cons]

end Description

end Masonry
