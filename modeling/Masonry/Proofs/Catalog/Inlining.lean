import Mathlib.Data.List.Forall2
import Masonry.Proofs.Catalog.Continuing
import Masonry.Proofs.Catalog.Copying
import Masonry.Proofs.Shape.Braces

/-!
# Copies are inlined

An object that copies another is the same as one that begins with the statements of the other, these
inlined in the same way where the other is a copy itself (`Written.Inlines`). They describe what is
copied from a blank shape, and the statements of the copy go on from there (`Written.Inlines.sound`).
So the source with the object written out describes the same catalog (`Catalog.copies_inlined`).
-/

namespace Masonry

theorem Phrase.Many.append {β : Type} {P : Phrase β} {xs ys : List String} {as bs : List β}
    (h : Many P xs as) (h' : Many P ys bs) : Many P (xs ++ ys) (as ++ bs) := by
  induction h with
  | nil => exact h'
  | cons h _ ih =>
    rw [List.append_assoc]
    exact .cons h ih

/-- An object as it is written: its name, what it copies, and the texts between its braces. -/
structure Written where
  name : String
  source : Option String
  body : List String
  deriving DecidableEq, Repr

namespace Written

/-- The texts that say what is copied. -/
def copied (w : Written) : List String :=
  match w.source with
  | none => []
  | some a => ["CLONEOF", a]

/-- The texts of the object. -/
def texts (w : Written) : List String :=
  "OBJ" :: w.name :: (w.copied ++ "\x7b" :: (w.body ++ ["\x7d"]))

/-- The texts are those of the objects, one after the other, and the braces in each match. -/
structure Spells (ws : List Written) (xs : List String) : Prop where
  balanced : ∀ w ∈ ws, Balanced w.body
  texts : ws.flatMap Written.texts = xs

/-- The object that copies nothing and begins with the given texts. -/
def inlined (xs : List String) (w : Written) : Written := ⟨w.name, none, xs ++ w.body⟩

/-- Where the body begins is told by its brace. -/
theorem eq_of_copied_append {w w' : Written} {xs xs' : List String}
    (heq : w.copied ++ "\x7b" :: xs = w'.copied ++ "\x7b" :: xs') :
    w.source = w'.source ∧ xs = xs' := by
  unfold copied at heq
  cases hw : w.source <;> cases hw' : w'.source <;> simp_all

/-- Where an object ends is told by its braces. -/
theorem eq_of_texts_append {w w' : Written} (h : Balanced w.body) (h' : Balanced w'.body)
    {xs xs' : List String} (heq : w.texts ++ xs = w'.texts ++ xs') : w = w' ∧ xs = xs' := by
  simp only [texts, List.cons_append, List.append_assoc, List.nil_append, List.cons.injEq,
    true_and] at heq
  obtain ⟨hname, htail⟩ := heq
  obtain ⟨hsource, htail⟩ := eq_of_copied_append htail
  obtain ⟨hbody, hrest⟩ := h.eq_of_append_eq h' htail
  obtain ⟨name, source, body⟩ := w
  cases hname
  cases hsource
  cases hbody
  exact ⟨rfl, hrest⟩

/-- Texts are spelled by objects in one way only. -/
theorem Spells.unique {ws ws' : List Written} {xs : List String} (h : Spells ws xs)
    (h' : Spells ws' xs) : ws = ws' := by
  induction ws generalizing ws' xs with
  | nil =>
    cases ws' with
    | nil => rfl
    | cons w' ws' => cases h.texts.trans h'.texts.symm
  | cons w ws ih =>
    cases ws' with
    | nil => cases h.texts.trans h'.texts.symm
    | cons w' ws' =>
      obtain ⟨hw, hws⟩ := List.forall_mem_cons.1 h.balanced
      obtain ⟨hw', hws'⟩ := List.forall_mem_cons.1 h'.balanced
      have heq := h.texts.trans h'.texts.symm
      rw [List.flatMap_cons, List.flatMap_cons] at heq
      obtain ⟨rfl, hrest⟩ := eq_of_texts_append hw hw' heq
      rw [ih ⟨hws, rfl⟩ ⟨hws', hrest.symm⟩]

section Describes

variable {α : Type} [Scalar α] {w : Written} {d : Description α}

/-- The description is what the object says. -/
structure Describes (w : Written) (d : Description α) : Prop where
  name : Phrase.Name [w.name] d.name
  copied : Phrase.Maybe (Phrase.After "CLONEOF" Phrase.Name) w.copied d.source
  body : Phrase.Many Phrase.Statement w.body d.items

theorem eq_of_name {xs : List String} {n : String} (h : Phrase.Name xs n) : xs = [n] := by
  cases h
  rfl

theorem Describes.name_eq (h : Describes w d) : w.name = d.name :=
  (List.cons.inj (eq_of_name h.name)).1

theorem Describes.source_eq (h : Describes w d) : w.source = d.source := by
  obtain ⟨-, hcopied, -⟩ := h
  unfold Written.copied at hcopied
  generalize d.source = source at hcopied
  cases hw : w.source with
  | none =>
    rw [hw] at hcopied
    cases hcopied with
    | absent => rfl
    | present ha => cases ha
  | some a =>
    rw [hw] at hcopied
    cases hcopied with
    | present ha =>
      obtain ⟨ha⟩ := ha
      exact congrArg some (List.cons.inj (eq_of_name ha)).1

theorem object_iff {xs : List String} : Phrase.Object xs d ↔ ∃ w, texts w = xs ∧ Describes w d := by
  constructor
  · rintro ⟨hname, hcopied, ⟨hbody⟩⟩
    obtain rfl := eq_of_name hname
    obtain _ | ⟨⟨ha⟩⟩ := hcopied
    · exact ⟨⟨_, none, _⟩, rfl, hname, .absent, hbody⟩
    · obtain rfl := eq_of_name ha
      exact ⟨⟨_, some _, _⟩, rfl, hname, .present (.mk ha), hbody⟩
  · rintro ⟨w, rfl, hname, hcopied, hbody⟩
    exact .mk hname hcopied (.mk hbody)

theorem source_iff {xs : List String} {ds : List (Description α)} :
    Phrase.Source xs ds ↔ ∃ ws, ws.flatMap texts = xs ∧ List.Forall₂ Describes ws ds := by
  constructor
  · intro h
    unfold Phrase.Source at h
    induction h with
    | nil => exact ⟨[], rfl, .nil⟩
    | cons h _ ih =>
      obtain ⟨w, rfl, hw⟩ := object_iff.1 h
      obtain ⟨ws, rfl, hws⟩ := ih
      exact ⟨w :: ws, List.flatMap_cons, .cons hw hws⟩
  · rintro ⟨ws, rfl, h⟩
    induction h with
    | nil => exact .nil
    | cons h _ ih =>
      rw [List.flatMap_cons]
      exact .cons (object_iff.2 ⟨_, rfl, h⟩) ih

/-- An object among others and its description among those of the others. -/
theorem split_describes {before after : List Written} {ds : List (Description α)}
    (h : List.Forall₂ Describes (before ++ w :: after) ds) : ∃ ds₁ d ds₂, ds = ds₁ ++ d :: ds₂ ∧
      List.Forall₂ Describes before ds₁ ∧ Describes w d ∧ List.Forall₂ Describes after ds₂ := by
  induction before generalizing ds with
  | nil =>
    obtain ⟨d, ds, hd, hds, rfl⟩ := List.forall₂_cons_left_iff.1 h
    exact ⟨[], d, ds, rfl, .nil, hd, hds⟩
  | cons v before ih =>
    obtain ⟨e, ds, he, hds, rfl⟩ := List.forall₂_cons_left_iff.1 h
    obtain ⟨ds₁, d, ds₂, rfl, hbefore, hd, hafter⟩ := ih hds
    exact ⟨e :: ds₁, d, ds₂, rfl, .cons he hbefore, hd, hafter⟩

theorem exists_describes {ws : List Written} {ds : List (Description α)}
    (h : List.Forall₂ Describes ws ds) (hw : w ∈ ws) : ∃ d ∈ ds, Describes w d := by
  obtain ⟨before, after, rfl⟩ := List.append_of_mem hw
  obtain ⟨ds₁, d, ds₂, rfl, -, hd, -⟩ := split_describes h
  exact ⟨d, List.mem_append_right _ List.mem_cons_self, hd⟩

/-- Descriptions are of objects, and these spell the texts that the descriptions are read from. -/
theorem exists_spells {xs : List String} {ds : List (Description α)} (h : Phrase.Source xs ds) :
    ∃ ws, Spells ws xs ∧ List.Forall₂ Describes ws ds := by
  obtain ⟨ws, hxs, hws⟩ := source_iff.1 h
  refine ⟨ws, ⟨fun w hw => ?_, hxs⟩, hws⟩
  obtain ⟨d, -, hd⟩ := exists_describes hws hw
  exact balanced_statements hd.body

theorem Spells.describes {ws : List Written} {xs : List String} (h : Spells ws xs)
    {ds : List (Description α)} (hds : Phrase.Source xs ds) : List.Forall₂ Describes ws ds := by
  obtain ⟨ws', hspells, hws'⟩ := exists_spells hds
  rw [h.unique hspells]
  exact hws'

end Describes

/-- The texts are the body of the object with the name, where this is a copy after the texts that are
the body of what it copies. -/
inductive Inlines (ws : List Written) : String → List String → Prop
  | plain {w} (hw : w ∈ ws) (hsource : w.source = none) : Inlines ws w.name w.body
  | copy {w a xs} (hw : w ∈ ws) (hsource : w.source = some a) (h : Inlines ws a xs) :
      Inlines ws w.name (xs ++ w.body)

namespace Inlines

theorem mono {ws ws' : List Written} (hws : ws ⊆ ws') {a : String} {xs : List String}
    (h : Inlines ws a xs) : Inlines ws' a xs := by
  induction h with
  | plain hw hsource => exact .plain (hws hw) hsource
  | copy hw hsource _ ih => exact .copy (hws hw) hsource ih

variable {α : Type} [Scalar α]

/-- Every object that is described can be inlined, since what it copies is described before. -/
theorem exists_of_mem {ws : List Written} {ds : List (Description α)}
    (hws : List.Forall₂ Describes ws ds) (hds : Description.Admissible ds) {a : String}
    (ha : a ∈ ds.map Description.name) : ∃ xs, Inlines ws a xs := by
  induction ws using List.reverseRecOn generalizing ds a with
  | nil =>
    cases hws
    cases ha
  | append_singleton ws w ih =>
    obtain ⟨ds, d, _, rfl, hearlier, hd, hnone⟩ := split_describes hws
    cases hnone
    have hbefore : ∀ {n}, n ∈ ds.map Description.name → ∃ xs, Inlines (ws ++ [w]) n xs := by
      intro n hn
      obtain ⟨xs, hxs⟩ := ih hearlier hds.of_append hn
      exact ⟨xs, hxs.mono (List.subset_append_left ws [w])⟩
    rw [List.map_append, List.mem_append] at ha
    obtain ha | ha := ha
    · exact hbefore ha
    · obtain rfl := List.mem_singleton.1 ha
      have hw : w ∈ ws ++ [w] := List.mem_append_right ws List.mem_cons_self
      rw [← hd.name_eq]
      cases hsource : w.source with
      | none => exact ⟨_, .plain hw hsource⟩
      | some n =>
        obtain ⟨xs, hxs⟩ := hbefore (hds.sources ds d [] rfl n (hd.source_eq.symm.trans hsource))
        exact ⟨_, .copy hw hsource hxs⟩

/-- The statements of an inlined object describe its shape from a blank one. -/
theorem sound {ws : List Written} {ds : List (Description α)}
    (hws : List.Forall₂ Describes ws ds) (hds : Description.Admissible ds) {a : String}
    {xs : List String} (h : Inlines ws a xs) : ∃ items, Phrase.Many Phrase.Statement xs items ∧
      Along Item.Fits Item.apply (.blank a) items ∧
      (Description.catalog ds).named? a = some (items.foldl Item.apply (.blank a)) := by
  induction h with
  | @plain w hw hsource =>
    obtain ⟨d, hd, hwd⟩ := exists_describes hws hw
    obtain ⟨hnamed, hfit⟩ := Description.named?_catalog hds hd
    have hbase : d.base (Description.catalog ds) = .blank d.name := by
      rw [Description.base, ← hwd.source_eq, hsource]
      rfl
    rw [Description.shape, hbase] at hnamed
    rw [Description.ItemsFit, hbase] at hfit
    rw [hwd.name_eq]
    exact ⟨d.items, hwd.body, hfit, hnamed⟩
  | @copy w a xs hw hsource _ ih =>
    obtain ⟨d, hd, hwd⟩ := exists_describes hws hw
    obtain ⟨hnamed, hfit⟩ := Description.named?_catalog hds hd
    obtain ⟨items, hitems, halong, hcopied⟩ := ih
    have hbase := Description.base_of_copied (hwd.source_eq.symm.trans hsource) hcopied
    rw [Description.shape, hbase, ← List.foldl_append] at hnamed
    rw [Description.ItemsFit, hbase] at hfit
    rw [hwd.name_eq]
    have hblank : Along Item.Fits Item.apply (.blank d.name) items :=
      (Item.along_renamed d.name).2 halong
    exact ⟨items ++ d.items, hitems.append hwd.body, along_append.2 ⟨hblank, hfit⟩, hnamed⟩

end Inlines

end Written

namespace Catalog

variable {α : Type} [Scalar α]

/-- The texts of the tokens of a source. -/
def sourceTexts (source : String) : Except (TokenFault × Nat) (List String) :=
  (Token.ofSource source).map texts

theorem sourceTexts_eq_ok_iff {source : String} {xs : List String} :
    sourceTexts source = .ok xs ↔ ∃ tokens, Token.ofSource source = .ok tokens ∧ texts tokens = xs := by
  unfold sourceTexts
  cases Token.ofSource source <;> simp [Except.map]

theorem ofSource?_eq_ok_iff_texts {source : String} {c : Catalog α} : ofSource? source = .ok c ↔
    ∃ xs ds, sourceTexts source = .ok xs ∧ Phrase.Source xs ds ∧ Description.Admissible ds ∧
      Description.catalog ds = c := by
  rw [ofSource?_eq_ok_iff]
  constructor
  · rintro ⟨tokens, htokens, hread⟩
    obtain ⟨ds, hds⟩ := ofTokens_eq_none_iff.1 hread
    exact ⟨texts tokens, ds, sourceTexts_eq_ok_iff.2 ⟨tokens, htokens, rfl⟩, hds⟩
  · rintro ⟨_, ds, hsource, hds⟩
    obtain ⟨tokens, htokens, rfl⟩ := sourceTexts_eq_ok_iff.1 hsource
    exact ⟨tokens, htokens, ofTokens_eq_none_iff.2 ⟨ds, hds⟩⟩

/-- A source that is read as a catalog is a list of objects. An object of it that copies another can be
written out: after the body of the other, inlined in turn, come its own texts, and the source is read as
the same catalog. The shape that is copied is the same whatever comes after the objects before the
copy. -/
theorem copies_inlined {source : String} {c : Catalog α} (hc : ofSource? source = .ok c) :
    (∃ ws xs, sourceTexts source = .ok xs ∧ Written.Spells ws xs) ∧
    ∀ before w after xs a, sourceTexts source = .ok xs →
      Written.Spells (before ++ w :: after) xs → w.source = some a →
      (∃ ys, Written.Inlines before a ys) ∧
      (∀ ys source', Written.Inlines before a ys →
        sourceTexts source' = .ok ((before ++ w.inlined ys :: after).flatMap Written.texts) →
        ofSource? source' = .ok c) ∧
      ∃ s, c.named? a = some s ∧ ∀ source' zs,
        sourceTexts source' = .ok (before.flatMap Written.texts ++ zs) →
        (ofSource source' : Catalog α × List SourceError).1.named? a = some s := by
  obtain ⟨xs, ds, hxs, hds, hadmissible, rfl⟩ := ofSource?_eq_ok_iff_texts.1 hc
  constructor
  · obtain ⟨ws, hws, -⟩ := Written.exists_spells hds
    exact ⟨ws, xs, hxs, hws⟩
  intro before w after xs' a hxs' hspells hsource
  obtain rfl : xs = xs' := Except.ok.inj (hxs.symm.trans hxs')
  obtain ⟨ds₁, d, ds₂, rfl, hbefore, hd, hafter⟩ := Written.split_describes (hspells.describes hds)
  have hcopies : d.source = some a := hd.source_eq.symm.trans hsource
  have hadmissible₁ : Description.Admissible ds₁ := hadmissible.of_append
  have hexists := Written.Inlines.exists_of_mem hbefore hadmissible₁
    (hadmissible.sources ds₁ d ds₂ rfl a hcopies)
  refine ⟨hexists, fun ys source' hys hsource' => ?_, ?_⟩
  · obtain ⟨items, hitems, halong, hnamed⟩ := hys.sound hbefore hadmissible₁
    obtain ⟨hadmissible', hcatalog⟩ :=
      Description.admissible_inlined hadmissible hcopies halong hnamed
    have hinlined : Written.Describes (w.inlined ys) (d.inlined items) :=
      ⟨hd.name, .absent, hitems.append hd.body⟩
    refine ofSource?_eq_ok_iff_texts.2 ⟨_, _, hsource', ?_, hadmissible', hcatalog⟩
    exact Written.source_iff.2 ⟨_, rfl, List.rel_append hbefore (.cons hinlined hafter)⟩
  · obtain ⟨ys, hys⟩ := hexists
    obtain ⟨items, -, -, hnamed⟩ := hys.sound hbefore hadmissible₁
    have hds₁ : Phrase.Source (before.flatMap Written.texts) ds₁ :=
      Written.source_iff.2 ⟨before, rfl, hbefore⟩
    have hwhole : (Description.catalog ds₁).shapes <+: (Description.catalog (ds₁ ++ d :: ds₂)).shapes := by
      rw [Description.catalog, Description.catalog, List.foldl_append]
      exact Description.shapes_foldl_addTo _ _
    refine ⟨_, hwhole.find?_eq_some hnamed, fun source' zs hsource' => ?_⟩
    obtain ⟨tokens, htokens, hts⟩ := sourceTexts_eq_ok_iff.1 hsource'
    rw [ofSource_of_tokens htokens]
    exact (prefix_ofTokens hds₁ hadmissible₁ hts).find?_eq_some hnamed

/-- An object with a vertex. -/
def plate : Written := ⟨"a", none, ["VERT", "\x7b", "0", ",", "0", ",", "0", ";", "\x7d"]⟩

/-- A copy with another vertex in place of that one. -/
def patch : Written :=
  ⟨"b", some "a", ["VERT", "\x7b", "[", "0", "]", "1", ",", "0", ",", "0", ";", "\x7d"]⟩

/-- A copy of the copy with an id of its own. -/
def numbered : Written := ⟨"c", some "b", ["ID", "=", "2", ";"]⟩

/-- The three objects. -/
def copies : String :=
  "OBJ a\x7bVERT\x7b0,0,0;\x7d\x7dOBJ b CLONEOF a\x7bVERT\x7b[0]1,0,0;\x7d\x7dOBJ c CLONEOF b\x7bID=2;\x7d"

/-- The three objects, the last of them written out. -/
def writtenOut : String :=
  "OBJ a\x7bVERT\x7b0,0,0;\x7d\x7dOBJ b CLONEOF a\x7bVERT\x7b[0]1,0,0;\x7d\x7d
  OBJ c\x7bVERT\x7b0,0,0;\x7dVERT\x7b[0]1,0,0;\x7dID=2;\x7d"

/-- The catalog of the three objects. -/
def copiesCatalog : Catalog Binary64 :=
  let corner : Vec3 Binary64 := ⟨Scalar.ofInt 0, Scalar.ofInt 0, Scalar.ofInt 0⟩
  ⟨[{ Shape.blank "a" with vertices := [corner] },
    { Shape.blank "b" with vertices := [{ corner with x := Scalar.ofInt 1 }] },
    { Shape.blank "c" with id := 2, vertices := [{ corner with x := Scalar.ofInt 1 }] }]⟩

/-- The copy of a copy is written out with the statements of both. -/
theorem copies_inlined_twice : ofSource? copies = .ok copiesCatalog ∧
    sourceTexts copies = .ok ([plate, patch, numbered].flatMap Written.texts) ∧
    Written.Spells [plate, patch, numbered] ([plate, patch, numbered].flatMap Written.texts) ∧
    numbered.source = some "b" ∧
    Written.Inlines [plate, patch] "b" (plate.body ++ patch.body) ∧
    sourceTexts writtenOut = .ok
      ([plate, patch, numbered.inlined (plate.body ++ patch.body)].flatMap Written.texts) ∧
    ofSource? writtenOut = .ok copiesCatalog := by
  have hread : ofSource? copies = .ok copiesCatalog := by decide +kernel
  have htexts : sourceTexts copies = .ok ([plate, patch, numbered].flatMap Written.texts) := by
    decide +kernel
  have hspells : Written.Spells [plate, patch, numbered]
      ([plate, patch, numbered].flatMap Written.texts) := by
    have hblock : ∀ xs, Flat xs → Balanced ("VERT" :: "\x7b" :: (xs ++ ["\x7d"])) :=
      fun xs hxs => .word (by decide) (.braces hxs.balanced .nil)
    have hplate : Balanced plate.body := hblock ["0", ",", "0", ",", "0", ";"] (by simp)
    have hpatch : Balanced patch.body :=
      hblock ["[", "0", "]", "1", ",", "0", ",", "0", ";"] (by simp)
    have hnumbered : Balanced numbered.body := Flat.balanced (by simp [numbered])
    exact ⟨by simp [hplate, hpatch, hnumbered], rfl⟩
  have hinlines : Written.Inlines [plate, patch] "b" (plate.body ++ patch.body) :=
    .copy (w := patch) (by decide) rfl (.plain (w := plate) (by decide) rfl)
  have hwritten : sourceTexts writtenOut = .ok
      ([plate, patch, numbered.inlined (plate.body ++ patch.body)].flatMap Written.texts) := by
    decide +kernel
  exact ⟨hread, htexts, hspells, rfl, hinlines, hwritten,
    ((copies_inlined hread).2 [plate, patch] numbered [] _ "b" htexts hspells rfl).2.1 _ _ hinlines
      hwritten⟩

end Catalog

end Masonry
