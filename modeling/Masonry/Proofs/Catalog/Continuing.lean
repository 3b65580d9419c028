import Masonry.Scalar.Binary
import Masonry.Proofs.Catalog.Descriptions
import Masonry.Proofs.Shape.Joining

/-!
# Reading on

Reading only adds shapes to a catalog, and a source that follows admissible descriptions is read into
the catalog of these. So the shapes of a source stay when a text follows it that can be cut into tokens,
whatever else is wrong with that text; a text that leaves a literal or a comment open takes the shapes
before it away, since nothing is read until all of a source is cut (`Catalog.complete_shapes_kept`).
-/

namespace Masonry.Catalog

variable {α : Type} [Scalar α]

/-- The catalog that the tokens describe and the errors, as for a source that they are cut from. -/
def compiled (tokens : List Token) : Catalog α × List SourceError :=
  let (c, failure) := ofTokens tokens
  (c, (failure.map (·.toError tokens)).toList)

theorem ofSource_of_tokens {source : String} {tokens : List Token}
    (h : Token.ofSource source = .ok tokens) :
    (ofSource source : Catalog α × List SourceError) = compiled tokens := by
  rw [ofSource, h]
  rfl

/-- Reading adds shapes at the end. -/
theorem shapes_readShapes (n : Nat) (c : Catalog α) (ts : List Token) :
    c.shapes <+: (readShapes n c ts).1.shapes := by
  induction n generalizing c ts with
  | zero => cases ts <;> exact List.prefix_rfl
  | succ n ih =>
    cases ts with
    | nil => exact List.prefix_rfl
    | cons t ts =>
      rw [readShapes]
      split
      · next s rest _ => exact (List.prefix_append _ _).trans (ih (c.push s) rest)
      · exact List.prefix_rfl

/-- Descriptions that fit are read one after the other, and reading goes on with the tokens after
them. -/
theorem readShapes_append {xs ys : List String} {ds : List (Description α)}
    (hds : Phrase.Source xs ds) {c : Catalog α} (hfits : Along Description.Fits Description.addTo c ds)
    {n : Nat} {ts : List Token} (hn : ts.length ≤ n) (hts : texts ts = xs ++ ys) :
    ∃ m rest, rest.length ≤ m ∧ texts rest = ys ∧
      readShapes n c ts = readShapes m (ds.foldl Description.addTo c) rest := by
  unfold Phrase.Source at hds
  induction hds generalizing c n ts with
  | nil => exact ⟨n, ts, hn, hts, rfl⟩
  | @cons xs zs d ds hd hds ih =>
    rw [List.append_assoc] at hts
    obtain ⟨rest, hs, hrest⟩ := (Reader.reads_shape c).complete ⟨d, hd, hfits.1, rfl⟩ hts
    have hshorter := length_lt_of_object hd (hrest ▸ hts)
    obtain ⟨m, rfl⟩ : ∃ m, n = m + 1 := ⟨n - 1, by omega⟩
    obtain ⟨t, ts, rfl⟩ := List.exists_cons_of_length_pos (Nat.zero_lt_of_lt hshorter)
    rw [readShapes, hs]
    exact ih hfits.2 (by omega) hrest

/-- The tokens of a source whose descriptions are admissible, and others: the shapes of the source come
first. -/
theorem prefix_ofTokens {xs ys : List String} {ds : List (Description α)}
    (hds : Phrase.Source xs ds) (hadmissible : Description.Admissible ds) {ts : List Token}
    (hts : texts ts = xs ++ ys) :
    (Description.catalog ds).shapes <+: (ofTokens ts : Catalog α × Option Failure).1.shapes := by
  obtain ⟨m, rest, -, -, hread⟩ :=
    readShapes_append hds (Description.admissible_iff.1 hadmissible) (Nat.le_refl _) hts
  rw [ofTokens, hread]
  exact shapes_readShapes m _ rest

/-- After a line feed a text that can be cut into tokens leaves the shapes of the source before it as
they are. From a text that cannot there is no shape, and one error at its line. -/
theorem complete_shapes_kept {a : String} {c : Catalog α} (ha : ofSource? a = .ok c) (b : String) :
    (∀ ts, Token.ofSource b = .ok ts →
      c.shapes <+: (ofSource (a ++ "\n" ++ b) : Catalog α × List SourceError).1.shapes) ∧
    ∀ fault line, Token.ofSource b = .error (fault, line) →
      let n := (Text.lines (a.toList ++ ['\n'])).length
      (ofSource (a ++ "\n" ++ b) : Catalog α × List SourceError) =
        (empty, [⟨.token (fault.later n), line + n⟩]) := by
  obtain ⟨tokens, htokens, hread⟩ := ofSource?_eq_ok_iff.1 ha
  obtain ⟨ds, hds, hadmissible, rfl⟩ := ofTokens_eq_none_iff.1 hread
  have hjoin := Token.ofSource_join htokens b
  refine ⟨fun ts hts => ?_, fun fault line hfault => ?_⟩
  · rw [hts] at hjoin
    rw [ofSource_of_tokens hjoin]
    exact prefix_ofTokens hds hadmissible (texts_append _ _)
  · rw [hfault] at hjoin
    rw [ofSource, hjoin]
    rfl

/-- A source with one shape. -/
def lone : String := "OBJ a \x7b ID = 1; \x7d"

/-- The shape of the source. -/
def loneCatalog : Catalog Binary64 := ⟨[{ Shape.blank "a" with id := 1 }]⟩

/-- The shape stays before a stray brace. -/
theorem complete_shapes_kept_lone : ofSource? lone = .ok loneCatalog ∧
    loneCatalog.shapes <+:
      (ofSource (lone ++ "\n" ++ "\x7d") : Catalog Binary64 × List SourceError).1.shapes :=
  have hread : ofSource? lone = .ok loneCatalog := by decide +kernel
  ⟨hread, (complete_shapes_kept hread "\x7d").1 [⟨"\x7d", 1⟩] (by decide +kernel)⟩

/-- A quote after the source takes its shape away. -/
theorem quote_drops_lone : ofSource? lone = .ok loneCatalog ∧
    ¬ loneCatalog.shapes <+:
      (ofSource (lone ++ "\n" ++ "\"") : Catalog Binary64 × List SourceError).1.shapes := by
  constructor <;> decide +kernel

end Masonry.Catalog
