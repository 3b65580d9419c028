import Mathlib.Data.List.Induction
import Masonry.Catalog.Reading
import Masonry.Proofs.Shape.Statements

/-!
# Catalogs are read from what the grammar says

A source is read as a catalog if and only if its tokens spell admissible descriptions, and the catalog
is the one that these describe (`Catalog.source_accepted_iff`). A description is read only if it fits
the catalog of the descriptions before it (`Description.Fits`); that all of them do is what makes them
admissible (`Description.admissible_iff`).
-/

namespace Masonry

section Along

variable {β σ : Type} {fits : σ → β → Prop} {next : σ → β → σ}

/-- Each element fits the state that those before it lead to. -/
theorem along_iff {s : σ} {bs : List β} : Along fits next s bs ↔
    ∀ before b after, bs = before ++ b :: after → fits (before.foldl next s) b := by
  induction bs generalizing s with
  | nil => simp [Along]
  | cons b bs ih =>
    rw [Along, ih]
    constructor
    · rintro ⟨hb, hbs⟩ before b' after heq
      cases before with
      | nil =>
        cases heq
        exact hb
      | cons a before =>
        rw [List.cons_append, List.cons.injEq] at heq
        obtain ⟨rfl, heq⟩ := heq
        exact hbs before b' after heq
    · intro h
      exact ⟨h [] b bs rfl, fun before b' after heq => h (b :: before) b' after (heq ▸ rfl)⟩

/-- Keys are distinct if none is a key of an element before. -/
theorem nodup_map_iff {γ : Type} (key : β → γ) {bs : List β} : (bs.map key).Nodup ↔
    ∀ before b after, bs = before ++ b :: after → key b ∉ before.map key := by
  constructor
  · rintro h before b after rfl hmem
    rw [List.map_append, List.nodup_append] at h
    exact h.2.2 _ hmem _ List.mem_cons_self rfl
  · intro h
    induction bs using List.reverseRecOn with
    | nil => exact List.nodup_nil
    | append_singleton bs b ih =>
      have hbs := ih fun before b' after heq => h before b' (after ++ [b]) (by rw [heq]; simp)
      rw [List.map_append, List.nodup_append]
      refine ⟨hbs, List.pairwise_singleton _ _, ?_⟩
      rintro k hk _ hb rfl
      rw [List.map_singleton, List.mem_singleton] at hb
      exact h bs b [] rfl (hb ▸ hk)

end Along

namespace Item

variable {α : Type}

theorem name_apply (s : Shape α) (item : Item α) : (item.apply s).name = s.name := by
  cases item <;> rfl

theorem name_foldl_apply (items : List (Item α)) (s : Shape α) :
    (items.foldl apply s).name = s.name := by
  induction items generalizing s with
  | nil => rfl
  | cons item items ih => rw [List.foldl_cons, ih, name_apply]

end Item

theorem Catalog.hasName_iff {α : Type} {c : Catalog α} {n : String} :
    c.hasName n = true ↔ n ∈ c.shapes.map Shape.name := by
  rw [hasName, named?, List.find?_isSome]
  simp

namespace Description

variable {α : Type} [Scalar α]

/-- The description means something after the descriptions of a catalog: its name is new, what it
copies is there, and its items fit. -/
structure Fits (c : Catalog α) (d : Description α) : Prop where
  fresh : c.hasName d.name = false
  found : ∀ n ∈ d.source, c.hasName n = true
  items : d.ItemsFit c

theorem name_shape (c : Catalog α) (d : Description α) : (d.shape c).name = d.name := by
  rw [shape, Item.name_foldl_apply, base]
  split <;> rfl

/-- A described catalog has the names of the descriptions. -/
theorem hasName_catalog {ds : List (Description α)} {n : String} :
    (catalog ds).hasName n = true ↔ n ∈ ds.map name := by
  have hnames : (catalog ds).shapes.map Shape.name = ds.map name := by
    induction ds using List.reverseRecOn with
    | nil => rfl
    | append_singleton ds d ih =>
      rw [catalog, List.foldl_append]
      show ((catalog ds).shapes ++ [d.shape _]).map Shape.name = _
      rw [List.map_append, ih, List.map_singleton, name_shape, List.map_append, List.map_singleton]
  rw [← hnames, Catalog.hasName_iff]

theorem admissible_iff {ds : List (Description α)} :
    Admissible ds ↔ Along Fits addTo .empty ds := by
  rw [along_iff]
  constructor
  · rintro ⟨hnames, hsources, hindices⟩ before d after rfl
    refine ⟨?_, fun n hn => hasName_catalog.2 (hsources before d after rfl n hn),
      along_iff.1 hindices before d after rfl⟩
    have hfresh := (nodup_map_iff name).1 hnames before d after rfl
    rw [← hasName_catalog, Bool.not_eq_true] at hfresh
    exact hfresh
  · intro h
    refine ⟨(nodup_map_iff name).2 fun before d after heq => ?_, fun before d after heq n hn => ?_,
      along_iff.2 fun before d after heq => (h before d after heq).items⟩
    · rw [← hasName_catalog, Bool.not_eq_true]
      exact (h before d after heq).fresh
    · exact hasName_catalog.1 ((h before d after heq).found n hn)

end Description

namespace Reader

variable {α : Type} [Scalar α]

/-- The shape that a description starts from is read from its source. -/
theorem reads_base (c : Catalog α) (line : Option Nat) (newName : String) :
    Reads (base c line newName) (fun xs s => ∃ source,
      Phrase.Maybe (Phrase.After "CLONEOF" Phrase.Name) xs source ∧
        (∀ n ∈ source, c.hasName n = true) ∧ Description.base c ⟨newName, source, []⟩ = s)
      ["CLONEOF"] := by
  have hbase : ∀ n : String, Description.base c ⟨newName, some n, []⟩ =
      ((c.named? n).map fun s => s.renamed newName).getD (.blank newName) := by
    intro n
    rw [Description.base, Option.bind_some]
    cases c.named? n <;> rfl
  refine ((Reads.bind (Q := fun n xs s => xs = [] ∧ c.hasName n = true ∧
      Description.base c ⟨newName, some n, []⟩ = s) reads_name (fun n => ?_) fun _ => .inl rfl).choice
    ((reads_pure (Shape.blank newName)).weaken (by simp)) fun h => .inl ⟨h.1, by simp⟩).congr
    fun xs s => ?_
  · rw [hbase, Catalog.hasName]
    cases c.named? n with
    | none => exact reads_fail _ _ fun h => Bool.false_ne_true h.2.1
    | some s => exact ((reads_pure (s.renamed newName)).weaken (by simp)).congr fun xs s' => by simp
  · constructor
    · rintro (⟨⟨n, xs, _, rfl, hn, rfl, hfound, rfl⟩⟩ | ⟨rfl, rfl⟩)
      · rw [List.append_nil]
        exact ⟨some n, .present (.mk hn), by simpa using hfound, rfl⟩
      · exact ⟨none, .absent, by simp, rfl⟩
    · rintro ⟨_, _ | ⟨⟨hn⟩⟩, hfound, rfl⟩
      · exact .inr ⟨rfl, rfl⟩
      · exact .inl (.mk ⟨_, _, [], (List.append_nil _).symm, hn, rfl, hfound _ rfl, rfl⟩)

/-- Reads a shape whose description begins at a line. -/
def shapeAt (c : Catalog α) (line : Option Nat) : Reader (Shape α) := do
  expect "OBJ"
  let newName ← name
  if c.hasName newName then fail (.nameTaken newName) line
  else statements (← base c line newName)

theorem shape_eq (c : Catalog α) (ts : List Token) :
    shape c ts = shapeAt c (ts.head?.map Token.line) ts := by
  have hget : (get : Reader (List Token)) ts = .ok (ts, ts) := rfl
  rw [shape, bind_of_ok hget, shapeAt]
  refine congrFun (bind_congr fun _ => bind_congr fun newName => ?_) ts
  split <;> rfl

theorem reads_shapeAt (c : Catalog α) (line : Option Nat) : Reads (shapeAt c line)
    (fun xs s => ∃ d, Phrase.Object xs d ∧ d.Fits c ∧ d.shape c = s) [] := by
  have hbody := fun newName => (reads_base c line newName).bind reads_statements fun h => by
    obtain ⟨_, ⟨_⟩, -, -⟩ := h
    exact .inr ⟨"\x7b", _, rfl, by decide⟩
  have hnew : ∀ newName, Reads
      (if c.hasName newName then fail (.nameTaken newName) line
        else base c line newName >>= statements)
      (fun zs s => ∃ source items xs ys, zs = xs ++ ys ∧
        Phrase.Maybe (Phrase.After "CLONEOF" Phrase.Name) xs source ∧
        Phrase.Block Phrase.Statement ys items ∧
        Description.Fits c ⟨newName, source, items⟩ ∧
        Description.shape c ⟨newName, source, items⟩ = s) [] := by
    intro newName
    cases hname : c.hasName newName with
    | true =>
      refine reads_fail _ _ ?_
      rintro _ _ ⟨source, items, _, _, -, -, -, hfits, -⟩
      exact Bool.false_ne_true (hfits.fresh.symm.trans hname)
    | false =>
      refine (hbody newName).congr fun zs s => ?_
      constructor
      · rintro ⟨_, xs, ys, rfl, ⟨source, hsource, hfound, rfl⟩, items, hitems, hfits, rfl⟩
        exact ⟨source, items, xs, ys, rfl, hsource, hitems, ⟨hname, hfound, hfits⟩, rfl⟩
      · rintro ⟨source, items, xs, ys, rfl, hsource, hitems, hfits, rfl⟩
        exact ⟨_, xs, ys, rfl, ⟨source, hsource, hfits.found, rfl⟩, items, hitems, hfits.items, rfl⟩
  refine (reads_name.bind hnew fun _ => .inl rfl).after.congr fun zs s => ?_
  constructor
  · rintro ⟨⟨newName, xs, _, rfl, hname, source, items, ys, zs, rfl, hsource, hitems, hfits, hs⟩⟩
    exact ⟨_, .mk hname hsource hitems, hfits, hs⟩
  · rintro ⟨_, ⟨hname, hsource, hitems⟩, hfits, hs⟩
    exact .mk ⟨_, _, _, rfl, hname, _, _, _, _, rfl, hsource, hitems, hfits, hs⟩

theorem reads_shape (c : Catalog α) : Reads (shape c)
    (fun xs s => ∃ d, Phrase.Object xs d ∧ d.Fits c ∧ d.shape c = s) [] where
  sound h := by
    rw [shape_eq] at h
    exact (reads_shapeAt c _).sound h
  complete h hts hnext := by
    rw [shape_eq]
    exact (reads_shapeAt c _).complete h hts hnext

end Reader

namespace Catalog

variable {α : Type} [Scalar α]

/-- A description has a token. -/
theorem length_lt_of_object {xs : List String} {d : Description α} (h : Phrase.Object xs d)
    {ts rest : List Token} (hts : texts ts = xs ++ texts rest) : rest.length < ts.length := by
  obtain ⟨-, -, -⟩ := h
  exact length_lt_of_texts hts (List.cons_ne_nil _ _)

theorem readShapes_nil_iff {n : Nat} {c c' : Catalog α} :
    readShapes n c [] = (c', none) ↔ ∃ ds, Phrase.Source (texts []) ds ∧
      Along Description.Fits Description.addTo c ds ∧ ds.foldl Description.addTo c = c' := by
  have hread : readShapes n c [] = (c, none) := by cases n <;> rfl
  rw [hread]
  constructor
  · intro h
    cases h
    exact ⟨[], .nil, trivial, rfl⟩
  · rintro ⟨ds, hds, -, rfl⟩
    generalize hzs : texts [] = zs at hds
    cases hds with
    | nil => rfl
    | cons hd _ =>
      obtain ⟨-, -, -⟩ := hd
      cases hzs

/-- Shapes are read as they are described one after the other. The number of tokens goes down with
each, so it bounds the number of rounds. -/
theorem readShapes_eq_iff {n : Nat} {c c' : Catalog α} {ts : List Token} (hn : ts.length ≤ n) :
    readShapes n c ts = (c', none) ↔ ∃ ds, Phrase.Source (texts ts) ds ∧
      Along Description.Fits Description.addTo c ds ∧ ds.foldl Description.addTo c = c' := by
  induction n generalizing c ts with
  | zero =>
    obtain rfl := List.eq_nil_of_length_eq_zero (Nat.le_zero.1 hn)
    exact readShapes_nil_iff
  | succ n ih =>
    cases ts with
    | nil => exact readShapes_nil_iff
    | cons t ts =>
      rw [readShapes]
      constructor
      · intro h
        split at h
        · next s rest hs =>
          obtain ⟨xs, hts, d, hd, hfits, rfl⟩ := (Reader.reads_shape c).sound hs
          have hrest := length_lt_of_object hd hts
          obtain ⟨ds, hds, halong, hc'⟩ := (ih (by omega)).1 h
          exact ⟨d :: ds, hts ▸ .cons hd hds, ⟨hfits, halong⟩, hc'⟩
        · cases h
      · rintro ⟨ds, hds, halong, hc'⟩
        generalize hzs : texts (t :: ts) = zs at hds
        cases hds with
        | nil => cases hzs
        | cons hd hds =>
          obtain ⟨rest, hs, hrest⟩ := (Reader.reads_shape c).complete ⟨_, hd, halong.1, rfl⟩ hzs
          have hshorter := length_lt_of_object hd (hrest ▸ hzs)
          rw [hs]
          exact (ih (by omega)).2 ⟨_, hrest ▸ hds, halong.2, hc'⟩

/-- All tokens are read if they spell admissible descriptions. -/
theorem ofTokens_eq_none_iff {tokens : List Token} {c : Catalog α} :
    (ofTokens tokens : Catalog α × Option Failure) = (c, none) ↔
      ∃ ds, Phrase.Source (texts tokens) ds ∧ Description.Admissible ds ∧
        Description.catalog ds = c := by
  simp only [Description.admissible_iff]
  exact readShapes_eq_iff (Nat.le_refl _)

theorem ofSource?_eq_ok_iff {source : String} {c : Catalog α} : ofSource? source = .ok c ↔
    ∃ tokens, Token.ofSource source = .ok tokens ∧ ofTokens tokens = (c, none) := by
  unfold ofSource? ofSource
  cases Token.ofSource source with
  | error fault => simp
  | ok tokens =>
    simp only [Except.ok.injEq, exists_eq_left']
    obtain ⟨c', _ | failure⟩ := (ofTokens tokens : Catalog α × Option Failure) <;> simp

/-- A source is read as a catalog if and only if its tokens spell admissible descriptions of it. -/
theorem source_accepted_iff {source : String} {c : Catalog α} : ofSource? source = .ok c ↔
    ∃ tokens ds, Token.ofSource source = .ok tokens ∧ Phrase.Source (tokens.map Token.text) ds ∧
      Description.Admissible ds ∧ Description.catalog ds = c := by
  simp only [ofSource?_eq_ok_iff, ofTokens_eq_none_iff, texts, exists_and_left]

end Catalog

end Masonry
