import Masonry.Proofs.Catalog.Abort
import Masonry.Proofs.Shape.Order
import Masonry.Proofs.Shape.Reports

/-!
# Lines of errors

A source that can be cut into tokens and is not read as a catalog has one error, and its line is none
before the block that reading fails in and none behind the token that it stops at. An error about the
names in a header is at the first line of the block (`Catalog.error_in_block`).
-/

namespace Masonry

/-- The token that reading stopped at; the last one if it stopped at their end. -/
def Failure.stop (f : Failure) (tokens : List Token) : Option Token :=
  f.rest.head? <|> tokens.getLast?

namespace Reader

variable {α : Type} [Scalar α]

theorem base_eq_error {c : Catalog α} {line : Option Nat} {newName : String} {ts : List Token}
    {f : Failure} (h : base c line newName ts = .error f) :
    f.Located ts ∨ f.fault.OfHeader ∧ f.line = line := by
  obtain h | ⟨copies, mid, hmid, h⟩ := bind_eq_error_iff.1 h
  · exact .inl (locates_accept "CLONEOF" ts f h)
  cases copies with
  | false => cases h
  | true =>
    obtain h | ⟨source, rest, -, h⟩ := bind_eq_error_iff.1 h
    · exact .inl ((locates_name mid f h).of_suffix ((peeks_accept _).suffix_of_ok hmid))
    · cases hfound : c.named? source with
      | some s =>
        simp only [hfound] at h
        cases h
      | none =>
        simp only [hfound] at h
        cases h
        exact .inr ⟨trivial, rfl⟩

/-- A description fails in its block, or over the names in its header and then where it begins. -/
theorem shape_eq_error {c : Catalog α} {first : Token} {block : List Token} {f : Failure}
    (h : shape c (first :: block) = .error f) : f.Located (first :: block) ∨
      f.fault.OfHeader ∧ first.text = "OBJ" ∧ f.line = some first.line := by
  rw [shape_eq] at h
  obtain h | ⟨_, ts₁, hword, h⟩ := bind_eq_error_iff.1 h
  · exact .inl (locates_expect "OBJ" _ f h)
  have hfirst : first.text = "OBJ" := (List.cons.inj (expect_sound hword)).1
  have hsuffix₁ := (peeks_expect "OBJ").suffix_of_ok hword
  obtain h | ⟨newName, ts₂, hname, h⟩ := bind_eq_error_iff.1 h
  · exact .inl ((locates_name ts₁ f h).of_suffix hsuffix₁)
  have hsuffix₂ := (peeks_name.suffix_of_ok hname).trans hsuffix₁
  split at h
  · cases h
    exact .inr ⟨trivial, hfirst, rfl⟩
  obtain h | ⟨s, ts₃, hbase, h⟩ := bind_eq_error_iff.1 h
  · obtain h | ⟨hfault, hline⟩ := base_eq_error h
    · exact .inl (h.of_suffix hsuffix₂)
    · exact .inr ⟨hfault, hfirst, hline⟩
  · have hsuffix₃ := ((peeks_base c _ newName).suffix_of_ok hbase).trans hsuffix₂
    exact .inl ((locates_statements s ts₃ f h).of_suffix hsuffix₃)

end Reader

namespace Catalog

variable {α : Type} [Scalar α]

theorem ofSource?_eq_error_iff {source : String} {tokens : List Token} {errors : List SourceError}
    (h : Token.ofSource source = .ok tokens) :
    (ofSource? source : Except (List SourceError) (Catalog α)) = .error errors ↔
      ∃ (c : Catalog α) (f : Failure), ofTokens tokens = (c, some f) ∧ errors = [f.toError tokens] := by
  rw [ofSource?, ofSource_of_tokens h, compiled]
  obtain ⟨c, _ | f⟩ := (ofTokens tokens : Catalog α × Option Failure)
  · simp
  · simp [eq_comm]

/-- Reading that fails does so in a block with a token: without one, all would have been read. -/
theorem exists_failsIn {tokens : List Token} {c : Catalog α} {f : Failure}
    (h : ofTokens tokens = (c, some f)) : ∃ done first block ds,
      tokens = done ++ first :: block ∧ FailsIn done (first :: block) ds c f := by
  obtain ⟨done, block, ds, rfl, hds, halong, hc, hblock⟩ := readShapes_eq_some h
  have hadmissible := Description.admissible_iff.2 halong
  cases block with
  | nil =>
    rw [List.append_nil] at h
    rw [ofTokens_eq_none_iff.2 ⟨ds, hds, hadmissible, hc⟩] at h
    cases h
  | cons first block =>
    refine ⟨done, first, block, ds, rfl, hds, hadmissible, hc, hblock,
      (Reader.peeks_shape c).suffix_of_error hblock, fun xs ys d hts hd hfits => ?_⟩
    obtain ⟨rest, hs, -⟩ := (Reader.reads_shape c).complete ⟨d, hd, hfits, rfl⟩ hts
    rw [hblock] at hs
    cases hs

/-- Reading stops at a token of the last tokens that what is left belongs to. -/
theorem exists_stop {tokens us : List Token} {t : Token} {f : Failure} (hts : t :: us <:+ tokens)
    (hrest : f.rest <:+ t :: us) : ∃ stop ∈ t :: us, f.stop tokens = some stop := by
  unfold Failure.stop
  cases h : f.rest with
  | nil =>
    obtain ⟨before, rfl⟩ := hts
    refine ⟨(t :: us).getLast (List.cons_ne_nil t us), List.getLast_mem _, ?_⟩
    rw [List.getLast?_append, List.getLast?_eq_some_getLast (List.cons_ne_nil t us), Option.some_or]
    rfl
  | cons stop more =>
    rw [h] at hrest
    exact ⟨stop, hrest.subset (List.mem_cons_self ..), rfl⟩

/-- An error is at the line of its failure, or at that of the token that reading stopped at. -/
theorem line_toError {f : Failure} {tokens : List Token} {stop : Token}
    (h : f.stop tokens = some stop) : (f.toError tokens).line = f.line.getD stop.line := by
  rw [Failure.stop] at h
  rw [Failure.toError, h]
  cases f.line <;> rfl

/-- An error whose line, if it has one, is that of a token of the block which what is left does not come
before, lies between the line of the block and that of the token that reading stopped at. -/
theorem line_between {tokens block us : List Token} {first t : Token} {f : Failure}
    (hordered : tokens.Pairwise fun t u => t.line ≤ u.line) (hblock : first :: block <:+ tokens)
    (hts : t :: us <:+ first :: block) (hrest : f.rest <:+ t :: us)
    (hline : ∀ line ∈ f.line, t.line = line) : ∃ stop, f.stop tokens = some stop ∧
      first.line ≤ (f.toError tokens).line ∧ (f.toError tokens).line ≤ stop.line := by
  have hle : ∀ {t us}, t :: us <:+ tokens → ∀ u ∈ t :: us, t.line ≤ u.line := by
    intro t us hts u hu
    have hpairwise := hordered.sublist hts.sublist
    obtain rfl | hu := List.mem_cons.1 hu
    · exact Nat.le_refl _
    · exact (List.pairwise_cons.1 hpairwise).1 u hu
  obtain ⟨stop, hmem, hstop⟩ := exists_stop (hts.trans hblock) hrest
  have hfirst : first.line ≤ t.line := hle hblock t (hts.subset (List.mem_cons_self ..))
  have ht : t.line ≤ stop.line := hle (hts.trans hblock) stop hmem
  refine ⟨stop, hstop, ?_⟩
  rw [line_toError hstop]
  cases h : f.line with
  | none => exact ⟨Nat.le_trans hfirst ht, Nat.le_refl _⟩
  | some line =>
    obtain rfl := hline line h
    exact ⟨hfirst, ht⟩

/-- The tokens of a source come in the order of their lines. If they are not read as a catalog, there is
one error, of a block that is no description after descriptions that were read. It lies between the line
of the block's first token and the line of the token that reading stopped at, or that of the last token
at the end; if it is about the names in the header, it lies at the line of the block's `OBJ`. -/
theorem error_in_block {source : String} {tokens : List Token}
    (h : Token.ofSource source = .ok tokens) :
    (tokens.Pairwise fun t u => t.line ≤ u.line) ∧
      ∀ errors, (ofSource? source : Except (List SourceError) (Catalog α)) = .error errors →
        ∃ (e : SourceError) (done block : List Token) (first stop : Token)
          (ds : List (Description α)) (c : Catalog α) (f : Failure),
          errors = [e] ∧ e.fault = .shape f.fault ∧
          tokens = done ++ first :: block ∧ FailsIn done (first :: block) ds c f ∧
          f.stop tokens = some stop ∧ first.line ≤ e.line ∧ e.line ≤ stop.line ∧
          (f.fault.OfHeader → first.text = "OBJ" ∧ e.line = first.line) := by
  have hordered := Token.ofSource_ordered h
  refine ⟨hordered, fun errors herrors => ?_⟩
  obtain ⟨c, f, hf, rfl⟩ := (ofSource?_eq_error_iff h).1 herrors
  obtain ⟨done, first, block, ds, htokens, hfails⟩ := exists_failsIn hf
  have hblock : first :: block <:+ tokens := htokens ▸ List.suffix_append _ _
  obtain ⟨hbody, hlocated⟩ | ⟨hfault, hword, hline⟩ := Reader.shape_eq_error hfails.fails
  · obtain ⟨t, us, hts, hrest, hline⟩ : ∃ t us, t :: us <:+ first :: block ∧ f.rest <:+ t :: us ∧
        ∀ line ∈ f.line, t.line = line := by
      cases hline : f.line with
      | none => exact ⟨first, block, List.suffix_rfl, hfails.stops, by simp⟩
      | some line =>
        obtain ⟨t, us, ht, hts, hrest⟩ := hlocated line hline
        exact ⟨t, us, hts, hrest, fun line' hline' => ht.trans (Option.some.inj hline')⟩
    obtain ⟨stop, hstop, hbetween⟩ := line_between hordered hblock hts hrest hline
    exact ⟨_, done, block, first, stop, ds, c, f, rfl, rfl, htokens, hfails, hstop, hbetween.1,
      hbetween.2, fun hfault => absurd hfault hbody⟩
  · obtain ⟨stop, hstop, hbetween⟩ := line_between hordered hblock List.suffix_rfl hfails.stops
      fun line hline' => Option.some.inj (hline.symm.trans hline')
    refine ⟨_, done, block, first, stop, ds, c, f, rfl, rfl, htokens, hfails, hstop, hbetween.1,
      hbetween.2, fun _ => ⟨hword, ?_⟩⟩
    rw [line_toError hstop, hline]
    rfl

/-- A shape, and one with a literal over two lines and an entry whose index is out of range. -/
def misplaced : String :=
  "OBJ b \x7b ID = 1; \x7d\nOBJ a \x7b CAPTION =\n\"x\ny\"; VERT \x7b\n[2\n] 0,0,0;\n\x7d"

def misplacedTokens : List Token :=
  [⟨"OBJ", 1⟩, ⟨"b", 1⟩, ⟨"\x7b", 1⟩, ⟨"ID", 1⟩, ⟨"=", 1⟩, ⟨"1", 1⟩, ⟨";", 1⟩, ⟨"\x7d", 1⟩, ⟨"OBJ", 2⟩,
    ⟨"a", 2⟩, ⟨"\x7b", 2⟩, ⟨"CAPTION", 2⟩, ⟨"=", 2⟩, ⟨"\"xy\"", 4⟩, ⟨";", 4⟩, ⟨"VERT", 4⟩, ⟨"\x7b", 4⟩,
    ⟨"[", 5⟩, ⟨"2", 5⟩, ⟨"]", 6⟩, ⟨"0", 6⟩, ⟨",", 6⟩, ⟨"0", 6⟩, ⟨",", 6⟩, ⟨"0", 6⟩, ⟨";", 6⟩, ⟨"\x7d", 7⟩]

/-- The error is at the bracket of the entry, which lies before the token that reading stops at. -/
def misplacedError : SourceError := ⟨.shape (.noSuchEntry .vertices 2 0), 5⟩

theorem error_in_block_misplaced : Token.ofSource misplaced = .ok misplacedTokens ∧
    (ofSource? misplaced : Except _ (Catalog Binary64)) = .error [misplacedError] ∧
    (misplacedTokens.Pairwise fun t u => t.line ≤ u.line) ∧
      ∃ (e : SourceError) (done block : List Token) (first stop : Token)
        (ds : List (Description Binary64)) (c : Catalog Binary64) (f : Failure),
        [misplacedError] = [e] ∧ e.fault = .shape f.fault ∧
        misplacedTokens = done ++ first :: block ∧ FailsIn done (first :: block) ds c f ∧
        f.stop misplacedTokens = some stop ∧ first.line ≤ e.line ∧ e.line ≤ stop.line ∧
        (f.fault.OfHeader → first.text = "OBJ" ∧ e.line = first.line) := by
  have htokens : Token.ofSource misplaced = .ok misplacedTokens := by cbv
  have herror : (ofSource? misplaced : Except _ (Catalog Binary64)) = .error [misplacedError] := by
    decide +kernel
  obtain ⟨hordered, hblock⟩ := error_in_block (α := Binary64) htokens
  exact ⟨htokens, herror, hordered, hblock _ herror⟩

end Catalog

end Masonry
