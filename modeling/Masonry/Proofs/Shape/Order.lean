import Masonry.Proofs.Shape.Joining

/-!
# Order of tokens

The tokens of a source come in the order of their lines (`Token.ofSource_ordered`). A token lies in the
line of its last character, and a literal or a word may have begun before, so the scan keeps the order
with the token that it is reading taken as finished (`Token.Scan.Ordered`).
-/

namespace Masonry.Token

/-- The tokens come in the order of their lines, none of which is behind the given one. -/
structure Ordered (line : Nat) (ts : List Token) : Prop where
  pairwise : ts.Pairwise fun t u => t.line ≤ u.line
  le : ∀ t ∈ ts, t.line ≤ line

namespace Ordered

variable {line : Nat} {ts ts' : List Token}

theorem mono {line' : Nat} (h : Ordered line ts) (hle : line ≤ line') : Ordered line' ts :=
  ⟨h.pairwise, fun t ht => Nat.le_trans (h.le t ht) hle⟩

theorem of_append (h : Ordered line (ts ++ ts')) : Ordered line ts :=
  ⟨(List.pairwise_append.1 h.pairwise).1, fun t ht => h.le t (List.mem_append_left ts' ht)⟩

theorem concat (h : Ordered line ts) (text : String) : Ordered line (ts ++ [⟨text, line⟩]) where
  pairwise := List.pairwise_append.2 ⟨h.pairwise, List.pairwise_singleton _ _,
    fun t ht u hu => List.mem_singleton.1 hu ▸ h.le t ht⟩
  le := List.forall_mem_append.2 ⟨h.le, by simp⟩

end Ordered

namespace Scan

variable {line : Nat} {s : Scan} {done : List Token} {out : List Token × Scan}

/-- After the tokens done come those of the scan, and the one that it is reading. -/
def Orders (line : Nat) (done : List Token) (out : List Token × Scan) : Prop :=
  Ordered line (done ++ out.1 ++ out.2.finished)

theorem Orders.emit {more : List Token} (h : Orders line (done ++ more) out) :
    Orders line done (emit more out) := by
  unfold Orders Scan.emit
  rw [← List.append_assoc]
  exact h

theorem finished_push (s : Scan) (line : Nat) (c : Char) :
    (s.push line c).finished = [⟨String.ofList (c :: s.pending).reverse, line⟩] := rfl

theorem finished_closeComment (s : Scan) : s.closeComment.finished = s.finished := by
  unfold closeComment
  split <;> rfl

/-- Tokens that are given out while none is being read. -/
theorem orders_given {ts : List Token} (h : Ordered line (done ++ ts)) (hs : s.finished = []) :
    Orders line done (ts, s) := by
  show Ordered line (done ++ ts ++ s.finished)
  rwa [hs, List.append_nil]

section Steps

variable (h : Ordered line (done ++ s.finished))
include h

/-- Nothing is given out, and the token that is being read stays. -/
theorem orders_kept : Orders line done ([], s) := by
  show Ordered line (done ++ [] ++ s.finished)
  rwa [List.append_nil]

theorem orders_push (c : Char) : Orders line done ([], s.push line c) :=
  orders_kept (s := s.push line c) (h.of_append.concat _)

theorem orders_endLine : Orders line done s.endLine := by
  unfold endLine
  split
  · exact orders_kept h
  · exact orders_given h rfl

theorem orders_step (c : Char) : Orders line done (s.step line c) := by
  unfold step
  cases s.mode with
  | comment opened => exact orders_kept h
  | literal =>
    show Orders line done (if c = '"' then _ else _)
    split
    · exact orders_given (h.of_append.concat _) rfl
    · exact orders_push h c
  | code =>
    show Orders line done (if c = '"' then _ else if _ then _ else if _ then _ else _)
    have hpush : Ordered line (done ++ s.finished ++ (s.cleared.push line c).finished) := h.concat _
    split
    · exact hpush
    split
    · exact orders_given h rfl
    split
    · rw [List.append_assoc] at hpush
      exact orders_given hpush rfl
    · exact orders_push h c

end Steps

/-- A line is scanned in order, whatever was done before it. The induction is on its marks. -/
theorem orders_ofLine {text : List Char} (h : Ordered line (done ++ s.finished)) :
    Orders line done (s.ofLine line text) := by
  induction s, text using line_induction line generalizing done with
  | nil s => exact orders_endLine h
  | terminator s rest ih =>
    rw [ofLine_terminator]
    exact ih (finished_closeComment s ▸ h)
  | lineComment s rest hs =>
    rw [ofLine_lineComment hs]
    exact orders_endLine h
  | blockComment s rest hs ih =>
    rw [ofLine_blockComment hs]
    have hcleared : Orders line done (s.finished, s.cleared.enter (.comment line)) :=
      orders_given h rfl
    exact (ih hcleared).emit
  | alone s c rest hs ih =>
    rw [ofLine_alone hs]
    exact (ih (orders_step h c)).emit

theorem orders_ofLines {ls : List (List Char)} (h : Ordered line (done ++ s.finished)) :
    Orders (line + ls.length) done (ofLines line s ls) := by
  induction ls generalizing line s done with
  | nil => exact orders_kept h
  | cons text ls ih =>
    have htext : Orders line done (s.ofLine line text) := orders_ofLine h
    have htext := htext.mono (Nat.le_succ line)
    rw [ofLines_cons, List.length_cons, Nat.add_comm ls.length, ← Nat.add_assoc]
    exact (ih htext).emit

end Scan

/-- The tokens of a source come in the order of their lines. -/
theorem ofSource_ordered {source : String} {ts : List Token} (h : ofSource source = .ok ts) :
    ts.Pairwise fun t u => t.line ≤ u.line := by
  obtain ⟨rfl, -⟩ := outcome_eq_ok_iff.1 h
  have hstart : Ordered 1 ([] ++ Scan.start.finished) := ⟨.nil, by simp [Scan.finished, Scan.start]⟩
  exact (Scan.orders_ofLines hstart).of_append.pairwise

end Masonry.Token
