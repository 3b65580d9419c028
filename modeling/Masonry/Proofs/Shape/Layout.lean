import Masonry.Proofs.Shape.Joining

/-!
# Layout

How a source is laid out does not matter to its tokens: whatever blank characters and comments stand
between them, cutting gives the same tokens, each on its line (`Token.ofSource_laidOut`). The scan of
lines is first seen as one of characters (`Token.Scan.ofText`), of which a piece at the front is cut off
whatever follows it (`Token.Scan.Cuts`).
-/

namespace Masonry

namespace Text

/-- The first line of a text; an empty one if it has none. -/
def firstLine (cs : List Char) : List Char := (lines cs).headD []

/-- The lines of a text after the first. -/
def otherLines (cs : List Char) : List (List Char) := (lines cs).tail

variable {c : Char} {cs rest : List Char}

theorem firstLine_cons (hc : c ≠ '\n') (hreturn : c = '\r' → rest.head? ≠ some '\n') :
    firstLine (c :: rest) = c :: firstLine rest := by
  rw [firstLine, lines_cons hc hreturn, firstLine]
  cases lines rest <;> rfl

theorem otherLines_cons (hc : c ≠ '\n') (hreturn : c = '\r' → rest.head? ≠ some '\n') :
    otherLines (c :: rest) = otherLines rest := by
  rw [otherLines, lines_cons hc hreturn, otherLines]
  cases lines rest <;> rfl

/-- The first line begins as the text does, if it begins at all. -/
theorem mem_head?_of_firstLine (h : c ∈ (firstLine cs).head?) : c ∈ cs.head? := by
  unfold firstLine lines at h
  split at h
  · cases h
  · cases h
  · cases h
  · split at h <;> exact h

/-- What stands in the first line is no matter to the others. -/
theorem otherLines_of_ne (hc : c ≠ '\n') : otherLines (c :: rest) = otherLines rest := by
  by_cases hreturn : c = '\r' ∧ rest.head? = some '\n'
  · obtain ⟨rfl, hhead⟩ := hreturn
    obtain ⟨rest, rfl⟩ := List.head?_eq_some_iff.1 hhead
    rfl
  · exact otherLines_cons hc fun hc hhead => hreturn ⟨hc, hhead⟩

theorem otherLines_append_feed (hcs : '\n' ∉ cs) : otherLines (cs ++ '\n' :: rest) = lines rest := by
  induction cs with
  | nil => rfl
  | cons c cs ih =>
    rw [List.mem_cons, not_or] at hcs
    rw [List.cons_append, otherLines_of_ne (Ne.symm hcs.1), ih hcs.2]

end Text

namespace Token

namespace Scan

variable {line : Nat} {s t : Scan} {c : Char} {cs rest : List Char}

/-- The tokens that the rest of a source completes, which begins in the given line, and the scan after
it. -/
def ofText (line : Nat) (s : Scan) (cs : List Char) : List Token × Scan :=
  emit (s.ofLine line (Text.firstLine cs)).1
    (ofLines (line + 1) (s.ofLine line (Text.firstLine cs)).2 (Text.otherLines cs))

theorem endLine_of_ne (h : s.mode ≠ .literal) : s.endLine = (s.finished, s.cleared) := if_neg h

/-- With nothing read, it does not matter whether a line begins. -/
theorem ofLines_lines (hmode : s.mode ≠ .literal) (hpending : s.pending = []) :
    ofLines line s (Text.lines cs) = s.ofText line cs := by
  unfold ofText Text.firstLine Text.otherLines
  cases Text.lines cs with
  | nil =>
    show ([], s) = emit s.endLine.1 ([], s.endLine.2)
    obtain ⟨mode, pending, last⟩ := s
    obtain rfl := hpending
    rw [endLine_of_ne hmode]
    rfl
  | cons text ls => rfl

theorem ofText_feed (h : s.mode ≠ .literal) :
    s.ofText line ('\n' :: rest) = emit s.finished (s.cleared.ofText (line + 1) rest) := by
  rw [← ofLines_lines (s := s.cleared) h rfl]
  show emit s.endLine.1 (ofLines (line + 1) s.endLine.2 (Text.lines rest)) = _
  rw [endLine_of_ne h]

/-- A carriage return before a line feed is none. -/
theorem ofText_return_feed : s.ofText line ('\r' :: '\n' :: rest) = s.ofText line ('\n' :: rest) := rfl

theorem ofText_cons (hc : c ≠ '\n') (hreturn : c = '\r' → rest.head? ≠ some '\n')
    {done : List Token} (h : s.ofLine line (c :: Text.firstLine rest) =
      emit done (t.ofLine line (Text.firstLine rest))) :
    s.ofText line (c :: rest) = emit done (t.ofText line rest) := by
  unfold ofText
  rw [Text.firstLine_cons hc hreturn, Text.otherLines_cons hc hreturn, h, emit_emit]
  rfl

theorem ofText_alone (hc : c ≠ '\n') (hreturn : c = '\r' → rest.head? ≠ some '\n')
    (h : Alone s c rest) :
    s.ofText line (c :: rest) = emit (s.step line c).1 ((s.step line c).2.ofText line rest) :=
  ofText_cons hc hreturn (ofLine_alone fun d hd => h d (Text.mem_head?_of_firstLine hd))

/-- A mark of two characters, neither of which ends a line. -/
theorem ofText_pair {d : Char} (hc : c ≠ '\n' ∧ c ≠ '\r') (hd : d ≠ '\n' ∧ d ≠ '\r')
    {done : List Token} (h : s.ofLine line (c :: d :: Text.firstLine rest) =
      emit done (t.ofLine line (Text.firstLine rest))) :
    s.ofText line (c :: d :: rest) = emit done (t.ofText line rest) := by
  unfold ofText
  rw [Text.firstLine_cons hc.1 (absurd · hc.2), Text.otherLines_cons hc.1 (absurd · hc.2),
    Text.firstLine_cons hd.1 (absurd · hd.2), Text.otherLines_cons hd.1 (absurd · hd.2), h, emit_emit]
  rfl

theorem ofText_terminator :
    s.ofText line ('*' :: '/' :: rest) = s.closeComment.ofText line rest := by
  rw [← emit_nil (s.closeComment.ofText line rest)]
  exact ofText_pair (by decide) (by decide) ofLine_terminator

theorem ofText_blockComment (h : s.mode = .code) : s.ofText line ('/' :: '*' :: rest) =
    emit s.finished ((s.cleared.enter (.comment line)).ofText line rest) :=
  ofText_pair (by decide) (by decide) (ofLine_blockComment h)

/-- Behind two slashes a scan has done with the line. -/
theorem ofText_slashes (h : s.mode = .code) : s.ofText line ('/' :: '/' :: rest) =
    emit s.finished (ofLines (line + 1) s.cleared (Text.otherLines rest)) := by
  have hmode : s.mode ≠ .literal := by rw [h]; exact Mode.noConfusion
  unfold ofText
  rw [Text.firstLine_cons (by decide) (by simp), Text.firstLine_cons (by decide) (by simp),
    Text.otherLines_cons (by decide) (by simp), Text.otherLines_cons (by decide) (by simp),
    ofLine_lineComment h, endLine_of_ne hmode]

theorem ofText_lineComment (h : s.mode = .code) (hcs : '\n' ∉ cs) :
    s.ofText line ('/' :: '/' :: (cs ++ '\n' :: rest)) =
      emit s.finished (s.cleared.ofText (line + 1) rest) := by
  have hmode : s.mode ≠ .literal := by rw [h]; exact Mode.noConfusion
  rw [ofText_slashes h, Text.otherLines_append_feed hcs, ofLines_lines (s := s.cleared) hmode rfl]

/-- Whatever follows, cutting the characters completes the tokens and leads from one scan to the
other. -/
def Cuts (line : Nat) (s : Scan) (cs : List Char) (done : List Token) (t : Scan) : Prop :=
  ∀ rest, s.ofText line (cs ++ rest) = emit done (t.ofText (line + cs.count '\n') rest)

theorem Cuts.nil : Cuts line s [] [] s := fun _ => rfl

theorem Cuts.append {cs' : List Char} {done done' : List Token} {u : Scan}
    (h : Cuts line s cs done t) (h' : Cuts (line + cs.count '\n') t cs' done' u) :
    Cuts line s (cs ++ cs') (done ++ done') u := by
  intro rest
  rw [List.append_assoc, h, h', emit_emit, List.count_append, Nat.add_assoc]

/-- Nothing read outside literals and comments. -/
def ready (line : Nat) : Scan := ⟨.code, [], line⟩

theorem alone_of_ne (hstar : c ≠ '*') (hslash : c ≠ '/') : Alone s c rest :=
  fun _ _ => ⟨fun h => hstar h.1, fun h => hslash h.2.1⟩

/-- Outside code, a character stands alone where no terminator of a comment begins with it. -/
theorem alone_of_noTerminator {d : Char} (hmode : s.mode ≠ .code) (hcs : ¬ ['*', '/'] <:+: c :: cs)
    (hd : d ≠ '/') : Alone s c (cs ++ d :: rest) := by
  refine fun e he => ⟨?_, fun h => hmode h.1⟩
  rintro ⟨rfl, rfl⟩
  cases cs with
  | nil => exact hd (Option.some.inj he)
  | cons e cs =>
    obtain rfl := Option.some.inj he
    exact hcs ⟨[], cs, rfl⟩

/-- A blank character gives out the token before it. -/
theorem cuts_blank (hmode : s.mode = .code) (hc : Text.isBlank c = true) :
    Cuts line s [c] s.finished s.cleared := by
  intro rest
  have hliteral : s.mode ≠ .literal := by rw [hmode]; exact Mode.noConfusion
  have hne : ∀ d, Text.isBlank d = false → c ≠ d := fun d hd heq =>
    Bool.false_ne_true (hd.symm.trans (heq ▸ hc))
  rw [List.singleton_append]
  by_cases hfeed : c = '\n'
  · subst hfeed
    exact ofText_feed hliteral
  · rw [List.count_singleton, beq_eq_false_iff_ne.2 hfeed, if_neg Bool.false_ne_true, Nat.add_zero]
    by_cases hreturn : c = '\r' ∧ rest.head? = some '\n'
    · obtain ⟨rfl, hhead⟩ := hreturn
      obtain ⟨rest, rfl⟩ := List.head?_eq_some_iff.1 hhead
      rw [ofText_return_feed, ofText_feed hliteral, ofText_feed (s := s.cleared) hliteral, emit_emit]
      exact congrArg (emit · _) (List.append_nil _).symm
    · have hstep : s.step line c = (s.finished, s.cleared) := by
        unfold step
        rw [hmode]
        exact (if_neg (hne '"' (by decide))).trans (if_pos hc)
      rw [ofText_alone hfeed (fun h h' => hreturn ⟨h, h'⟩)
        (alone_of_ne (hne '*' (by decide)) (hne '/' (by decide))), hstep]

/-- A comment is cut off with its terminator, which is the first one in it. -/
theorem ofText_inComment {opened last : Nat} (hcs : ¬ ['*', '/'] <:+: cs) :
    ofText line ⟨.comment opened, [], last⟩ (cs ++ '*' :: '/' :: rest) =
      (ready last).ofText (line + cs.count '\n') rest := by
  induction cs generalizing line with
  | nil => exact ofText_terminator
  | cons c cs ih =>
    have ih := fun line => @ih line fun h => hcs (List.infix_cons h)
    rw [List.cons_append]
    by_cases hfeed : c = '\n'
    · subst hfeed
      rw [ofText_feed Mode.noConfusion, List.count_cons_self, ← Nat.add_assoc, Nat.add_right_comm]
      exact ih (line + 1)
    · rw [List.count_cons_of_ne hfeed, ← ih line]
      by_cases hreturn : c = '\r' ∧ (cs ++ '*' :: '/' :: rest).head? = some '\n'
      · obtain ⟨rfl, hhead⟩ := hreturn
        obtain ⟨text, htext⟩ := List.head?_eq_some_iff.1 hhead
        rw [htext, ofText_return_feed]
      · exact ofText_alone hfeed (fun h h' => hreturn ⟨h, h'⟩)
          (alone_of_noTerminator Mode.noConfusion hcs (by decide))

end Scan

/-- What may stand between tokens: a blank character, a comment to the end of its line, or a comment to
its terminator. -/
inductive Filler : List Char → Prop
  | blank {c : Char} (h : Text.isBlank c = true) : Filler [c]
  | lineComment {cs : List Char} (h : '\n' ∉ cs) : Filler ('/' :: '/' :: (cs ++ ['\n']))
  | blockComment {cs : List Char} (h : ¬ ['*', '/'] <:+: cs) : Filler ('/' :: '*' :: (cs ++ ['*', '/']))

/-- Blank characters and comments one after the other. -/
inductive Gap : List Char → Prop
  | nil : Gap []
  | cons {p cs : List Char} (h : Filler p) (hs : Gap cs) : Gap (p ++ cs)

/-- A gap that begins with a blank character. -/
structure Separator (cs : List Char) : Prop where
  gap : Gap cs
  blank : ∃ c ∈ cs.head?, Text.isBlank c = true

/-- The spelling of a token: a punctuation character; characters none of which is blank, a punctuation
character or a double quote; or double quotes around characters that hold no double quote, no line feed
and no terminator of a comment. -/
inductive Lexeme : List Char → Prop
  | mark {c : Char} (h : c ∈ punctuation) : Lexeme [c]
  | word {cs : List Char} (nonempty : cs ≠ [])
      (plain : ∀ c ∈ cs, Text.isBlank c = false ∧ c ∉ punctuation ∧ c ≠ '"') : Lexeme cs
  | literal {cs : List Char} (quote : '"' ∉ cs) (feed : '\n' ∉ cs)
      (terminator : ¬ ['*', '/'] <:+: cs) : Lexeme ('"' :: (cs ++ ['"']))

/-- What a literal keeps of the text between its quotes: the ends of lines and the terminators of
comments are left out. -/
def kept : List Char → List Char
  | [] => []
  | '\n' :: cs => kept cs
  | '\r' :: '\n' :: cs => kept cs
  | '*' :: '/' :: cs => kept cs
  | c :: cs => c :: kept cs

theorem length_kept_le (cs : List Char) : (kept cs).length ≤ cs.length := by
  fun_induction kept cs <;> simp <;> omega

/-- A text is kept as it is if and only if it goes on in one line and holds no terminator. -/
theorem kept_eq_self_iff {cs : List Char} : kept cs = cs ↔ '\n' ∉ cs ∧ ¬ ['*', '/'] <:+: cs := by
  have hshorter : ∀ {p cs : List Char}, p ≠ [] → kept cs ≠ p ++ cs := by
    intro p cs hp heq
    have hlength := congrArg List.length heq
    have hle := length_kept_le cs
    have hpos := List.length_pos_iff.2 hp
    rw [List.length_append] at hlength
    omega
  fun_induction kept cs with
  | case1 => simp
  | case2 cs ih => exact iff_of_false (hshorter (p := ['\n']) (by simp)) (by simp)
  | case3 cs ih => exact iff_of_false (hshorter (p := ['\r', '\n']) (by simp)) (by simp)
  | case4 cs ih =>
    exact iff_of_false (hshorter (p := ['*', '/']) (by simp)) fun h => h.2 ⟨[], cs, rfl⟩
  | case5 c cs hfeed hreturn hstar ih =>
    have hprefix : ¬ ['*', '/'] <+: c :: cs := by
      rintro ⟨more, hmore⟩
      obtain ⟨rfl, rfl⟩ := List.cons.inj hmore
      exact hstar more rfl rfl
    refine (List.cons_inj_right c).trans (ih.trans ?_)
    rw [List.mem_cons, not_or, List.infix_cons_iff, not_or]
    exact ⟨fun h => ⟨⟨Ne.symm hfeed, h.1⟩, hprefix, h.2⟩, fun h => ⟨h.1.2, h.2.2⟩⟩

namespace Scan

variable {line last : Nat} {s t : Scan} {c : Char} {cs rest : List Char}

theorem cuts_filler (h : Filler cs) : Cuts line (ready last) cs [] (ready last) := by
  cases h with
  | blank h => exact cuts_blank rfl h
  | @lineComment cs h =>
    intro rest
    have hcount : ('/' :: '/' :: (cs ++ ['\n'])).count '\n' = 1 := by
      simp [List.count_eq_zero_of_not_mem h]
    rw [hcount, List.cons_append, List.cons_append, List.append_assoc]
    exact ofText_lineComment rfl h
  | @blockComment cs h =>
    intro rest
    have hcount : ('/' :: '*' :: (cs ++ ['*', '/'])).count '\n' = cs.count '\n' := by simp
    rw [hcount, List.cons_append, List.cons_append, List.append_assoc, ofText_blockComment rfl]
    exact ofText_inComment h

theorem cuts_gap (h : Gap cs) : Cuts line (ready last) cs [] (ready last) := by
  induction h generalizing line with
  | nil => exact .nil
  | cons hp _ ih => exact (cuts_filler hp).append ih

/-- A separator gives out the token before it. -/
theorem cuts_separator (hmode : s.mode = .code) (h : Separator cs) :
    Cuts line s cs s.finished s.cleared := by
  obtain ⟨hgap, c, hhead, hblank⟩ := h
  have hcleared : s.cleared = ready s.line := by
    obtain ⟨_, _, _⟩ := s
    obtain rfl := hmode
    rfl
  cases hgap with
  | nil => cases hhead
  | cons hp hs =>
    cases hp with
    | blank h =>
      have hfirst : Cuts line s _ s.finished s.cleared := cuts_blank hmode h
      rw [hcleared] at hfirst ⊢
      exact List.append_nil s.finished ▸ hfirst.append (cuts_gap hs)
    | lineComment =>
      obtain rfl := Option.some.inj hhead
      exact absurd hblank (by decide)
    | blockComment =>
      obtain rfl := Option.some.inj hhead
      exact absurd hblank (by decide)

theorem apart_of_mem_punctuation (h : c ∈ punctuation) :
    c ≠ '"' ∧ Text.isBlank c = false ∧ c ≠ '\n' ∧ c ≠ '\r' := by
  have hall : punctuation.all (fun d =>
      decide (d ≠ '"' ∧ Text.isBlank d = false ∧ d ≠ '\n' ∧ d ≠ '\r')) = true := by decide
  exact of_decide_eq_true (List.all_eq_true.1 hall c h)

/-- A scan at the end of a token: it has given the token out, or will with what ends it. -/
structure Ends (line : Nat) (cs : List Char) (done : List Token) (t : Scan) : Prop where
  mode : t.mode = .code
  tokens : done ++ t.finished = [⟨String.ofList cs, line⟩]
  cleared : t.cleared = ready line

theorem ofText_plain (hmode : s.mode = .code) (hblank : Text.isBlank c = false)
    (hmark : c ∉ punctuation) (hquote : c ≠ '"') :
    s.ofText line (c :: rest) = (s.push line c).ofText line rest := by
  have hne : ∀ d, Text.isBlank d = true ∨ d ∈ punctuation → c ≠ d := by
    rintro d hd rfl
    exact hd.elim (fun h => Bool.false_ne_true (hblank.symm.trans h)) hmark
  have hstep : s.step line c = ([], s.push line c) := by
    unfold step
    rw [hmode]
    simp [hquote, hblank, hmark]
  rw [ofText_alone (hne '\n' (by decide)) (fun h => absurd h (hne '\r' (by decide)))
    (alone_of_ne (hne '*' (by decide)) (hne '/' (by decide))), hstep, emit_nil]

theorem ofText_word (hcs : ∀ c ∈ cs, Text.isBlank c = false ∧ c ∉ punctuation ∧ c ≠ '"')
    (read : List Char) : ofText line ⟨.code, read, line⟩ (cs ++ rest) =
      ofText line ⟨.code, cs.reverse ++ read, line⟩ rest := by
  induction cs generalizing read with
  | nil => rfl
  | cons c cs ih =>
    obtain ⟨⟨hblank, hmark, hquote⟩, hcs⟩ := List.forall_mem_cons.1 hcs
    rw [List.cons_append, ofText_plain rfl hblank hmark hquote]
    refine (ih hcs (c :: read)).trans ?_
    rw [List.reverse_cons, List.append_assoc, List.singleton_append]

/-- A literal goes on in the next line. -/
theorem ofText_feed_inLiteral (h : s.mode = .literal) :
    s.ofText line ('\n' :: rest) = s.ofText (line + 1) rest := by
  have hend : s.endLine = ([], s) := if_pos h
  show emit s.endLine.1 (ofLines (line + 1) s.endLine.2 (Text.lines rest)) = _
  rw [hend, ofText, Text.firstLine, Text.otherLines]
  cases Text.lines rest with
  | nil =>
    show ([], s) = emit s.endLine.1 ([], s.endLine.2)
    rw [hend]
    rfl
  | cons text ls => rfl

/-- A literal is cut off with the double quote that ends it, which is the first one in it. -/
theorem ofText_inLiteral (hquote : '"' ∉ cs) (read : List Char) :
    ofText line ⟨.literal, read, last⟩ (cs ++ '"' :: rest) =
      emit [⟨String.ofList (read.reverse ++ (kept cs ++ ['"'])), line + cs.count '\n'⟩]
        ((ready (line + cs.count '\n')).ofText (line + cs.count '\n') rest) := by
  fun_induction kept cs generalizing line last read with
  | case1 =>
    rw [List.nil_append, ofText_alone (by decide) (by simp) (alone_of_ne (by decide) (by decide)),
      List.nil_append, ← List.reverse_cons]
    rfl
  | case2 cs ih =>
    rw [List.cons_append, ofText_feed_inLiteral rfl, ih (List.not_mem_of_not_mem_cons hquote),
      List.count_cons_self, ← Nat.add_assoc, Nat.add_right_comm]
  | case3 cs ih =>
    rw [List.mem_cons, List.mem_cons, not_or, not_or] at hquote
    rw [List.cons_append, List.cons_append, ofText_return_feed, ofText_feed_inLiteral rfl, ih hquote.2.2,
      List.count_cons_of_ne (by decide), List.count_cons_self, ← Nat.add_assoc, Nat.add_right_comm]
  | case4 cs ih =>
    rw [List.mem_cons, List.mem_cons, not_or, not_or] at hquote
    rw [List.cons_append, List.cons_append, ofText_terminator,
      List.count_cons_of_ne (by decide), List.count_cons_of_ne (by decide)]
    exact ih hquote.2.2 read
  | case5 c cs hfeed hreturn hstar ih =>
    rw [List.mem_cons, not_or] at hquote
    have hhead : c = '\r' → (cs ++ '"' :: rest).head? ≠ some '\n' := by
      intro hc hhead
      cases cs with
      | nil => exact absurd (Option.some.inj hhead) (by decide)
      | cons d cs => exact hreturn cs hc (congrArg (· :: cs) (Option.some.inj hhead))
    have halone : Alone ⟨.literal, read, last⟩ c (cs ++ '"' :: rest) := by
      refine fun d hd => ⟨?_, fun h => Mode.noConfusion h.1⟩
      rintro ⟨rfl, rfl⟩
      cases cs with
      | nil => exact absurd (Option.some.inj hd) (by decide)
      | cons d cs => exact hstar cs rfl (congrArg (· :: cs) (Option.some.inj hd))
    have hstep : step line ⟨.literal, read, last⟩ c = ([], ⟨.literal, c :: read, line⟩) :=
      if_neg (Ne.symm hquote.1)
    rw [List.cons_append, ofText_alone hfeed hhead halone, hstep, emit_nil, ih hquote.2,
      List.count_cons_of_ne hfeed, List.reverse_cons, List.append_assoc, List.singleton_append,
      List.cons_append]

/-- A token is cut off where a blank character follows it. -/
theorem ofText_lexeme (line last : Nat) (h : Lexeme cs)
    (hrest : ∃ c ∈ rest.head?, Text.isBlank c = true) : ∃ done t, Ends line cs done t ∧
      (ready last).ofText line (cs ++ rest) = emit done (t.ofText line rest) := by
  cases h with
  | @mark c h =>
    have hnext : ∀ d ∈ rest.head?, d ≠ '/' ∧ d ≠ '*' := by
      obtain ⟨b, hb, hblank⟩ := hrest
      intro d hd
      obtain rfl := Option.some.inj (hb.symm.trans hd)
      constructor <;> rintro rfl <;> exact absurd hblank (by decide)
    obtain ⟨hquote, hblank, hfeed, hreturn⟩ := apart_of_mem_punctuation h
    have hstep : (ready last).step line c = ([⟨String.ofList [c], line⟩], ready line) := by
      show (if c = '"' then _ else if _ then _ else if _ then _ else _) = _
      rw [if_neg hquote, if_neg (by simp [hblank]), if_pos (by simpa using h)]
      rfl
    have halone : Alone (ready last) c rest := fun d hd =>
      ⟨fun h => (hnext d hd).1 h.2, fun h => h.2.2.elim (hnext d hd).1 (hnext d hd).2⟩
    refine ⟨[⟨String.ofList [c], line⟩], ready line, ⟨rfl, rfl, rfl⟩, ?_⟩
    rw [List.singleton_append, ofText_alone hfeed (absurd · hreturn) halone, hstep]
  | word nonempty plain =>
    obtain ⟨c, cs, rfl⟩ := List.exists_cons_of_ne_nil nonempty
    obtain ⟨⟨hblank, hmark, hquote⟩, hcs⟩ := List.forall_mem_cons.1 plain
    refine ⟨[], ⟨.code, (c :: cs).reverse, line⟩, ⟨rfl, ?_, rfl⟩, ?_⟩
    · simp [finished]
    · rw [List.cons_append, ofText_plain rfl hblank hmark hquote, List.reverse_cons]
      exact ofText_word hcs [c]
  | @literal cs quote feed terminator =>
    refine ⟨[⟨String.ofList ('"' :: (cs ++ ['"'])), line⟩], ready line, ⟨rfl, rfl, rfl⟩, ?_⟩
    rw [List.cons_append, List.append_assoc, List.singleton_append,
      ofText_alone (by decide) (by simp) (alone_of_ne (by decide) (by decide))]
    have hliteral : ofText line ⟨.literal, ['"'], line⟩ (cs ++ '"' :: rest) = _ :=
      ofText_inLiteral quote ['"']
    rw [List.count_eq_zero_of_not_mem feed, kept_eq_self_iff.2 ⟨feed, terminator⟩] at hliteral
    exact hliteral

end Scan

theorem Lexeme.count_feed {cs : List Char} (h : Lexeme cs) : cs.count '\n' = 0 := by
  refine List.count_eq_zero_of_not_mem fun hmem => ?_
  cases h with
  | mark h =>
    rw [← List.mem_singleton.1 hmem] at h
    exact absurd h (by decide)
  | word _ plain => exact absurd (plain _ hmem).1 (by decide)
  | literal _ feed => simp [feed] at hmem

/-- A token with the separator after it. -/
structure Piece where
  token : List Char
  separator : List Char
  deriving DecidableEq, Repr

/-- The text of pieces. -/
def written (ps : List Piece) : List Char := ps.flatMap fun p => p.token ++ p.separator

/-- The tokens of pieces that begin in a given line, each in the line that it is written in. -/
def located (line : Nat) (ps : List Piece) : List Token :=
  ps.mapIdx fun i p => ⟨String.ofList p.token, line + (written (ps.take i)).count '\n'⟩

namespace Scan

/-- Pieces are cut one after the other. -/
theorem ofText_written {ps : List Piece}
    (hps : ∀ p ∈ ps, Lexeme p.token ∧ Separator p.separator) (line last : Nat) :
    ∃ last', (ready last).ofText line (written ps) = (located line ps, ready last') := by
  induction ps generalizing line last with
  | nil => exact ⟨last, rfl⟩
  | cons p ps ih =>
    obtain ⟨⟨htoken, hseparator⟩, hps⟩ := List.forall_mem_cons.1 hps
    have hrest : ∃ c ∈ (p.separator ++ written ps).head?, Text.isBlank c = true := by
      obtain ⟨c, hc, hblank⟩ := hseparator.blank
      exact ⟨c, by rw [List.head?_append, hc]; rfl, hblank⟩
    obtain ⟨done, t, hends, htext⟩ := ofText_lexeme line last htoken hrest
    obtain ⟨last', hlast⟩ := ih hps (line + p.separator.count '\n') line
    refine ⟨last', ?_⟩
    have hlocated : located line (p :: ps) = ⟨String.ofList p.token, line⟩ ::
        located (line + p.separator.count '\n') ps := by
      simp [located, written, htoken.count_feed, Nat.add_assoc]
    rw [written, List.flatMap_cons, List.append_assoc, ← written, htext,
      cuts_separator hends.mode hseparator, emit_emit, hends.tokens, hends.cleared, hlast, hlocated]
    rfl

end Scan

/-- Layout is no matter to tokens: pieces are cut into their tokens, each in the line after the line
feeds before it, and blank characters and comments before them and in their separators add nothing. -/
theorem ofSource_laidOut {lead : List Char} {ps : List Piece} (hlead : Gap lead)
    (hps : ∀ p ∈ ps, Lexeme p.token ∧ Separator p.separator) :
    ofSource (String.ofList (lead ++ written ps)) =
      .ok (ps.mapIdx fun i p =>
        ⟨String.ofList p.token, 1 + (lead ++ written (ps.take i)).count '\n'⟩) := by
  obtain ⟨last, hlast⟩ := Scan.ofText_written hps (1 + lead.count '\n') 0
  have hscan : Scan.ofLines 1 .start (Text.lines (lead ++ written ps)) =
      (located (1 + lead.count '\n') ps, Scan.ready last) := by
    rw [Scan.ofLines_lines Mode.noConfusion rfl]
    exact (Scan.cuts_gap hlead (written ps)).trans hlast
  rw [ofSource_eq, String.toList_ofList, hscan]
  simp only [List.count_append, ← Nat.add_assoc]
  rfl

/-- A word, a slash and a literal; a comment with a double quote ends the first line, and one with a line
feed stands before the literal, which opens what is no comment. -/
def mixedPieces : List Piece :=
  [⟨['a'], [' ', '/', '/', '"', '\r', '\n']⟩, ⟨['/'], ['\t', '/', '*', '"', '\n', '*', '/', ' ']⟩,
    ⟨['"', '/', '*', '"'], ['\n']⟩]

theorem ofSource_laidOut_mixed : Gap [' '] ∧
    (∀ p ∈ mixedPieces, Lexeme p.token ∧ Separator p.separator) ∧
    ofSource (String.ofList ([' '] ++ written mixedPieces)) =
      .ok [⟨"a", 1⟩, ⟨"/", 2⟩, ⟨"\"/*\"", 3⟩] := by
  have hlead : Gap [' '] := .cons (.blank rfl) .nil
  have hline : Gap [' ', '/', '/', '"', '\r', '\n'] :=
    .cons (.blank rfl) (.cons (@Filler.lineComment ['"', '\r'] (by decide)) .nil)
  have hblock : Gap ['\t', '/', '*', '"', '\n', '*', '/', ' '] :=
    .cons (.blank rfl) (.cons (@Filler.blockComment ['"', '\n'] (by decide)) hlead)
  have hps : ∀ p ∈ mixedPieces, Lexeme p.token ∧ Separator p.separator := by
    simp only [mixedPieces, List.forall_mem_cons]
    exact ⟨⟨.word (by decide) (List.forall_mem_singleton.2 (by decide)), hline, ' ', rfl, rfl⟩,
      ⟨.mark (by decide), hblock, '\t', rfl, rfl⟩,
      ⟨@Lexeme.literal ['/', '*'] (by decide) (by decide) (by decide),
        .cons (.blank rfl) .nil, '\n', rfl, rfl⟩, by simp⟩
  exact ⟨hlead, hps, ofSource_laidOut hlead hps⟩

end Token

end Masonry
