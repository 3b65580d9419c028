import Masonry.Proofs.Shape.Layout

/-!
# Literals in a source

A double quote in code opens a literal, and the next double quote closes it. Cutting a source goes on
there as at any end of a token: what stands before the literal and what stands behind it are cut as
they would be on their own (`Token.ofSource_literal`). Whether a place lies in code is said without the
scan, by `Token.Region.after`. The literal is one token, but not always the text between the quotes and
these: it loses the ends of the lines that it goes on over (`Token.kept_eq_self_iff`).
-/

namespace Masonry.Token

/-- What a place in a source lies in. -/
inductive Region where
  | code
  | literal
  | lineComment
  | blockComment
  deriving DecidableEq, Repr

namespace Region

/-- What follows the terminator of a block comment. -/
def terminated : Region → Region
  | blockComment => code
  | r => r

/-- The region that the end of a text lies in, which begins in the given one. Each of the marks that
begin or end a comment is taken as a whole. -/
def after : Region → List Char → Region
  | r, [] => r
  | r, '*' :: '/' :: cs => after r.terminated cs
  | code, '/' :: '/' :: cs => after lineComment cs
  | code, '/' :: '*' :: cs => after blockComment cs
  | code, '"' :: cs => after literal cs
  | literal, '"' :: cs => after code cs
  | lineComment, '\n' :: cs => after code cs
  | r, _ :: cs => after r cs

example : after code "a/*//*/\"b*/\"//\"\n".toList = code := by decide
example : after code "*//\"".toList = literal := by decide

end Region

namespace Scan

variable {line : Nat} {s t : Scan} {c : Char} {cs rest : List Char}

/-- The text begins with a double quote, or it is empty: no mark goes on into it. -/
def Quoted (rest : List Char) : Prop := ∀ c ∈ rest.head?, c = '"'

theorem Quoted.exists_cons (hrest : Quoted rest) (hc : c ∈ (cs ++ rest).head?) (hne : c ≠ '"') :
    ∃ more, cs = c :: more := by
  cases cs with
  | nil => exact absurd (hrest c hc) hne
  | cons d more => exact ⟨more, congrArg (· :: more) (Option.some.inj hc)⟩

/-- The scan stands in a region. In a line comment it has done with the line. -/
def StandsIn (s : Scan) : Region → Prop
  | .code => s.mode = .code
  | .literal => s.mode = .literal
  | .lineComment => s.mode = .code ∧ s.pending = []
  | .blockComment => ∃ opened, s.mode = .comment opened

/-- The tokens that the rest of a source completes, which begins in a region, and the scan after it. -/
def ofRegion (line : Nat) (s : Scan) : Region → List Char → List Token × Scan
  | .lineComment, cs => ofLines (line + 1) s (Text.otherLines cs)
  | _, cs => s.ofText line cs

theorem mode_step (h : c = '"' → ∃ opened, s.mode = .comment opened) :
    (s.step line c).2.mode = s.mode := by
  have hquote : (∀ opened, s.mode ≠ .comment opened) → c ≠ '"' := fun hcomment hc =>
    let ⟨opened, hopened⟩ := h hc
    hcomment opened hopened
  unfold step
  cases hs : s.mode with
  | comment opened => exact hs
  | literal =>
    have hc : c ≠ '"' := hquote fun opened => by rw [hs]; exact Mode.noConfusion
    show (if c = '"' then _ else _ : List Token × Scan).2.mode = _
    rw [if_neg hc]
    exact hs
  | code =>
    have hc : c ≠ '"' := hquote fun opened => by rw [hs]; exact Mode.noConfusion
    show (if c = '"' then _ else if _ then _ else if _ then _ else _ : List Token × Scan).2.mode = _
    rw [if_neg hc]
    split
    · exact hs
    split <;> exact hs

/-- A character that is a mark on its own leaves a scan in what it stands in, unless it is a double
quote outside comments. -/
theorem exists_ofText_cons (hmode : c = '"' → ∃ opened, s.mode = .comment opened)
    (halone : ∀ rest, Quoted rest → Alone s c (cs ++ rest)) (line : Nat) :
    ∃ (done : List Token) (t : Scan), t.mode = s.mode ∧ ∀ rest, Quoted rest →
      s.ofText line (c :: (cs ++ rest)) = emit done (t.ofText (line + [c].count '\n') (cs ++ rest)) := by
  by_cases hfeed : c = '\n'
  · subst hfeed
    by_cases hliteral : s.mode = .literal
    · exact ⟨[], s, rfl, fun rest _ => ofText_feed_inLiteral hliteral⟩
    · exact ⟨s.finished, s.cleared, rfl, fun rest _ => ofText_feed hliteral⟩
  · have hcount : [c].count '\n' = 0 := List.count_eq_zero_of_not_mem (by simpa using Ne.symm hfeed)
    rw [hcount]
    by_cases hreturn : c = '\r' ∧ cs.head? = some '\n'
    · obtain ⟨rfl, hhead⟩ := hreturn
      obtain ⟨cs, rfl⟩ := List.head?_eq_some_iff.1 hhead
      exact ⟨[], s, rfl, fun rest _ => ofText_return_feed⟩
    · refine ⟨(s.step line c).1, (s.step line c).2, mode_step hmode, fun rest hrest => ?_⟩
      refine ofText_alone hfeed (fun hc hhead => ?_) (halone rest hrest)
      cases cs with
      | nil => exact absurd (hrest _ hhead) (by decide)
      | cons d cs => exact hreturn ⟨hc, hhead⟩

theorem ofText_open (h : s.mode = .code) : s.ofText line ('"' :: rest) =
    emit s.finished (((s.cleared.push line '"').enter .literal).ofText line rest) := by
  have hstep : s.step line '"' = (s.finished, (s.cleared.push line '"').enter .literal) := by
    unfold step
    rw [h]
    rfl
  rw [ofText_alone (by decide) (by simp) (alone_of_ne (by decide) (by decide)), hstep]

theorem ofText_close (h : s.mode = .literal) : s.ofText line ('"' :: rest) =
    emit (s.push line '"').finished (((s.push line '"').cleared.enter .code).ofText line rest) := by
  have hstep : s.step line '"' =
      ((s.push line '"').finished, (s.push line '"').cleared.enter .code) := by
    unfold step
    rw [h]
    rfl
  rw [ofText_alone (by decide) (by simp) (alone_of_ne (by decide) (by decide)), hstep]

/-- The text leads from the scan into code, whatever literal follows it. -/
def ReachesCode (line : Nat) (s : Scan) (r : Region) (cs : List Char) : Prop :=
  ∃ (done : List Token) (t : Scan), t.mode = .code ∧ ∀ rest, Quoted rest →
    ofRegion line s r (cs ++ rest) = emit done (t.ofText (line + cs.count '\n') rest)

theorem ReachesCode.append {r r' : Region} (p : List Char) (done : List Token)
    (h : ReachesCode (line + p.count '\n') t r' cs)
    (hp : ∀ rest, Quoted rest → ofRegion line s r (p ++ (cs ++ rest)) =
      emit done (ofRegion (line + p.count '\n') t r' (cs ++ rest))) :
    ReachesCode line s r (p ++ cs) := by
  obtain ⟨more, u, hmode, hu⟩ := h
  refine ⟨done ++ more, u, hmode, fun rest hrest => ?_⟩
  rw [List.append_assoc, hp rest hrest, hu rest hrest, emit_emit, List.count_append, Nat.add_assoc]

theorem StandsIn.closeComment {r : Region} (h : s.StandsIn r) :
    s.closeComment.StandsIn r.terminated := by
  obtain ⟨mode, pending, last⟩ := s
  cases r with
  | code =>
    obtain rfl : mode = .code := h
    rfl
  | literal =>
    obtain rfl : mode = .literal := h
    rfl
  | lineComment =>
    obtain ⟨rfl, hpending⟩ : mode = .code ∧ pending = [] := h
    exact ⟨rfl, hpending⟩
  | blockComment =>
    obtain ⟨opened, rfl⟩ : ∃ opened, mode = .comment opened := h
    rfl

theorem StandsIn.eq_code {r : Region} (hr : r ≠ .lineComment) (h : s.StandsIn r)
    (hmode : s.mode = .code) : r = .code := by
  cases r with
  | code => rfl
  | literal => exact Mode.noConfusion (hmode.symm.trans h)
  | lineComment => exact absurd rfl hr
  | blockComment =>
    obtain ⟨opened, h⟩ := h
    exact Mode.noConfusion (hmode.symm.trans h)

theorem StandsIn.of_mode_eq {r : Region} (hr : r ≠ .lineComment) (h : s.StandsIn r)
    (hmode : t.mode = s.mode) : t.StandsIn r := by
  cases r with
  | lineComment => exact absurd rfl hr
  | code => exact hmode.trans h
  | literal => exact hmode.trans h
  | blockComment => exact h.imp fun opened h => hmode.trans h

/-- A character stands alone where the region has no mark of two characters that begins with it. -/
theorem StandsIn.alone {r : Region} (h : s.StandsIn r) (hr : r ≠ .lineComment)
    (hterminator : ∀ more, c = '*' → cs = '/' :: more → False)
    (hslashes : ∀ more, r = .code → c = '/' → cs = '/' :: more → False)
    (hopening : ∀ more, r = .code → c = '/' → cs = '*' :: more → False) :
    ∀ rest, Quoted rest → Alone s c (cs ++ rest) := by
  intro rest hrest d hd
  refine ⟨fun ⟨hc, hslash⟩ => ?_, fun ⟨hmode, hc, hmark⟩ => ?_⟩
  · obtain ⟨more, hcs⟩ := hrest.exists_cons hd (by rw [hslash]; decide)
    exact hterminator more hc (hslash ▸ hcs)
  · have hne : d ≠ '"' := by rcases hmark with rfl | rfl <;> decide
    obtain ⟨more, hcs⟩ := hrest.exists_cons hd hne
    rcases hmark with rfl | rfl
    · exact hslashes more (h.eq_code hr hmode) hc hcs
    · exact hopening more (h.eq_code hr hmode) hc hcs

/-- A line comment goes on over what ends no line. -/
theorem ofRegion_lineComment (hc : c ≠ '\n') :
    ofRegion line s .lineComment (c :: cs) = ofRegion line s .lineComment cs :=
  congrArg (ofLines (line + 1) s) (Text.otherLines_of_ne hc)

theorem ofRegion_of_ne {r : Region} (hr : r ≠ .lineComment) :
    ofRegion line s r cs = s.ofText line cs := by
  cases r with
  | lineComment => exact absurd rfl hr
  | _ => rfl

/-- A text that ends in code leads there. The induction is on its marks; in a line comment the scan has
done with the line, and the text only goes on to its end. -/
theorem reachesCode {r : Region} (hs : s.StandsIn r) (hcode : r.after cs = .code) (line : Nat) :
    ReachesCode line s r cs := by
  induction r, cs using Region.after.induct generalizing line s with
  | case1 r =>
    obtain rfl : r = .code := hcode
    exact ⟨[], s, hs, fun rest _ => rfl⟩
  | case2 r cs ih =>
    by_cases hr : r = .lineComment
    · subst hr
      refine ReachesCode.append ['*', '/'] [] (ih hs hcode _) fun rest _ => ?_
      exact (ofRegion_lineComment (by decide)).trans (ofRegion_lineComment (by decide))
    · have hr' : r.terminated ≠ .lineComment := by cases r <;> simp_all [Region.terminated]
      refine ReachesCode.append ['*', '/'] [] (ih hs.closeComment hcode _) fun rest _ => ?_
      rw [ofRegion_of_ne hr, ofRegion_of_ne hr']
      exact ofText_terminator
  | case3 cs ih =>
    have hcleared : s.cleared.StandsIn .lineComment := ⟨hs, rfl⟩
    exact ReachesCode.append ['/', '/'] _ (ih hcleared hcode _) fun rest _ => ofText_slashes hs
  | case4 cs ih =>
    have hopened : (s.cleared.enter (.comment line)).StandsIn .blockComment := ⟨line, rfl⟩
    exact ReachesCode.append ['/', '*'] _ (ih hopened hcode _) fun rest _ => ofText_blockComment hs
  | case5 cs ih =>
    have hopened : ((s.cleared.push line '"').enter .literal).StandsIn .literal := rfl
    exact ReachesCode.append ['"'] _ (ih hopened hcode _) fun rest _ => ofText_open hs
  | case6 cs ih =>
    have hclosed : ((s.push line '"').cleared.enter .code).StandsIn .code := rfl
    exact ReachesCode.append ['"'] _ (ih hclosed hcode _) fun rest _ => ofText_close hs
  | case7 cs ih =>
    obtain ⟨hmode, hpending⟩ := hs
    refine ReachesCode.append ['\n'] [] (ih hmode hcode _) fun rest _ => ?_
    exact ofLines_lines (by rw [hmode]; exact Mode.noConfusion) hpending
  | case8 r c cs hterminator hslashes hopening hquote hquote' hfeed ih =>
    have hcode : r.after cs = .code := by
      rw [Region.after] at hcode <;> assumption
    by_cases hr : r = .lineComment
    · subst hr
      have hc : c ≠ '\n' := hfeed rfl
      refine ReachesCode.append [c] [] (ih hs hcode _) fun rest _ => ?_
      rw [List.count_singleton, beq_eq_false_iff_ne.2 hc]
      exact ofRegion_lineComment hc
    · have hmode : c = '"' → ∃ opened, s.mode = .comment opened := by
        intro hc
        cases r with
        | code => exact absurd hc (hquote rfl)
        | literal => exact absurd hc (hquote' rfl)
        | lineComment => exact absurd rfl hr
        | blockComment => exact hs
      have halone := hs.alone hr hterminator hslashes hopening
      obtain ⟨done, t, ht, htext⟩ := exists_ofText_cons hmode halone line
      refine ReachesCode.append [c] done (ih (hs.of_mode_eq hr ht) hcode _) fun rest hrest => ?_
      rw [ofRegion_of_ne hr, ofRegion_of_ne hr]
      exact htext rest hrest

/-- A literal is one token: before it, the token that was being read is given out, and behind it nothing
is. -/
theorem ofText_literal (h : s.mode = .code) (hcs : '"' ∉ cs) :
    s.ofText line ('"' :: (cs ++ '"' :: rest)) =
      emit (s.finished ++ [⟨String.ofList ('"' :: (kept cs ++ ['"'])), line + cs.count '\n'⟩])
        ((ready (line + cs.count '\n')).ofText (line + cs.count '\n') rest) := by
  have hopened : (s.cleared.push line '"').enter .literal = ⟨.literal, ['"'], line⟩ := rfl
  rw [ofText_open h, hopened, ofText_inLiteral hcs ['"'], emit_emit]
  rfl

theorem ofText_nil (h : s.mode = .code) : s.ofText line [] = (s.finished, s.cleared) := by
  have hend : s.endLine = (s.finished, s.cleared) := endLine_of_ne (by rw [h]; exact Mode.noConfusion)
  show emit s.endLine.1 ([], s.endLine.2) = _
  rw [hend]
  exact Prod.ext (List.append_nil _) rfl

end Scan

/-- A literal is cut off from what stands before it and behind it, and its token is the text from quote to
quote if and only if that goes on in one line and holds no terminator of a comment. -/
theorem ofSource_literal {source : String} {ts : List Token} (h : ofSource source = .ok ts)
    {before body after : List Char}
    (hsource : source.toList = before ++ '"' :: (body ++ '"' :: after))
    (hopens : Region.code.after before = .code) (hcloses : '"' ∉ body) :
    ∃ pre literal post, ofSource (String.ofList before) = .ok pre ∧
      ofSource (String.ofList after) = .ok post ∧
      ts = pre ++ literal :: post.map (later ((before ++ body).count '\n')) ∧
      literal.line = 1 + (before ++ body).count '\n' ∧
      literal.text = String.ofList ('"' :: (kept body ++ ['"'])) ∧
      (literal.text = String.ofList ('"' :: (body ++ ['"'])) ↔
        '\n' ∉ body ∧ ¬ ['*', '/'] <:+: body) := by
  have hstart : Scan.start.mode ≠ .literal := Mode.noConfusion
  have hstands : Scan.start.StandsIn .code := rfl
  obtain ⟨done, t, ht, hbefore⟩ := Scan.reachesCode hstands hopens 1
  have hpre : ofSource (String.ofList before) = .ok (done ++ t.finished) := by
    have hscan := hbefore [] (by simp [Scan.Quoted])
    rw [List.append_nil, Scan.ofText_nil ht] at hscan
    rw [ofSource_eq, String.toList_ofList, Scan.ofLines_lines hstart rfl]
    exact outcome_eq_ok_iff.2 ⟨congrArg Prod.fst hscan, (congrArg (·.2.mode) hscan).trans ht⟩
  have hcount : 1 + before.count '\n' + body.count '\n' = 1 + (before ++ body).count '\n' := by
    rw [List.count_append, Nat.add_assoc]
  have hscan : Scan.ofLines 1 .start (Text.lines source.toList) =
      Scan.emit (done ++ (t.finished ++ [⟨String.ofList ('"' :: (kept body ++ ['"'])),
        1 + (before ++ body).count '\n'⟩]))
        (Scan.ofLines (1 + (before ++ body).count '\n')
          (Scan.ready (1 + (before ++ body).count '\n')) (Text.lines after)) := by
    have hquoted : Scan.Quoted ('"' :: (body ++ '"' :: after)) := by simp [Scan.Quoted]
    have htext : Scan.start.ofText 1 (before ++ '"' :: (body ++ '"' :: after)) = _ := hbefore _ hquoted
    rw [hsource, Scan.ofLines_lines hstart rfl, htext, Scan.ofText_literal ht hcloses, hcount,
      Scan.emit_emit, Scan.ofLines_lines Mode.noConfusion rfl]
  have hlater : Scan.Later ((before ++ body).count '\n') .start
      (Scan.ready (1 + (before ++ body).count '\n')) :=
    ⟨rfl, rfl, fun h => h.elim (absurd rfl) Mode.noConfusion⟩
  have hpost := hlater.ofLines 1 (Text.lines after)
  obtain ⟨htokens, hmode⟩ := outcome_eq_ok_iff.1 h
  rw [hscan] at htokens hmode
  refine ⟨_, ⟨String.ofList ('"' :: (kept body ++ ['"'])), 1 + (before ++ body).count '\n'⟩,
    (Scan.ofLines 1 .start (Text.lines after)).1, hpre, ?_, ?_, rfl, rfl, ?_⟩
  · rw [ofSource_eq, String.toList_ofList]
    exact outcome_eq_ok_iff.2 ⟨rfl, Scan.mode_later_eq_code_iff.1 (hpost.scan.mode ▸ hmode)⟩
  · rw [← htokens, ← hpost.tokens]
    simp only [Scan.emit, List.append_assoc, List.singleton_append]
  · rw [← kept_eq_self_iff, String.ofList_inj, List.cons_inj_right, List.append_cancel_right_eq]

/-- Before the literal, a comment with a double quote in it and a terminator in code; in the literal,
marks of comments; behind it, a word and the next line. -/
theorem ofSource_literal_marks :
    ofSource "/*\"\n*/a*/\"\x7b //* /\"b\nc" =
      .ok [⟨"a", 2⟩, ⟨"\"\x7b //* /\"", 2⟩, ⟨"b", 2⟩, ⟨"c", 3⟩] ∧
    Region.code.after "/*\"\n*/a*/".toList = .code ∧ '"' ∉ "\x7b //* /".toList ∧
    ∃ pre literal post, ofSource (String.ofList "/*\"\n*/a*/".toList) = .ok pre ∧
      ofSource (String.ofList "b\nc".toList) = .ok post ∧
      [⟨"a", 2⟩, ⟨"\"\x7b //* /\"", 2⟩, ⟨"b", 2⟩, ⟨"c", 3⟩] = pre ++ literal :: post.map (later 1) ∧
      literal.line = 2 ∧
      literal.text = String.ofList ('"' :: (kept "\x7b //* /".toList ++ ['"'])) ∧
      (literal.text = String.ofList ('"' :: ("\x7b //* /".toList ++ ['"'])) ↔
        '\n' ∉ "\x7b //* /".toList ∧ ¬ ['*', '/'] <:+: "\x7b //* /".toList) := by
  have htokens : ofSource "/*\"\n*/a*/\"\x7b //* /\"b\nc" =
      .ok [⟨"a", 2⟩, ⟨"\"\x7b //* /\"", 2⟩, ⟨"b", 2⟩, ⟨"c", 3⟩] := by cbv
  have hopens : Region.code.after "/*\"\n*/a*/".toList = .code := by decide
  have hcloses : '"' ∉ "\x7b //* /".toList := by decide
  exact ⟨htokens, hopens, hcloses, ofSource_literal htokens rfl hopens hcloses⟩

/-- A literal that goes on over a line feed loses it. -/
theorem ofSource_literal_feed : ofSource "\"a\nb\"" = .ok [⟨"\"ab\"", 2⟩] ∧
    ¬ ∀ (source : String) (ts : List Token), ofSource source = .ok ts →
      ∀ before body after : List Char, source.toList = before ++ '"' :: (body ++ '"' :: after) →
        Region.code.after before = .code → '"' ∉ body → ¬ ['*', '/'] <:+: body →
          ∃ t ∈ ts, t.text = String.ofList ('"' :: (body ++ ['"'])) := by
  have htokens : ofSource "\"a\nb\"" = .ok [⟨"\"ab\"", 2⟩] := by cbv
  refine ⟨htokens, fun h => ?_⟩
  obtain ⟨t, ht, htext⟩ := h _ _ htokens [] ['a', '\n', 'b'] [] (by decide) rfl (by decide) (by decide)
  rw [List.mem_singleton.1 ht] at htext
  exact absurd htext (by decide)

end Masonry.Token
