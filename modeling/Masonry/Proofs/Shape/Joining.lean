import Masonry.Shape.Token

/-!
# Tokens of joined texts

A text that can be cut into tokens leaves nothing open, so what follows it after a line feed is cut as
it would be on its own, with later lines (`Token.ofSource_join`), which are as many as the line feeds
before it (`Token.ofSource_append_line`). The line feed can only end the last line of the first text, and
a carriage return that it drops there is blank (`Text.Closes`, `Token.Scan.ofLine_carriageReturn`).
-/

namespace Masonry

namespace Text

/-- The lines of a text with a character before it that ends no line. -/
def pushFront (c : Char) : List (List Char) → List (List Char)
  | [] => [[c]]
  | line :: more => (c :: line) :: more

theorem lines_cons {c : Char} {rest : List Char} (hc : c ≠ '\n')
    (hreturn : c = '\r' → rest.head? ≠ some '\n') :
    lines (c :: rest) = pushFront c (lines rest) := by
  rw [lines]
  · cases lines rest <;> rfl
  · exact hc
  · rintro rest rfl rfl
    exact hreturn rfl rfl

theorem pushFront_append {c : Char} {ls : List (List Char)} (h : ls ≠ []) (more : List (List Char)) :
    pushFront c (ls ++ more) = pushFront c ls ++ more := by
  cases ls with
  | nil => exact absurd rfl h
  | cons line ls => rfl

theorem lines_ne_nil {cs : List Char} (h : cs ≠ []) : lines cs ≠ [] := by
  unfold lines
  split
  · exact absurd rfl h
  · exact List.cons_ne_nil _ _
  · exact List.cons_ne_nil _ _
  · split <;> exact List.cons_ne_nil _ _

/-- A line feed may end the last line, or begin one if the last line has an end; it takes a carriage
return before it along. -/
inductive Closes : List (List Char) → List (List Char) → Prop
  | ended (ls) : Closes ls ls
  | opened (ls) : Closes ls (ls ++ [[]])
  | dropped (ls line) : Closes (ls ++ [line ++ ['\r']]) (ls ++ [line])

namespace Closes

theorem cons {ls ls' : List (List Char)} (h : Closes ls ls') (line : List Char) :
    Closes (line :: ls) (line :: ls') := by
  cases h with
  | ended => exact .ended _
  | opened => exact .opened _
  | dropped ls last => exact .dropped (line :: ls) last

theorem pushFront {ls ls' : List (List Char)} (h : Closes ls ls') (hls : ls ≠ []) (c : Char) :
    Closes (pushFront c ls) (pushFront c ls') := by
  cases h with
  | ended => exact .ended _
  | opened =>
    rw [pushFront_append hls]
    exact .opened _
  | dropped ls last =>
    cases ls with
    | nil => exact .dropped [] (c :: last)
    | cons line ls => exact .dropped ((c :: line) :: ls) last

end Closes

/-- What a line feed after a text does to its lines. -/
structure Seam (a : List Char) : Prop where
  cut : ∀ b, lines (a ++ '\n' :: b) = lines (a ++ ['\n']) ++ lines b
  closes : Closes (lines a) (lines (a ++ ['\n']))

theorem Seam.cons {c : Char} {rest : List Char} (h : Seam rest) (hc : c ≠ '\n')
    (hreturn : c = '\r' → rest.head? ≠ some '\n') : Seam (c :: rest) := by
  by_cases hlast : c = '\r' ∧ rest = []
  · obtain ⟨rfl, rfl⟩ := hlast
    exact ⟨fun _ => rfl, .dropped [] []⟩
  · have hnext : ∀ b, lines (c :: rest ++ '\n' :: b) = pushFront c (lines (rest ++ '\n' :: b)) := by
      intro b
      refine lines_cons hc fun hc' hhead => ?_
      cases rest with
      | nil => exact hlast ⟨hc', rfl⟩
      | cons d rest => exact hreturn hc' hhead
    refine ⟨fun b => ?_, ?_⟩
    · rw [hnext, hnext, h.cut, pushFront_append (lines_ne_nil (by simp))]
    · rw [hnext, lines_cons hc hreturn]
      cases rest with
      | nil => exact .ended _
      | cons d rest => exact h.closes.pushFront (lines_ne_nil (List.cons_ne_nil d rest)) c

theorem seam (a : List Char) : Seam a := by
  have hordinary : ∀ c rest, (c = '\n' → False) →
      (∀ rest', c = '\r' → rest = '\n' :: rest' → False) → Seam rest → Seam (c :: rest) := by
    intro c rest hc hreturn h
    refine h.cons hc fun hc' hhead => ?_
    obtain ⟨rest', rfl⟩ := List.head?_eq_some_iff.1 hhead
    exact hreturn rest' hc' rfl
  induction a using lines.induct with
  | case1 => exact ⟨fun _ => rfl, .opened []⟩
  | case2 rest ih =>
    refine ⟨fun b => ?_, ?_⟩
    · exact congrArg ([] :: ·) (ih.cut b)
    · exact ih.closes.cons []
  | case3 rest ih =>
    refine ⟨fun b => ?_, ?_⟩
    · exact congrArg ([] :: ·) (ih.cut b)
    · exact ih.closes.cons []
  | case4 c rest hc hreturn _ ih => exact hordinary c rest hc hreturn ih
  | case5 c rest hc hreturn _ _ _ ih => exact hordinary c rest hc hreturn ih

theorem length_pushFront {c : Char} {ls : List (List Char)} (h : ls ≠ []) :
    (pushFront c ls).length = ls.length := by
  cases ls with
  | nil => exact absurd rfl h
  | cons line ls => rfl

/-- With a line feed after it, a text has one line more than line feeds. -/
theorem length_lines_feed (a : List Char) : (lines (a ++ ['\n'])).length = 1 + a.count '\n' := by
  have hordinary : ∀ c rest, (c = '\n' → False) →
      (∀ rest', c = '\r' → rest = '\n' :: rest' → False) →
      (lines (rest ++ ['\n'])).length = 1 + rest.count '\n' →
      (lines (c :: rest ++ ['\n'])).length = 1 + (c :: rest).count '\n' := by
    intro c rest hc hreturn ih
    rw [List.count_cons_of_ne hc]
    by_cases hlast : c = '\r' ∧ rest = []
    · obtain ⟨rfl, rfl⟩ := hlast
      rfl
    · rw [List.cons_append, lines_cons hc, length_pushFront (lines_ne_nil (by simp)), ih]
      intro hc' hhead
      cases rest with
      | nil => exact hlast ⟨hc', rfl⟩
      | cons d rest =>
        obtain rfl := Option.some.inj hhead
        exact hreturn rest hc' rfl
  induction a using lines.induct with
  | case1 => rfl
  | case2 rest ih =>
    rw [List.cons_append, lines, List.length_cons, ih, List.count_cons_self, Nat.add_assoc]
  | case3 rest ih =>
    rw [List.cons_append, List.cons_append, lines, List.length_cons, ih,
      List.count_cons_of_ne (by decide), List.count_cons_self, Nat.add_assoc]
  | case4 c rest hc hreturn _ ih => exact hordinary c rest hc hreturn ih
  | case5 c rest hc hreturn _ _ _ ih => exact hordinary c rest hc hreturn ih

end Text

/-- The fault as it is found so many lines later. -/
def TokenFault.later (n : Nat) : TokenFault → TokenFault
  | openLiteral => openLiteral
  | openComment line => openComment (line + n)

namespace Token

/-- The token so many lines later. -/
def later (n : Nat) (t : Token) : Token := { t with line := t.line + n }

/-- The mode so many lines later. -/
def Mode.later (n : Nat) : Mode → Mode
  | code => code
  | literal => literal
  | comment line => comment (line + n)

namespace Scan

variable {line : Nat} {s : Scan} {c : Char} {rest : List Char}

/-- Tokens before those of a scan. -/
def emit (done : List Token) (out : List Token × Scan) : List Token × Scan := (done ++ out.1, out.2)

@[simp] theorem emit_nil (out : List Token × Scan) : emit [] out = out := rfl

@[simp] theorem emit_emit (done done' : List Token) (out : List Token × Scan) :
    emit done (emit done' out) = emit (done ++ done') out :=
  Prod.ext (List.append_assoc done done' out.1).symm rfl

section Lines

/-- The character begins no terminator of a comment and, in code, no comment. -/
def Alone (s : Scan) (c : Char) (rest : List Char) : Prop :=
  ∀ d ∈ rest.head?, ¬ (c = '*' ∧ d = '/') ∧ ¬ (s.mode = .code ∧ c = '/' ∧ (d = '/' ∨ d = '*'))

theorem ofLine_terminator : s.ofLine line ('*' :: '/' :: rest) = s.closeComment.ofLine line rest := by
  rw [ofLine, if_pos ⟨rfl, rfl⟩]

theorem ofLine_lineComment (h : s.mode = .code) :
    s.ofLine line ('/' :: '/' :: rest) = s.endLine := by
  rw [ofLine, if_neg (by decide), if_pos ⟨h, rfl, rfl⟩]

theorem ofLine_blockComment (h : s.mode = .code) : s.ofLine line ('/' :: '*' :: rest) =
    emit s.finished ((s.cleared.enter (.comment line)).ofLine line rest) := by
  rw [ofLine, if_neg (by decide), if_neg (by simp), if_pos ⟨h, rfl, rfl⟩]
  rfl

theorem ofLine_alone (h : Alone s c rest) :
    s.ofLine line (c :: rest) = emit (s.step line c).1 ((s.step line c).2.ofLine line rest) := by
  cases rest with
  | nil => rfl
  | cons d rest =>
    obtain ⟨hterminator, hcomment⟩ := h d rfl
    rw [ofLine, if_neg hterminator, if_neg fun h => hcomment ⟨h.1, h.2.1, .inl h.2.2⟩,
      if_neg fun h => hcomment ⟨h.1, h.2.1, .inr h.2.2⟩]
    rfl

/-- A line is read mark by mark, a mark being a terminator, a comment's opening or a character. -/
theorem line_induction (line : Nat) {motive : Scan → List Char → Prop} (nil : ∀ s, motive s [])
    (terminator : ∀ s rest, motive s.closeComment rest → motive s ('*' :: '/' :: rest))
    (lineComment : ∀ s rest, s.mode = .code → motive s ('/' :: '/' :: rest))
    (blockComment : ∀ s rest, s.mode = .code → motive (s.cleared.enter (.comment line)) rest →
      motive s ('/' :: '*' :: rest))
    (alone : ∀ s c rest, Alone s c rest → motive (s.step line c).2 rest → motive s (c :: rest))
    (s : Scan) (text : List Char) : motive s text := by
  induction s, text using ofLine.induct line with
  | case1 s => exact nil s
  | case2 s c => exact alone s c [] (by simp [Alone]) (nil _)
  | case3 s c d rest h ih =>
    obtain ⟨rfl, rfl⟩ := h
    exact terminator s rest ih
  | case4 s c d rest _ h =>
    obtain ⟨hmode, rfl, rfl⟩ := h
    exact lineComment s rest hmode
  | case5 s c d rest _ _ h _ _ _ ih =>
    obtain ⟨hmode, rfl, rfl⟩ := h
    exact blockComment s rest hmode ih
  | case6 s c d rest h h' h'' done s' hstep _ _ _ ih =>
    refine alone s c (d :: rest) (fun d' hd' => ?_) ?_
    · cases hd'
      exact ⟨h, fun ⟨hmode, hc, hd⟩ => hd.elim (fun hd => h' ⟨hmode, hc, hd⟩)
        fun hd => h'' ⟨hmode, hc, hd⟩⟩
    · rw [hstep]
      exact ih

/-- Between two lines only a literal has a character. -/
def Rested (s : Scan) : Prop := s.mode ≠ .literal → s.pending = []

theorem rested_endLine (s : Scan) : Rested s.endLine.2 := by
  unfold endLine
  split
  · next h => exact fun h' => absurd h h'
  · exact fun _ => rfl

theorem rested_ofLine (line : Nat) (s : Scan) (text : List Char) : Rested (s.ofLine line text).2 := by
  induction s, text using line_induction line with
  | nil s => exact rested_endLine s
  | terminator s rest ih =>
    rw [ofLine_terminator]
    exact ih
  | lineComment s rest h =>
    rw [ofLine_lineComment h]
    exact rested_endLine s
  | blockComment s rest h ih =>
    rw [ofLine_blockComment h]
    exact ih
  | alone s c rest h ih =>
    rw [ofLine_alone h]
    exact ih

theorem rested_ofLines {line : Nat} {s : Scan} (hs : Rested s) (ls : List (List Char)) :
    Rested (ofLines line s ls).2 := by
  induction ls generalizing line s with
  | nil => exact hs
  | cons text ls ih => exact ih (rested_ofLine line s text)

/-- A carriage return at the end of a line adds nothing, unless it is left in a literal or a
comment. -/
theorem ofLine_carriageReturn {s : Scan} {text : List Char}
    (h : (s.ofLine line (text ++ ['\r'])).2.mode = .code) :
    s.ofLine line (text ++ ['\r']) = s.ofLine line text := by
  induction s, text using line_induction line with
  | nil s =>
    rw [List.nil_append, ofLine_alone (by simp [Alone])] at h ⊢
    obtain ⟨_ | _ | _, pending, last⟩ := s
    · simp [step, emit, ofLine, endLine, finished, cleared, show Text.isBlank '\r' = true by decide]
    · cases h
    · cases h
  | terminator s rest ih =>
    simp only [List.cons_append, ofLine_terminator] at h ⊢
    exact ih h
  | lineComment s rest hs =>
    simp only [List.cons_append, ofLine_lineComment hs]
  | blockComment s rest hs ih =>
    simp only [List.cons_append, ofLine_blockComment hs] at h ⊢
    rw [ih h]
  | alone s c rest hs ih =>
    have hs' : Alone s c (rest ++ ['\r']) := by
      cases rest with
      | nil => simp [Alone]
      | cons d rest => exact hs
    rw [List.cons_append, ofLine_alone hs'] at h ⊢
    rw [ih h, ofLine_alone hs]

end Lines

theorem ofLines_cons (line : Nat) (s : Scan) (text : List Char) (ls : List (List Char)) :
    ofLines line s (text :: ls) =
      emit (s.ofLine line text).1 (ofLines (line + 1) (s.ofLine line text).2 ls) := rfl

theorem ofLines_append (line : Nat) (s : Scan) (ls ls' : List (List Char)) :
    ofLines line s (ls ++ ls') =
      emit (ofLines line s ls).1 (ofLines (line + ls.length) (ofLines line s ls).2 ls') := by
  induction ls generalizing line s with
  | nil => rfl
  | cons text ls ih =>
    rw [List.cons_append, ofLines_cons, ih, ofLines_cons, List.length_cons, Nat.add_right_comm,
      Nat.add_assoc]
    simp only [emit, List.append_assoc]

theorem ofLines_singleton (line : Nat) (s : Scan) (text : List Char) :
    ofLines line s [text] = s.ofLine line text :=
  Prod.ext (List.append_nil _) rfl

/-- A line feed adds nothing to lines that leave nothing open. -/
theorem ofLines_closes {ls ls' : List (List Char)} (h : Text.Closes ls ls') (hs : Rested s)
    (hcode : (ofLines line s ls).2.mode = .code) : ofLines line s ls' = ofLines line s ls := by
  cases h with
  | ended => rfl
  | opened =>
    have hpending : (ofLines line s ls).2.pending = [] :=
      rested_ofLines hs ls (by rw [hcode]; exact Mode.noConfusion)
    have hempty : (ofLines line s ls).2.endLine = ([], (ofLines line s ls).2) := by
      revert hcode hpending
      generalize (ofLines line s ls).2 = t
      obtain ⟨mode, pending, last⟩ := t
      rintro rfl rfl
      rfl
    rw [ofLines_append, ofLines_singleton, Scan.ofLine, hempty]
    exact Prod.ext (List.append_nil _) rfl
  | dropped ls last =>
    rw [ofLines_append, ofLines_singleton] at hcode
    rw [ofLines_append, ofLines_append, ofLines_singleton, ofLines_singleton,
      ofLine_carriageReturn hcode]

/-- The scans differ in nothing but that one stands so many lines later. The line of a scan without a
character counts in a literal only. -/
structure Later (n : Nat) (s t : Scan) : Prop where
  mode : t.mode = s.mode.later n
  pending : t.pending = s.pending
  line : s.pending ≠ [] ∨ s.mode = .literal → t.line = s.line + n

/-- The tokens and the scan after them stand so many lines later. -/
structure LaterOut (n : Nat) (out out' : List Token × Scan) : Prop where
  tokens : out'.1 = out.1.map (Token.later n)
  scan : Later n out.2 out'.2

theorem LaterOut.emit {n : Nat} {out out' : List Token × Scan} {done done' : List Token}
    (h : LaterOut n out out') (hdone : done' = done.map (Token.later n)) :
    LaterOut n (emit done out) (emit done' out') := by
  refine ⟨?_, h.scan⟩
  show done' ++ out'.1 = (done ++ out.1).map _
  rw [hdone, h.tokens, List.map_append]

theorem mode_later_eq_literal_iff {n : Nat} {m : Mode} : m.later n = .literal ↔ m = .literal := by
  cases m <;> simp [Mode.later]

theorem mode_later_eq_code_iff {n : Nat} {m : Mode} : m.later n = .code ↔ m = .code := by
  cases m <;> simp [Mode.later]

namespace Later

variable {n : Nat} {t : Scan}

theorem cleared (h : Later n s t) (hmode : s.mode ≠ .literal) : Later n s.cleared t.cleared :=
  ⟨h.mode, rfl, fun h' => absurd rfl (h'.resolve_right hmode)⟩

theorem push (h : Later n s t) (line : Nat) (c : Char) :
    Later n (s.push line c) (t.push (line + n) c) :=
  ⟨h.mode, congrArg (c :: ·) h.pending, fun _ => rfl⟩

theorem finished (h : Later n s t) : t.finished = s.finished.map (Token.later n) := by
  unfold Scan.finished
  rw [h.pending]
  split
  · rfl
  · next hpending =>
    rw [h.line (.inl fun h => hpending (by rw [h]; rfl))]
    rfl

theorem endLine (h : Later n s t) : LaterOut n s.endLine t.endLine := by
  unfold Scan.endLine
  rw [h.mode, ite_congr (propext mode_later_eq_literal_iff) (fun _ => rfl) fun _ => rfl]
  split
  · exact ⟨rfl, h⟩
  · next hmode => exact ⟨h.finished, h.cleared hmode⟩

theorem closeComment (h : Later n s t) : Later n s.closeComment t.closeComment := by
  unfold Scan.closeComment
  rw [h.mode]
  cases hs : s.mode with
  | comment opened =>
    exact ⟨rfl, h.pending, fun h' => h.line (.inl (h'.resolve_right Mode.noConfusion))⟩
  | code => exact h
  | literal => exact h

/-- Where a token is given out, the lines before it no longer count. -/
theorem enter (n : Nat) (s t : Scan) {mode : Mode} (hmode : mode ≠ .literal) :
    Later n (s.cleared.enter mode) (t.cleared.enter (mode.later n)) :=
  ⟨rfl, rfl, fun h => absurd rfl (h.resolve_right hmode)⟩

theorem step (h : Later n s t) (line : Nat) (c : Char) :
    LaterOut n (s.step line c) (t.step (line + n) c) := by
  unfold Scan.step
  rw [h.mode]
  cases hs : s.mode with
  | comment opened => exact ⟨rfl, h⟩
  | literal =>
    show LaterOut n (if c = '"' then _ else _) (if c = '"' then _ else _)
    split
    · exact ⟨(h.push line c).finished, enter n _ _ Mode.noConfusion⟩
    · exact ⟨rfl, h.push line c⟩
  | code =>
    have hcleared : Later n s.cleared t.cleared := h.cleared (by rw [hs]; exact Mode.noConfusion)
    show LaterOut n (if c = '"' then _ else if _ then _ else if _ then _ else _)
      (if c = '"' then _ else if _ then _ else if _ then _ else _)
    split
    · exact ⟨h.finished, rfl, rfl, fun _ => rfl⟩
    split
    · exact ⟨h.finished, hcleared⟩
    split
    · have hpush := hcleared.push line c
      refine ⟨?_, hpush.cleared (hs ▸ Mode.noConfusion)⟩
      rw [List.map_append, h.finished, hpush.finished]
    · exact ⟨rfl, h.push line c⟩

theorem ofLine (h : Later n s t) (line : Nat) (text : List Char) :
    LaterOut n (s.ofLine line text) (t.ofLine (line + n) text) := by
  induction s, text using line_induction line generalizing t with
  | nil s => exact h.endLine
  | terminator s rest ih =>
    rw [ofLine_terminator, ofLine_terminator]
    exact ih h.closeComment
  | lineComment s rest hs =>
    rw [ofLine_lineComment hs, ofLine_lineComment (h.mode.trans (by rw [hs]; rfl))]
    exact h.endLine
  | blockComment s rest hs ih =>
    rw [ofLine_blockComment hs, ofLine_blockComment (h.mode.trans (by rw [hs]; rfl))]
    exact (ih (enter n s t Mode.noConfusion)).emit h.finished
  | alone s c rest hs ih =>
    have ht : Alone t c rest := by
      intro d hd
      rw [h.mode, mode_later_eq_code_iff]
      exact hs d hd
    have hstep := h.step line c
    rw [ofLine_alone hs, ofLine_alone ht]
    exact (ih hstep.scan).emit hstep.tokens

theorem ofLines (h : Later n s t) (line : Nat) (ls : List (List Char)) :
    LaterOut n (ofLines line s ls) (ofLines (line + n) t ls) := by
  induction ls generalizing line s t with
  | nil => exact ⟨rfl, h⟩
  | cons text ls ih =>
    have hline := h.ofLine line text
    rw [ofLines_cons, ofLines_cons, Nat.add_right_comm]
    exact (ih hline.scan (line + 1)).emit hline.tokens

end Later

end Scan

/-- The tokens of a scan of so many lines, or what it leaves open. -/
def outcome (count : Nat) (out : List Token × Scan) : Except (TokenFault × Nat) (List Token) :=
  match out.2.mode with
  | .code => .ok out.1
  | .literal => .error (.openLiteral, out.2.line)
  | .comment opened => .error (.openComment opened, count)

theorem ofSource_eq (source : String) : ofSource source =
    outcome (Text.lines source.toList).length (Scan.ofLines 1 .start (Text.lines source.toList)) :=
  rfl

theorem outcome_eq_ok_iff {count : Nat} {out : List Token × Scan} {ts : List Token} :
    outcome count out = .ok ts ↔ out.1 = ts ∧ out.2.mode = .code := by
  obtain ⟨done, mode, pending, last⟩ := out
  cases mode <;> simp [outcome]

/-- The outcome so many lines later, after other tokens. -/
def outcomeAfter (n : Nat) (done : List Token) :
    Except (TokenFault × Nat) (List Token) → Except (TokenFault × Nat) (List Token)
  | .ok ts => .ok (done ++ ts.map (later n))
  | .error (fault, line) => .error (fault.later n, line + n)

theorem outcome_emit {n : Nat} {out out' : List Token × Scan} (h : Scan.LaterOut n out out')
    (count : Nat) (done : List Token) :
    outcome (n + count) (Scan.emit done out') = outcomeAfter n done (outcome count out) := by
  obtain ⟨ts, mode, pending, last⟩ := out
  obtain ⟨_, _, _, _⟩ := out'
  obtain ⟨rfl, rfl, -, hline⟩ := h
  cases mode with
  | code => rfl
  | literal =>
    exact congrArg (fun line => Except.error (TokenFault.openLiteral, line)) (hline (.inr rfl))
  | comment opened =>
    exact congrArg (fun line => Except.error (TokenFault.openComment (opened + n), line))
      (Nat.add_comm n count)

/-- What follows a text that leaves nothing open, after a line feed, is cut as it would be on its own,
with later lines. -/
theorem ofSource_join {a : String} {ts : List Token} (ha : ofSource a = .ok ts) (b : String) :
    ofSource (a ++ "\n" ++ b) =
      outcomeAfter (Text.lines (a.toList ++ ['\n'])).length ts (ofSource b) := by
  obtain ⟨rfl, hcode⟩ := outcome_eq_ok_iff.1 ha
  have hseam := Text.seam a.toList
  have hrested : Scan.Rested .start := fun _ => rfl
  have hclosed := Scan.ofLines_closes hseam.closes hrested hcode
  have hlater : ∀ n, Scan.Later n .start (Scan.ofLines 1 .start (Text.lines a.toList)).2 := by
    intro n
    refine ⟨hcode, Scan.rested_ofLines hrested _ ?_, fun h => ?_⟩
    · rw [hcode]
      exact Mode.noConfusion
    · exact h.elim (absurd rfl) Mode.noConfusion
  have htext : (a ++ "\n" ++ b).toList = a.toList ++ '\n' :: b.toList := by simp
  rw [ofSource_eq, ofSource_eq, htext, hseam.cut, Scan.ofLines_append, hclosed, List.length_append]
  exact outcome_emit ((hlater _).ofLines 1 _) _ _

/-- Cutting goes line by line: after a text that leaves nothing open and a line feed, another text gives
its own tokens or its own fault, each later by a line and a line for every line feed before. -/
theorem ofSource_append_line {a : String} {ts : List Token} (ha : ofSource a = .ok ts) (b : String) :
    ofSource (a ++ "\n" ++ b) = match ofSource b with
      | .ok us => .ok (ts ++ us.map (later (1 + a.toList.count '\n')))
      | .error (fault, line) => .error (fault.later (1 + a.toList.count '\n'),
          line + (1 + a.toList.count '\n')) := by
  rw [ofSource_join ha, Text.length_lines_feed]
  obtain ⟨fault, line⟩ | us := ofSource b <;> rfl

/-- A terminator that joins two words, with a carriage return before the line feed, and a comment that
stays open. -/
theorem ofSource_append_line_open : ofSource "x\ny*/z\r" = .ok [⟨"x", 1⟩, ⟨"yz", 2⟩] ∧
    ofSource ("x\ny*/z\r" ++ "\n" ++ "k\n/* \"") = .error (.openComment 4, 4) := by
  have hfirst : ofSource "x\ny*/z\r" = .ok [⟨"x", 1⟩, ⟨"yz", 2⟩] := by cbv
  have hsecond : ofSource "k\n/* \"" = .error (.openComment 2, 2) := by cbv
  refine ⟨hfirst, ?_⟩
  rw [ofSource_append_line hfirst, hsecond]
  rfl

end Token

end Masonry
