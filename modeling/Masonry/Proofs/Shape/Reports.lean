import Masonry.Proofs.Shape.Lookahead

/-!
# Where failures are reported

A reader of a block reports a failure at the token that it stopped at, or at the bracket that an entry
with an index begins with (`Failure.Located`). The readers are put together from ones that decide by the
first token, by binding and by loops, and these keep the property (`Reader.Locates.bind`,
`Reader.locates_repeatUntil`). Only the names in a header are reported elsewhere (`ShapeFault.OfHeader`).
-/

namespace Masonry

/-- The fault is one of a header: its name is taken, or the shape to copy is not there. -/
def ShapeFault.OfHeader : ShapeFault → Prop
  | nameTaken _ | nothingToCopy _ _ => True
  | _ => False

/-- The failure is none of a header, and if it is reported at a line, this is the line of one of the
tokens, which does not lie behind what was left. -/
structure Failure.Located (ts : List Token) (f : Failure) : Prop where
  body : ¬ f.fault.OfHeader
  line : ∀ line ∈ f.line, ∃ t us, t.line = line ∧ t :: us <:+ ts ∧ f.rest <:+ t :: us

theorem Failure.Located.of_suffix {ts ts' : List Token} {f : Failure} (h : f.Located ts)
    (hts : ts <:+ ts') : f.Located ts' :=
  ⟨h.body, fun line hline =>
    let ⟨t, us, ht, hus, hrest⟩ := h.line line hline
    ⟨t, us, ht, hus.trans hts, hrest⟩⟩

namespace Reader

variable {β γ σ : Type}

theorem bind_eq_error_iff {r : Reader β} {k : β → Reader γ} {ts : List Token} {f : Failure} :
    (r >>= k) ts = .error f ↔
      r ts = .error f ∨ ∃ b mid, r ts = .ok (b, mid) ∧ k b mid = .error f := by
  cases h : r ts with
  | error failure => simp [bind_of_error h]
  | ok out =>
    rw [bind_of_ok h]
    constructor
    · exact fun hk => .inr ⟨out.1, out.2, rfl, hk⟩
    · rintro (⟨⟨⟩⟩ | ⟨b, mid, heq, hk⟩)
      cases heq
      exact hk

/-- The reader fails in the tokens that it is given. -/
def Locates (r : Reader β) : Prop := ∀ ts f, r ts = .error f → f.Located ts

namespace Locates

variable {r : Reader β}

theorem bind {k : β → Reader γ} (hr : Locates r) (hpeeks : Peeks r) (hk : ∀ b, Locates (k b)) :
    Locates (r >>= k) := by
  intro ts f h
  obtain h | ⟨b, mid, hmid, h⟩ := bind_eq_error_iff.1 h
  · exact hr ts f h
  · exact (hk b mid f h).of_suffix (hpeeks.suffix_of_ok hmid)

/-- What follows a reader and cannot fail does not matter. -/
theorem map (h : Locates r) (g : β → γ) : Locates (do return g (← r)) := by
  intro ts f hf
  obtain hf | ⟨b, mid, -, hf⟩ := bind_eq_error_iff.1 hf
  · exact h ts f hf
  · cases hf

theorem ite {p : Prop} [Decidable p] {r' : Reader β} (h : Locates r) (h' : Locates r') :
    Locates (if p then r else r') := by
  split
  · exact h
  · exact h'

end Locates

theorem locates_pure (b : β) : Locates (pure b) := by
  rintro ts f ⟨⟩

theorem locates_fail {fault : ShapeFault} (h : ¬ fault.OfHeader) :
    Locates (fail fault none : Reader β) := by
  rintro ts f ⟨⟩
  exact ⟨h, fun line hline => by cases hline⟩

theorem locates_unexpected (wanted : Wanted) : Locates (unexpected wanted : Reader β) := by
  rintro ts f ⟨⟩
  exact ⟨id, fun line hline => by cases hline⟩

/-- A reader that does as others do, one for each first token, with or without this token. -/
theorem locates_of_token {r : Reader β} (hnil : ∃ k, Locates k ∧ r [] = k [])
    (hcons : ∀ u, ∃ k, Locates k ∧ ∀ ts, r (u :: ts) = k (u :: ts) ∨ r (u :: ts) = k ts) :
    Locates r := by
  intro ts f h
  cases ts with
  | nil =>
    obtain ⟨k, hk, heq⟩ := hnil
    exact hk [] f (heq ▸ h)
  | cons u ts =>
    obtain ⟨k, hk, heq⟩ := hcons u
    obtain heq | heq := heq ts
    · exact hk (u :: ts) f (heq ▸ h)
    · exact (hk ts f (heq ▸ h)).of_suffix (List.suffix_cons u ts)

section Loops

variable {stop : Reader Bool} {step : σ → Reader σ} (hstop : Locates stop) (hstop' : Peeks stop)
  (hstep : ∀ s, Locates (step s)) (hstep' : ∀ s, Peeks (step s))
include hstop hstop' hstep hstep'

theorem locates_repeatFor (n : Nat) (s : σ) : Locates (repeatFor stop step n s) := by
  induction n generalizing s with
  | zero => exact locates_unexpected _
  | succ n ih =>
    rw [repeatFor_succ]
    refine hstop.bind hstop' fun stopped => ?_
    cases stopped with
    | true => exact locates_pure s
    | false => exact (hstep s).bind (hstep' s) ih

theorem locates_repeatUntil (s : σ) : Locates (repeatUntil stop step s) := fun ts =>
  locates_repeatFor hstop hstop' hstep hstep' (ts.length + 1) s ts

end Loops

section Terminals

theorem locates_accept (word : String) : Locates (accept word) := by
  refine locates_of_token ⟨_, locates_pure false, rfl⟩ fun u => ?_
  by_cases hu : u.text = word
  · exact ⟨_, locates_pure true, fun ts => .inr (if_pos hu)⟩
  · exact ⟨_, locates_pure false, fun ts => .inl (if_neg hu)⟩

theorem locates_expect (word : String) : Locates (expect word) :=
  (locates_accept word).bind (peeks_accept word) fun _ =>
    (locates_pure ()).ite (locates_unexpected _)

theorem locates_integer : Locates integer := by
  refine locates_of_token ⟨_, locates_unexpected .integer, rfl⟩ fun u => ?_
  simp only [integer]
  cases digits? u.text with
  | none => exact ⟨_, locates_unexpected .integer, fun _ => .inl rfl⟩
  | some n =>
    by_cases hn : n < 2147483648
    · exact ⟨_, locates_pure n, fun _ => .inr (if_pos hn)⟩
    · exact ⟨_, locates_fail id, fun _ => .inl (if_neg hn)⟩

theorem locates_name : Locates name := by
  refine locates_of_token ⟨_, locates_unexpected .name, rfl⟩ fun u => ?_
  by_cases hu : isName u.text = true
  · exact ⟨_, locates_pure u.text, fun _ => .inr (if_pos hu)⟩
  · exact ⟨_, locates_unexpected .name, fun _ => .inl (if_neg hu)⟩

theorem locates_literal : Locates literal := by
  refine locates_of_token ⟨_, locates_unexpected .literal, rfl⟩ fun u => ?_
  simp only [literal]
  cases unquoted? u.text with
  | none => exact ⟨_, locates_unexpected .literal, fun _ => .inl rfl⟩
  | some text => exact ⟨_, locates_pure text, fun _ => .inr rfl⟩

end Terminals

section Values

theorem locates_decimal {α : Type} [Scalar α] : Locates (decimal : Reader α) :=
  (locates_accept "-").bind (peeks_accept "-") fun _ => locates_integer.bind peeks_integer fun _ =>
    (locates_accept ".").bind (peeks_accept ".") fun _ =>
      (locates_integer.map _).ite (locates_pure _)

theorem locates_triple {α : Type} [Scalar α] : Locates (triple : Reader (Vec3 α)) :=
  have comma := locates_expect ","
  locates_decimal.bind peeks_decimal fun _ => comma.bind (peeks_expect ",") fun _ =>
    locates_decimal.bind peeks_decimal fun _ => comma.bind (peeks_expect ",") fun _ =>
      locates_decimal.map _

theorem locates_pixel : Locates pixel :=
  locates_integer.bind peeks_integer fun _ => (locates_expect ",").bind (peeks_expect ",") fun _ =>
    locates_integer.map _

theorem locates_assigned {value : Reader β} (h : Locates value) (h' : Peeks value) :
    Locates (assigned value) :=
  (locates_expect "=").bind (peeks_expect "=") fun _ => h.bind h' fun _ =>
    (locates_expect ";").map _

variable {item : Reader β} (h : Locates item) (h' : Peeks item)
include h h'

theorem locates_others (wanted : Wanted) (first : β) : Locates (others item wanted first) := by
  have hstop : Locates (do return !(← accept ",")) :=
    (locates_accept ",").map fun comma => !comma
  have hstop' : Peeks (do return !(← accept ",")) := (peeks_accept ",").bind fun _ => peeks_pure _
  have hitems : Locates (moreItems item [first]) := locates_repeatUntil hstop hstop'
    (fun items => h.map fun b => items ++ [b])
    (fun items => h'.bind fun b => peeks_pure (items ++ [b])) [first]
  exact hitems.bind (peeks_moreItems h' [first]) fun _ =>
    (locates_unexpected wanted).ite (locates_pure _)

end Values

theorem locates_texCoords : Locates texCoords := by
  rw [texCoords_eq]
  exact locates_pixel.bind peeks_pixel fun first => (locates_accept ":").bind (peeks_accept ":")
    fun _ => (locates_pixel.map _).ite
      ((locates_others locates_pixel peeks_pixel .moreTexCoords first).map _)

theorem locates_face : Locates face := by
  rw [face_eq]
  have hvertices : Locates (integer >>= others integer .moreVertices) :=
    locates_integer.bind peeks_integer fun first =>
      locates_others locates_integer peeks_integer .moreVertices first
  have hvertices' : Peeks (integer >>= others integer .moreVertices) :=
    peeks_integer.bind fun first => peeks_others peeks_integer .moreVertices first
  exact hvertices.bind hvertices' fun _ => (locates_expect ";").bind (peeks_expect ";") fun _ =>
    locates_integer.map _

section Entries

theorem locates_entryIndex : Locates entryIndex := by
  refine locates_of_token ⟨_, locates_pure none, rfl⟩ fun u => ?_
  by_cases hu : u.text = "["
  · exact ⟨_, locates_integer.bind peeks_integer fun index =>
      (locates_expect "]").map fun _ => some (index, u.line),
      fun ts => .inr (if_pos hu)⟩
  · exact ⟨_, locates_pure none, fun ts => .inl (if_neg hu)⟩

/-- An index is found at the bracket that it begins with. -/
theorem line_of_entryIndex {t : Token} {ts rest : List Token} {i line : Nat}
    (h : entryIndex (t :: ts) = .ok (some (i, line), rest)) : line = t.line := by
  simp only [entryIndex] at h
  split at h
  · obtain ⟨n, mid, -, h⟩ := bind_eq_ok_iff.1 h
    obtain ⟨_, _, -, h⟩ := bind_eq_ok_iff.1 h
    obtain ⟨heq, -⟩ := pure_eq_ok_iff.1 h
    exact (congrArg Prod.snd (Option.some.inj heq)).symm
  · cases h

theorem place_eq_error {kind : EntryList} {list : List β} {index : Option (Nat × Nat)} {v : β}
    {ts : List Token} {f : Failure} (h : place kind list index v ts = .error f) :
    ∃ i line, index = some (i, line) ∧ f = ⟨.noSuchEntry kind i list.length, ts, some line⟩ := by
  unfold place at h
  split at h
  · cases h
  · next i line =>
    split at h
    · cases h
    · cases h
      exact ⟨i, line, rfl, rfl⟩

/-- An element that is not there is reported at the bracket, which what is left follows. -/
theorem locates_entry {value : Reader β} (h : Locates value) (h' : Peeks value) (kind : EntryList)
    (list : List β) : Locates (entry kind value list) := by
  intro ts f hf
  cases ts with
  | nil => exact locates_unexpected (.text "\x7d") [] f hf
  | cons t ts =>
    rw [entry_cons] at hf
    obtain hf | ⟨index, ts₁, hindex, hf⟩ := bind_eq_error_iff.1 hf
    · exact locates_entryIndex _ f hf
    have hsuffix₁ := peeks_entryIndex.suffix_of_ok hindex
    obtain hf | ⟨v, ts₂, hv, hf⟩ := bind_eq_error_iff.1 hf
    · exact (h ts₁ f hf).of_suffix hsuffix₁
    have hsuffix₂ := (h'.suffix_of_ok hv).trans hsuffix₁
    obtain hf | ⟨_, ts₃, hsemicolon, hf⟩ := bind_eq_error_iff.1 hf
    · exact (locates_expect ";" ts₂ f hf).of_suffix hsuffix₂
    obtain ⟨i, line, rfl, rfl⟩ := place_eq_error hf
    obtain rfl := line_of_entryIndex hindex
    refine ⟨id, fun line hline => ⟨t, ts, Option.some.inj hline, List.suffix_rfl, ?_⟩⟩
    exact ((peeks_expect ";").suffix_of_ok hsemicolon).trans hsuffix₂

theorem locates_block {step : σ → Reader σ} (h : ∀ s, Locates (step s)) (h' : ∀ s, Peeks (step s))
    (s : σ) : Locates (do expect "\x7b"; repeatUntil (accept "\x7d") step s) :=
  (locates_expect _).bind (peeks_expect _) fun _ =>
    locates_repeatUntil (locates_accept _) (peeks_accept _) h h' s

theorem locates_entries {value : Reader β} (h : Locates value) (h' : Peeks value) (kind : EntryList)
    (list : List β) : Locates (entries kind value list) :=
  locates_block (locates_entry h h' kind) (peeks_entry h' kind) list

end Entries

section Statements

variable {α : Type} [Scalar α]

theorem locates_statement (s : Shape α) : Locates (statement s) := by
  have hinteger := locates_assigned locates_integer peeks_integer
  have hliteral := locates_assigned locates_literal peeks_literal
  have htriple := locates_assigned (locates_triple (α := α)) peeks_triple
  have hvertices := locates_entries (locates_triple (α := α)) peeks_triple .vertices s.vertices
  have htexCoords := locates_entries locates_texCoords peeks_texCoords .texCoords s.texCoords
  have hfaces := locates_entries locates_face peeks_face .faces s.faces
  refine locates_of_token ⟨_, locates_unexpected .statement, rfl⟩ fun u => ?_
  simp only [statement]
  split
  · exact ⟨_, hinteger.map fun n => { s with id := Int32.ofNat n }, fun _ => .inr rfl⟩
  · exact ⟨_, hliteral.map fun text => { s with caption := text }, fun _ => .inr rfl⟩
  · exact ⟨_, htriple.map fun v => { s with scale := v }, fun _ => .inr rfl⟩
  · exact ⟨_, hinteger.map fun n => { s with texSize := n }, fun _ => .inr rfl⟩
  · exact ⟨_, hliteral.map fun text => { s with texFile := text }, fun _ => .inr rfl⟩
  · exact ⟨_, htriple.map fun v => { s with shift := v }, fun _ => .inr rfl⟩
  · exact ⟨_, hvertices.map fun list => { s with vertices := list }, fun _ => .inr rfl⟩
  · exact ⟨_, htexCoords.map fun list => { s with texCoords := list }, fun _ => .inr rfl⟩
  · exact ⟨_, hfaces.map fun list => { s with faces := list }, fun _ => .inr rfl⟩
  · exact ⟨_, locates_fail id, fun _ => .inl rfl⟩

theorem locates_statements (s : Shape α) : Locates (statements s) :=
  locates_block locates_statement peeks_statement s

end Statements

end Reader

end Masonry
