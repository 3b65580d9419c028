import Masonry.Proofs.Shape.Statements

/-!
# How far readers look

A reader looks at no token behind the one that it stops at. Given the tokens up to one of them, either
it stops there or before, and then with the same finding whatever follows, or it takes that token
whatever follows (`Reader.Settles`). The readers of the language are put together from ones that look
at the first token, by binding and by loops, and these keep the property (`Reader.Peeks.bind`,
`Reader.Peeks.repeatUntil`).
-/

namespace Masonry.Reader

variable {β γ σ : Type}

/-- The tokens that are left. -/
def left : Except Failure (β × List Token) → List Token
  | .ok out => out.2
  | .error failure => failure.rest

/-- What a reader comes to, with the given tokens left: a value, or a fault and perhaps its line. -/
def leaving (rest : List Token) : Except (ShapeFault × Option Nat) β → Except Failure (β × List Token)
  | .ok b => .ok (b, rest)
  | .error fault => .error ⟨fault.1, rest, fault.2⟩

/-- What some readers do about a token after others: all of them leave it and come to the same,
whatever follows, or all of them take it. -/
inductive Settles {ι : Type} (r : ι → Reader β) (us : List Token) (t : Token) : Prop
  | leaves (finding : Except (ShapeFault × Option Nat) β) (vs : List Token)
      (h : ∀ i after, r i (us ++ t :: after) = leaving (vs ++ t :: after) finding)
  | takes (h : ∀ i after, left (r i (us ++ t :: after)) <:+ after)

/-- The reader takes tokens from the front and looks at no more than the first that it leaves. -/
structure Peeks (r : Reader β) : Prop where
  suffix : ∀ ts, left (r ts) <:+ ts
  settles : ∀ us t, Settles (fun _ : Unit => r) us t

namespace Peeks

variable {r : Reader β} {ts : List Token}

theorem suffix_of_ok (h : Peeks r) {b : β} {rest : List Token} (hr : r ts = .ok (b, rest)) :
    rest <:+ ts := by
  have hsuffix := h.suffix ts
  rw [hr] at hsuffix
  exact hsuffix

theorem suffix_of_error (h : Peeks r) {failure : Failure} (hr : r ts = .error failure) :
    failure.rest <:+ ts := by
  have hsuffix := h.suffix ts
  rw [hr] at hsuffix
  exact hsuffix

end Peeks

theorem bind_of_error {r : Reader β} {k : β → Reader γ} {ts : List Token} {failure : Failure}
    (h : r ts = .error failure) : (r >>= k) ts = .error failure := by
  show (r ts).bind (fun out => k out.1 out.2) = _
  rw [h]
  rfl

/-- What follows takes its tokens from those that are left. -/
theorem left_bind {r : Reader β} {k : β → Reader γ} (hk : ∀ b ts, left (k b ts) <:+ ts)
    (ts : List Token) : left ((r >>= k) ts) <:+ left (r ts) := by
  cases h : r ts with
  | error failure =>
    rw [bind_of_error h]
    exact List.suffix_rfl
  | ok out =>
    rw [bind_of_ok h]
    exact hk out.1 out.2

namespace Settles

variable {ι κ : Type} {us : List Token} {t : Token}

theorem reindex {r : κ → Reader β} (h : Settles r us t) (f : ι → κ) :
    Settles (fun i => r (f i)) us t := by
  cases h with
  | leaves finding vs h => exact .leaves finding vs fun i => h (f i)
  | takes h => exact .takes fun i => h (f i)

/-- What is left of the tokens up to one is left to the readers that follow. -/
theorem bind {r : Reader β} {k : ι → β → Reader γ} (hr : Settles (fun _ : Unit => r) us t)
    (hk : ∀ b vs, (∀ after, r (us ++ t :: after) = .ok (b, vs ++ t :: after)) →
      Settles (fun i => k i b) vs t)
    (hsuffix : ∀ i b ts, left (k i b ts) <:+ ts) : Settles (fun i => r >>= k i) us t := by
  cases hr with
  | takes h => exact .takes fun i after => (left_bind (hsuffix i) _).trans (h () after)
  | leaves finding vs h =>
    cases finding with
    | error fault => exact .leaves (.error fault) vs fun i after => bind_of_error (h () after)
    | ok b =>
      have hbind : ∀ i after, (r >>= k i) (us ++ t :: after) = k i b (vs ++ t :: after) :=
        fun i after => bind_of_ok (h () after)
      cases hk b vs (h ()) with
      | leaves finding ws h' =>
        exact .leaves finding ws fun i after => (hbind i after).trans (h' i after)
      | takes h' =>
        refine .takes fun i after => ?_
        rw [hbind]
        exact h' i after

end Settles

/-- A reader that decides by the first token whether to go on after it. -/
theorem peeks_of_token {r : Reader β} (hnil : left (r []) = [])
    (hcons : ∀ u, (∃ finding, ∀ ts, r (u :: ts) = leaving (u :: ts) finding) ∨
      ∃ k, Peeks k ∧ ∀ ts, r (u :: ts) = k ts) : Peeks r where
  suffix ts := by
    cases ts with
    | nil => simp only [hnil, List.suffix_refl]
    | cons u ts =>
      obtain ⟨finding, h⟩ | ⟨k, hk, h⟩ := hcons u
      · rw [h]
        cases finding <;> exact List.suffix_rfl
      · rw [h]
        exact (hk.suffix ts).trans (List.suffix_cons u ts)
  settles us t := by
    cases us with
    | nil =>
      obtain ⟨finding, h⟩ | ⟨k, hk, h⟩ := hcons t
      · exact .leaves finding [] fun _ => h
      · refine .takes fun _ after => ?_
        rw [List.nil_append, h]
        exact hk.suffix after
    | cons u us =>
      obtain ⟨finding, h⟩ | ⟨k, hk, h⟩ := hcons u
      · exact .leaves finding (u :: us) fun _ after => h (us ++ t :: after)
      · cases hk.settles us t with
        | leaves finding vs hvs => exact .leaves finding vs fun i after => (h _).trans (hvs i after)
        | takes htakes =>
          refine .takes fun i after => ?_
          rw [List.cons_append, h]
          exact htakes i after

/-- A reader that does as others do, one for each first token. -/
theorem peeks_of_head {r : Reader β} {k : Token → Reader β} (hk : ∀ u, Peeks (k u))
    (hnil : left (r []) = []) (hcons : ∀ u ts, r (u :: ts) = k u (u :: ts)) : Peeks r where
  suffix ts := by
    cases ts with
    | nil => simp only [hnil, List.suffix_refl]
    | cons u ts =>
      rw [hcons]
      exact (hk u).suffix (u :: ts)
  settles us t := by
    obtain ⟨u, hu⟩ : ∃ u, ∀ after, r (us ++ t :: after) = k u (us ++ t :: after) := by
      cases us with
      | nil => exact ⟨t, hcons t⟩
      | cons u us => exact ⟨u, fun after => hcons u _⟩
    cases (hk u).settles us t with
    | leaves finding vs h => exact .leaves finding vs fun i after => (hu after).trans (h i after)
    | takes h =>
      refine .takes fun i after => ?_
      rw [hu]
      exact h i after

theorem peeks_pure (b : β) : Peeks (pure b) where
  suffix _ := List.suffix_rfl
  settles us _ := .leaves (.ok b) us fun _ _ => rfl

theorem peeks_fail (fault : ShapeFault) (line : Option Nat) : Peeks (fail fault line : Reader β) where
  suffix _ := List.suffix_rfl
  settles us _ := .leaves (.error (fault, line)) us fun _ _ => rfl

theorem peeks_unexpected (wanted : Wanted) : Peeks (unexpected wanted : Reader β) :=
  peeks_of_token rfl fun u => .inl ⟨.error (.unexpected wanted (some u.text), none), fun _ => rfl⟩

theorem Peeks.bind {r : Reader β} {k : β → Reader γ} (hr : Peeks r) (hk : ∀ b, Peeks (k b)) :
    Peeks (r >>= k) where
  suffix ts := (left_bind (fun b => (hk b).suffix) ts).trans (hr.suffix ts)
  settles us t := (hr.settles us t).bind (fun b vs _ => (hk b).settles vs t) fun _ b => (hk b).suffix

theorem Peeks.ite {p : Prop} [Decidable p] {r r' : Reader β} (h : Peeks r) (h' : Peeks r') :
    Peeks (if p then r else r') := by
  split
  · exact h
  · exact h'

section Loops

variable {stop : Reader Bool} {step : σ → Reader σ}

/-- Every round of the loop takes a token. -/
def Shrinks (stop : Reader Bool) (step : σ → Reader σ) : Prop :=
  ∀ {s s' ts mid rest}, stop ts = .ok (false, mid) → step s mid = .ok (s', rest) →
    rest.length < ts.length

/-- A round of the loop, and the loop after it if it does not stop. -/
def round (stop : Reader Bool) (step : σ → Reader σ) (n : Nat) (s : σ) (stopped : Bool) : Reader σ :=
  if stopped then pure s else step s >>= repeatFor stop step n

theorem repeatFor_succ (stop : Reader Bool) (step : σ → Reader σ) (n : Nat) (s : σ) :
    repeatFor stop step (n + 1) s = stop >>= round stop step n s := rfl

theorem left_round {n : Nat} (hstep : ∀ s, Peeks (step s))
    (h : ∀ s ts, left (repeatFor stop step n s ts) <:+ ts) (s : σ) (stopped : Bool)
    (ts : List Token) : left (round stop step n s stopped ts) <:+ ts := by
  cases stopped with
  | true => exact List.suffix_rfl
  | false => exact (left_bind h ts).trans ((hstep s).suffix ts)

variable (hstop : Peeks stop) (hstep : ∀ s, Peeks (step s))
include hstop hstep

theorem left_repeatFor (n : Nat) (s : σ) (ts : List Token) :
    left (repeatFor stop step n s ts) <:+ ts := by
  induction n generalizing s ts with
  | zero => exact (peeks_unexpected _).suffix ts
  | succ n ih =>
    rw [repeatFor_succ]
    exact (left_bind (left_round hstep ih s) ts).trans (hstop.suffix ts)

/-- A loop leaves a token or takes it, whatever the number of rounds, if there is one for each token
before it. The induction is on these tokens, which become fewer with each round. -/
theorem settles_repeatFor (hshrinks : Shrinks stop step) (t : Token) (us : List Token) (s : σ) :
    Settles (fun n : { n // us.length < n } => repeatFor stop step n s) us t := by
  induction hlength : us.length using Nat.strongRecOn generalizing us s with | _ length ih
  have hsucc : (fun n : { n // length < n } => repeatFor stop step n s) =
      fun n => stop >>= round stop step (n.1 - 1) s := by
    funext n
    rw [← repeatFor_succ, Nat.sub_add_cancel (Nat.zero_lt_of_lt n.2)]
  rw [hsucc]
  refine (hstop.settles us t).bind (fun stopped vs hvs => ?_) fun n =>
    left_round hstep (left_repeatFor hstop hstep _) s
  cases stopped with
  | true => exact .leaves (.ok s) vs fun _ _ => rfl
  | false =>
    refine ((hstep s).settles vs t).bind (fun s' ws hws => ?_) fun n => left_repeatFor hstop hstep _
    have hless : ws.length < length := by
      have hround := hshrinks (hvs []) (hws [])
      rw [List.length_append, List.length_append] at hround
      omega
    exact (ih ws.length hless ws s' rfl).reindex fun n : { n // length < n } =>
      ⟨n.1 - 1, Nat.lt_sub_of_add_lt (Nat.lt_of_le_of_lt hless n.2)⟩

theorem Peeks.repeatUntil (hshrinks : Shrinks stop step) (s : σ) :
    Peeks (repeatUntil stop step s) where
  suffix ts := left_repeatFor hstop hstep _ s ts
  settles us t := by
    have hrounds : ∀ after : List Token, us.length < (us ++ t :: after).length + 1 := by
      intro after
      rw [List.length_append]
      omega
    cases settles_repeatFor hstop hstep hshrinks t us s with
    | leaves finding vs h => exact .leaves finding vs fun _ after => h ⟨_, hrounds after⟩ after
    | takes h => exact .takes fun _ after => h ⟨_, hrounds after⟩ after

end Loops

/-- What a phrase with a token is read from gets shorter. -/
theorem Reads.length_lt {r : Reader β} {P : Phrase β} {more : List String} (h : Reads r P more)
    (hP : ∀ {b}, ¬ P [] b) {ts rest : List Token} {b : β} (hr : r ts = .ok (b, rest)) :
    rest.length < ts.length := by
  obtain ⟨xs, hts, hxs⟩ := h.sound hr
  exact length_lt_of_texts hts fun heq => hP (heq ▸ hxs)

section Terminals

theorem peeks_accept (word : String) : Peeks (accept word) := by
  refine peeks_of_token rfl fun u => ?_
  by_cases hu : u.text = word
  · exact .inr ⟨_, peeks_pure true, fun ts => if_pos hu⟩
  · exact .inl ⟨.ok false, fun ts => if_neg hu⟩

theorem peeks_expect (word : String) : Peeks (expect word) :=
  (peeks_accept word).bind fun _ => (peeks_pure ()).ite (peeks_unexpected _)

theorem peeks_integer : Peeks integer := by
  refine peeks_of_token rfl fun u => ?_
  simp only [integer]
  cases digits? u.text with
  | none => exact .inl ⟨.error (.unexpected .integer (some u.text), none), fun _ => rfl⟩
  | some n =>
    by_cases hn : n < 2147483648
    · exact .inr ⟨_, peeks_pure n, fun ts => if_pos hn⟩
    · exact .inl ⟨.error (.integerTooLarge u.text, none), fun ts => if_neg hn⟩

theorem peeks_name : Peeks name := by
  refine peeks_of_token rfl fun u => ?_
  by_cases hu : isName u.text = true
  · exact .inr ⟨_, peeks_pure u.text, fun ts => if_pos hu⟩
  · exact .inl ⟨.error (.unexpected .name (some u.text), none), fun ts => if_neg hu⟩

theorem peeks_literal : Peeks literal := by
  refine peeks_of_token rfl fun u => ?_
  simp only [literal]
  cases unquoted? u.text with
  | none => exact .inl ⟨.error (.unexpected .literal (some u.text), none), fun _ => rfl⟩
  | some text => exact .inr ⟨_, peeks_pure text, fun _ => rfl⟩

end Terminals

section Values

theorem peeks_decimal {α : Type} [Scalar α] : Peeks (decimal : Reader α) :=
  (peeks_accept "-").bind fun _ => peeks_integer.bind fun _ => (peeks_accept ".").bind fun _ =>
    (peeks_integer.bind fun _ => peeks_pure _).ite (peeks_pure _)

theorem peeks_triple {α : Type} [Scalar α] : Peeks (triple : Reader (Vec3 α)) :=
  peeks_decimal.bind fun _ => (peeks_expect ",").bind fun _ => peeks_decimal.bind fun _ =>
    (peeks_expect ",").bind fun _ => peeks_decimal.bind fun _ => peeks_pure _

theorem peeks_pixel : Peeks pixel :=
  peeks_integer.bind fun _ => (peeks_expect ",").bind fun _ => peeks_integer.bind fun _ => peeks_pure _

theorem peeks_assigned {value : Reader β} (h : Peeks value) : Peeks (assigned value) :=
  (peeks_expect "=").bind fun _ => h.bind fun _ => (peeks_expect ";").bind fun _ => peeks_pure _

variable {item : Reader β} (h : Peeks item)
include h

/-- A comma begins a round, and each round takes it. -/
theorem peeks_moreItems (items : List β) : Peeks (moreItems item items) := by
  have hstep := fun items : List β => h.bind fun b => peeks_pure (items ++ [b])
  refine Peeks.repeatUntil ((peeks_accept ",").bind fun _ => peeks_pure _) hstep
    (fun {items _ ts _ rest} hstop hitem => ?_) items
  obtain ⟨comma, mid, hcomma, hstop⟩ := bind_eq_ok_iff.1 hstop
  obtain ⟨hcontinue, rfl⟩ := pure_eq_ok_iff.1 hstop
  obtain ⟨xs, hts, hflag⟩ := accept_sound hcomma
  have hrest : rest.length ≤ mid.length := ((hstep items).suffix_of_ok hitem).length_le
  cases hflag with
  | down => cases hcontinue
  | up => exact Nat.lt_of_le_of_lt hrest (length_lt_of_texts hts (List.cons_ne_nil _ _))

theorem peeks_others (wanted : Wanted) (first : β) : Peeks (others item wanted first) :=
  (peeks_moreItems h [first]).bind fun _ => (peeks_unexpected wanted).ite (peeks_pure _)

end Values

theorem peeks_texCoords : Peeks texCoords := by
  rw [texCoords_eq]
  exact peeks_pixel.bind fun first => (peeks_accept ":").bind fun _ =>
    (peeks_pixel.bind fun _ => peeks_pure _).ite
      ((peeks_others peeks_pixel .moreTexCoords first).bind fun _ => peeks_pure _)

theorem peeks_face : Peeks face := by
  rw [face_eq]
  exact (peeks_integer.bind fun first => peeks_others peeks_integer .moreVertices first).bind fun _ =>
    (peeks_expect ";").bind fun _ => peeks_integer.bind fun _ => peeks_pure _

section Entries

theorem peeks_entryIndex : Peeks entryIndex := by
  refine peeks_of_token rfl fun u => ?_
  by_cases hu : u.text = "["
  · exact .inr ⟨_, peeks_integer.bind fun index => (peeks_expect "]").bind fun _ =>
      peeks_pure (some (index, u.line)), fun ts => if_pos hu⟩
  · exact .inl ⟨.ok none, fun ts => if_neg hu⟩

theorem peeks_place (kind : EntryList) (list : List β) (index : Option (Nat × Nat)) (v : β) :
    Peeks (place kind list index v) := by
  unfold place
  split
  · exact peeks_pure _
  · exact (peeks_pure _).ite (peeks_fail _ _)

theorem peeks_entry {value : Reader β} (h : Peeks value) (kind : EntryList) (list : List β) :
    Peeks (entry kind value list) :=
  peeks_of_head (fun _ => peeks_entryIndex.bind fun index => h.bind fun v =>
    (peeks_expect ";").bind fun _ => peeks_place kind list index v) rfl (entry_cons kind value list)

/-- A block takes the tokens of its elements. -/
theorem peeks_block {step : σ → Reader σ} {P : Phrase β} {fits : σ → β → Prop} {next : σ → β → σ}
    (hstep : ∀ s, Peeks (step s)) (hreads : ∀ s, Reads (step s) (Updates P fits next s) [])
    (hP : ∀ {b}, ¬ P [] b) (s : σ) :
    Peeks (do expect "\x7b"; repeatUntil (accept "\x7d") step s) := by
  refine (peeks_expect _).bind fun _ => Peeks.repeatUntil (peeks_accept _) hstep
    (fun {s _ ts mid rest} hstop hs => ?_) s
  have hmid : mid.length ≤ ts.length := ((peeks_accept _).suffix_of_ok hstop).length_le
  exact Nat.lt_of_lt_of_le ((hreads s).length_lt (fun ⟨_, h, _⟩ => hP h) hs) hmid

theorem peeks_entries {value : Reader β} {P : Phrase β} {more : List String} (h : Peeks value)
    (hreads : Reads value P more) (hmore : ";" ∉ more) (hbare : ∀ {xs v}, P xs v → Bare xs)
    (kind : EntryList) (list : List β) : Peeks (entries kind value list) := by
  refine peeks_block (peeks_entry h kind) (reads_entry hreads hmore hbare kind) ?_ list
  intro e he
  generalize hxs : ([] : List String) = xs at he
  obtain ⟨-, -⟩ := he
  simp at hxs

end Entries

section Statements

variable {α : Type} [Scalar α]

theorem peeks_statement (s : Shape α) : Peeks (statement s) := by
  have hinteger := peeks_assigned peeks_integer
  have hliteral := peeks_assigned peeks_literal
  have htriple := peeks_assigned (peeks_triple (α := α))
  have hvertices := peeks_entries (peeks_triple (α := α)) reads_triple (by simp) bare_triple
    .vertices s.vertices
  have htexCoords := peeks_entries peeks_texCoords reads_texCoords (by simp) bare_texturePoints
    .texCoords s.texCoords
  have hfaces := peeks_entries peeks_face reads_face (by simp) bare_polygon .faces s.faces
  refine peeks_of_token rfl fun u => ?_
  simp only [statement]
  split
  · exact .inr ⟨_, hinteger.bind fun n => peeks_pure _, fun _ => rfl⟩
  · exact .inr ⟨_, hliteral.bind fun text => peeks_pure _, fun _ => rfl⟩
  · exact .inr ⟨_, htriple.bind fun v => peeks_pure _, fun _ => rfl⟩
  · exact .inr ⟨_, hinteger.bind fun n => peeks_pure _, fun _ => rfl⟩
  · exact .inr ⟨_, hliteral.bind fun text => peeks_pure _, fun _ => rfl⟩
  · exact .inr ⟨_, htriple.bind fun v => peeks_pure _, fun _ => rfl⟩
  · exact .inr ⟨_, hvertices.bind fun list => peeks_pure _, fun _ => rfl⟩
  · exact .inr ⟨_, htexCoords.bind fun list => peeks_pure _, fun _ => rfl⟩
  · exact .inr ⟨_, hfaces.bind fun list => peeks_pure _, fun _ => rfl⟩
  · exact .inl ⟨.error (.unknownStatement _, none), fun _ => rfl⟩

theorem peeks_statements (s : Shape α) : Peeks (statements s) := by
  refine peeks_block peeks_statement reads_statement ?_ s
  rintro _ ⟨⟩

end Statements

end Masonry.Reader
