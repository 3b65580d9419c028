import Masonry.Shape.Reading
import Masonry.Proofs.Shape.Grammar

/-!
# Readers and phrases

A reader reads a phrase (`Reader.Reads`) if what it takes from the front of the tokens spells the
value that it returns, and if it takes every spelling of a value that stands at the front. Some
readers take as much as they can, such as a fraction after a number; what would be part of their
phrase cannot stand after it. The relation is closed under the ways in which readers are put together;
for loops this is the loop rule (`Reader.Rounds.reads`).
-/

namespace Masonry

/-- The texts of tokens. -/
def texts (ts : List Token) : List String := ts.map Token.text

theorem texts_append (ts ts' : List Token) : texts (ts ++ ts') = texts ts ++ texts ts' :=
  List.map_append

/-- Fewer tokens are left where some have been taken. -/
theorem length_lt_of_texts {ts rest : List Token} {xs : List String}
    (h : texts ts = xs ++ texts rest) (hxs : xs ≠ []) : rest.length < ts.length := by
  have hlength := congrArg List.length h
  have hpos := List.length_pos_iff.2 hxs
  simp only [texts, List.length_append, List.length_map] at hlength
  omega

namespace Reader

variable {β γ σ : Type}

theorem bind_eq_ok_iff {r : Reader β} {k : β → Reader γ} {ts rest : List Token} {c : γ} :
    (r >>= k) ts = .ok (c, rest) ↔ ∃ b mid, r ts = .ok (b, mid) ∧ k b mid = .ok (c, rest) := by
  show (r ts).bind (fun out => k out.1 out.2) = _ ↔ _
  cases r ts with
  | error failure => simp [Except.bind]
  | ok out =>
    simp only [Except.bind, Except.ok.injEq]
    constructor
    · exact fun h => ⟨out.1, out.2, rfl, h⟩
    · rintro ⟨b, mid, rfl, h⟩
      exact h

theorem bind_of_ok {r : Reader β} {k : β → Reader γ} {ts mid : List Token} {b : β}
    (h : r ts = .ok (b, mid)) : (r >>= k) ts = k b mid := by
  show (r ts).bind (fun out => k out.1 out.2) = _
  rw [h]
  rfl

theorem pure_eq_ok_iff {b c : β} {ts rest : List Token} :
    (pure b : Reader β) ts = .ok (c, rest) ↔ b = c ∧ ts = rest := by
  show Except.ok (b, ts) = .ok (c, rest) ↔ _
  simp

/-- The reader takes spellings of the value that it returns from the front of the tokens, and takes
each one that stands there and is not followed by one of the words `more`. -/
structure Reads (r : Reader β) (P : Phrase β) (more : List String) : Prop where
  sound : ∀ {ts b rest}, r ts = .ok (b, rest) → ∃ xs, texts ts = xs ++ texts rest ∧ P xs b
  complete : ∀ {ts xs ys b}, P xs b → texts ts = xs ++ ys →
    (hnext : ∀ y ∈ ys.head?, y ∉ more := by simp) → ∃ rest, r ts = .ok (b, rest) ∧ texts rest = ys

theorem texts_eq_cons_iff {ts : List Token} {x : String} {ys : List String} :
    texts ts = x :: ys ↔ ∃ t rest, ts = t :: rest ∧ t.text = x ∧ texts rest = ys := by
  simp [texts, List.map_eq_cons_iff]

section Words

variable {word : String}

theorem accept_sound {ts rest : List Token} {b : Bool} (h : accept word ts = .ok (b, rest)) :
    ∃ xs, texts ts = xs ++ texts rest ∧ Phrase.Flag word xs b := by
  cases ts with
  | nil =>
    cases h
    exact ⟨[], rfl, .down⟩
  | cons t ts =>
    simp only [accept] at h
    split at h <;> cases h
    · next ht => exact ⟨[word], by rw [← ht]; rfl, .up⟩
    · exact ⟨[], rfl, .down⟩

theorem accept_of_cons {ts : List Token} {ys : List String} (h : texts ts = word :: ys) :
    ∃ rest, accept word ts = .ok (true, rest) ∧ texts rest = ys := by
  obtain ⟨t, rest, rfl, ht, hrest⟩ := texts_eq_cons_iff.1 h
  exact ⟨rest, if_pos ht, hrest⟩

theorem accept_of_head_ne {ts : List Token} (h : ∀ y ∈ (texts ts).head?, y ≠ word) :
    accept word ts = .ok (false, ts) := by
  cases ts with
  | nil => rfl
  | cons t ts => exact if_neg (h t.text rfl)

theorem accept_complete {ts : List Token} {xs ys : List String} {b : Bool}
    (h : Phrase.Flag word xs b) (hts : texts ts = xs ++ ys) (hnext : ∀ y ∈ ys.head?, y ≠ word) :
    ∃ rest, accept word ts = .ok (b, rest) ∧ texts rest = ys := by
  cases h with
  | up => exact accept_of_cons hts
  | down => exact ⟨ts, accept_of_head_ne (by rw [hts]; exact hnext), hts⟩

theorem expect_sound {ts rest : List Token} {u : Unit} (h : expect word ts = .ok (u, rest)) :
    texts ts = word :: texts rest := by
  obtain ⟨b, mid, haccept, h⟩ := bind_eq_ok_iff.1 h
  cases b with
  | false => cases h
  | true =>
    obtain ⟨xs, hts, hxs⟩ := accept_sound haccept
    cases hxs
    cases h
    exact hts

theorem expect_of_cons {ts : List Token} {ys : List String} (h : texts ts = word :: ys) :
    ∃ rest, expect word ts = .ok ((), rest) ∧ texts rest = ys := by
  obtain ⟨rest, haccept, hrest⟩ := accept_of_cons h
  exact ⟨rest, bind_of_ok haccept, hrest⟩

end Words

namespace Reads

variable {r : Reader β} {P P' : Phrase β} {Q : β → Phrase γ} {k : β → Reader γ} {word : String}
  {more more' : List String}

theorem congr (h : Reads r P more) (hP : ∀ xs b, P xs b ↔ P' xs b) : Reads r P' more := by
  have heq : P = P' := by
    funext xs b
    exact propext (hP xs b)
  exact heq ▸ h

/-- What is read is turned into another value. -/
theorem map (h : Reads r P more) (f : β → γ) :
    Reads (do return f (← r)) (fun xs c => ∃ b, P xs b ∧ f b = c) more where
  sound hr := by
    obtain ⟨b, mid, hb, hr⟩ := bind_eq_ok_iff.1 hr
    obtain ⟨rfl, rfl⟩ := pure_eq_ok_iff.1 hr
    obtain ⟨xs, hts, hP⟩ := h.sound hb
    exact ⟨xs, hts, b, hP, rfl⟩
  complete hP hts hnext := by
    obtain ⟨b, hP, rfl⟩ := hP
    obtain ⟨rest, hr, hrest⟩ := h.complete hP hts hnext
    exact ⟨rest, bind_of_ok hr, hrest⟩

/-- A word comes first. -/
theorem after (h : Reads r P more) :
    Reads (do expect word; r) (Phrase.After word P) more where
  sound hr := by
    obtain ⟨_, mid, hword, hr⟩ := bind_eq_ok_iff.1 hr
    obtain ⟨xs, hmid, hP⟩ := h.sound hr
    exact ⟨word :: xs, by rw [expect_sound hword, hmid]; rfl, .mk hP⟩
  complete hP hts hnext := by
    obtain ⟨hP⟩ := hP
    obtain ⟨mid, hword, hmid⟩ := expect_of_cons hts
    obtain ⟨rest, hr, hrest⟩ := h.complete hP hmid hnext
    exact ⟨rest, (bind_of_ok hword).trans hr, hrest⟩

/-- One phrase follows another that it is no part of. -/
theorem bind (h : Reads r P more) (hk : ∀ b, Reads (k b) (Q b) more')
    (hQ : ∀ {b xs c}, Q b xs c → more = [] ∨ ∃ x ys, xs = x :: ys ∧ x ∉ more) :
    Reads (r >>= k) (fun zs c => ∃ b xs ys, zs = xs ++ ys ∧ P xs b ∧ Q b ys c) more' where
  sound hr := by
    obtain ⟨b, mid, hb, hr⟩ := bind_eq_ok_iff.1 hr
    obtain ⟨xs, hts, hP⟩ := h.sound hb
    obtain ⟨ys, hmid, hQ⟩ := (hk b).sound hr
    exact ⟨_, by rw [hts, hmid, List.append_assoc], b, xs, ys, rfl, hP, hQ⟩
  complete hc hts hnext := by
    obtain ⟨b, xs, ys, rfl, hP, hc⟩ := hc
    rw [List.append_assoc] at hts
    obtain ⟨mid, hb, hmid⟩ := h.complete hP hts <| by
      obtain rfl | ⟨x, ys, rfl, hx⟩ := hQ hc
      · simp
      · simpa using hx
    obtain ⟨rest, hc, hrest⟩ := (hk b).complete hc hmid hnext
    exact ⟨rest, (bind_of_ok hb).trans hc, hrest⟩

/-- A word that the first phrase does not take separates two phrases. -/
theorem sep (h : Reads r P more) (hmore : word ∉ more) (hk : ∀ b, Reads (k b) (Q b) more') :
    Reads (do let b ← r; expect word; k b)
      (fun zs c => ∃ b xs ys, zs = xs ++ word :: ys ∧ P xs b ∧ Q b ys c) more' := by
  refine (h.bind (fun b => (hk b).after) fun hQ => ?_).congr fun zs c => ?_
  · obtain ⟨_⟩ := hQ
    exact .inr ⟨_, _, rfl, hmore⟩
  · constructor
    · rintro ⟨b, xs, _, rfl, hP, ⟨hQ⟩⟩
      exact ⟨b, xs, _, rfl, hP, hQ⟩
    · rintro ⟨b, xs, ys, rfl, hP, hQ⟩
      exact ⟨b, xs, _, rfl, hP, .mk hQ⟩

theorem weaken (h : Reads r P more) (hmore : more ⊆ more') : Reads r P more' where
  sound := h.sound
  complete hP hts hnext := h.complete hP hts fun y hy hy' => hnext y hy (hmore hy')

/-- A word decides between two phrases. -/
theorem choice {r' : Reader β} (h : Reads r P more) (h' : Reads r' P' more)
    (hP' : ∀ {xs b}, P' xs b → (xs = [] ∧ word ∈ more) ∨ ∃ x ys, xs = x :: ys ∧ x ≠ word) :
    Reads (do if ← accept word then r else r')
      (fun xs b => Phrase.After word P xs b ∨ P' xs b) more where
  sound hr := by
    obtain ⟨found, mid, hfound, hr⟩ := bind_eq_ok_iff.1 hr
    obtain ⟨xs, hts, hflag⟩ := accept_sound hfound
    cases hflag with
    | up =>
      obtain ⟨ys, hmid, hP⟩ := h.sound hr
      exact ⟨word :: ys, by rw [hts, hmid]; rfl, .inl (.mk hP)⟩
    | down =>
      obtain ⟨ys, hmid, hP⟩ := h'.sound hr
      exact ⟨ys, hts.trans hmid, .inr hP⟩
  complete {ts xs ys b} hb hts hnext := by
    obtain ⟨⟨hP⟩⟩ | hP := hb
    · obtain ⟨mid, hfound, hmid⟩ := accept_of_cons hts
      obtain ⟨rest, hr, hrest⟩ := h.complete hP hmid hnext
      exact ⟨rest, (bind_of_ok hfound).trans hr, hrest⟩
    · have hfound : accept word ts = .ok (false, ts) := by
        apply accept_of_head_ne
        obtain ⟨rfl, hword⟩ | ⟨x, zs, rfl, hx⟩ := hP' hP
        · intro y hy
          rw [hts] at hy
          exact fun heq => hnext y hy (heq ▸ hword)
        · rw [hts]
          simpa using hx
      obtain ⟨rest, hr, hrest⟩ := h'.complete hP hts hnext
      exact ⟨rest, (bind_of_ok hfound).trans hr, hrest⟩

end Reads

/-- Nothing spells a value that is not read. -/
theorem reads_pure (b : β) : Reads (pure b) (fun xs c => xs = [] ∧ b = c) [] where
  sound h := by
    obtain ⟨rfl, rfl⟩ := pure_eq_ok_iff.1 h
    exact ⟨[], rfl, rfl, rfl⟩
  complete h hts _ := by
    obtain ⟨rfl, rfl⟩ := h
    exact ⟨_, rfl, hts⟩

/-- A reader that fails reads what has no spelling. -/
theorem reads_fail (fault : ShapeFault) (line : Option Nat) {P : Phrase β} {more : List String}
    (hP : ∀ {xs b}, ¬ P xs b) : Reads (fail fault line) P more where
  sound h := by cases h
  complete h _ _ := absurd h hP

theorem reads_accept (word : String) : Reads (accept word) (Phrase.Flag word) [word] where
  sound := accept_sound
  complete h hts hnext := accept_complete h hts fun y hy => by simpa using hnext y hy

/-- Each round of a loop reads an element that fits the state into it, and a round is taken as long as
an element stands at the front; else the loop is closed by some words. -/
structure Rounds (stop : Reader Bool) (step : σ → Reader σ) (P : Phrase β) (fits : σ → β → Prop)
    (next : σ → β → σ) (close more : List String) : Prop where
  sound : ∀ {s s' ts mid rest}, stop ts = .ok (false, mid) → step s mid = .ok (s', rest) →
    ∃ xs b, texts ts = xs ++ texts rest ∧ P xs b ∧ fits s b ∧ next s b = s'
  complete : ∀ {s ts xs ys b}, P xs b → fits s b → texts ts = xs ++ ys →
    ∃ mid rest, stop ts = .ok (false, mid) ∧ step s mid = .ok (next s b, rest) ∧ texts rest = ys
  closed : ∀ {ts rest}, stop ts = .ok (true, rest) → texts ts = close ++ texts rest
  closes : ∀ {ts ys}, texts ts = close ++ ys → (∀ y ∈ ys.head?, y ∉ more) →
    ∃ rest, stop ts = .ok (true, rest) ∧ texts rest = ys
  nonempty : ∀ {xs b}, P xs b → xs ≠ []

namespace Rounds

variable {stop : Reader Bool} {step : σ → Reader σ} {P : Phrase β} {fits : σ → β → Prop}
  {next : σ → β → σ} {close more : List String}

/-- A loop that returns has read elements one after the other, each into the state that those before
it led to. -/
theorem repeatFor_sound (hr : Rounds stop step P fits next close more) {n : Nat} {s s' : σ}
    {ts rest : List Token} (h : repeatFor stop step n s ts = .ok (s', rest)) :
    ∃ xs bs, texts ts = xs ++ (close ++ texts rest) ∧ Phrase.Many P xs bs ∧
      Along fits next s bs ∧ bs.foldl next s = s' := by
  induction n generalizing s ts with
  | zero => cases h
  | succ n ih =>
    obtain ⟨stopped, mid, hstopped, h⟩ := bind_eq_ok_iff.1 h
    cases stopped with
    | true =>
      obtain ⟨rfl, rfl⟩ := pure_eq_ok_iff.1 h
      exact ⟨[], [], hr.closed hstopped, .nil, trivial, rfl⟩
    | false =>
      obtain ⟨s₁, mid₁, hstep, h⟩ := bind_eq_ok_iff.1 h
      obtain ⟨xs, b, hts, hP, hfits, rfl⟩ := hr.sound hstopped hstep
      obtain ⟨ys, bs, hmid, hbs, halong, rfl⟩ := ih h
      exact ⟨xs ++ ys, b :: bs, by rw [hts, hmid, List.append_assoc], .cons hP hbs, ⟨hfits, halong⟩,
        rfl⟩

/-- Elements that fit are read, given more rounds than there are elements. -/
theorem repeatFor_complete (hr : Rounds stop step P fits next close more) {xs ys : List String}
    {bs : List β} (hbs : Phrase.Many P xs bs) {n : Nat} (hn : bs.length < n) {s : σ}
    (hfits : Along fits next s bs) {ts : List Token} (hts : texts ts = xs ++ (close ++ ys))
    (hnext : ∀ y ∈ ys.head?, y ∉ more) :
    ∃ rest, repeatFor stop step n s ts = .ok (bs.foldl next s, rest) ∧ texts rest = ys := by
  induction hbs generalizing n s ts with
  | nil =>
    obtain ⟨n, rfl⟩ : ∃ m, n = m + 1 := ⟨n - 1, by omega⟩
    obtain ⟨rest, hstopped, hrest⟩ := hr.closes hts hnext
    exact ⟨rest, bind_of_ok hstopped, hrest⟩
  | cons hP _ ih =>
    obtain ⟨n, rfl⟩ : ∃ m, n = m + 1 := ⟨n - 1, by omega⟩
    obtain ⟨hb, hfits⟩ := hfits
    rw [List.append_assoc] at hts
    obtain ⟨mid, mid₁, hstopped, hstep, hmid⟩ := hr.complete hP hb hts
    obtain ⟨rest, hrounds, hrest⟩ := ih (Nat.lt_of_succ_lt_succ hn) hfits hmid
    exact ⟨rest, (bind_of_ok hstopped).trans ((bind_of_ok hstep).trans hrounds), hrest⟩

theorem length_le (hr : Rounds stop step P fits next close more) {xs : List String} {bs : List β}
    (h : Phrase.Many P xs bs) : bs.length ≤ xs.length := by
  induction h with
  | nil => exact Nat.le_refl _
  | cons hb _ ih =>
    have hlength := List.length_pos_iff.2 (hr.nonempty hb)
    rw [List.length_append, List.length_cons]
    omega

/-- The loop rule: a loop reads elements and the words that close it. -/
theorem reads (hr : Rounds stop step P fits next close more) (s : σ) :
    Reads (repeatUntil stop step s) (fun zs s' => ∃ xs bs, zs = xs ++ close ∧ Phrase.Many P xs bs ∧
      Along fits next s bs ∧ bs.foldl next s = s') more where
  sound h := by
    obtain ⟨xs, bs, hts, hbs, halong, hs'⟩ := hr.repeatFor_sound h
    exact ⟨_, by rw [hts, List.append_assoc], xs, bs, rfl, hbs, halong, hs'⟩
  complete {ts zs ys s'} h hts hnext := by
    obtain ⟨xs, bs, rfl, hbs, halong, rfl⟩ := h
    rw [List.append_assoc] at hts
    have hlength := congrArg List.length hts
    rw [texts, List.length_map, List.length_append] at hlength
    have hrounds := hr.length_le hbs
    exact hr.repeatFor_complete hbs (by omega) halong hts hnext

end Rounds

/-- A phrase that changes a state by an element that fits it. -/
def Updates (P : Phrase β) (fits : σ → β → Prop) (next : σ → β → σ) (s : σ) : Phrase σ :=
  fun xs s' => ∃ b, P xs b ∧ fits s b ∧ next s b = s'

section Blocks

variable {P : Phrase β} {fits : σ → β → Prop} {next : σ → β → σ}

variable {step : σ → Reader σ} (hstep : ∀ s, Reads (step s) (Updates P fits next s) [])
  (hopen : ∀ {xs b}, P xs b → ∃ x ys, xs = x :: ys ∧ x ≠ "\x7d")
include hstep hopen

/-- The elements of a block are told from its end by their first word. -/
theorem rounds_block : Rounds (accept "\x7d") step P fits next ["\x7d"] [] where
  sound {s s' ts mid rest} hstop hs' := by
    obtain ⟨xs, hts, hflag⟩ := accept_sound hstop
    obtain ⟨ys, hmid, b, hP, hfits, hnext⟩ := (hstep s).sound hs'
    cases hflag
    exact ⟨ys, b, hts.trans hmid, hP, hfits, hnext⟩
  complete {s ts xs ys b} hP hfits hts := by
    obtain ⟨rest, hs', hrest⟩ := (hstep s).complete ⟨b, hP, hfits, rfl⟩ hts
    obtain ⟨x, zs, rfl, hx⟩ := hopen hP
    exact ⟨ts, rest, accept_of_head_ne (by rw [hts]; simpa using hx), hs', hrest⟩
  closed hstop := by
    obtain ⟨xs, hts, hflag⟩ := accept_sound hstop
    cases hflag
    exact hts
  closes hts _ := accept_of_cons hts
  nonempty hP := by
    obtain ⟨x, zs, rfl, -⟩ := hopen hP
    exact List.cons_ne_nil _ _

/-- A block reads its elements into the state one after the other. -/
theorem reads_block (s : σ) : Reads (do expect "\x7b"; repeatUntil (accept "\x7d") step s)
    (Updates (Phrase.Block P) (Along fits next) (List.foldl next) s) [] := by
  refine ((rounds_block hstep hopen).reads s).after.congr fun zs s' => ?_
  constructor
  · rintro ⟨⟨xs, bs, rfl, hbs, halong, hs'⟩⟩
    exact ⟨bs, .mk hbs, halong, hs'⟩
  · rintro ⟨bs, ⟨hbs⟩, halong, hs'⟩
    exact .mk ⟨_, bs, rfl, hbs, halong, hs'⟩

end Blocks

end Reader

end Masonry
