import Masonry.Proofs.Catalog.Continuing
import Masonry.Proofs.Shape.Lookahead

/-!
# Where reading stops

Reading that fails has read the descriptions up to the one that it fails in, and it has looked at no
token behind the one that it stops at: other tokens behind it give the same shapes and the same error
(`Catalog.ofTokens_aborts`).
-/

namespace Masonry

namespace Failure

/-- The index of the token that reading stopped at; the number of tokens if it stopped at their end. -/
def position (f : Failure) (tokens : List Token) : Nat := tokens.length - f.rest.length

end Failure

namespace Reader

variable {α : Type} [Scalar α]

theorem peeks_base (c : Catalog α) (line : Option Nat) (newName : String) :
    Peeks (base c line newName) := by
  refine (peeks_accept "CLONEOF").bind fun _ => (peeks_name.bind fun source => ?_).ite (peeks_pure _)
  split
  · exact peeks_pure _
  · exact peeks_fail _ _

theorem peeks_shapeAt (c : Catalog α) (line : Option Nat) : Peeks (shapeAt c line) :=
  (peeks_expect "OBJ").bind fun _ => peeks_name.bind fun newName =>
    (peeks_fail _ _).ite ((peeks_base c line newName).bind peeks_statements)

theorem peeks_shape (c : Catalog α) : Peeks (shape c) :=
  peeks_of_head (fun u => peeks_shapeAt c (some u.line)) rfl fun _ _ => shape_eq c _

end Reader

namespace Catalog

variable {α : Type} [Scalar α]

theorem length_lt_of_shape {c : Catalog α} {ts rest : List Token} {s : Shape α}
    (h : Reader.shape c ts = .ok (s, rest)) : rest.length < ts.length := by
  obtain ⟨xs, hts, d, hd, -⟩ := (Reader.reads_shape c).sound h
  exact length_lt_of_object hd hts

/-- Tokens on which reading fails: complete descriptions, and a block that is none. -/
structure FailsIn (done block : List Token) (ds : List (Description α)) (c : Catalog α) (f : Failure) :
    Prop where
  described : Phrase.Source (texts done) ds
  admissible : Description.Admissible ds
  catalog : Description.catalog ds = c
  fails : Reader.shape c block = .error f
  stops : f.rest <:+ block
  undescribed : ∀ xs ys d, texts block = xs ++ ys → Phrase.Object xs d → ¬ d.Fits c

theorem readShapes_eq_some {n : Nat} {c c' : Catalog α} {ts : List Token} {f : Failure}
    (h : readShapes n c ts = (c', some f)) : ∃ done block ds, ts = done ++ block ∧
      Phrase.Source (texts done) ds ∧ Along Description.Fits Description.addTo c ds ∧
      ds.foldl Description.addTo c = c' ∧ Reader.shape c' block = .error f := by
  induction n generalizing c ts with
  | zero => cases ts <;> cases h
  | succ n ih =>
    cases ts with
    | nil => cases h
    | cons t ts =>
      rw [readShapes] at h
      split at h
      · next s rest hs =>
        obtain ⟨xs, hts, d, hd, hfits, rfl⟩ := (Reader.reads_shape c).sound hs
        obtain ⟨front, hfront⟩ := (Reader.peeks_shape c).suffix_of_ok hs
        obtain ⟨done, block, ds, rfl, hds, halong, hc', hfails⟩ := ih h
        have hxs : texts front = xs := by
          rw [← hfront, texts_append] at hts
          exact List.append_cancel_right hts
        refine ⟨front ++ done, block, d :: ds, ?_, ?_, ⟨hfits, halong⟩, hc', hfails⟩
        · rw [List.append_assoc, hfront]
        · rw [texts_append]
          exact .cons (hxs ▸ hd) hds
      · next failure hs =>
        cases h
        exact ⟨[], t :: ts, [], rfl, .nil, trivial, rfl, hs⟩

theorem suffix_of_readShapes {n : Nat} {c c' : Catalog α} {ts : List Token} {f : Failure}
    (h : readShapes n c ts = (c', some f)) : f.rest <:+ ts := by
  obtain ⟨done, block, ds, rfl, -, -, -, hfails⟩ := readShapes_eq_some h
  exact ((Reader.peeks_shape c').suffix_of_error hfails).trans (List.suffix_append done block)

/-- Reading a shape first. -/
theorem readShapes_succ (n : Nat) (c : Catalog α) {ts : List Token} (hts : ts ≠ []) :
    readShapes (n + 1) c ts = match Reader.shape c ts with
      | .ok (s, rest) => readShapes n (c.push s) rest
      | .error failure => (c, some failure) := by
  cases ts with
  | nil => exact absurd rfl hts
  | cons t ts => rfl

/-- Reading that stops at a token looks at none behind it. The induction is on the tokens before it. -/
theorem readShapes_alike {n n' : Nat} {c c' : Catalog α} {us after : List Token} {t : Token}
    {f : Failure} (hn : us.length < n) (hn' : us.length < n')
    (h : readShapes n c (us ++ t :: after) = (c', some f)) (hrest : f.rest = t :: after)
    (after' : List Token) :
    readShapes n' c (us ++ t :: after') = (c', some { f with rest := t :: after' }) := by
  induction hlength : us.length using Nat.strongRecOn generalizing us c n n' with | _ length ih
  obtain ⟨m, rfl⟩ : ∃ m, n = m + 1 := ⟨n - 1, by omega⟩
  obtain ⟨m', rfl⟩ : ∃ m, n' = m + 1 := ⟨n' - 1, by omega⟩
  rw [readShapes_succ _ _ (by simp)] at h ⊢
  cases (Reader.peeks_shape c).settles us t with
  | takes htakes =>
    -- The token has been taken, so what is left is behind it.
    have hbehind : f.rest <:+ after := by
      have hleft := htakes () after
      cases hs : Reader.shape c (us ++ t :: after) with
      | ok out =>
        rw [hs] at h hleft
        exact (suffix_of_readShapes h).trans hleft
      | error failure =>
        rw [hs] at h hleft
        cases h
        exact hleft
    have hle := hbehind.length_le
    rw [hrest, List.length_cons] at hle
    omega
  | leaves finding vs hleaves =>
    rw [hleaves () after] at h
    rw [hleaves () after']
    cases finding with
    | error fault =>
      cases h
      have hvs : vs = [] := List.append_left_eq_self.1 hrest
      rw [hvs]
      rfl
    | ok s =>
      have hshorter := length_lt_of_shape (hleaves () after)
      rw [List.length_append, List.length_append] at hshorter
      exact ih vs.length (by omega) (by omega) (by omega) h rfl

theorem toError_of_stop {f : Failure} {t : Token} {after : List Token} (hrest : f.rest = t :: after)
    (tokens : List Token) : f.toError tokens = ⟨.shape f.fault, f.line.getD t.line⟩ := by
  rw [Failure.toError, hrest]
  cases f.line <;> rfl

/-- A list that agrees with another up to an element of it. -/
theorem eq_append_of_agree {β : Type} {us after bs : List β} {t : β}
    (h : ∀ i ≤ us.length, bs[i]? = (us ++ t :: after)[i]?) : ∃ after', bs = us ++ t :: after' := by
  have hbs : us ++ [t] <+: bs := by
    rw [List.prefix_iff_getElem?]
    intro i hi
    rw [List.length_append, List.length_singleton] at hi
    rw [h i (Nat.le_of_lt_succ hi), List.append_cons us t after,
      List.getElem?_append_left (by simpa using hi)]
    exact List.getElem?_eq_getElem _
  obtain ⟨after', rfl⟩ := hbs
  exact ⟨after', by rw [List.append_assoc, List.singleton_append]⟩

/-- Reading tokens that fails has one error, and its catalog is that of the descriptions before the
block that it fails in. If it stops at a token, tokens that agree up to this one give the same catalog
and the same error. -/
theorem ofTokens_aborts {tokens : List Token} {c : Catalog α} {f : Failure}
    (h : ofTokens tokens = (c, some f)) :
    compiled tokens = (c, [f.toError tokens]) ∧
      (∃ done block ds, tokens = done ++ block ∧ FailsIn done block ds c f) ∧
      (f.position tokens < tokens.length → ∀ tokens' : List Token,
        (∀ i ≤ f.position tokens, tokens'[i]? = tokens[i]?) →
        compiled tokens' = (c, [f.toError tokens])) := by
  have hcompiled : compiled tokens = (c, [f.toError tokens]) := by
    rw [compiled, h]
    rfl
  obtain ⟨done, block, ds, heq, hds, halong, hc, hblock⟩ := readShapes_eq_some h
  have hfailsIn : FailsIn done block ds c f := by
    refine ⟨hds, Description.admissible_iff.2 halong, hc, hblock,
      (Reader.peeks_shape c).suffix_of_error hblock, fun xs ys d hts hd hfits => ?_⟩
    obtain ⟨rest, hs, -⟩ := (Reader.reads_shape c).complete ⟨d, hd, hfits, rfl⟩ hts
    rw [hblock] at hs
    cases hs
  refine ⟨hcompiled, ⟨done, block, ds, heq, hfailsIn⟩, fun hstop tokens' hagree => ?_⟩
  obtain ⟨us, rfl⟩ := suffix_of_readShapes h
  have hposition : f.position (us ++ f.rest) = us.length := by
    rw [Failure.position, List.length_append, Nat.add_sub_cancel]
  rw [hposition] at hstop hagree
  obtain ⟨t, after, hrest⟩ : ∃ t after, f.rest = t :: after := by
    refine List.exists_cons_of_length_pos ?_
    rw [List.length_append] at hstop
    omega
  rw [hrest] at hagree h
  obtain ⟨after', rfl⟩ := eq_append_of_agree hagree
  have h' : ofTokens (us ++ t :: after') = (c, some { f with rest := t :: after' }) :=
    readShapes_alike (by simp) (by simp) h hrest after'
  rw [compiled, h', toError_of_stop hrest]
  exact congrArg (fun e => (c, [e])) (toError_of_stop rfl _)

/-- The tokens of a shape, and a stray brace. -/
def strayTokens : List Token :=
  [⟨"OBJ", 1⟩, ⟨"a", 1⟩, ⟨"\x7b", 1⟩, ⟨"ID", 1⟩, ⟨"=", 1⟩, ⟨"1", 1⟩, ⟨";", 1⟩, ⟨"\x7d", 1⟩, ⟨"\x7d", 2⟩]

/-- What reading stops at there. -/
def strayFailure : Failure := ⟨.unexpected (.text "OBJ") (some "\x7d"), [⟨"\x7d", 2⟩], none⟩

/-- Reading stops at the brace, and another one behind it does not matter. -/
theorem ofTokens_aborts_stray : ofTokens strayTokens = (loneCatalog, some strayFailure) ∧
    strayFailure.position strayTokens = 8 ∧
    compiled (strayTokens ++ [⟨"\x7d", 3⟩]) =
      (loneCatalog, [strayFailure.toError strayTokens]) := by
  have hfails : ofTokens strayTokens = (loneCatalog, some strayFailure) := by decide +kernel
  have hposition : strayFailure.position strayTokens = 8 := by decide
  refine ⟨hfails, hposition, (ofTokens_aborts hfails).2.2 (by decide) _ fun i hi => ?_⟩
  rw [hposition] at hi
  exact List.getElem?_append_left (Nat.lt_succ_of_le hi)

end Catalog

end Masonry
