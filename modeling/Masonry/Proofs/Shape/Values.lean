import Masonry.Proofs.Shape.Reads

/-!
# Reading values

What the readers of integers, names and literals take is one token; the readers of numbers, of
texture coordinates and of faces are put together from them.
-/

namespace Masonry.Reader

variable {β : Type}

section Terminals

/-- A reader of a single token. -/
theorem reads_token {r : Reader β} {P : Phrase β} (hnil : ∀ out, r [] ≠ .ok out)
    (hcons : ∀ t ts b rest, r (t :: ts) = .ok (b, rest) ↔ P [t.text] b ∧ ts = rest)
    (hone : ∀ {xs b}, P xs b → ∃ x, xs = [x]) : Reads r P [] where
  sound {ts b rest} h := by
    cases ts with
    | nil => exact absurd h (hnil _)
    | cons t ts =>
      obtain ⟨hP, rfl⟩ := (hcons t ts b rest).1 h
      exact ⟨[t.text], rfl, hP⟩
  complete {ts xs ys b} h hts _ := by
    obtain ⟨x, rfl⟩ := hone h
    obtain ⟨t, rest, rfl, rfl, hrest⟩ := texts_eq_cons_iff.1 hts
    exact ⟨rest, (hcons t rest b rest).2 ⟨h, rfl⟩, hrest⟩

theorem digits?_eq_some_iff {text : String} {n : Nat} : digits? text = some n ↔
    text.toList ≠ [] ∧ (∀ c ∈ text.toList, c.isDigit = true) ∧ Text.digitsValue text.toList = n := by
  simp [digits?, and_assoc]

theorem reads_integer : Reads integer Phrase.Integer [] := by
  refine reads_token (fun _ h => by cases h) (fun t ts n rest => ?_) fun h => ?_
  · simp only [integer]
    constructor
    · intro h
      split at h
      · cases h
      · next m hm =>
        obtain ⟨hne, hdigits, rfl⟩ := digits?_eq_some_iff.1 hm
        split at h <;> cases h
        exact ⟨.mk hne hdigits ‹_›, rfl⟩
    · rintro ⟨⟨hne, hdigits, hfits⟩, rfl⟩
      rw [digits?_eq_some_iff.2 ⟨hne, hdigits, rfl⟩]
      exact if_pos hfits
  · obtain ⟨hne, hdigits, hfits⟩ := h
    exact ⟨_, rfl⟩

theorem isName_iff {text : String} : isName text = true ↔ Phrase.Name [text] text := by
  unfold isName
  constructor
  · intro h
    split at h
    · cases h
    · next c cs hspelling =>
      rw [Bool.and_eq_true, List.all_eq_true] at h
      exact .mk hspelling h.1 h.2
  · rintro ⟨hspelling, hletter, halphanumeric⟩
    rw [hspelling]
    exact Bool.and_eq_true_iff.2 ⟨hletter, List.all_eq_true.2 halphanumeric⟩

theorem reads_name : Reads name Phrase.Name [] := by
  refine reads_token (fun _ h => by cases h) (fun t ts text rest => ?_) fun h => ?_
  · simp only [name]
    constructor
    · intro h
      split at h <;> cases h
      next hname => exact ⟨isName_iff.1 hname, rfl⟩
    · rintro ⟨hname, rfl⟩
      cases hname with
      | mk hspelling hletter halphanumeric =>
        exact if_pos (isName_iff.2 (.mk hspelling hletter halphanumeric))
  · obtain ⟨hspelling, hletter, halphanumeric⟩ := h
    exact ⟨_, rfl⟩

theorem unquoted?_eq_some_iff {text content : String} : unquoted? text = some content ↔
    ∃ cs, text.toList = '"' :: cs ++ ['"'] ∧ content = String.ofList cs := by
  unfold unquoted?
  split
  · next cs hcs =>
    rw [hcs]
    rcases cs.eq_nil_or_concat with rfl | ⟨cs, c, rfl⟩
    · simp
    · rw [List.concat_eq_append, List.getLast?_concat, List.dropLast_concat]
      constructor
      · intro h
        split at h <;> cases h
        next hc =>
        cases hc
        exact ⟨cs, rfl, rfl⟩
      · rintro ⟨cs', happend, rfl⟩
        obtain ⟨rfl, hc⟩ := List.append_inj' (List.cons.inj happend).2 rfl
        cases hc
        exact if_pos rfl
  · next hcs =>
    constructor
    · rintro ⟨⟩
    · rintro ⟨cs, hspelling, -⟩
      exact absurd hspelling (hcs _)

theorem reads_literal : Reads literal Phrase.Literal [] := by
  refine reads_token (fun _ h => by cases h) (fun t ts text rest => ?_) fun h => ?_
  · simp only [literal]
    constructor
    · intro h
      split at h
      · next content hcontent =>
        cases h
        obtain ⟨cs, hspelling, rfl⟩ := unquoted?_eq_some_iff.1 hcontent
        exact ⟨.mk hspelling, rfl⟩
      · cases h
    · rintro ⟨⟨hspelling⟩, rfl⟩
      rw [unquoted?_eq_some_iff.2 ⟨_, hspelling, rfl⟩]
  · obtain ⟨hspelling⟩ := h
    exact ⟨_, rfl⟩

end Terminals

section Values

variable {α : Type} [Scalar α]

/-- No integer is spelled like a word that has a character other than a digit. -/
theorem ne_of_integer {xs : List String} {n : Nat} (h : Phrase.Integer xs n) (word : String)
    (hword : word.toList.all Char.isDigit = false := by decide) : ∃ x, xs = [x] ∧ x ≠ word := by
  obtain ⟨hne, hdigits, hfits⟩ := h
  refine ⟨_, rfl, ?_⟩
  rintro rfl
  rw [List.all_eq_true.2 hdigits] at hword
  cases hword

theorem reads_decimal : Reads (decimal : Reader α) Phrase.Decimal ["."] := by
  refine ((reads_accept "-").bind (fun negative => reads_integer.bind (fun whole =>
    (reads_integer.weaken (by simp) |>.map fun digits =>
        Scalar.decimal negative whole (some digits)).choice
      ((reads_pure (Scalar.decimal negative whole none)).weaken (by simp))
      fun h => .inl ⟨h.1, by simp⟩) fun _ => .inl rfl) fun h => ?_).congr fun zs v => ?_
  · obtain ⟨n, xs, ys, rfl, hn, -⟩ := h
    obtain ⟨x, rfl, hx⟩ := ne_of_integer hn "-"
    exact .inr ⟨x, ys, rfl, by simpa using hx⟩
  · constructor
    · rintro ⟨negative, xs, _, rfl, hsign, whole, ys, zs, rfl, hwhole, hfraction⟩
      obtain ⟨⟨digits, hdigits, rfl⟩⟩ | ⟨rfl, rfl⟩ := hfraction
      · exact .mk hsign hwhole (.present (.mk hdigits))
      · exact .mk hsign hwhole .absent
    · rintro ⟨hsign, hwhole, hfraction⟩
      refine ⟨_, _, _, rfl, hsign, _, _, _, rfl, hwhole, ?_⟩
      obtain _ | ⟨⟨hdigits⟩⟩ := hfraction
      · exact .inr ⟨rfl, rfl⟩
      · exact .inl (.mk ⟨_, hdigits, rfl⟩)

theorem reads_triple : Reads (triple : Reader (Vec3 α)) Phrase.Triple ["."] := by
  refine (reads_decimal.sep (by simp) fun x => reads_decimal.sep (by simp) fun y =>
    reads_decimal.map fun z => Vec3.mk x y z).congr fun xs v => ?_
  constructor
  · rintro ⟨x, xs, _, rfl, hx, y, ys, zs, rfl, hy, z, hz, rfl⟩
    exact .mk hx hy hz
  · rintro ⟨hx, hy, hz⟩
    exact ⟨_, _, _, rfl, hx, _, _, _, rfl, hy, _, hz, rfl⟩

theorem reads_pixel : Reads pixel Phrase.PixelPair [] := by
  refine (reads_integer.sep (by simp) fun x => reads_integer.map fun y => Pixel.mk x y).congr
    fun xs p => ?_
  constructor
  · rintro ⟨x, xs, ys, rfl, hx, y, hy, rfl⟩
    exact .mk hx hy
  · rintro ⟨hx, hy⟩
    exact ⟨_, _, _, rfl, hx, _, hy, rfl⟩

theorem reads_assigned {r : Reader β} {P : Phrase β} {more : List String} (h : Reads r P more)
    (hmore : ";" ∉ more) : Reads (assigned r) (Phrase.Assigned P) [] := by
  refine (h.sep hmore fun v => reads_pure v).after.congr fun xs v => ?_
  constructor
  · rintro ⟨⟨v, xs, _, rfl, hv, rfl, rfl⟩⟩
    exact .mk hv
  · rintro ⟨hv⟩
    exact ⟨⟨_, _, _, rfl, hv, rfl, rfl⟩⟩

end Values

section Lists

variable {item : Reader β} {P : Phrase β}

theorem along_true {σ : Type} {next : σ → β → σ} (s : σ) (bs : List β) :
    Along (fun _ _ => True) next s bs := by
  induction bs generalizing s with
  | nil => exact trivial
  | cons b bs ih => exact ⟨trivial, ih _⟩

theorem foldl_snoc (bs items : List β) :
    bs.foldl (fun items b => items ++ [b]) items = items ++ bs := by
  induction bs generalizing items with
  | nil => exact (List.append_nil items).symm
  | cons b bs ih => rw [List.foldl_cons, ih, List.append_assoc, List.singleton_append]

/-- A comma begins a round and is part of the item that follows it. -/
theorem rounds_moreItems (h : Reads item P []) :
    Rounds (do return !(← accept ",")) (fun items => do return items ++ [← item])
      (Phrase.After "," P) (fun _ _ => True) (fun items b => items ++ [b]) [] [","] where
  sound hstop hstep := by
    obtain ⟨comma, _, hcomma, hstop⟩ := bind_eq_ok_iff.1 hstop
    obtain ⟨hcontinue, rfl⟩ := pure_eq_ok_iff.1 hstop
    obtain ⟨b, _, hb, hstep⟩ := bind_eq_ok_iff.1 hstep
    obtain ⟨rfl, rfl⟩ := pure_eq_ok_iff.1 hstep
    obtain ⟨xs, hts, hflag⟩ := accept_sound hcomma
    obtain ⟨ys, hmid, hP⟩ := h.sound hb
    cases hflag with
    | up => exact ⟨"," :: ys, b, by rw [hts, hmid]; rfl, .mk hP, trivial, rfl⟩
    | down => cases hcontinue
  complete hb _ hts := by
    obtain ⟨hP⟩ := hb
    obtain ⟨mid, hcomma, hmid⟩ := accept_of_cons hts
    obtain ⟨rest, hb, hrest⟩ := h.complete hP hmid
    exact ⟨mid, rest, bind_of_ok hcomma, bind_of_ok hb, hrest⟩
  closed hstop := by
    obtain ⟨comma, _, hcomma, hstop⟩ := bind_eq_ok_iff.1 hstop
    obtain ⟨hcontinue, rfl⟩ := pure_eq_ok_iff.1 hstop
    obtain ⟨xs, hts, hflag⟩ := accept_sound hcomma
    cases hflag with
    | up => cases hcontinue
    | down => exact hts
  closes {ts ys} hts hnext := by
    obtain rfl : texts ts = ys := hts
    have hhead : ∀ y ∈ (texts ts).head?, y ≠ "," := by simpa using hnext
    exact ⟨ts, bind_of_ok (accept_of_head_ne hhead), rfl⟩
  nonempty hb := by
    obtain ⟨_⟩ := hb
    exact List.cons_ne_nil _ _

/-- Items after commas are added to the items before. -/
theorem reads_moreItems (h : Reads item P []) (items : List β) :
    Reads (moreItems item items)
      (fun xs out => ∃ bs, Phrase.Many (Phrase.After "," P) xs bs ∧ items ++ bs = out) [","] := by
  refine ((rounds_moreItems h).reads items).congr fun xs out => ?_
  constructor
  · rintro ⟨_, bs, rfl, hbs, -, rfl⟩
    rw [List.append_nil]
    exact ⟨bs, hbs, (foldl_snoc bs items).symm⟩
  · rintro ⟨bs, hbs, rfl⟩
    exact ⟨xs, bs, (List.append_nil xs).symm, hbs, along_true items bs, foldl_snoc bs items⟩

/-- Three or more items, the first of which has been read. -/
def others (item : Reader β) (wanted : Wanted) (first : β) : Reader (List β) := do
  let items ← moreItems item [first]
  if items.length < 3 then unexpected wanted else return items

theorem reads_others (h : Reads item P []) (wanted : Wanted) (first : β) :
    Reads (others item wanted first) (fun xs items => ∃ more,
      Phrase.Many (Phrase.After "," P) xs more ∧ first :: more = items ∧ 3 ≤ items.length) [","] where
  sound hr := by
    obtain ⟨items, mid, hitems, hr⟩ := bind_eq_ok_iff.1 hr
    obtain ⟨xs, hts, more, hmore, rfl⟩ := (reads_moreItems h [first]).sound hitems
    split at hr
    · cases hr
    · next hlength =>
      obtain ⟨rfl, rfl⟩ := pure_eq_ok_iff.1 hr
      exact ⟨xs, hts, more, hmore, rfl, Nat.le_of_not_lt hlength⟩
  complete hc hts hnext := by
    obtain ⟨more, hmore, rfl, hlength⟩ := hc
    obtain ⟨rest, hitems, hrest⟩ := (reads_moreItems h [first]).complete ⟨more, hmore, rfl⟩ hts hnext
    refine ⟨rest, (bind_of_ok hitems).trans ?_, hrest⟩
    exact congrFun (if_neg (Nat.not_lt_of_le hlength)) rest

theorem series_iff {zs : List String} {items : List β} : Phrase.Series P zs items ↔
    ∃ first xs ys, zs = xs ++ ys ∧ P xs first ∧ ∃ more,
      Phrase.Many (Phrase.After "," P) ys more ∧ first :: more = items ∧ 3 ≤ items.length := by
  constructor
  · rintro ⟨ha, hb, hc, hmore⟩
    exact ⟨_, _, _, rfl, ha, _, .cons (.mk hb) (.cons (.mk hc) hmore), rfl, by simp⟩
  · rintro ⟨a, xs, _, rfl, ha, _, hmore, rfl, hlength⟩
    obtain _ | ⟨⟨hb⟩, _ | ⟨⟨hc⟩, hmore⟩⟩ := hmore
    · simp at hlength
    · simp at hlength
    · exact .mk ha hb hc hmore

theorem reads_series (h : Reads item P []) (wanted : Wanted) :
    Reads (item >>= others item wanted) (Phrase.Series P) [","] :=
  (h.bind (reads_others h wanted) fun _ => .inl rfl).congr fun _ _ => series_iff.symm

theorem face_eq : face = do
    let vertices ← integer >>= others integer .moreVertices
    expect ";"
    return ⟨vertices, ← integer⟩ := by
  simp only [face, others, bind_assoc]
  refine bind_congr fun first => bind_congr fun vertices => ?_
  split
  · rfl
  · simp only [pure_bind]

theorem reads_face : Reads face Phrase.Polygon [] := by
  rw [face_eq]
  refine ((reads_series reads_integer .moreVertices).sep (by simp) fun vertices =>
    reads_integer.map fun texCoords => Face.mk vertices texCoords).congr fun xs f => ?_
  constructor
  · rintro ⟨vertices, xs, ys, rfl, hvertices, texCoords, htexCoords, rfl⟩
    exact .mk hvertices htexCoords
  · rintro ⟨hvertices, htexCoords⟩
    exact ⟨_, _, _, rfl, hvertices, _, htexCoords, rfl⟩

theorem texCoords_eq : texCoords = do
    let first ← pixel
    if ← accept ":" then return .corners first (← pixel)
    else return .points (← others pixel .moreTexCoords first) := by
  simp only [texCoords, others, bind_assoc]
  refine bind_congr fun first => bind_congr fun colon => ?_
  cases colon with
  | true => rfl
  | false =>
    simp only [Bool.false_eq_true, if_false]
    refine bind_congr fun points => ?_
    split <;> rfl

theorem reads_texCoords : Reads texCoords Phrase.TexturePoints [","] := by
  rw [texCoords_eq]
  refine (reads_pixel.bind (fun first =>
    ((reads_pixel.map fun second => TexCoords.corners first second).weaken (by simp)).choice
      ((reads_others reads_pixel .moreTexCoords first).map TexCoords.points) fun h => ?_)
      fun _ => .inl rfl).congr fun zs v => ?_
  · obtain ⟨_, ⟨more, hmore, rfl, hlength⟩, rfl⟩ := h
    cases hmore with
    | nil => simp at hlength
    | cons hitem _ =>
      obtain ⟨_⟩ := hitem
      exact .inr ⟨",", _, rfl, by decide⟩
  · constructor
    · rintro ⟨first, xs, _, rfl, hfirst, ⟨second, hsecond, rfl⟩ | ⟨list, hlist, rfl⟩⟩
      · exact .corners hfirst hsecond
      · exact .points (series_iff.2 ⟨_, _, _, rfl, hfirst, hlist⟩)
    · rintro (⟨hfirst, hsecond⟩ | hlist)
      · exact ⟨_, _, _, rfl, hfirst, .inl (.mk ⟨_, hsecond, rfl⟩)⟩
      · obtain ⟨first, xs, ys, rfl, hfirst, hlist⟩ := series_iff.1 hlist
        exact ⟨_, _, _, rfl, hfirst, .inr ⟨_, hlist, rfl⟩⟩

end Lists

end Masonry.Reader
